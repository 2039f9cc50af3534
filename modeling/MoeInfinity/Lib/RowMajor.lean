import Mathlib.Data.List.GetD
import Mathlib.Data.List.Nodup
import Mathlib.Data.List.Perm.Subperm

/-! # Row-major matrices

A matrix is the list of its entries, row after row. A reshape keeps the list; `indexColumns` takes
columns by a list of their numbers, as an index expression of an array library does. `blockPermute`
reshapes to rows of the length of a list of column numbers and takes these columns.

* `perm_blockPermute`: where the column numbers are a permutation, so are the entries.
* `blockPermute_injective`: then the result determines the matrix. -/

namespace MoeInfinity.Lib.RowMajor

variable {α : Type}

@[ext] structure Tensor (α : Type) where
  rows : ℕ
  cols : ℕ
  data : List α
  size : data.length = rows * cols

namespace Tensor

def ofFn (rows cols : ℕ) (f : ℕ → ℕ → α) : Tensor α :=
  ⟨rows, cols, (List.range (rows * cols)).map fun x => f (x / cols) (x % cols), by simp⟩

def map {β : Type} (f : α → β) (t : Tensor α) : Tensor β :=
  ⟨t.rows, t.cols, t.data.map f, by simp [t.size]⟩

variable (t : Tensor α)

def reshape (rows cols : ℕ) : Option (Tensor α) :=
  if h : t.data.length = rows * cols then some ⟨rows, cols, t.data, h⟩ else none

/-- `reshape(-1, cols)`. -/
def reshapeRows (cols : ℕ) : Option (Tensor α) :=
  if cols = 0 then none else t.reshape (t.data.length / cols) cols

variable [Inhabited α]

def get (i j : ℕ) : α := t.data.getD (i * t.cols + j) default

/-- `t[:, perm]`. -/
def indexColumns (perm : List ℕ) : Tensor α :=
  ofFn t.rows perm.length fun i j => t.get i (perm.getD j 0)

/-- `t.reshape(-1, perm.numel())[:, perm]`. -/
def blockPermute (perm : List ℕ) : Option (Tensor α) :=
  (t.reshapeRows perm.length).map (·.indexColumns perm)

end Tensor

open Tensor

/-- Where the entry `x` of the result of `blockPermute` comes from. -/
def blockIndex (perm : List ℕ) (x : ℕ) : ℕ :=
  x / perm.length * perm.length + perm.getD (x % perm.length) 0

theorem index_lt {rows cols i j : ℕ} (hi : i < rows) (hj : j < cols) : i * cols + j < rows * cols :=
  calc i * cols + j < i * cols + cols := Nat.add_lt_add_left hj _
    _ = (i + 1) * cols := (Nat.succ_mul i cols).symm
    _ ≤ rows * cols := Nat.mul_le_mul_right cols hi

theorem index_div {cols i j : ℕ} (hj : j < cols) : (i * cols + j) / cols = i := by
  rw [Nat.mul_comm, Nat.mul_add_div (Nat.zero_lt_of_lt hj), Nat.div_eq_of_lt hj, Nat.add_zero]

theorem index_mod {cols i j : ℕ} (hj : j < cols) : (i * cols + j) % cols = j := by
  rw [Nat.mul_comm, Nat.mul_add_mod, Nat.mod_eq_of_lt hj]

theorem reshape_eq_some {t u : Tensor α} {rows cols : ℕ} (h : t.reshape rows cols = some u) :
    u.rows = rows ∧ u.cols = cols ∧ u.data = t.data := by
  rw [Tensor.reshape] at h
  split_ifs at h
  cases h
  exact ⟨rfl, rfl, rfl⟩

theorem reshapeRows_eq_some {t u : Tensor α} {cols : ℕ} (h : t.reshapeRows cols = some u) :
    u.cols = cols ∧ u.data = t.data := by
  rw [Tensor.reshapeRows] at h
  split_ifs at h
  exact (reshape_eq_some h).2

theorem exists_reshapeRows {t : Tensor α} {cols : ℕ} (hne : cols ≠ 0)
    (hdvd : cols ∣ t.data.length) :
    ∃ u, t.reshapeRows cols = some u := by
  rw [Tensor.reshapeRows, if_neg hne, Tensor.reshape, dif_pos (Nat.div_mul_cancel hdvd).symm]
  exact ⟨_, rfl⟩

theorem mem_ofFn {rows cols : ℕ} {f : ℕ → ℕ → α} {y : α} (h : y ∈ (ofFn rows cols f).data) :
    ∃ i < rows, ∃ j < cols, y = f i j := by
  obtain ⟨x, hx, rfl⟩ := List.mem_map.mp h
  rw [List.mem_range] at hx
  have hpos : 0 < cols := Nat.pos_of_ne_zero fun hzero => by
    rw [hzero, Nat.mul_zero] at hx
    exact Nat.not_lt_zero x hx
  exact ⟨x / cols, Nat.div_lt_of_lt_mul (by rwa [Nat.mul_comm]), x % cols, Nat.mod_lt x hpos, rfl⟩

/-- The numbers below the length are permuted where a function gives back the places. -/
theorem perm_range {perm : List ℕ} (place : ℕ → ℕ)
    (hplace : perm.map place = List.range perm.length) (hlt : ∀ p ∈ perm, p < perm.length) :
    perm.Perm (List.range perm.length) := by
  have hnodup : perm.Nodup := List.Nodup.of_map place (hplace ▸ List.nodup_range)
  refine (hnodup.subperm fun p hp => List.mem_range.mpr (hlt p hp)).perm_of_length_le ?_
  exact Nat.le_of_eq List.length_range

section

variable [Inhabited α]

theorem getD_ofFn {rows cols : ℕ} (f : ℕ → ℕ → α) {x : ℕ} (hx : x < rows * cols) :
    (ofFn rows cols f).data.getD x default = f (x / cols) (x % cols) := by
  rw [ofFn]
  dsimp only
  rw [List.getD_eq_getElem _ _ (by simpa using hx), List.getElem_map, List.getElem_range]

theorem get_ofFn {rows cols : ℕ} (f : ℕ → ℕ → α) {i j : ℕ} (hi : i < rows) (hj : j < cols) :
    (ofFn rows cols f).get i j = f i j :=
  (getD_ofFn f (index_lt hi hj)).trans (by rw [index_div hj, index_mod hj])

theorem data_eq (t : Tensor α) :
    t.data = (List.range t.data.length).map fun x => t.data.getD x default := by
  refine List.ext_getElem (by simp) fun x hx hx' => ?_
  rw [List.getElem_map, List.getElem_range, List.getD_eq_getElem _ _ hx]

theorem get_mem {t : Tensor α} {i j : ℕ} (hi : i < t.rows) (hj : j < t.cols) :
    t.get i j ∈ t.data := by
  have hlt : i * t.cols + j < t.data.length := t.size ▸ index_lt hi hj
  rw [Tensor.get, List.getD_eq_getElem _ _ hlt]
  exact List.getElem_mem hlt

/-- Matrices of one shape with the same entries. -/
theorem ext_get {t u : Tensor α} (hrows : t.rows = u.rows) (hcols : t.cols = u.cols)
    (h : ∀ i < t.rows, ∀ j < t.cols, t.get i j = u.get i j) : t = u := by
  refine Tensor.ext hrows hcols ?_
  have hlen : t.data.length = u.data.length := by rw [t.size, u.size, hrows, hcols]
  refine List.ext_getElem hlen fun x hx hx' => ?_
  have hpos : 0 < t.cols := Nat.pos_of_ne_zero fun hzero => by
    rw [t.size, hzero, Nat.mul_zero] at hx
    exact Nat.not_lt_zero x hx
  have hget := h (x / t.cols) (Nat.div_lt_of_lt_mul (by rwa [Nat.mul_comm, ← t.size])) (x % t.cols)
    (Nat.mod_lt x hpos)
  rw [Tensor.get, Tensor.get, ← hcols, Nat.mul_comm, Nat.div_add_mod, List.getD_eq_getElem _ _ hx,
    List.getD_eq_getElem _ _ hx'] at hget
  exact hget

theorem blockPermute_eq_some {t u : Tensor α} {perm : List ℕ} (h : t.blockPermute perm = some u) :
    perm.length ∣ t.data.length ∧
      u.data = (List.range t.data.length).map fun x => t.data.getD (blockIndex perm x) default := by
  obtain ⟨v, hv, rfl⟩ := Option.map_eq_some_iff.mp h
  obtain ⟨hcols, hdata⟩ := reshapeRows_eq_some hv
  have hlen : t.data.length = v.rows * perm.length := by rw [← hdata, v.size, hcols]
  refine ⟨⟨v.rows, by rw [hlen, Nat.mul_comm]⟩, ?_⟩
  rw [indexColumns, ofFn]
  dsimp only
  rw [hlen]
  refine List.map_congr_left fun x _ => ?_
  rw [Tensor.get, hdata, hcols, blockIndex]

theorem exists_blockPermute {t : Tensor α} {perm : List ℕ} (hne : perm.length ≠ 0)
    (hdvd : perm.length ∣ t.data.length) :
    ∃ u, t.blockPermute perm = some u ∧ u.data.length = t.data.length := by
  have hv := exists_reshapeRows hne hdvd
  obtain ⟨v, hv⟩ := hv
  have hu : t.blockPermute perm = some (v.indexColumns perm) := by
    rw [Tensor.blockPermute, hv, Option.map_some]
  refine ⟨_, hu, ?_⟩
  rw [(blockPermute_eq_some hu).2, List.length_map, List.length_range]

/-- The entries of every block are permuted. -/
theorem blockIndex_perm {perm : List ℕ} (hperm : perm.Perm (List.range perm.length)) {n : ℕ}
    (hdvd : perm.length ∣ n) :
    ((List.range n).map (blockIndex perm)).Perm (List.range n) := by
  have hlt : ∀ x < n, perm.getD (x % perm.length) 0 < perm.length ∧
      x % perm.length < perm.length := by
    intro x hx
    have hpos : 0 < perm.length := Nat.pos_of_dvd_of_pos hdvd (Nat.zero_lt_of_lt hx)
    have hmod := Nat.mod_lt x hpos
    rw [List.getD_eq_getElem _ _ hmod]
    exact ⟨List.mem_range.mp (hperm.subset (List.getElem_mem hmod)), hmod⟩
  have hinj : ∀ x ∈ List.range n, ∀ y ∈ List.range n, blockIndex perm x = blockIndex perm y →
      x = y := by
    intro x hx y hy heq
    obtain ⟨hx, hxmod⟩ := hlt x (List.mem_range.mp hx)
    obtain ⟨hy, hymod⟩ := hlt y (List.mem_range.mp hy)
    have hdiv := congrArg (· / perm.length) heq
    have hmod := congrArg (· % perm.length) heq
    simp only [blockIndex, index_div hx, index_div hy] at hdiv
    simp only [blockIndex, index_mod hx, index_mod hy] at hmod
    rw [List.getD_eq_getElem _ _ hxmod, List.getD_eq_getElem _ _ hymod,
      (hperm.nodup_iff.mpr List.nodup_range).getElem_inj_iff] at hmod
    rw [← Nat.div_add_mod x perm.length, ← Nat.div_add_mod y perm.length, hdiv, hmod]
  have hsub : ((List.range n).map (blockIndex perm)) ⊆ List.range n := by
    intro y hy
    obtain ⟨x, hx, rfl⟩ := List.mem_map.mp hy
    obtain ⟨m, rfl⟩ := hdvd
    rw [List.mem_range] at hx ⊢
    rw [Nat.mul_comm] at hx ⊢
    exact index_lt (Nat.div_lt_of_lt_mul (by rwa [Nat.mul_comm])) (hlt x (by rwa [Nat.mul_comm])).1
  have hnodup : ((List.range n).map (blockIndex perm)).Nodup :=
    (List.nodup_map_iff_inj_on List.nodup_range).mpr hinj
  exact (hnodup.subperm hsub).perm_of_length_le (by simp)

theorem perm_blockPermute {t u : Tensor α} {perm : List ℕ}
    (hperm : perm.Perm (List.range perm.length)) (h : t.blockPermute perm = some u) :
    u.data.Perm t.data := by
  obtain ⟨hdvd, hdata⟩ := blockPermute_eq_some h
  have hindex := (blockIndex_perm hperm hdvd).map fun x => t.data.getD x default
  rw [List.map_map, ← data_eq] at hindex
  rw [hdata]
  exact hindex

theorem blockPermute_injective {t t' u u' : Tensor α} {perm : List ℕ}
    (hperm : perm.Perm (List.range perm.length)) (h : t.blockPermute perm = some u)
    (h' : t'.blockPermute perm = some u') (heq : u.data = u'.data) :
    t.data = t'.data := by
  obtain ⟨hdvd, hdata⟩ := blockPermute_eq_some h
  obtain ⟨-, hdata'⟩ := blockPermute_eq_some h'
  have hlen : t.data.length = t'.data.length := by
    have hlen := congrArg List.length heq
    rwa [hdata, hdata', List.length_map, List.length_map, List.length_range, List.length_range]
      at hlen
  rw [hdata, hdata', ← hlen] at heq
  refine List.ext_getElem hlen fun y hy hy' => ?_
  obtain ⟨x, hx, rfl⟩ :=
    List.mem_map.mp ((blockIndex_perm hperm hdvd).symm.subset (List.mem_range.mpr hy))
  have hget := List.map_inj_left.mp heq x hx
  rwa [List.getD_eq_getElem _ _ hy, List.getD_eq_getElem _ _ hy'] at hget

end

end MoeInfinity.Lib.RowMajor
