import Mathlib.Algebra.BigOperators.Group.List.Basic
import Mathlib.Data.List.ProdSigma
import Mathlib.Logic.Function.Basic
import Mathlib.Tactic.Basic

/-! # Launches over a grid

A launch runs a program for each point of a grid. A program only reads its inputs, and stores cells
of the output; the cells of all programs are stored in any order. A dimension of length `n` is cut
into `cdiv n B` tiles of `B` lanes, and the lanes of the last tile that are not below `n` are
masked.

* `stored_of_agree`: where all programs agree on a cell that one of them stores, the order does not
  matter.
* `flatMap_lanes`, `sum_lanes`: the lanes of the tiles, one after the other; a sum over them without
  the masked ones.
* `lt_cdiv`: every index has its tile. -/

namespace MoeInfinity.Lib.Grid

/-! ### Stores -/

section Stores

variable {α ι : Type*}

/-- The memory after cells have been stored one after the other. -/
def stored (mem : ℕ → α) (cells : List (ℕ × α)) : ℕ → α :=
  cells.foldl (fun m c => Function.update m c.1 c.2) mem

/-- The cells of a launch, in some order. -/
def IsLaunch (grid : List ι) (program : ι → List (ℕ × α)) (cells : List (ℕ × α)) : Prop :=
  cells.Perm (grid.flatMap program)

variable {mem : ℕ → α} {cells : List (ℕ × α)} {a : ℕ} {x : α}

theorem stored_of_not_mem (h : ∀ c ∈ cells, c.1 ≠ a) : stored mem cells a = mem a := by
  induction cells generalizing mem with
  | nil => rfl
  | cons c cells ih =>
    show stored (Function.update mem c.1 c.2) cells a = mem a
    rw [ih fun c' hc' => h c' (List.mem_cons_of_mem c hc'),
      Function.update_of_ne (h c List.mem_cons_self).symm]

/-- **Cells that agree**: if all that is stored at `a` is `x`, and something is, then `x` is
there. -/
theorem stored_of_agree (hagree : ∀ c ∈ cells, c.1 = a → c.2 = x) (hex : ∃ c ∈ cells, c.1 = a) :
    stored mem cells a = x := by
  induction cells generalizing mem with
  | nil =>
    obtain ⟨c, hc, -⟩ := hex
    cases hc
  | cons c cells ih =>
    show stored (Function.update mem c.1 c.2) cells a = x
    by_cases hlater : ∃ c' ∈ cells, c'.1 = a
    · exact ih (fun c' hc' => hagree c' (List.mem_cons_of_mem c hc')) hlater
    · obtain ⟨c', hc', ha⟩ := hex
      rcases List.mem_cons.mp hc' with rfl | hc'
      · rw [stored_of_not_mem fun c'' hc'' ha' => hlater ⟨c'', hc'', ha'⟩, ha, Function.update_self]
        exact hagree c' List.mem_cons_self ha
      · exact absurd ⟨c', hc', ha⟩ hlater

variable {grid : List ι} {program : ι → List (ℕ × α)}

theorem IsLaunch.mem_iff (h : IsLaunch grid program cells) {c : ℕ × α} :
    c ∈ cells ↔ ∃ i ∈ grid, c ∈ program i := by
  rw [List.Perm.mem_iff h, List.mem_flatMap]

/-- **A launch** leaves `x` at `a`, whatever the order of its stores. -/
theorem IsLaunch.stored_eq (h : IsLaunch grid program cells)
    (hagree : ∀ i ∈ grid, ∀ c ∈ program i, c.1 = a → c.2 = x)
    (hex : ∃ i ∈ grid, ∃ c ∈ program i, c.1 = a) :
    stored mem cells a = x := by
  refine stored_of_agree (fun c hc => ?_) ?_
  · obtain ⟨i, hi, hc⟩ := h.mem_iff.mp hc
    exact hagree i hi c hc
  · obtain ⟨i, hi, c, hc, ha⟩ := hex
    exact ⟨c, h.mem_iff.mpr ⟨i, hi, hc⟩, ha⟩

end Stores

/-! ### Tiles -/

section Tiles

/-- `triton.cdiv`. -/
def cdiv (n B : ℕ) : ℕ := (n + B - 1) / B

/-- The lanes of a tile. -/
def lanes (B tile : ℕ) : List ℕ := (List.range B).map (tile * B + ·)

/-- The points of a two-dimensional grid. -/
def grid2 (rows cols : ℕ) : List (ℕ × ℕ) := (List.range rows).product (List.range cols)

variable {n B i : ℕ}

theorem mem_grid2 {rows cols : ℕ} {p : ℕ × ℕ} : p ∈ grid2 rows cols ↔ p.1 < rows ∧ p.2 < cols := by
  unfold grid2
  rw [List.pair_mem_product, List.mem_range, List.mem_range]

theorem le_cdiv_mul (hB : 0 < B) : n ≤ cdiv n B * B := by
  unfold cdiv
  have hdiv := Nat.div_add_mod (n + B - 1) B
  have hmod := Nat.mod_lt (n + B - 1) hB
  rw [Nat.mul_comm] at hdiv
  omega

/-- **Every index has its tile.** -/
theorem lt_cdiv (hB : 0 < B) (hi : i < n) : i / B < cdiv n B :=
  Nat.div_lt_of_lt_mul (Nat.mul_comm B _ ▸ Nat.lt_of_lt_of_le hi (le_cdiv_mul hB))

/-- No tile is masked as a whole. -/
theorem mul_lt_of_lt_cdiv {tile : ℕ} (h : tile < cdiv n B) : tile * B < n := by
  rcases Nat.eq_zero_or_pos B with rfl | hB
  · rw [cdiv, Nat.div_zero] at h
    exact absurd h (Nat.not_lt_zero tile)
  · have hle := (Nat.le_div_iff_mul_le hB).mp h
    rw [Nat.succ_mul] at hle
    omega

theorem flatMap_lanes (B : ℕ) :
    ∀ tiles, (List.range tiles).flatMap (lanes B) = List.range (tiles * B)
  | 0 => by rw [Nat.zero_mul]; rfl
  | tiles + 1 => by
    rw [List.range_succ, List.flatMap_append, flatMap_lanes B tiles, Nat.succ_mul, List.range_add,
      List.flatMap_singleton]
    rfl

variable {M : Type*} [AddCommMonoid M]

/-- What is masked adds nothing. -/
theorem sum_masked {m : ℕ} (h : n ≤ m) (f : ℕ → M) :
    ((List.range m).map fun i => if i < n then f i else 0).sum = ((List.range n).map f).sum := by
  obtain ⟨k, rfl⟩ := Nat.exists_eq_add_of_le h
  rw [List.range_add, List.map_append, List.sum_append, List.map_map]
  have hhead : (List.range n).map (fun i => if i < n then f i else 0) = (List.range n).map f :=
    List.map_congr_left fun i hi => if_pos (List.mem_range.mp hi)
  have htail : ((List.range k).map ((fun i => if i < n then f i else 0) ∘ (n + ·))).sum = 0 := by
    refine List.sum_eq_zero fun x hx => ?_
    obtain ⟨i, -, rfl⟩ := List.mem_map.mp hx
    exact if_neg (Nat.not_lt.mpr (Nat.le_add_right n i))
  rw [hhead, htail, add_zero]

theorem sum_flatMap {ι : Type*} (l : List ι) (g : ι → List ℕ) (f : ℕ → M) :
    ((l.flatMap g).map f).sum = (l.map fun i => ((g i).map f).sum).sum := by
  rw [List.map_flatMap, List.flatMap, List.sum_flatten, List.map_map]
  rfl

/-- **A sum in tiles** is the sum over the indices. -/
theorem sum_lanes (hB : 0 < B) (f : ℕ → M) :
    ((List.range (cdiv n B)).map fun tile =>
      ((lanes B tile).map fun i => if i < n then f i else 0).sum).sum =
      ((List.range n).map f).sum := by
  rw [← sum_flatMap, flatMap_lanes, sum_masked (le_cdiv_mul hB)]

end Tiles

/-! ### Loops -/

/-- A map that may fail does not. -/
theorem mapM_eq_pure {ι β : Type*} {m : Type _ → Type*} [Monad m] [LawfulMonad m] {f : ι → m β}
    {g : ι → β} :
    ∀ {xs : List ι}, (∀ x ∈ xs, f x = pure (g x)) → xs.mapM f = pure (xs.map g)
  | [], _ => List.mapM_nil
  | x :: xs, h => by
    rw [List.mapM_cons, h x List.mem_cons_self,
      mapM_eq_pure fun y hy => h y (List.mem_cons_of_mem x hy), pure_bind, pure_bind, List.map_cons]

/-- A sum whose terms may fail. -/
theorem foldlM_add {M : Type*} [AddCommMonoid M] {f : M → ℕ → Option M} {g : ℕ → M} {n : ℕ}
    (h : ∀ i < n, ∀ acc, f acc i = some (acc + g i)) :
    (List.range n).foldlM f 0 = some ((List.range n).map g).sum := by
  induction n with
  | zero => rfl
  | succ n ih =>
    rw [List.range_succ, List.foldlM_append, ih fun i hi => h i (Nat.lt_succ_of_lt hi),
      List.map_append, List.sum_append, List.map_singleton, List.sum_singleton,
      ← h n (Nat.lt_succ_self n)]
    exact Option.bind_fun_some _

/-- **A loop that may fail** does not, and keeps what each round keeps. -/
theorem foldlM_range_inv {β : Type*} {P : ℕ → β → Prop} {f : β → ℕ → Option β} {b : β} {n : ℕ}
    (hzero : P 0 b) (hround : ∀ i < n, ∀ b, P i b → ∃ b', f b i = some b' ∧ P (i + 1) b') :
    ∃ b', (List.range n).foldlM f b = some b' ∧ P n b' := by
  induction n with
  | zero => exact ⟨b, rfl, hzero⟩
  | succ n ih =>
    obtain ⟨b', hrun, hb'⟩ := ih fun i hi => hround i (Nat.lt_succ_of_lt hi)
    obtain ⟨b'', hlast, hb''⟩ := hround n (Nat.lt_succ_self n) b' hb'
    refine ⟨b'', ?_, hb''⟩
    rw [List.range_succ, List.foldlM_append, hrun, Option.bind_eq_bind, Option.bind_some,
      List.foldlM_cons, hlast]
    rfl

end MoeInfinity.Lib.Grid
