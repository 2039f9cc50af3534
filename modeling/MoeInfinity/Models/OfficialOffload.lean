import Mathlib.Algebra.BigOperators.Fin
import Mathlib.Algebra.Module.Basic
import Mathlib.Data.List.ProdSigma
import Mathlib.Data.Rat.Defs
import MoeInfinity.Models.ExpertHostStore
import MoeInfinity.Python

/-! # The offloaded experts of DeepSeek-V4 (`models/deepseek_v4/official_offload_adapter.py`,
`inmem_shard_loader.py`)

`patch_moe_with_offload` replaces the forward of every MoE block by one that gets its experts from
the store. With several ranks each runs the experts of its own range, and the rows are summed. The
hidden states are rows, in exact arithmetic.

* `share`: what an expert adds to the row of a token.
* `routedRows_spec`: the rows of a rank are the shares of its experts, whatever the store keeps.
* `offloaded_moe`: the forward is the weighted sum over the chosen experts and the shared expert. -/

namespace MoeInfinity.Models.OfficialOffload

open MoeInfinity.Python MoeInfinity.Lib.Dict MoeInfinity.Lib.Imperative MoeInfinity.Lib.Runs
open MoeInfinity.Models.ExpertHostStore
open Finset (sum_congr)

/-! ### Tensors -/

section Tensors

variable {n k : ℕ} {M : Type}

/-- `torch.where(indices == e)`, row by row. -/
def whereEq (indices : Fin n → Fin k → ℕ) (e : ℕ) : List (Fin n × Fin k) :=
  ((List.finRange n).product (List.finRange k)).filter fun p => indices p.1 p.2 = e

def flatten (indices : Fin n → Fin k → ℕ) : List ℕ :=
  (List.finRange n).flatMap fun i => (List.finRange k).map (indices i)

/-- `torch.bincount(flat, minlength=...).tolist()` -/
def bincount (flat : List ℕ) (minlength : ℕ) : List ℕ :=
  (List.range (flat.foldl (fun m e => max m (e + 1)) minlength)).map fun e => flat.count e

/-- `[e for e in ... if counts[e] > 0]` -/
def activeExperts (counts : List ℕ) : List ℕ → Except LoadError (List ℕ)
  | [] => .ok []
  | e :: es =>
    match counts[e]? with
    | none => .error .indexError
    | some count => do
      let active ← activeExperts counts es
      return if 0 < count then e :: active else active

/-- `y[idx] += values`, one entry for each index: the rows are read, and then they are written. -/
def addRows [Add M] (y : Fin n → M) (entries : List (Fin n × M)) : Fin n → M :=
  entries.foldl (fun rows entry => Function.update rows entry.1 (y entry.1 + entry.2)) y

end Tensors

/-! ### The model -/

/-- The gate chooses `topk` distinct experts for each token. -/
structure Gate (R M : Type) (nRoutedExperts : ℕ) where
  topk : ℕ
  weights : {n : ℕ} → (Fin n → M) → (Fin n → ℕ) → Fin n → Fin topk → R
  indices : {n : ℕ} → (Fin n → M) → (Fin n → ℕ) → Fin n → Fin topk → ℕ
  indices_lt : ∀ {n : ℕ} (x : Fin n → M) (inputIds : Fin n → ℕ) i j,
    indices x inputIds i j < nRoutedExperts
  injective_indices : ∀ {n : ℕ} (x : Fin n → M) (inputIds : Fin n → ℕ) i,
    Function.Injective (indices x inputIds i)

/-- What a MoE module is on every rank. -/
structure Experts (R M : Type) where
  nRoutedExperts : ℕ
  gate : Gate R M nRoutedExperts
  sharedExperts : M → M
  /-- An attribute of the shared experts that they may lack. -/
  swigluLimit : Option ℚ

structure Moe (R M : Type) extends Experts R M where
  nLocalExperts : ℕ
  expertsStartIdx : ℕ
  expertsEndIdx : ℕ

inductive Ffn (R M : Type) where
  | dense
  | moe (moe : Moe R M)

structure Block (R M : Type) where
  ffn : Option (Ffn R M)

structure Model (R M : Type) where
  layers : List (Block R M)
  mtp : Option (List (Block R M))

/-- The official module; a forward of an expert is one of each row. -/
structure Official (T M : Type) where
  worldSize : ℕ
  expertForward : M → Bundle T → ℚ → M
  v4ExpertForward : M → Bundle T → ℚ → M

variable {R M T : Type}

/-- The ffn, where it has the attributes of a MoE module. -/
def Block.moe (block : Block R M) : Option (Moe R M) :=
  match block.ffn with
  | some (.moe moe) => some moe
  | some .dense => none
  | none => none

def iterMoeModules (model : Model R M) : List (Moe R M) :=
  model.layers.filterMap Block.moe ++ (model.mtp.getD []).filterMap Block.moe

/-- The body of the loop of `_verify_local_expert_ranges`. -/
def verifyRange (worldSize rank : ℕ) (moe : Moe R M) : Except PyError Unit :=
  if moe.nLocalExperts * worldSize ≠ moe.nRoutedExperts then
    .error (.runtimeError ("expert sharding mismatch: local=" ++ toString moe.nLocalExperts ++
      " world_size=" ++ toString worldSize ++ " total=" ++ toString moe.nRoutedExperts))
  else
    let expectedStart := rank * moe.nLocalExperts
    let expectedEnd := expectedStart + moe.nLocalExperts
    if moe.expertsStartIdx ≠ expectedStart ∨ moe.expertsEndIdx ≠ expectedEnd then
      .error (.runtimeError
        ("expert range mismatch: expected=(" ++ toString expectedStart ++ ", " ++
          toString expectedEnd ++ ") got=(" ++ toString moe.expertsStartIdx ++ ", " ++
        toString moe.expertsEndIdx ++ ")"))
    else .ok ()

def verifyLocalExpertRanges (model : Model R M) (worldSize rank : ℕ) : Except PyError Unit :=
  (iterMoeModules model).forM (verifyRange worldSize rank)

/-- What `make_forward` is called with. -/
structure Patched (R M : Type) where
  moe : Moe R M
  layerId : ℕ

/-- The loop of `patch_moe_with_offload`: what the forward of each block is made from. -/
def patchLayers : List (Block R M) → ℕ → List (Option (Patched R M))
  | [], _ => []
  | block :: blocks, expertLayer =>
    match block.moe with
    | some moe => some ⟨moe, expertLayer⟩ :: patchLayers blocks (expertLayer + 1)
    | none => none :: patchLayers blocks expertLayer

def patchMoeWithOffload (model : Model R M) : List (Option (Patched R M)) :=
  patchLayers model.layers 0

theorem range_of_verifyRange {worldSize rank : ℕ} {moe : Moe R M}
    (h : verifyRange worldSize rank moe = .ok ()) :
    moe.nLocalExperts * worldSize = moe.nRoutedExperts ∧
    moe.expertsStartIdx = rank * moe.nLocalExperts ∧
      moe.expertsEndIdx = rank * moe.nLocalExperts + moe.nLocalExperts := by
  unfold verifyRange at h
  by_cases htotal : moe.nLocalExperts * worldSize = moe.nRoutedExperts
  · rw [if_neg (not_not_intro htotal)] at h
    simp only at h
    split at h
    · cases h
    · next hrange =>
      rw [not_or, not_not, not_not] at hrange
      exact ⟨htotal, hrange⟩
  · rw [if_pos htotal] at h
    cases h

theorem verifyRange_of_mem {worldSize rank : ℕ} {moe : Moe R M} : ∀ {moes : List (Moe R M)},
    moes.forM (verifyRange worldSize rank) = .ok () → moe ∈ moes →
    verifyRange worldSize rank moe = .ok ()
  | moe' :: moes, h, hmem => by
    obtain ⟨⟨⟩, hmoe, h⟩ := ok_of_bind h
    rcases List.mem_cons.mp hmem with rfl | hmem
    · exact hmoe
    · exact verifyRange_of_mem h hmem

/-- **The layers**: where all blocks are MoE blocks, a block has the number of its layer. -/
theorem getElem?_patchLayers {blocks : List (Block R M)} (h : ∀ block ∈ blocks, block.moe.isSome) :
    ∀ (expertLayer layer : ℕ), (patchLayers blocks expertLayer)[layer]? =
      blocks[layer]?.map fun block => block.moe.map fun moe => ⟨moe, expertLayer + layer⟩ := by
  induction blocks with
  | nil => exact fun _ _ => rfl
  | cons block blocks ih =>
    intro expertLayer layer
    obtain ⟨moe, hmoe⟩ := Option.isSome_iff_exists.mp (h block List.mem_cons_self)
    have hpatch : patchLayers (block :: blocks) expertLayer =
        some ⟨moe, expertLayer⟩ :: patchLayers blocks (expertLayer + 1) := by
      rw [patchLayers, hmoe]
    rw [hpatch]
    cases layer with
    | zero => simp [hmoe]
    | succ layer =>
      rw [List.getElem?_cons_succ, List.getElem?_cons_succ,
        ih fun block' h' => h block' (List.mem_cons_of_mem block h'), Nat.add_right_comm,
        Nat.add_assoc]

/-! ### The forward -/

variable [Semiring R] [AddCommMonoid M] [Module R M]

def Official.expert (official : Official T M) (useNative : Bool) (swigluLimit : Option ℚ) (row : M)
    (bundle : Bundle T) : M :=
  if useNative then official.v4ExpertForward row bundle (swigluLimit.getD 0)
  else official.expertForward row bundle (swigluLimit.getD 0)

section Forward

variable (c : Checkpoint T) (official : Official T M) (useNative : Bool)
  (patched : Patched R M) {n : ℕ} (x : Fin n → M) (inputIds : Fin n → ℕ)

/-- The body of the loop of the forward. -/
def addExpert (y : Fin n → M) (e : ℕ) : Prog LoadError (Store T) (Fin n → M) := do
  let weights := patched.moe.gate.weights x inputIds
  let positions := whereEq (patched.moe.gate.indices x inputIds) e
  let bundle ← get c patched.layerId e
  return addRows y (positions.map fun p =>
    (p.1, weights p.1 p.2 • official.expert useNative patched.moe.swigluLimit (x p.1) bundle))

/-- The forward before the reduction. -/
def routedRows : Prog LoadError (Store T) (Fin n → M) := do
  let moe := patched.moe
  let counts := bincount (flatten (moe.gate.indices x inputIds)) moe.nRoutedExperts
  let active ← ofExcept (activeExperts counts
    (List.range' moe.expertsStartIdx (moe.expertsEndIdx - moe.expertsStartIdx)))
  prefetch c patched.layerId active
  foldEach (addExpert c official useNative patched x inputIds) active 0

/-- The forward of a block, where `allReduce` is what the reduction makes of the rows of the
rank. -/
def forward (allReduce : (Fin n → M) → Fin n → M) : Prog LoadError (Store T) (Fin n → M) := do
  let y ← routedRows c official useNative patched x inputIds
  let y := if 1 < official.worldSize then allReduce y else y
  return fun i => y i + patched.moe.sharedExperts (x i)

end Forward

/-! ### What an expert adds -/

section Shares

variable {n k : ℕ} {weights : Fin n → Fin k → R} {indices : Fin n → Fin k → ℕ} {x : Fin n → M}
  {f : ℕ → M → M}

/-- What an expert adds to the row of a token. -/
def share (weights : Fin n → Fin k → R) (indices : Fin n → Fin k → ℕ) (x : Fin n → M)
    (f : ℕ → M → M) (e : ℕ) (i : Fin n) : M :=
  ∑ j, if indices i j = e then weights i j • f e (x i) else 0

theorem mem_whereEq {e : ℕ} {p : Fin n × Fin k} : p ∈ whereEq indices e ↔ indices p.1 p.2 = e := by
  unfold whereEq
  rw [List.mem_filter, decide_eq_true_eq]
  exact and_iff_right (List.mem_product.mpr ⟨List.mem_finRange _, List.mem_finRange _⟩)

theorem foldl_update_of_not_mem {rows y : Fin n → M} {entries : List (Fin n × M)} {i : Fin n}
    (h : i ∉ entries.map Prod.fst) :
    entries.foldl (fun rows entry => Function.update rows entry.1 (y entry.1 + entry.2)) rows i =
      rows i := by
  induction entries generalizing rows with
  | nil => rfl
  | cons entry entries ih =>
    rw [List.map_cons, List.mem_cons, not_or] at h
    rw [List.foldl_cons, ih h.2, Function.update_of_ne h.1]

theorem foldl_update_of_mem {rows y : Fin n → M} {entries : List (Fin n × M)} {entry : Fin n × M}
    (hnodup : (entries.map Prod.fst).Nodup) (h : entry ∈ entries) :
    entries.foldl (fun rows entry => Function.update rows entry.1 (y entry.1 + entry.2))
      rows entry.1 = y entry.1 + entry.2 := by
  induction entries generalizing rows with
  | nil => exact absurd h List.not_mem_nil
  | cons entry' entries ih =>
    rw [List.map_cons, List.nodup_cons] at hnodup
    rw [List.foldl_cons]
    rcases List.mem_cons.mp h with rfl | h
    · rw [foldl_update_of_not_mem hnodup.1, Function.update_self]
    · exact ih hnodup.2 h

/-- **Writing rows back**: as an expert is chosen once for a token, its share is added. -/
theorem addRows_whereEq (hinj : ∀ i, Function.Injective (indices i)) (y : Fin n → M) (e : ℕ) :
    addRows y ((whereEq indices e).map fun p => (p.1, weights p.1 p.2 • f e (x p.1))) =
      fun i => y i + share weights indices x f e i := by
  have hrows :
      (((whereEq indices e).map fun p => (p.1, weights p.1 p.2 • f e (x p.1))).map
        Prod.fst).Nodup := by
    rw [List.map_map]
    refine List.Nodup.map_on (fun p hp q hq hpq => ?_)
      (((List.nodup_finRange n).product (List.nodup_finRange k)).filter _)
    have hpq : p.1 = q.1 := hpq
    have hp := mem_whereEq.mp hp
    rw [hpq] at hp
    exact Prod.ext hpq (hinj q.1 (hp.trans (mem_whereEq.mp hq).symm))
  funext i
  unfold addRows share
  by_cases h : ∃ j, indices i j = e
  · obtain ⟨j, hj⟩ := h
    have hentry : (i, weights i j • f e (x i)) ∈
        (whereEq indices e).map fun p => (p.1, weights p.1 p.2 • f e (x p.1)) :=
      List.mem_map.mpr ⟨(i, j), mem_whereEq.mpr hj, rfl⟩
    rw [Finset.sum_eq_single j (fun j' _ hne => if_neg fun hj' => hne (hinj i (hj'.trans hj.symm)))
      (fun hmem => absurd (Finset.mem_univ j) hmem), if_pos hj]
    exact foldl_update_of_mem hrows hentry
  · rw [Finset.sum_eq_zero fun j _ => if_neg fun hj => h ⟨j, hj⟩, add_zero]
    refine foldl_update_of_not_mem fun hmem => h ?_
    rw [List.map_map] at hmem
    obtain ⟨p, hp, rfl⟩ := List.mem_map.mp hmem
    exact ⟨p.2, mem_whereEq.mp hp⟩

theorem mem_flatten {e : ℕ} : e ∈ flatten indices ↔ ∃ i j, indices i j = e := by
  simp [flatten, List.mem_flatMap]

theorem share_eq_zero {e : ℕ} (h : e ∉ flatten indices) (i : Fin n) :
    share weights indices x f e i = 0 :=
  Finset.sum_eq_zero fun j _ => if_neg fun hj => h (mem_flatten.mpr ⟨i, j, hj⟩)

/-- **All shares** are the weighted sum over the chosen experts. -/
theorem sum_share {m : ℕ} (hlt : ∀ i j, indices i j < m) (i : Fin n) :
    ∑ e ∈ Finset.range m, share weights indices x f e i = ∑ j,
    weights i j • f (indices i j) (x i) := by
  unfold share
  rw [Finset.sum_comm]
  refine sum_congr rfl fun j _ => ?_
  rw [Finset.sum_ite_eq, if_pos (Finset.mem_range.mpr (hlt i j))]

/-- The ranges of the ranks make up all experts. -/
theorem sum_ranges (f : ℕ → M) (worldSize nLocalExperts : ℕ) :
    ∑ r : Fin worldSize, ∑ e ∈ Finset.range nLocalExperts, f (r * nLocalExperts + e) =
      ∑ e ∈ Finset.range (nLocalExperts * worldSize), f e := by
  induction worldSize with
  | zero => simp
  | succ worldSize ih =>
    rw [Fin.sum_univ_castSucc, Nat.mul_succ, Finset.sum_range_add, ← ih, Nat.mul_comm nLocalExperts]
    rfl

end Shares

/-! ### The active experts -/

theorem le_foldl_max (flat : List ℕ) (m : ℕ) : m ≤ flat.foldl (fun m e => max m (e + 1)) m := by
  induction flat generalizing m with
  | nil => exact le_rfl
  | cons e flat ih => exact (le_max_left m (e + 1)).trans (ih _)

theorem activeExperts_bincount {flat : List ℕ} {m : ℕ} : ∀ {es : List ℕ}, (∀ e ∈ es, e < m) →
    activeExperts (bincount flat m) es = .ok (es.filter (· ∈ flat))
  | [], _ => rfl
  | e :: es, h => by
    have he : (bincount flat m)[e]? = some (flat.count e) := by
      have hlt := (h e List.mem_cons_self).trans_le (le_foldl_max flat m)
      simp [bincount, hlt]
    unfold activeExperts
    rw [he, activeExperts_bincount fun e' he' => h e' (List.mem_cons_of_mem e he')]
    simp only [ok_bind, List.filter_cons, decide_eq_true_eq, List.count_pos_iff]
    rfl

/-! ### The rows of a rank -/

section Rank

variable {c : Checkpoint T} {official : Official T M} {useNative : Bool}
  {patched : Patched R M} {n m : ℕ} {x : Fin n → M} {inputIds : Fin n → ℕ} {s : Store T}
    {bundle : ℕ → Bundle T}

/-- What an expert adds to a row, where it has these tensors. -/
def Experts.share (experts : Experts R M) (official : Official T M) (useNative : Bool)
    (bundle : ℕ → Bundle T) (x : Fin n → M) (inputIds : Fin n → ℕ) (e : ℕ) (i : Fin n) : M :=
  OfficialOffload.share (experts.gate.weights x inputIds) (experts.gate.indices x inputIds) x
    (fun e row => official.expert useNative experts.swigluLimit row (bundle e)) e i

theorem addExpert_spec (h : s.Ok c m) {e : ℕ} (he : c.expert patched.layerId e = some (bundle e))
    (y : Fin n → M) :
    wp (addExpert c official useNative patched x inputIds y e)
      (fun y' s' => y' =
        (fun i => y i + patched.moe.share official useNative bundle x inputIds e i) ∧ s'.Ok c m)
      (fun _ _ => False) s := by
  unfold addExpert
  rw [wp_bind]
  refine wp_mono (get_spec h) (fun b s' hb => ?_) fun _ _ hs' => ?_
  · obtain rfl : bundle e = b := Option.some.inj (he.symm.trans hb.1)
    rw [wp_pure]
    exact ⟨addRows_whereEq
      (f := fun e row => official.expert useNative patched.moe.swigluLimit row (bundle e))
      (patched.moe.gate.injective_indices x inputIds) y e, hb.2.1⟩
  · exact absurd (he.symm.trans hs'.1) (Option.some_ne_none _)

/-- **The loop**: the rows are the shares of the experts visited. -/
theorem addExperts_spec (h : s.Ok c m) {active : List ℕ}
    (hactive : ∀ e ∈ active, c.expert patched.layerId e = some (bundle e)) :
    wp (foldEach (addExpert c official useNative patched x inputIds) active 0)
      (fun y _ => y = fun i =>
        (active.map fun e => patched.moe.share official useNative bundle x inputIds e i).sum)
      (fun _ _ => False) s := by
  refine wp_mono
      (wp_foldEach (R := fun _ _ => False)
        (fun rest y t =>
          (∃ done, done ++ rest = active ∧
            y = fun i =>
              (done.map fun e => patched.moe.share official useNative bundle x inputIds e i).sum) ∧
                t.Ok c m)
    (fun e rest y t hI => ?_) active _ s ⟨⟨[], rfl, rfl⟩, h⟩) (fun y _ hy => ?_) fun _ _ hF => hF
  · obtain ⟨⟨done, hdone, rfl⟩, ht⟩ := hI
    have he : e ∈ active := hdone ▸ List.mem_append_right done List.mem_cons_self
    refine wp_mono (addExpert_spec ht (hactive e he) _) (fun y' t' ht' => ?_) fun _ _ hF => hF
    refine ⟨⟨done ++ [e], by rw [List.append_assoc, List.singleton_append, hdone], ?_⟩, ht'.2⟩
    rw [ht'.1]
    funext i
    rw [List.map_append, List.sum_append, List.map_singleton, List.sum_singleton]
  · obtain ⟨⟨done, hdone, rfl⟩, -⟩ := hy
    rw [List.append_nil] at hdone
    rw [hdone]

/-- The experts that no token has chosen add nothing. -/
theorem sum_active (es : List ℕ) (i : Fin n) :
    ((es.filter (· ∈ flatten (patched.moe.gate.indices x inputIds))).map fun e =>
      patched.moe.share official useNative bundle x inputIds e i).sum =
    (es.map fun e => patched.moe.share official useNative bundle x inputIds e i).sum := by
  rw [← List.sum_map_filter_add_sum_map_filter_not
    (fun e => e ∈ flatten (patched.moe.gate.indices x inputIds)) _ es]
  have hzero :
      ((es.filter fun e => ¬ e ∈ flatten (patched.moe.gate.indices x inputIds)).map fun e =>
      patched.moe.share official useNative bundle x inputIds e i).sum = 0 := by
    refine List.sum_eq_zero fun a ha => ?_
    obtain ⟨e, he, rfl⟩ := List.mem_map.mp ha
    exact share_eq_zero (by simpa using (List.mem_filter.mp he).2) i
  rw [hzero, add_zero]

/-- **The rows of a rank** are the shares of the experts of its range. -/
theorem routedRows_spec (h : s.Ok c m)
    (hend : patched.moe.expertsEndIdx ≤ patched.moe.nRoutedExperts)
    (hexperts : ∀ e < patched.moe.nRoutedExperts, c.expert patched.layerId e = some (bundle e)) :
    wp (routedRows c official useNative patched x inputIds)
      (fun y _ => y = fun i => ∑ e ∈
        Finset.range (patched.moe.expertsEndIdx - patched.moe.expertsStartIdx),
        patched.moe.share official useNative bundle x inputIds (patched.moe.expertsStartIdx + e) i)
      (fun _ _ => False) s := by
  have hrange : ∀ e ∈ List.range' patched.moe.expertsStartIdx
      (patched.moe.expertsEndIdx - patched.moe.expertsStartIdx),
      e < patched.moe.nRoutedExperts := fun e he => by
    rw [List.mem_range'_1] at he
    omega
  have hactive : ∀ e ∈ (List.range' patched.moe.expertsStartIdx
      (patched.moe.expertsEndIdx - patched.moe.expertsStartIdx)).filter
        (· ∈ flatten (patched.moe.gate.indices x inputIds)), c.expert patched.layerId e =
          some (bundle e) :=
    fun e he => hexperts e (hrange e (List.mem_of_mem_filter he))
  unfold routedRows
  simp only
  rw [activeExperts_bincount hrange, wp_bind, wp_ofExcept_ok, wp_bind]
  refine wp_mono (prefetch_spec h _) (fun _ s' hs' => ?_) fun _ _ hs' => ?_
  · refine wp_mono (addExperts_spec hs'.1 hactive) (fun y _ hy => ?_) fun _ _ hF => hF
    rw [hy]
    funext i
    rw [sum_active, List.range'_eq_map_range, List.map_map]
    rfl
  · obtain ⟨⟨e, he, hnone⟩, -⟩ := hs'
    exact absurd ((hactive e he).symm.trans hnone) (Option.some_ne_none _)

end Rank

/-! ### The forward of all ranks -/

/-- **The ranks together**: their rows are the weighted sum over the chosen experts. -/
theorem sum_rows {official : Official T M} {useNative : Bool} {experts : Experts R M}
    {moe : Fin official.worldSize → Moe R M} {bundle : ℕ → Bundle T} {n : ℕ} {x : Fin n → M}
    {inputIds : Fin n → ℕ} {rows : Fin official.worldSize → Fin n → M}
    (hexperts : ∀ r, (moe r).toExperts = experts)
    (hverify : ∀ r : Fin official.worldSize, verifyRange official.worldSize r (moe r) = .ok ())
    (hrows : ∀ r,
      rows r = fun i => ∑ e ∈ Finset.range ((moe r).expertsEndIdx - (moe r).expertsStartIdx),
      (moe r).share official useNative bundle x inputIds ((moe r).expertsStartIdx + e) i)
    (r : Fin official.worldSize) (i : Fin n) :
    ∑ r', rows r' i = ∑ j, experts.gate.weights x inputIds i j •
      official.expert useNative experts.swigluLimit (x i)
        (bundle (experts.gate.indices x inputIds i j)) := by
  obtain ⟨htotal, -, -⟩ := range_of_verifyRange (hverify r)
  rw [hexperts r] at htotal
  have hlocal : ∀ r' : Fin official.worldSize, rows r' i = ∑ e ∈ Finset.range (moe r).nLocalExperts,
      experts.share official useNative bundle x inputIds (r' * (moe r).nLocalExperts + e) i := by
    intro r'
    obtain ⟨htotal', hstart, hend⟩ := range_of_verifyRange (hverify r')
    rw [hexperts r'] at htotal'
    have heq : (moe r').nLocalExperts = (moe r).nLocalExperts :=
      Nat.eq_of_mul_eq_mul_right (Nat.zero_lt_of_lt r.isLt) (htotal'.trans htotal.symm)
    rw [hrows r', hend, hstart, Nat.add_sub_cancel_left, heq, hexperts r']
  calc ∑ r', rows r' i
      = ∑ r' : Fin official.worldSize, ∑ e ∈ Finset.range (moe r).nLocalExperts,
          experts.share official useNative bundle x inputIds (r' * (moe r).nLocalExperts + e) i :=
        sum_congr rfl fun r' _ => hlocal r'
    _ = ∑ e ∈ Finset.range experts.nRoutedExperts,
        experts.share official useNative bundle x inputIds e i := by
        rw [sum_ranges (fun e => experts.share official useNative bundle x inputIds e i), htotal]
    _ = _ := sum_share (experts.gate.indices_lt x inputIds) i

/-- **The forward, reduced**: with the rows of all ranks it is the weighted sum over the chosen
experts and the shared expert. -/
theorem forward_spec {c : Checkpoint T} {official : Official T M} {useNative : Bool}
    {experts : Experts R M} {layer : ℕ} {moe : Fin official.worldSize → Moe R M}
    {bundle : ℕ → Bundle T} {m : Fin official.worldSize → ℕ} {s : Fin official.worldSize → Store T}
    {n : ℕ} {x : Fin n → M} {inputIds : Fin n → ℕ} (hexperts : ∀ r, (moe r).toExperts = experts)
    (hverify : ∀ r : Fin official.worldSize, verifyRange official.worldSize r (moe r) = .ok ())
    (hs : ∀ r, (s r).Ok c (m r))
    (hbundle : ∀ e < experts.nRoutedExperts, c.expert layer e = some (bundle e)) :
    ∃ rows : Fin official.worldSize → Fin n → M,
      (∀ r, ((routedRows c official useNative ⟨moe r, layer⟩ x inputIds).run (s r)).2 =
        .ok (rows r)) ∧
      ∀ allReduce : (Fin n → M) → Fin n → M, (∀ r, allReduce (rows r) = fun i => ∑ r', rows r' i) →
        ∀ r, ((forward c official useNative ⟨moe r, layer⟩ x inputIds allReduce).run (s r)).2 =
          .ok fun i =>
          ∑ j, experts.gate.weights x inputIds i j •
            official.expert useNative experts.swigluLimit (x i)
              (bundle (experts.gate.indices x inputIds i j)) +
          experts.sharedExperts (x i) := by
  have hexpertsOf : ∀ r, ∀ e < (moe r).nRoutedExperts,
      c.expert layer e = some (bundle e) := fun r e he =>
    hbundle e (by rw [← hexperts r]; exact he)
  have hend : ∀ r, (moe r).expertsEndIdx ≤ (moe r).nRoutedExperts := by
    intro r
    obtain ⟨htotal, -, hend⟩ := range_of_verifyRange (hverify r)
    rw [hend, ← htotal, ← Nat.succ_mul, Nat.mul_comm]
    exact Nat.mul_le_mul_left _ r.isLt
  have hrun : ∀ r, ∃ s' rows,
      (routedRows c official useNative ⟨moe r, layer⟩ x inputIds).run (s r) = (s', .ok rows) ∧
      _ := fun r =>
    exists_of_wp (routedRows_spec (hs r) (hend r) (hexpertsOf r))
  choose s' rows hrun hrows using hrun
  refine ⟨rows, fun r => by rw [hrun r], fun allReduce hreduce r => ?_⟩
  have htotal : ∀ i, ∑ r', rows r' i = ∑ j, experts.gate.weights x inputIds i j •
      official.expert useNative experts.swigluLimit (x i)
        (bundle (experts.gate.indices x inputIds i j)) :=
    sum_rows hexperts hverify hrows r
  have hrowsOf : (if 1 < official.worldSize then allReduce (rows r) else rows r) = fun i => ∑ r',
      rows r' i := by
    by_cases hone : 1 < official.worldSize
    · rw [if_pos hone, hreduce r]
    · rw [if_neg hone]
      funext i
      have honly : ∀ r', r' ≠ r → rows r' i = 0 := fun r' hne => absurd (Fin.ext (by omega)) hne
      exact (Fintype.sum_eq_single r honly).symm
  unfold forward
  rw [run_bind_ok (hrun r)]
  have hshared : (moe r).sharedExperts = experts.sharedExperts := by rw [hexperts r]
  simp only [hrowsOf, htotal, hshared]
  rfl

/-- **The offloaded experts**: whatever the stores have answered before, every call of a store
answers with what the checkpoint has, and the forward of a layer is the weighted sum over the chosen
experts and the shared expert. A store keeps to its bound if what it is told to prefetch are experts
that the checkpoint has. -/
theorem offloaded_moe {c : Checkpoint T} {official : Official T M} {useNative : Bool}
    {model : Fin official.worldSize → Model R M} {layers : List (Experts R M)}
    {bundle : ℕ → ℕ → Bundle T} {maxResidentExperts : Fin official.worldSize → ℕ}
    {cuda : Fin official.worldSize → Bool} {store : Fin official.worldSize → Store T}
    (hlayers : ∀ r, ((model r).layers.map fun block => block.moe.map Moe.toExperts) =
      layers.map some)
    (hverify : ∀ r : Fin official.worldSize,
    verifyLocalExpertRanges (model r) official.worldSize r = .ok ())
    (hbundle : ∀ layer experts, layers[layer]? = some experts →
      ∀ e < experts.nRoutedExperts, c.expert layer e = some (bundle layer e))
    (hstore : ∀ r, Store.init c (maxResidentExperts r) (cuda r) = .ok (store r))
    (calls : Fin official.worldSize → List Call) :
    (∀ r, Along (step c) (Answers c) (store r) (calls r)) ∧
    (∀ r, (∀ call ∈ calls r, call.Known c) →
      Along (step c) (fun s call => (step c s call).gpu.length ≤ maxResidentExperts r)
        (store r) (calls r)) ∧
    ∀ layer experts, layers[layer]? = some experts → ∃ moe : Fin official.worldSize → Moe R M,
      (∀ r, (patchMoeWithOffload (model r))[layer]? = some (some ⟨moe r, layer⟩)) ∧
      ∀ {n : ℕ} (x : Fin n → M) (inputIds : Fin n → ℕ), ∃ rows : Fin official.worldSize → Fin n → M,
        (∀ r, ((routedRows c official useNative ⟨moe r, layer⟩ x inputIds).run
          (exec (step c) (store r) (calls r))).2 = .ok (rows r)) ∧
        ∀ allReduce : (Fin n → M) → Fin n → M,
          (∀ r, allReduce (rows r) = fun i => ∑ r', rows r' i) →
          ∀ r, ((forward c official useNative ⟨moe r, layer⟩ x inputIds allReduce).run
            (exec (step c) (store r) (calls r))).2 = .ok fun i =>
              ∑ j, experts.gate.weights x inputIds i j • official.expert useNative
                experts.swigluLimit (x i) (bundle layer (experts.gate.indices x inputIds i j)) +
              experts.sharedExperts (x i) := by
  refine ⟨fun r => along_answers (hstore r) (calls r), fun r => along_length (hstore r), ?_⟩
  intro layer experts hlayer
  have hblock : ∀ r, ∃ moe : Moe R M, (patchMoeWithOffload (model r))[layer]? =
      some (some ⟨moe, layer⟩) ∧ moe.toExperts = experts ∧
      verifyRange official.worldSize r moe = .ok () := by
    intro r
    have hmoe : ∀ block ∈ (model r).layers, block.moe.isSome := by
      intro block hb
      have hmem := List.mem_map_of_mem (f := fun block => block.moe.map Moe.toExperts) hb
      rw [hlayers r] at hmem
      obtain ⟨experts', -, h⟩ := List.mem_map.mp hmem
      cases hm : block.moe with
      | none => rw [hm] at h; cases h
      | some moe => rfl
    have hget := congrArg (·[layer]?) (hlayers r)
    simp only [List.getElem?_map, hlayer, Option.map_some] at hget
    obtain ⟨block, hb, hexperts⟩ := Option.map_eq_some_iff.mp hget
    obtain ⟨moe, hm, hexperts⟩ := Option.map_eq_some_iff.mp hexperts
    refine ⟨moe, ?_, hexperts, ?_⟩
    · unfold patchMoeWithOffload
      rw [getElem?_patchLayers hmoe, hb, Nat.zero_add, Option.map_some, hm]
      rfl
    · refine verifyRange_of_mem (hverify r) (List.mem_append_left _ ?_)
      exact List.mem_filterMap.mpr ⟨block, List.mem_of_getElem? hb, hm⟩
  choose moe hpatch hexperts hrange using hblock
  exact ⟨moe, hpatch,
    fun x inputIds => forward_spec hexperts hrange (fun r => exec_ok (hstore r) (calls r))
      (hbundle layer experts hlayer)⟩

/-! Two ranks with an expert each, of which the first keeps none on the device. -/

def twoExperts : Checkpoint ℤ where
  files :=
    [("all".toList,
      ⟨true, [0, 1].flatMap fun e => projections.map fun p => (tensorKey 0 e p, (e : ℤ) + 1)⟩)]
  found := []
  shardFile := some "all".toList

def bothChosen : Experts ℤ ℤ where
  nRoutedExperts := 2
  gate := {
    topk := 2
    weights := fun _ _ _ _ => 1
    indices := fun _ _ _ j => j
    indices_lt := fun _ _ _ j => j.isLt
    injective_indices := fun _ _ _ => Fin.val_injective }
  sharedExperts := fun row => row
  swigluLimit := none

def scaled : Official ℤ ℤ where
  worldSize := 2
  expertForward := fun row bundle _ => (bundle.map Prod.snd).sum * row
  v4ExpertForward := fun row bundle _ => (bundle.map Prod.snd).sum * row

def rankModel (r : ℕ) : Model ℤ ℤ where
  layers := [⟨some (.moe ⟨bothChosen, 1, r, r + 1⟩)⟩]
  mtp := none

def rankStore (r : ℕ) : Store ℤ where
  maxResidentExperts := r
  copyStream := true
  shardFor := [0, 1].flatMap fun e => projections.map fun p => (tensorKey 0 e p, "all".toList)
  openFiles := []
  host := []
  gpu := []

theorem twoExperts_expert (e : ℕ) (he : e < 2) :
    twoExperts.expert 0 e = some (projections.map fun p => (partName p, (e : ℤ) + 1)) := by
  revert e
  decide +kernel

theorem twoExperts_offloaded : ∃ moe : Fin 2 → Moe ℤ ℤ,
    (∀ r : Fin 2, (patchMoeWithOffload (rankModel r))[0]? = some (some ⟨moe r, 0⟩)) ∧
      ∃ rows : Fin 2 → Fin 1 → ℤ, ∀ r : Fin 2,
        ((forward twoExperts scaled false ⟨moe r, 0⟩ (fun _ => 5) (fun _ => 0) fun _ i => ∑ r',
          rows r' i).run (exec (step twoExperts) (rankStore r) [.prefetch 0 [0, 1], .get 0 1])).2 =
          .ok fun _ => 95 := by
  have hrange : ∀ r : Fin 2, verifyLocalExpertRanges (rankModel r) 2 r = .ok () :=
    Fin.forall_fin_two.mpr ⟨rfl, rfl⟩
  have hbundle : ∀ layer experts, [bothChosen][layer]? = some experts →
      ∀ e < experts.nRoutedExperts, twoExperts.expert layer e =
        some (projections.map fun p => (partName p, (e : ℤ) + 1)) := by
    intro layer experts hlayer e he
    cases layer with
    | zero =>
      obtain rfl := Option.some.inj hlayer
      exact twoExperts_expert e he
    | succ layer => cases hlayer
  obtain ⟨-, -, h⟩ :=
    @offloaded_moe _ _ _ _ _ _ twoExperts scaled false (fun r => rankModel r) [bothChosen] _ _ _ _
      (fun r => rfl) hrange hbundle
      (fun r => (rfl : Store.init twoExperts r true = .ok (rankStore r)))
    fun _ => [.prefetch 0 [0, 1], .get 0 1]
  obtain ⟨moe, hmoe, h⟩ := h 0 bothChosen rfl
  obtain ⟨rows, -, h⟩ := h (fun _ : Fin 1 => 5) fun _ => 0
  refine ⟨moe, hmoe, rows,
    fun r => (h _ (fun _ => rfl) r).trans (congrArg Except.ok (funext fun i => ?_))⟩
  revert i
  decide +kernel

end MoeInfinity.Models.OfficialOffload
