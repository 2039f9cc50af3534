import Mathlib.Algebra.BigOperators.Fin
import Mathlib.Algebra.BigOperators.Field
import Mathlib.Algebra.Order.Field.Basic
import Mathlib.Algebra.Order.Field.Rat
import Mathlib.Data.List.MinMax
import Mathlib.Data.List.Sort
import Mathlib.Data.Rat.Defs
import MoeInfinity.Lib.Nucleus

/-! # Top-p filtering (`serving/sampler.py`, `engine/generation_loop.py`)

A row of logits is given by the exponentials of its entries, which are rational here; an entry of
`-inf` is zero, and the softmax divides by the sum. The filter sorts the row, removes the tokens
whose cumulative probability exceeds `top_p`, though not the first one, and puts the others back in
their places.

The token that crosses `top_p` is removed with the others, so what is kept is the nucleus only when
the first token alone reaches `top_p` or some cumulative probability is `top_p` itself
(`kept_nucleus_iff`). -/

namespace MoeInfinity.Serving.TopP

open MoeInfinity.Lib.Nucleus

variable {n : ℕ}

/-! ### The filters -/

/-- A row of logits by their exponentials. -/
abbrev Row (n : ℕ) : Type := Fin n → ℚ

def softmax (logits : List ℚ) : List ℚ := logits.map (· / logits.sum)

/-- `torch.cumsum` from a start value on. -/
def cumsum (start : ℚ) : List ℚ → List ℚ
  | [] => []
  | x :: xs => (start + x) :: cumsum (start + x) xs

/-- The indices that `torch.sort` gives, for descending entries. -/
def sortedIndices (logits : Row n) : List (Fin n) :=
  (List.finRange n).insertionSort fun i j => logits j ≤ logits i

/-- `masked_fill` with `-inf`. -/
def maskedFill (values : List ℚ) (mask : List Bool) : List ℚ :=
  values.zipWith (fun v remove => if remove then 0 else v) mask

/-- `filtered[indices] = values`, where `filtered` is `-inf` everywhere. -/
def scatter (indices : List (Fin n)) (values : List ℚ) : Row n :=
  (indices.zip values).foldl (fun filtered e => Function.update filtered e.1 e.2) 0

/-- What both filters do for a proper `top_p`. -/
def dropBeyond (logits : Row n) (topP : ℚ) : Row n :=
  let indices := sortedIndices logits
  let sortedLogits := indices.map logits
  let cumulativeProbs := cumsum 0 (softmax sortedLogits)
  let removeMask := (cumulativeProbs.map fun c => decide (topP < c)).set 0 false
  scatter indices (maskedFill sortedLogits removeMask)

/-- `Sampler._apply_top_p`. -/
def Sampler.applyTopP (logits : Row n) (topP : ℚ) : Row n :=
  if 1 ≤ topP then logits
  else if topP ≤ 0 then
    match (List.finRange n).argmax logits with
    | none => 0
    | some keepIndex => Function.update 0 keepIndex (logits keepIndex)
  else dropBeyond logits topP

/-- The top-p branch of `GenerationEngine._sample`. -/
def GenerationEngine.filterTopP (finalLogits : Row n) (topP : ℚ) : Row n :=
  if topP < 1 then dropBeyond finalLogits topP else finalLogits

/-- The tokens that can be sampled. -/
def kept (logits : Row n) : Finset (Fin n) := Finset.univ.filter fun i => logits i ≠ 0

/-- The probabilities of the tokens. -/
def prob (logits : Row n) (i : Fin n) : ℚ := logits i / ∑ j, logits j

/-! ### Lists of probabilities -/

theorem cumsum_append : ∀ (start : ℚ) (xs : List ℚ) (y : ℚ) (ys : List ℚ),
    cumsum start (xs ++ y :: ys) = cumsum start xs ++ (start + xs.sum + y) ::
      cumsum (start + xs.sum + y) ys
  | start, [], y, ys => by simp [cumsum]
  | start, x :: xs, y, ys => by
    rw [List.cons_append, cumsum, cumsum, cumsum_append, List.sum_cons, List.cons_append,
      add_assoc start]

@[simp] theorem length_cumsum : ∀ (start : ℚ) (xs : List ℚ), (cumsum start xs).length = xs.length
  | _, [] => rfl
  | start, x :: xs => by rw [cumsum, List.length_cons, List.length_cons, length_cumsum]

/-- The entry at an index is what was put there, if it was put there once. -/
theorem scatter_split {is js : List (Fin n)} {i : Fin n} {vs ws : List ℚ} {v : ℚ}
    (hlen : is.length = vs.length) (hi : i ∉ js) :
    scatter (is ++ i :: js) (vs ++ v :: ws) i = v := by
  have hrest : ∀ (es : List (Fin n × ℚ)) (row : Row n), (∀ e ∈ es, e.1 ≠ i) →
      es.foldl (fun filtered e => Function.update filtered e.1 e.2) row i = row i := by
    intro es
    induction es with
    | nil => exact fun _ _ => rfl
    | cons e es ih =>
      intro row hes
      rw [List.foldl_cons, ih _ fun e' he' => hes e' (List.mem_cons_of_mem e he'),
        Function.update_of_ne (hes e List.mem_cons_self).symm]
  unfold scatter
  rw [List.zip_append hlen, List.zip_cons_cons, List.foldl_append, List.foldl_cons, hrest]
  · exact Function.update_self ..
  · rintro ⟨j, w⟩ he rfl
    exact hi (List.of_mem_zip he).1

/-! ### The sorted row -/

section Sorted

variable {logits : Row n}

theorem perm_sortedIndices (logits : Row n) : (sortedIndices logits).Perm (List.finRange n) :=
  List.perm_insertionSort _ _

theorem mem_sortedIndices (logits : Row n) (i : Fin n) : i ∈ sortedIndices logits :=
  (perm_sortedIndices logits).mem_iff.mpr (List.mem_finRange i)

theorem pairwise_sortedIndices (hinj : Function.Injective logits) :
    (sortedIndices logits).Pairwise fun i j => logits j < logits i := by
  have : Std.Total fun i j : Fin n => logits j ≤ logits i := ⟨fun i j => le_total _ _⟩
  have : IsTrans (Fin n) fun i j => logits j ≤ logits i := ⟨fun _ _ _ h h' => h'.trans h⟩
  have hsorted := List.pairwise_insertionSort (fun i j => logits j ≤ logits i) (List.finRange n)
  have hnodup : (sortedIndices logits).Nodup :=
    (perm_sortedIndices logits).nodup_iff.mpr (List.nodup_finRange n)
  exact (hsorted.and hnodup).imp fun h => lt_of_le_of_ne h.1 fun h0 => h.2 (hinj h0).symm

/-- Around an index of the sorted row: the heavier tokens are before it. -/
theorem exists_split (hinj : Function.Injective logits) (i : Fin n) :
    ∃ is js, sortedIndices logits = is ++ i :: js ∧ i ∉ js ∧ is.Nodup ∧
      ∀ j, j ∈ is ↔ logits i < logits j := by
  have hpair := pairwise_sortedIndices hinj
  obtain ⟨is, js, hsplit⟩ := List.append_of_mem (mem_sortedIndices logits i)
  rw [hsplit, List.pairwise_append, List.pairwise_cons] at hpair
  obtain ⟨hbefore, ⟨hafter, -⟩, hacross⟩ := hpair
  refine ⟨is, js, hsplit, fun h => lt_irrefl _ (hafter i h), hbefore.imp fun h h0 => ?_,
    fun j => ⟨?_, ?_⟩⟩
  · rw [h0] at h
    exact lt_irrefl _ h
  · exact fun hj => hacross j hj i List.mem_cons_self
  · intro hj
    have hmem := mem_sortedIndices logits j
    rw [hsplit, List.mem_append, List.mem_cons] at hmem
    rcases hmem with hmem | rfl | hmem
    · exact hmem
    · exact absurd hj (lt_irrefl _)
    · exact absurd hj (lt_asymm (hafter j hmem))

theorem softmax_sorted (logits : Row n) :
    softmax ((sortedIndices logits).map logits) = (sortedIndices logits).map (prob logits) := by
  have hsum : ((sortedIndices logits).map logits).sum = ∑ j, logits j := by
    rw [((perm_sortedIndices logits).map logits).sum_eq, ← List.ofFn_eq_map, List.sum_ofFn]
  unfold softmax
  rw [hsum, List.map_map]
  rfl

/-- The mask that the filter gives to a token with the tokens `is` before it. -/
theorem mask_split (topP : ℚ) (xs : List ℚ) (y : ℚ) (ys : List ℚ) : ∃ ms ms',
    ((cumsum 0 (xs ++ y :: ys)).map fun c => decide (topP < c)).set 0 false =
      ms ++ decide (xs ≠ [] ∧ topP < xs.sum + y) :: ms' ∧ ms.length = xs.length := by
  rw [cumsum_append, List.map_append, List.map_cons, zero_add]
  cases xs with
  | nil => exact ⟨[], (cumsum y ys).map fun c => decide (topP < c), by simp [cumsum], rfl⟩
  | cons x xs =>
    refine ⟨((cumsum 0 (x :: xs)).map fun c => decide (topP < c)).set 0 false,
      (cumsum ((x :: xs).sum + y) ys).map fun c => decide (topP < c), ?_, ?_⟩
    · rw [cumsum, List.map_cons, List.cons_append, List.set_cons_zero, List.set_cons_zero]
      simp only [ne_eq, reduceCtorEq, not_false_eq_true, true_and, List.cons_append]
    · rw [List.length_set, List.length_map, length_cumsum]

theorem prob_lt_prob (hsum : 0 < ∑ j, logits j) {i j : Fin n} :
    prob logits i < prob logits j ↔ logits i < logits j := div_lt_div_iff_of_pos_right hsum

theorem prob_injective (hsum : 0 < ∑ j, logits j) (hinj : Function.Injective logits) :
    Function.Injective (prob logits) := fun _ _ h => hinj ((div_left_inj' hsum.ne').mp h)

/-- **What the filter leaves** of a token. -/
theorem dropBeyond_apply (hsum : 0 < ∑ j, logits j) (hinj : Function.Injective logits) (topP : ℚ)
    (i : Fin n) : dropBeyond logits topP i =
      if heavier (prob logits) i = ∅ ∨ mass (prob logits) (upTo (prob logits) i) ≤ topP then
        logits i
      else 0 := by
  obtain ⟨is, js, hsplit, hi, hnodup, hbefore⟩ := exists_split hinj i
  have hheavier : heavier (prob logits) i = is.toFinset := by
    ext j
    rw [mem_heavier, List.mem_toFinset, hbefore, prob_lt_prob hsum]
  have hmass : mass (prob logits) (upTo (prob logits) i) =
      (is.map (prob logits)).sum + prob logits i := by
    rw [mass_upTo (prob_injective hsum hinj), hheavier]
    congr 1
    exact List.sum_toFinset _ hnodup
  have hempty : heavier (prob logits) i = ∅ ↔ is.map (prob logits) = [] := by
    rw [hheavier, List.toFinset_eq_empty_iff, List.map_eq_nil_iff]
  obtain ⟨ms, ms', hmask, hms⟩ := mask_split topP (is.map (prob logits)) (prob logits i)
    (js.map (prob logits))
  unfold dropBeyond
  simp only [softmax_sorted]
  rw [hsplit, List.map_append, List.map_cons, List.map_append, List.map_cons, hmask, maskedFill,
    List.zipWith_append (by rw [hms, List.length_map, List.length_map]), List.zipWith_cons_cons,
    scatter_split _ hi,
    hmass]
  · by_cases hcut : is.map (prob logits) ≠ [] ∧ topP < (is.map (prob logits)).sum + prob logits i
    · rw [if_pos (decide_eq_true hcut), if_neg (by rw [hempty, not_or, not_le]; exact hcut)]
    · rw [if_neg (by rw [decide_eq_true_iff]; exact hcut), if_pos ?_]
      rw [hempty]
      by_contra h0
      rw [not_or, not_le] at h0
      exact hcut h0
  · rw [List.length_zipWith, hms, List.length_map, List.length_map, min_self]

end Sorted

/-! ### The nucleus -/

/-- The first token alone reaches `top_p`, or some cumulative probability is `top_p`. -/
def Hits (logits : Row n) (topP : ℚ) : Prop :=
  (∃ i, topP ≤ prob logits i) ∨ ∃ i, mass (prob logits) (upTo (prob logits) i) = topP

theorem mass_prob (logits : Row n) (hsum : 0 < ∑ j, logits j) :
    mass (prob logits) Finset.univ = 1 := by
  unfold mass prob
  rw [← Finset.sum_div, div_self hsum.ne']

/-- **Top-p filtering**: both filters keep the same tokens, and they keep the nucleus exactly when
the first token alone reaches `top_p` or some cumulative probability is `top_p` itself.
Probabilities are distinct here, and `0 < top_p < 1`. -/
theorem kept_nucleus_iff (logits : Row n) (hpos : ∀ i, 0 ≤ logits i) (hsum : 0 < ∑ i, logits i)
    (hinj : Function.Injective logits) (topP : ℚ) (h0 : 0 < topP) (h1 : topP < 1) :
    Sampler.applyTopP logits topP = GenerationEngine.filterTopP logits topP ∧
      ((IsNucleus (prob logits) topP (kept (Sampler.applyTopP logits topP)) ∧
          IsNucleus (prob logits) topP (kept (GenerationEngine.filterTopP logits topP))) ↔
        Hits logits topP) := by
  have hboth : Sampler.applyTopP logits topP = dropBeyond logits topP ∧
      GenerationEngine.filterTopP logits topP = dropBeyond logits topP := by
    unfold Sampler.applyTopP GenerationEngine.filterTopP
    rw [if_neg (not_le.mpr h1), if_neg (not_le.mpr h0), if_pos h1]
    exact ⟨rfl, rfl⟩
  have hp : ∀ i, 0 ≤ prob logits i := fun i => div_nonneg (hpos i) hsum.le
  have htotal : topP < mass (prob logits) Finset.univ := by rw [mass_prob logits hsum]; exact h1
  have hkept : ∀ i, i ∈ kept (dropBeyond logits topP) ↔ KeptBelow (prob logits) topP i := by
    intro i
    have hweight : 0 < prob logits i ↔ logits i ≠ 0 := by
      rw [prob, div_pos_iff_of_pos_right hsum, (hpos i).lt_iff_ne, ne_comm]
    unfold KeptBelow
    rw [kept, Finset.mem_filter, dropBeyond_apply hsum hinj, hweight]
    split_ifs with hcut <;> simp [hcut]
  rw [hboth.1, hboth.2, and_self, isNucleus_iff hp (prob_injective hsum hinj) h0 htotal.le]
  simp only [hkept, true_and]
  exact keptBelow_iff_nucleus hp (prob_injective hsum hinj) h0 htotal

/-- Three tokens with the probabilities 1/2, 3/10 and 1/5. -/
def threeTokens : Row 3 := ![1 / 2, 3 / 10, 1 / 5]

/-- The first two tokens have 4/5 together. -/
theorem kept_nucleus_fourFifths :
    Sampler.applyTopP threeTokens (4 / 5) = GenerationEngine.filterTopP threeTokens (4 / 5) ∧
      IsNucleus (prob threeTokens) (4 / 5) (kept (Sampler.applyTopP threeTokens (4 / 5))) ∧
      IsNucleus (prob threeTokens) (4 / 5)
        (kept (GenerationEngine.filterTopP threeTokens (4 / 5))) := by
  have h :=
    kept_nucleus_iff threeTokens (by decide +kernel) (by decide +kernel) (by decide +kernel) (4 / 5)
      (by decide +kernel) (by decide +kernel)
  exact ⟨h.1, h.2.mpr (Or.inr ⟨1, by decide +kernel⟩)⟩

/-- For 7/10 the second token crosses and is removed. -/
theorem crossing_token_removed : ¬ ∀ (n : ℕ) (logits : Row n) (topP : ℚ), (∀ i, 0 ≤ logits i) →
    0 < ∑ i, logits i → Function.Injective logits → 0 < topP → topP < 1 →
      IsNucleus (prob logits) topP (kept (Sampler.applyTopP logits topP)) ∧
        IsNucleus (prob logits) topP (kept (GenerationEngine.filterTopP logits topP)) := by
  intro h
  have hreaches :=
    (h 3 threeTokens (7 / 10) (by decide +kernel) (by decide +kernel) (by decide +kernel)
      (by decide +kernel) (by decide +kernel)).1.reaches
  revert hreaches
  decide +kernel

end MoeInfinity.Serving.TopP
