import Mathlib.Algebra.Order.BigOperators.Group.List
import Mathlib.Algebra.Order.Group.Defs

/-! # Shedding weight until a limit is met

`shed w limit size xs` takes the elements of `xs` in order until what is left of `size` without
their weights is at most `limit`. At least one element is taken, so it is to be used where `size` is
above the limit.

* `shed_isPrefix`: what is taken comes first.
* `shed_eq_or_le`: either everything is taken, or the limit is met.
* `shed_append_isPrefix`: nothing behind a part that suffices is taken. -/

namespace MoeInfinity.Lib.Shed

variable {α M : Type*} [AddCommGroup M] [LinearOrder M] (w : α → M) (limit : M)

def shed : M → List α → List α
  | _, [] => []
  | size, x :: xs => x :: if size - w x ≤ limit then [] else shed (size - w x) xs

variable {w limit}

theorem shed_isPrefix (xs : List α) : ∀ size : M, shed w limit size xs <+: xs := by
  induction xs with
  | nil => exact fun _ => List.nil_prefix
  | cons x xs ih =>
    intro size
    rw [shed, List.prefix_cons_inj]
    split_ifs
    · exact List.nil_prefix
    · exact ih _

theorem shed_eq_or_le (xs : List α) : ∀ size : M,
    shed w limit size xs = xs ∨ size - ((shed w limit size xs).map w).sum ≤ limit := by
  induction xs with
  | nil => exact fun _ => Or.inl rfl
  | cons x xs ih =>
    intro size
    rw [shed]
    split_ifs with hx
    · refine Or.inr ?_
      rw [List.map_singleton, List.sum_singleton]
      exact hx
    · rcases ih (size - w x) with hall | hle
      · exact Or.inl (by rw [hall])
      · refine Or.inr ?_
        rw [List.map_cons, List.sum_cons, ← sub_sub]
        exact hle

theorem shed_append_isPrefix {xs : List α} (hne : xs ≠ []) (ys : List α) : ∀ size : M,
    size - (xs.map w).sum ≤ limit → shed w limit size (xs ++ ys) <+: xs := by
  induction xs with
  | nil => exact absurd rfl hne
  | cons x xs ih =>
    intro size hle
    rw [List.cons_append, shed, List.prefix_cons_inj]
    split_ifs with hx
    · exact List.nil_prefix
    · rw [List.map_cons, List.sum_cons, ← sub_sub] at hle
      refine ih ?_ _ hle
      rintro rfl
      rw [List.map_nil, List.sum_nil, sub_zero] at hle
      exact hx hle

/-- With weights that are not negative, a part that comes first weighs no more. -/
theorem sum_le_of_isPrefix [IsOrderedAddMonoid M] (hw : ∀ x, 0 ≤ w x) {xs ys : List α}
    (h : xs <+: ys) :
    (xs.map w).sum ≤ (ys.map w).sum := by
  obtain ⟨zs, rfl⟩ := h
  rw [List.map_append, List.sum_append]
  refine le_add_of_nonneg_right (List.sum_nonneg ?_)
  rintro _ hx
  obtain ⟨x, -, rfl⟩ := List.mem_map.mp hx
  exact hw x

end MoeInfinity.Lib.Shed
