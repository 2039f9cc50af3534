import Mathlib.Algebra.BigOperators.Group.List.Basic
import Mathlib.Algebra.Ring.Nat
import Mathlib.Data.List.SplitLengths

/-! # Packed lists

Several lists are packed into one, and the offsets of the parts are kept beside it: the running sums
of their lengths, one more than there are parts. The part `k` is the slice between the offsets `k`
and `k + 1`, whether the list was packed (`slice_flatten`) or is to be cut
(`getElem?_splitLengths`). -/

namespace MoeInfinity.Lib.Packed

variable {α : Type*}

/-- The running sums of `ls` from `s`. -/
def offsets (s : ℕ) : List ℕ → List ℕ
  | [] => [s]
  | l :: ls => s :: offsets (s + l) ls

/-- `xs[start:stop]`. -/
def slice (xs : List α) (start stop : ℕ) : List α := (xs.take stop).drop start

/-- `xs[start:start + len(ys)] = ys`. -/
def assign (xs : List α) (start : ℕ) (ys : List α) : List α :=
  xs.take start ++ ys ++ xs.drop (start + ys.length)

/-! ### Offsets -/

@[simp] theorem length_offsets (s : ℕ) (ls : List ℕ) : (offsets s ls).length = ls.length + 1 := by
  induction ls generalizing s with
  | nil => rfl
  | cons l ls ih => simp [offsets, ih]

theorem getElem?_offsets (s : ℕ) (ls : List ℕ) {k : ℕ} (hk : k ≤ ls.length) :
    (offsets s ls)[k]? = some (s + (ls.take k).sum) := by
  induction ls generalizing s k with
  | nil =>
    have : k = 0 := by simpa using hk
    subst this
    rfl
  | cons l ls ih =>
    rcases k with _ | k
    · rfl
    · have hk' : k ≤ ls.length := by simpa using hk
      simp only [offsets, List.getElem?_cons_succ, ih _ hk', List.take_succ_cons, List.sum_cons]
      congr 1
      omega

/-- A list with the right first entry and the right steps is the list of offsets. -/
theorem eq_offsets {s : ℕ} {ls os : List ℕ} (hlen : os.length = ls.length + 1)
    (h : ∀ k ≤ ls.length, os[k]? = some (s + (ls.take k).sum)) : os = offsets s ls := by
  refine List.ext_getElem? fun k => ?_
  by_cases hk : k ≤ ls.length
  · rw [h k hk, getElem?_offsets s ls hk]
  · rw [List.getElem?_eq_none (by omega), List.getElem?_eq_none (by rw [length_offsets]; omega)]

theorem sum_take_succ {ls : List ℕ} {k l : ℕ} (h : ls[k]? = some l) :
    (ls.take (k + 1)).sum = (ls.take k).sum + l := by
  rw [List.take_add_one, h]
  simp

/-! ### Slices -/

theorem slice_eq (xs : List α) (start len : ℕ) :
    slice xs start (start + len) = (xs.drop start).take len := by
  unfold slice
  rw [List.drop_take, Nat.add_sub_cancel_left]

theorem slice_append_left (xs ys : List α) : slice (xs ++ ys) 0 xs.length = xs := by
  simp [slice]

theorem slice_append_right (xs ys : List α) (start stop : ℕ) :
    slice (xs ++ ys) (xs.length + start) (xs.length + stop) = slice ys start stop := by
  unfold slice
  rw [List.take_length_add_append, List.drop_length_add_append]

/-- **The parts of a packed list** lie between its offsets. -/
theorem slice_flatten {xss : List (List α)} {k : ℕ} {xs : List α} (h : xss[k]? = some xs) :
    slice xss.flatten ((xss.map List.length).take k).sum
      ((xss.map List.length).take (k + 1)).sum = xs := by
  induction xss generalizing k with
  | nil => simp at h
  | cons ys xss ih =>
    rcases k with _ | k
    · have : ys = xs := by simpa using h
      subst this
      simpa using slice_append_left ys xss.flatten
    · have h' : xss[k]? = some xs := by simpa using h
      simp only [List.flatten_cons, List.map_cons, List.take_succ_cons, List.sum_cons]
      rw [slice_append_right]
      exact ih h'

theorem getElem?_splitLengths (ls : List ℕ) (xs : List α) {k : ℕ} (hk : k < ls.length) :
    (ls.splitLengths xs)[k]? = some (slice xs (ls.take k).sum (ls.take (k + 1)).sum) := by
  induction ls generalizing xs k with
  | nil => simp at hk
  | cons l ls ih =>
    rcases k with _ | k
    · simp [slice]
    · have hk' : k < ls.length := by simpa using hk
      simp only [List.splitLengths_cons, List.getElem?_cons_succ, ih _ hk', List.take_succ_cons,
        List.sum_cons]
      unfold slice
      rw [← List.drop_drop, List.drop_take, List.drop_take, List.drop_take]
      simp only [Nat.add_sub_cancel_left]

/-! ### Columns -/

/-- The list of the values of `g`, none of which is missing. -/
theorem getElem?_filterMap_range {g : ℕ → Option α} {n : ℕ} (h : ∀ k < n, (g k).isSome) (k : ℕ) :
    ((List.range n).filterMap g)[k]? = if k < n then g k else none := by
  have hlen : ∀ m ≤ n, ((List.range m).filterMap g).length = m := by
    intro m hm
    induction m with
    | zero => rfl
    | succ m ih =>
      obtain ⟨x, hx⟩ := Option.isSome_iff_exists.mp (h m (by omega))
      simp [List.range_succ, ih (by omega), hx]
  induction n with
  | zero => simp
  | succ n ih =>
    obtain ⟨x, hx⟩ := Option.isSome_iff_exists.mp (h n (by omega))
    have hn := hlen n (by omega)
    rw [List.range_succ, List.filterMap_append]
    simp only [List.filterMap_cons, hx, List.filterMap_nil]
    rcases Nat.lt_trichotomy k n with hk | rfl | hk
    · rw [List.getElem?_append_left (by omega), if_pos (by omega),
        ih (fun k hk => h k (by omega)) (fun m hm => hlen m (by omega)), if_pos hk]
    · rw [List.getElem?_append_right (by omega), hn, if_pos (by omega), hx]
      simp
    · rw [if_neg (by omega), List.getElem?_eq_none]
      simp only [List.length_append, List.length_cons, List.length_nil]
      omega

theorem filterMap_range_getElem? (xs : List α) :
    (List.range xs.length).filterMap (fun k => xs[k]?) = xs := by
  refine List.ext_getElem? fun k => ?_
  rw [getElem?_filterMap_range (g := fun k => xs[k]?) (fun k hk => by simpa using hk)]
  split
  · rfl
  · next h => exact (List.getElem?_eq_none (not_lt.mp h)).symm

/-! ### Assignments -/

theorem assign_append (xs ys zs : List α) :
    assign (xs ++ zs) xs.length ys = xs ++ (ys ++ zs.drop ys.length) := by
  unfold assign
  rw [List.take_left, List.drop_length_add_append, List.append_assoc]

end MoeInfinity.Lib.Packed
