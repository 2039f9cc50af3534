import Mathlib.Algebra.Order.Group.Defs
import Mathlib.Algebra.Order.Sub.Basic
import Mathlib.Data.List.Basic

/-! # Sliding windows

A limiter keeps times at which it admitted something. An attempt first drops the times that are
older than the window, for good, and is admitted if fewer than `limit` are left.

`Tracks` compares what is kept with all that was ever admitted: as long as the clock does not go
back, they agree in every window that is still to come, and no window whatsoever has more than
`limit` admitted times. -/

namespace MoeInfinity.Lib.SlidingWindow

variable {τ : Type*} [AddCommGroup τ] [LinearOrder τ]
variable {width now now' a : τ} {limit : ℕ} {times admitted : List τ}

/-- The times that are not older than the window that ends now. -/
def recent (width now : τ) (times : List τ) : List τ := times.filter (now - width ≤ ·)

/-- The times in the closed window that starts at `a`. -/
def within (width a : τ) (times : List τ) : List τ := times.filter fun t => a ≤ t ∧ t ≤ a + width

/-- Whether an attempt is admitted, and the times that are kept. -/
def attempt (width : τ) (limit : ℕ) (times : List τ) (now : τ) : Bool × List τ :=
  if limit ≤ (recent width now times).length then (false, recent width now times)
  else (true, recent width now times ++ [now])

/-- What a later window drops includes what an earlier one drops. -/
theorem recent_recent [IsOrderedAddMonoid τ] (h : now ≤ now') :
    recent width now' (recent width now times) = recent width now' times := by
  unfold recent
  rw [List.filter_filter]
  refine List.filter_congr fun t _ => ?_
  have hle : now - width ≤ now' - width := sub_le_sub_right h width
  simp only [Bool.and_eq_decide, decide_eq_true_eq, decide_eq_decide]
  exact ⟨And.left, fun ht => ⟨ht, hle.trans ht⟩⟩

theorem recent_append (l l' : List τ) :
    recent width now (l ++ l') = recent width now l ++ recent width now l' :=
  List.filter_append ..

/-- For times that are not in the future the window that ends now is a closed one. -/
theorem recent_eq_within (h : ∀ t ∈ times, t ≤ now) :
    recent width now times = within width (now - width) times := by
  refine List.filter_congr fun t ht => ?_
  have hle := h t ht
  simp [hle]

structure Tracks (width : τ) (limit : ℕ) (times admitted : List τ) (now : τ) : Prop where
  recent_eq : ∀ later, now ≤ later → recent width later times = recent width later admitted
  past : ∀ t ∈ admitted, t ≤ now
  bounded : ∀ a, (within width a admitted).length ≤ limit

theorem tracks_nil : Tracks width limit ([] : List τ) [] now :=
  ⟨fun _ _ => rfl, fun _ h => absurd h List.not_mem_nil, fun _ => Nat.zero_le limit⟩

namespace Tracks

theorem later (h : Tracks width limit times admitted now) (hle : now ≤ now') :
    Tracks width limit times admitted now' :=
  ⟨fun t ht => h.recent_eq t (hle.trans ht), fun t ht => (h.past t ht).trans hle, h.bounded⟩

/-- **Refusals**: an attempt is refused exactly if the window that ends now is full. -/
theorem refused_iff (h : Tracks width limit times admitted now) :
    (attempt width limit times now).1 = false ↔
    (within width (now - width) admitted).length = limit := by
  have hlen := h.bounded (now - width)
  unfold attempt
  rw [h.recent_eq now le_rfl, recent_eq_within h.past]
  by_cases hfull : limit ≤ (within width (now - width) admitted).length
  · rw [if_pos hfull]
    exact ⟨fun _ => le_antisymm hlen hfull, fun _ => rfl⟩
  · rw [if_neg hfull]
    exact ⟨fun h0 => absurd h0.symm Bool.false_ne_true, fun h0 => absurd h0.ge hfull⟩

/-- A window with the new time in it reaches back no further than the window that ends now. -/
theorem bounded_append [IsOrderedAddMonoid τ] (h : Tracks width limit times admitted now)
    (hroom : (recent width now admitted).length < limit) (a : τ) :
    (within width a (admitted ++ [now])).length ≤ limit := by
  unfold within
  rw [List.filter_append, List.length_append]
  by_cases hnow : a ≤ now ∧ now ≤ a + width
  · have hsub : (within width a admitted).length ≤ (recent width now admitted).length := by
      refine List.Sublist.length_le (List.monotone_filter_right admitted fun t ht => ?_)
      simp only [decide_eq_true_eq] at ht ⊢
      exact (sub_le_iff_le_add.mpr hnow.2).trans ht.1
    have hone : ([now].filter fun t => a ≤ t ∧ t ≤ a + width).length ≤ 1 :=
      List.length_filter_le _ [now]
    unfold within at hsub
    omega
  · have hnone : ([now].filter fun t => a ≤ t ∧ t ≤ a + width) = [] := by simpa using hnow
    rw [hnone]
    exact h.bounded a

/-- **One attempt.** -/
theorem attempt [IsOrderedAddMonoid τ] (h : Tracks width limit times admitted now) :
    Tracks width limit (attempt width limit times now).2
      (admitted ++ if (SlidingWindow.attempt width limit times now).1 then [now] else []) now := by
  have hkept : ∀ later, now ≤ later →
      recent width later (recent width now times) =
        recent width later admitted := fun later hle => by
    rw [recent_recent hle, h.recent_eq later hle]
  unfold SlidingWindow.attempt
  by_cases hfull : limit ≤ (recent width now times).length
  · rw [if_pos hfull]
    refine ⟨fun later hle => ?_, fun t ht => ?_, fun a => ?_⟩
    · simpa using hkept later hle
    · exact h.past t (by simpa using ht)
    · simpa using h.bounded a
  · rw [if_neg hfull]
    refine ⟨fun later hle => ?_, fun t ht => ?_, h.bounded_append ?_⟩
    · simp only [recent_append, hkept later hle, if_true]
    · rcases List.mem_append.mp ht with ht | ht
      · exact h.past t ht
      · exact (List.mem_singleton.mp ht).le
    · rw [← h.recent_eq now le_rfl]
      exact not_le.mp hfull

end Tracks

end MoeInfinity.Lib.SlidingWindow
