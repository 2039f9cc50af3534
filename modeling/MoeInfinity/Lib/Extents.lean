import Mathlib.Data.List.Basic
import Mathlib.Tactic.Basic

/-! # Memory written in pieces

A memory is a function from positions to cells. `writeAt` and `readAt` copy a list to and from an
extent; `writeAll` writes a list of pieces one after the other. If all pieces that cover a position
write the same cell there, the order of the pieces does not matter (`writeAll_of_agree`). -/

namespace MoeInfinity.Lib.Extents

variable {α : Type*}

/-- The memory after `xs` has been written from `start` on. -/
def writeAt (mem : ℕ → α) (start : ℕ) (xs : List α) : ℕ → α :=
  fun p => if start ≤ p then (xs[p - start]?).getD (mem p) else mem p

/-- The `len` cells from `start` on. -/
def readAt (mem : ℕ → α) (start len : ℕ) : List α := (List.range len).map fun k => mem (start + k)

/-- An operation on the memory from `start` on. -/
def within (mem : ℕ → α) (start : ℕ) (f : (ℕ → α) → ℕ → α) : ℕ → α :=
  fun p => if start ≤ p then f (fun q => mem (start + q)) (p - start) else mem p

/-- The position lies in the extent of `len` cells from `start` on. -/
def Covers (start len p : ℕ) : Prop := start ≤ p ∧ p < start + len

instance (start len p : ℕ) : Decidable (Covers start len p) := inferInstanceAs (Decidable (_ ∧ _))

/-! ### Reading and writing one extent -/

section One

variable {mem mem' : ℕ → α} {start len p : ℕ} {xs : List α}

@[simp] theorem length_readAt (mem : ℕ → α) (start len : ℕ) :
    (readAt mem start len).length = len := by
  simp [readAt]

theorem getElem?_readAt {k : ℕ} (hk : k < len) :
    (readAt mem start len)[k]? = some (mem (start + k)) := by
  simp [readAt, hk]

theorem readAt_congr (h : ∀ k < len, mem' (start + k) = mem (start + k)) :
    readAt mem' start len = readAt mem start len := by
  unfold readAt
  exact List.map_congr_left fun k hk => h k (List.mem_range.mp hk)

theorem writeAt_of_covers (h : Covers start xs.length p) :
    writeAt mem start xs p = (xs[p - start]?).getD (mem p) := if_pos h.1

theorem writeAt_of_not_covers (h : ¬ Covers start xs.length p) :
    writeAt mem start xs p = mem p := by
  unfold writeAt
  split_ifs with hp
  · have hout : xs.length ≤ p - start := by
      by_contra hlt
      exact h ⟨hp, by omega⟩
    rw [List.getElem?_eq_none hout, Option.getD_none]
  · rfl

/-- What is written from another memory. -/
theorem writeAt_readAt (mem mem' : ℕ → α) (start from' len p : ℕ) :
    writeAt mem start (readAt mem' from' len) p =
      if Covers start len p then mem' (from' + (p - start)) else mem p := by
  split_ifs with h
  · have hk : p - start < len := by
      have h1 := h.1
      have h2 := h.2
      omega
    rw [writeAt_of_covers (by rw [length_readAt]; exact h), getElem?_readAt hk, Option.getD_some]
  · exact writeAt_of_not_covers (by rw [length_readAt]; exact h)

theorem writeAt_replicate (mem : ℕ → α) (start len p : ℕ) (x : α) :
    writeAt mem start (List.replicate len x) p = if Covers start len p then x else mem p := by
  split_ifs with h
  · have hk : p - start < len := by
      have h1 := h.1
      have h2 := h.2
      omega
    rw [writeAt_of_covers (by rw [List.length_replicate]; exact h),
      List.getElem?_replicate_of_lt hk, Option.getD_some]
  · exact writeAt_of_not_covers (by rw [List.length_replicate]; exact h)

theorem readAt_writeAt_self (mem : ℕ → α) (start : ℕ) (xs : List α) :
    readAt (writeAt mem start xs) start xs.length = xs := by
  refine List.ext_getElem? fun k => ?_
  by_cases hk : k < xs.length
  · rw [getElem?_readAt hk, writeAt_of_covers ⟨by omega, by omega⟩,
      show start + k - start = k by omega, List.getElem?_eq_getElem hk, Option.getD_some]
  · rw [List.getElem?_eq_none (by simpa using hk), List.getElem?_eq_none (by simpa using hk)]

end One

/-! ### Writing pieces -/

/-- The pieces, with the positions where they start, are written one after the other. -/
def writeAll (mem : ℕ → α) (pieces : List (ℕ × List α)) : ℕ → α :=
  pieces.foldl (fun m q => writeAt m q.1 q.2) mem

section Pieces

variable {mem : ℕ → α} {pieces : List (ℕ × List α)} {p : ℕ}

theorem writeAll_of_not_covers : ∀ {pieces : List (ℕ × List α)} {mem : ℕ → α},
    (∀ q ∈ pieces, ¬ Covers q.1 q.2.length p) → writeAll mem pieces p = mem p
  | [], _, _ => rfl
  | q :: pieces, mem, h => by
    show writeAll (writeAt mem q.1 q.2) pieces p = mem p
    rw [writeAll_of_not_covers fun q' hq' => h q' (List.mem_cons_of_mem q hq')]
    exact writeAt_of_not_covers (h q List.mem_cons_self)

/-- **Pieces that agree**: if all pieces that cover a position write `x` there and one of them does
cover it, the memory has `x` there, whatever the order. -/
theorem writeAll_of_agree {x : α} : ∀ {pieces : List (ℕ × List α)} {mem : ℕ → α},
    (∀ q ∈ pieces, Covers q.1 q.2.length p → q.2[p - q.1]? = some x) →
    (∃ q ∈ pieces, Covers q.1 q.2.length p) → writeAll mem pieces p = x
  | [], _, _, ⟨_, hq, _⟩ => absurd hq List.not_mem_nil
  | q :: pieces, mem, hagree, hex => by
    show writeAll (writeAt mem q.1 q.2) pieces p = x
    by_cases hlater : ∃ q' ∈ pieces, Covers q'.1 q'.2.length p
    · exact writeAll_of_agree (fun q' hq' => hagree q' (List.mem_cons_of_mem q hq')) hlater
    · obtain ⟨q', hq', hcov⟩ := hex
      rcases List.mem_cons.mp hq' with rfl | hq'
      · rw [writeAll_of_not_covers fun r hr hr' => hlater ⟨r, hr, hr'⟩, writeAt_of_covers hcov,
          hagree q' List.mem_cons_self hcov, Option.getD_some]
      · exact absurd ⟨q', hq', hcov⟩ hlater

end Pieces

end MoeInfinity.Lib.Extents
