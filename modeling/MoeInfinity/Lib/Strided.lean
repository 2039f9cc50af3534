import Mathlib.Algebra.Order.Ring.Nat
import MoeInfinity.Lib.RowMajor

/-! # Tensors in memory

The entries of a tensor of any number of dimensions, row-major. The entry at an index is at the sum
of its numbers times the strides of the dimensions (`offset`); `unravel` is the way back
(`unravel_offset`). -/

namespace MoeInfinity.Lib.Strided

open MoeInfinity.Lib.RowMajor

/-- The strides of a row-major tensor. -/
def strides : List ℕ → List ℕ
  | [] => []
  | _ :: shape => shape.prod :: strides shape

/-- The place of an index. -/
def offset (stride idx : List ℕ) : ℕ := (List.zipWith (· * ·) idx stride).sum

/-- The index of a place. -/
def unravel : List ℕ → ℕ → List ℕ
  | [], _ => []
  | _ :: shape, x => x / shape.prod :: unravel shape (x % shape.prod)

/-- An index of a tensor of this shape. -/
def Inside (idx shape : List ℕ) : Prop := List.Forall₂ (· < ·) idx shape

/-- The entries of a tensor in memory. -/
def ravel {α : Type*} (shape : List ℕ) (entry : List ℕ → α) : List α :=
  (List.range shape.prod).map fun x => entry (unravel shape x)

variable {idx idx' shape : List ℕ}

theorem offset_cons {i n : ℕ} : offset (strides (n :: shape)) (i :: idx) =
    i * shape.prod + offset (strides shape) idx := by
  unfold offset
  rw [strides, List.zipWith_cons_cons, List.sum_cons]

theorem offset_lt (h : Inside idx shape) : offset (strides shape) idx < shape.prod := by
  induction h with
  | nil => exact Nat.one_pos
  | @cons i n idx shape hi _ ih =>
    rw [offset_cons, List.prod_cons]
    exact index_lt hi ih

theorem unravel_offset (h : Inside idx shape) :
    unravel shape (offset (strides shape) idx) = idx := by
  induction h with
  | nil => rfl
  | @cons i n idx shape hi hrest ih =>
    have hlt := offset_lt hrest
    rw [offset_cons, unravel, index_div hlt, index_mod hlt, ih]

/-- **Indices do not share a place.** -/
theorem offset_inj (h : Inside idx shape) (h' : Inside idx' shape)
    (heq : offset (strides shape) idx = offset (strides shape) idx') : idx = idx' := by
  rw [← unravel_offset h, heq, unravel_offset h']

theorem getElem?_ravel {α : Type*} (entry : List ℕ → α) (h : Inside idx shape) :
    (ravel shape entry)[offset (strides shape) idx]? = some (entry idx) := by
  unfold ravel
  rw [List.getElem?_map, List.getElem?_range (offset_lt h), Option.map_some, unravel_offset h]

theorem offset_append {s' : List ℕ} (h : idx.length = shape.length) (idx' : List ℕ) :
    offset (strides (shape ++ s')) (idx ++ idx') =
      offset (strides shape) idx * s'.prod + offset (strides s') idx' := by
  induction idx generalizing shape with
  | nil =>
    obtain rfl := List.length_eq_zero_iff.mp h.symm
    show offset (strides s') idx' = 0 * s'.prod + offset (strides s') idx'
    rw [Nat.zero_mul, Nat.zero_add]
  | cons i idx ih =>
    cases shape with
    | nil => cases h
    | cons n shape =>
      rw [List.cons_append, List.cons_append, offset_cons, offset_cons, ih (Nat.succ.inj h),
        List.prod_append, Nat.add_mul, Nat.mul_assoc, Nat.add_assoc]

theorem offset_one (n i : ℕ) : offset (strides [n]) [i] = i := by
  simp [offset, strides]

theorem offset_two (rows cols i j : ℕ) : offset (strides [rows, cols]) [i, j] = i * cols + j := by
  simp [offset, strides]

theorem Inside.append {s' : List ℕ} (h : Inside idx shape) (h' : Inside idx' s') :
    Inside (idx ++ idx') (shape ++ s') := by
  induction h with
  | nil => exact h'
  | cons hi _ ih => exact .cons hi ih

/-- The numbers of an index, times the strides, are below the number of entries. -/
theorem mul_stride_lt {p : ℕ × ℕ} (h : Inside idx shape) (hp : p ∈ idx.zip (strides shape)) :
    p.1 * p.2 < shape.prod := by
  induction h with
  | nil => cases hp
  | @cons i n idx shape hi hrest ih =>
    have hpos := Nat.zero_lt_of_lt (offset_lt hrest)
    have hle : shape.prod ≤ n * shape.prod := Nat.le_mul_of_pos_left _ (Nat.zero_lt_of_lt hi)
    rw [strides, List.zip_cons_cons] at hp
    rw [List.prod_cons]
    rcases List.mem_cons.mp hp with rfl | hp
    · exact Nat.mul_lt_mul_of_pos_right hi hpos
    · exact Nat.lt_of_lt_of_le (ih hp) hle

end MoeInfinity.Lib.Strided
