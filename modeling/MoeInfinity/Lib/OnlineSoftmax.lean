import Mathlib.Algebra.Module.BigOperators
import Mathlib.Algebra.Order.BigOperators.Group.List
import Mathlib.Algebra.Order.Field.Basic
import MoeInfinity.Lib.Grid

/-! # The softmax mean in one pass

The mean of values, weighted by the exponentials of their scores. A score `⊥` is minus infinity:
what has it counts nothing. The mean does not change when a constant is subtracted from all scores
(`mean_shifted`), so that one can keep, of the values seen so far, a bound `m` of the scores, and
the mass and the sum with `m` subtracted from the scores (`Tracks`). When the bound grows, both are
rescaled (`Tracks.append`); in the end their quotient is the mean (`Tracks.mean_eq`). -/

namespace MoeInfinity.Lib.OnlineSoftmax

open MoeInfinity.Lib.Grid

variable {K V : Type*}

/-- What is used of the exponential function. -/
structure IsExp [Ring K] [LT K] (exp : K → K) : Prop where
  pos : ∀ x, 0 < exp x
  add : ∀ x y, exp (x + y) = exp x * exp y

/-! ### Masses and sums -/

section Sums

variable [Ring K]

/-- The exponential of a score. -/
def weight (exp : K → K) : WithBot K → K
  | ⊥ => 0
  | (x : K) => exp x

/-- A score, less `c`. -/
def shift (c : K) : WithBot K → WithBot K := WithBot.map (· - c)

def mass (exp : K → K) (xs : List (WithBot K × V)) : K := (xs.map fun x => weight exp x.1).sum

def total [AddCommGroup V] [Module K V] (exp : K → K) (xs : List (WithBot K × V)) : V :=
  (xs.map fun x => weight exp x.1 • x.2).sum

/-- The values, with `c` subtracted from their scores. -/
def shifted (c : K) (xs : List (WithBot K × V)) : List (WithBot K × V) :=
  xs.map fun x => (shift c x.1, x.2)

variable {exp : K → K} {xs ys : List (WithBot K × V)} {c : K}

@[simp] theorem weight_bot : weight exp ⊥ = 0 := rfl

@[simp] theorem weight_coe (x : K) : weight exp x = exp x := rfl

theorem shift_coe (x : K) : shift c (x : WithBot K) = ((x - c : K) : WithBot K) := rfl

theorem mass_append : mass exp (xs ++ ys) = mass exp xs + mass exp ys := by
  unfold mass
  rw [List.map_append, List.sum_append]

variable [LinearOrder K]

theorem mul_weight_shift (h : IsExp exp) (c : K) (x : WithBot K) :
    exp c * weight exp (shift c x) = weight exp x := by
  cases x with
  | bot => exact mul_zero (exp c)
  | coe x => rw [shift_coe, weight_coe, weight_coe, ← h.add, add_sub_cancel]

theorem mul_mass_shifted (h : IsExp exp) (c : K) (xs : List (WithBot K × V)) :
    exp c * mass exp (shifted c xs) = mass exp xs := by
  unfold mass shifted
  rw [List.map_map, ← List.sum_map_mul_left]
  exact congrArg List.sum (List.map_congr_left fun x _ => mul_weight_shift h c x.1)

theorem weight_nonneg (h : IsExp exp) (x : WithBot K) : 0 ≤ weight exp x := by
  cases x with
  | bot => exact le_rfl
  | coe x => exact (h.pos x).le

/-- Something that counts gives a positive mass. -/
theorem mass_pos [IsOrderedAddMonoid K] (h : IsExp exp) (hne : ∃ x ∈ xs, x.1 ≠ ⊥) :
    0 < mass exp xs := by
  obtain ⟨⟨score, v⟩, hx, hbot⟩ := hne
  obtain ⟨s, rfl⟩ := WithBot.ne_bot_iff_exists.mp hbot
  refine lt_of_lt_of_le (h.pos s) ?_
  refine List.single_le_sum (fun w hw => ?_) _
    (List.mem_map_of_mem (f := fun x => weight exp x.1) hx)
  obtain ⟨x, -, rfl⟩ := List.mem_map.mp hw
  exact weight_nonneg h x.1

variable [AddCommGroup V] [Module K V]

omit [LinearOrder K] in
theorem total_append : total exp (xs ++ ys) = total exp xs + total exp ys := by
  unfold total
  rw [List.map_append, List.sum_append]

theorem smul_total_shifted (h : IsExp exp) (c : K) (xs : List (WithBot K × V)) :
    exp c • total exp (shifted c xs) = total exp xs := by
  unfold total shifted
  rw [List.map_map, List.smul_sum, List.map_map]
  refine congrArg List.sum (List.map_congr_left fun x _ => ?_)
  show exp c • weight exp (shift c x.1) • x.2 = weight exp x.1 • x.2
  rw [smul_smul, mul_weight_shift h]

end Sums

/-! ### The mean -/

variable [Field K] [LinearOrder K] [AddCommGroup V] [Module K V] {exp : K → K}
  {xs ys : List (WithBot K × V)} {l : K} {m : WithBot K} {acc : V}

/-- The weighted mean. -/
def mean (exp : K → K) (xs : List (WithBot K × V)) : V := (mass exp xs)⁻¹ • total exp xs

/-- **The mean does not depend on the constant.** -/
theorem mean_shifted (h : IsExp exp) (c : K) (xs : List (WithBot K × V)) :
    mean exp (shifted c xs) = mean exp xs := by
  have hc : exp c ≠ 0 := (h.pos c).ne'
  unfold mean
  rw [← mul_mass_shifted h c xs, ← smul_total_shifted h c xs, smul_smul, mul_inv_rev, mul_assoc,
    inv_mul_cancel₀ hc, mul_one]

omit [LinearOrder K] in
/-- What is masked counts nothing. -/
theorem mean_masked {n k : ℕ} (h : n ≤ k) (score : ℕ → K) (value : ℕ → V) :
    mean exp ((List.range k).map fun i => (if i < n then (score i : WithBot K) else ⊥, value i)) =
      mean exp ((List.range n).map fun i => ((score i : WithBot K), value i)) := by
  have hmass := sum_masked h fun i => exp (score i)
  have htotal := sum_masked h fun i => exp (score i) • value i
  have hweight : ∀ i, weight exp (if i < n then (score i : WithBot K) else ⊥) = if i < n
      then exp (score i) else 0 := by
    intro i
    split_ifs <;> rfl
  unfold mean mass total
  simp only [List.map_map, Function.comp_def, hweight, ite_smul, zero_smul, weight_coe]
  rw [hmass, htotal]

/-! ### One pass -/

omit [LinearOrder K] in
/-- `l` and `acc` are the mass and the sum, with `m` subtracted from the scores. -/
structure Tracks (exp : K → K) (xs : List (WithBot K × V)) (m : WithBot K) (l : K)
    (acc : V) : Prop where
  mass_eq : weight exp m * l = mass exp xs
  total_eq : weight exp m • acc = total exp xs

omit [LinearOrder K] in
theorem tracks_nil : Tracks exp ([] : List (WithBot K × V)) ⊥ 0 0 := ⟨mul_zero _, smul_zero _⟩

/-- **More values**: what was kept is rescaled to the new bound. -/
theorem Tracks.append (h : IsExp exp) (ht : Tracks exp xs m l acc) (c : K)
    (ys : List (WithBot K × V)) :
    Tracks exp (xs ++ ys) c (l * weight exp (shift c m) + mass exp (shifted c ys))
      (weight exp (shift c m) • acc + total exp (shifted c ys)) := by
  constructor
  · calc weight exp (c : WithBot K) * (l * weight exp (shift c m) + mass exp (shifted c ys))
        = exp c * weight exp (shift c m) * l + exp c * mass exp (shifted c ys) := by
          rw [weight_coe, mul_add, mul_comm l, mul_assoc]
      _ = mass exp (xs ++ ys) := by
          rw [mul_weight_shift h, ht.mass_eq, mul_mass_shifted h, mass_append]
  · calc weight exp (c : WithBot K) • (weight exp (shift c m) • acc + total exp (shifted c ys))
        = (exp c * weight exp (shift c m)) • acc + exp c • total exp (shifted c ys) := by
          rw [weight_coe, smul_add, smul_smul]
      _ = total exp (xs ++ ys) := by
          rw [mul_weight_shift h, ht.total_eq, smul_total_shifted h, total_append]

/-- **The quotient** is the mean. -/
theorem Tracks.mean_eq [IsStrictOrderedRing K] (h : IsExp exp) (ht : Tracks exp xs m l acc)
    (hne : ∃ x ∈ xs, x.1 ≠ ⊥) : 0 < l ∧ l⁻¹ • acc = mean exp xs := by
  have hpos := mass_pos h hne
  rw [← ht.mass_eq] at hpos
  have hw : 0 < weight exp m := lt_of_le_of_ne (weight_nonneg h m) fun hzero => by
    rw [← hzero, zero_mul] at hpos
    exact lt_irrefl 0 hpos
  refine ⟨pos_of_mul_pos_right hpos hw.le, ?_⟩
  unfold mean
  rw [← ht.mass_eq, ← ht.total_eq, smul_smul, mul_inv_rev, mul_assoc,
    inv_mul_cancel₀ hw.ne', mul_one]

end MoeInfinity.Lib.OnlineSoftmax
