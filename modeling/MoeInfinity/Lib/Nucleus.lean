import Mathlib.Algebra.Order.BigOperators.Group.Finset
import Mathlib.Data.Fintype.Basic
import Mathlib.Data.Finset.Max

/-! # The nucleus of a distribution

The outcomes of a finite distribution in descending order of their mass: a head is a set of outcomes
that has with an outcome all heavier ones, and the nucleus of `t` is the smallest head of mass at
least `t`. It consists of the outcomes for which the heavier ones do not reach `t`
(`isNucleus_iff`). -/

namespace MoeInfinity.Lib.Nucleus

section Order

variable {ι M : Type*} [Fintype ι] [LinearOrder M]

/-- The outcomes heavier than `i`. -/
def heavier (p : ι → M) (i : ι) : Finset ι := Finset.univ.filter fun j => p i < p j

/-- The outcomes at least as heavy as `i`. -/
def upTo (p : ι → M) (i : ι) : Finset ι := Finset.univ.filter fun j => p i ≤ p j

/-- With an outcome, all heavier ones. -/
def IsHead (p : ι → M) (s : Finset ι) : Prop := ∀ i ∈ s, heavier p i ⊆ s

variable {p : ι → M} {i j : ι}

@[simp] theorem mem_heavier : j ∈ heavier p i ↔ p i < p j := by simp [heavier]

@[simp] theorem mem_upTo : j ∈ upTo p i ↔ p i ≤ p j := by simp [upTo]

theorem heavier_subset_heavier (h : p i ≤ p j) : heavier p j ⊆ heavier p i := fun _ hk =>
  mem_heavier.mpr (h.trans_lt (mem_heavier.mp hk))

theorem upTo_subset_upTo (h : p i ≤ p j) : upTo p j ⊆ upTo p i := fun _ hk =>
  mem_upTo.mpr (h.trans (mem_upTo.mp hk))

theorem upTo_subset_heavier (h : p j < p i) : upTo p i ⊆ heavier p j := fun _ hk =>
  mem_heavier.mpr (h.trans_le (mem_upTo.mp hk))

theorem isHead_upTo (p : ι → M) (i : ι) : IsHead p (upTo p i) := fun _ hj _ hk =>
  mem_upTo.mpr ((mem_upTo.mp hj).trans (mem_heavier.mp hk).le)

/-- A head without an outcome is heavier than the outcome. -/
theorem IsHead.subset_heavier {s : Finset ι} (h : IsHead p s) (hinj : Function.Injective p)
    (hi : i ∉ s) :
    s ⊆ heavier p i := by
  intro j hj
  rw [mem_heavier]
  rcases lt_trichotomy (p i) (p j) with hlt | heq | hgt
  · exact hlt
  · rw [hinj heq] at hi
    exact absurd hj hi
  · exact absurd (h j hj (mem_heavier.mpr hgt)) hi

end Order

section Mass

variable {ι M : Type*} [Fintype ι] [AddCommGroup M] [LinearOrder M]

/-- The mass of a set of outcomes. -/
def mass (p : ι → M) (s : Finset ι) : M := ∑ i ∈ s, p i

/-- The smallest head of mass at least `t`. -/
structure IsNucleus (p : ι → M) (t : M) (s : Finset ι) : Prop where
  head : IsHead p s
  reaches : t ≤ mass p s
  least : ∀ s', IsHead p s' → t ≤ mass p s' → s ⊆ s'

/-- Among distinct masses, an outcome is all that lies between the heavier ones and itself. -/
theorem mass_upTo [DecidableEq ι] {p : ι → M} (hinj : Function.Injective p) (i : ι) :
    mass p (upTo p i) = mass p (heavier p i) + p i := by
  have hinsert : upTo p i = insert i (heavier p i) := by
    ext j
    rw [mem_upTo, Finset.mem_insert, mem_heavier, le_iff_lt_or_eq, or_comm]
    exact or_congr_left ⟨fun h => (hinj h).symm, fun h => by rw [h]⟩
  unfold mass
  rw [hinsert, Finset.sum_insert (by simp), add_comm]

variable [IsOrderedAddMonoid M] {p : ι → M} {t : M} {i j : ι}

omit [Fintype ι] in
theorem mass_mono (hp : ∀ i, 0 ≤ p i) {s s' : Finset ι} (h : s ⊆ s') : mass p s ≤ mass p s' :=
  Finset.sum_le_sum_of_subset_of_nonneg h fun i _ _ => hp i

omit [Fintype ι] in
theorem le_mass (hp : ∀ i, 0 ≤ p i) {s : Finset ι} (hi : i ∈ s) : p i ≤ mass p s :=
  Finset.single_le_sum (fun i _ => hp i) hi

/-- **The crossing outcome**: the heavier ones do not reach `t`, with itself they do. -/
theorem exists_crossing (hp : ∀ i, 0 ≤ p i) (ht : 0 < t) (htotal : t ≤ mass p Finset.univ) :
    ∃ m, mass p (heavier p m) < t ∧ t ≤ mass p (upTo p m) := by
  classical
  have hne : (Finset.univ : Finset ι).Nonempty := by
    rw [Finset.nonempty_iff_ne_empty]
    intro h0
    rw [h0] at htotal
    exact absurd htotal (not_le.mpr (by simpa [mass] using ht))
  obtain ⟨top, -, htop⟩ := Finset.exists_max_image Finset.univ p hne
  set inside := Finset.univ.filter fun i => mass p (heavier p i) < t with hinside
  have htop_mem : top ∈ inside := by
    have hnone : heavier p top = ∅ := by
      ext j
      simpa using htop j (Finset.mem_univ j)
    rw [hinside, Finset.mem_filter, hnone]
    exact ⟨Finset.mem_univ _, by simpa [mass] using ht⟩
  obtain ⟨m, hm, hmin⟩ := Finset.exists_min_image inside p ⟨top, htop_mem⟩
  rw [hinside, Finset.mem_filter] at hm
  refine ⟨m, hm.2, ?_⟩
  by_contra hlt
  rw [not_le] at hlt
  -- The heaviest outcome outside would be inside as well.
  have houtside : (upTo p m)ᶜ.Nonempty := by
    rw [Finset.nonempty_iff_ne_empty]
    intro h0
    have hall : upTo p m = Finset.univ := by rwa [Finset.compl_eq_empty_iff] at h0
    rw [hall] at hlt
    exact absurd hlt (not_lt.mpr htotal)
  obtain ⟨i, hi, hmax⟩ := Finset.exists_max_image _ p houtside
  rw [Finset.mem_compl, mem_upTo, not_le] at hi
  have hsub : heavier p i ⊆ upTo p m := by
    intro j hj
    by_contra hj'
    exact absurd (hmax j (Finset.mem_compl.mpr hj')) (not_le.mpr (mem_heavier.mp hj))
  have hi_mem : i ∈ inside := by
    rw [hinside, Finset.mem_filter]
    exact ⟨Finset.mem_univ _, (mass_mono hp hsub).trans_lt hlt⟩
  exact absurd (hmin i hi_mem) (not_le.mpr hi)

/-- **The nucleus** consists of the outcomes for which the heavier ones do not reach `t`. -/
theorem isNucleus_iff (hp : ∀ i, 0 ≤ p i) (hinj : Function.Injective p) (ht : 0 < t)
    (htotal : t ≤ mass p Finset.univ) {s : Finset ι} :
    IsNucleus p t s ↔ ∀ i, i ∈ s ↔ mass p (heavier p i) < t := by
  obtain ⟨m, hbelow, hreach⟩ := exists_crossing hp ht htotal
  constructor
  · intro h i
    constructor
    · intro hi
      have him := mem_upTo.mp (h.least (upTo p m) (isHead_upTo p m) hreach hi)
      exact (mass_mono hp (heavier_subset_heavier him)).trans_lt hbelow
    · intro hlt
      by_contra hi
      exact absurd h.reaches
        (not_le.mpr ((mass_mono hp (h.head.subset_heavier hinj hi)).trans_lt hlt))
  · intro hall
    refine ⟨fun i hi k hk => ?_, ?_, fun s' hhead hreach' i hi => ?_⟩
    · rw [hall] at hi ⊢
      exact (mass_mono hp (heavier_subset_heavier (mem_heavier.mp hk).le)).trans_lt hi
    · refine hreach.trans (mass_mono hp fun j hj => ?_)
      rw [hall]
      exact (mass_mono hp (heavier_subset_heavier (mem_upTo.mp hj))).trans_lt hbelow
    · by_contra hi'
      rw [hall] at hi
      exact absurd hreach' (not_le.mpr ((mass_mono hp (hhead.subset_heavier hinj hi')).trans_lt hi))

/-! ### Cutting where the mass exceeds the bound -/

/-- An outcome is kept if it has mass and either is the heaviest or does not exceed `t` with the
heavier ones. -/
def KeptBelow (p : ι → M) (t : M) (i : ι) : Prop :=
  0 < p i ∧ (heavier p i = ∅ ∨ mass p (upTo p i) ≤ t)

/-- What is kept is in the nucleus. -/
theorem KeptBelow.lt [DecidableEq ι] (hinj : Function.Injective p) (ht : 0 < t)
    (h : KeptBelow p t i) :
    mass p (heavier p i) < t := by
  obtain ⟨hpos, htop | hle⟩ := h
  · rw [htop]
    simpa [mass] using ht
  · rw [mass_upTo hinj] at hle
    exact (lt_add_of_pos_right _ hpos).trans_le hle

/-- **Cutting at the bound** gives the nucleus exactly if an outcome alone reaches the bound or the
mass of some head is the bound: otherwise the outcome that crosses the bound is cut off. -/
theorem keptBelow_iff_nucleus [DecidableEq ι] (hp : ∀ i, 0 ≤ p i) (hinj : Function.Injective p)
    (ht : 0 < t) (htotal : t < mass p Finset.univ) :
    (∀ i, KeptBelow p t i ↔ mass p (heavier p i) < t) ↔
      (∃ i, t ≤ p i) ∨ ∃ i, mass p (upTo p i) = t := by
  constructor
  · intro hall
    obtain ⟨m, hbelow, hreach⟩ := exists_crossing hp ht htotal.le
    obtain ⟨-, htop | hle⟩ := (hall m).mpr hbelow
    · left
      refine ⟨m, ?_⟩
      rw [mass_upTo hinj, htop] at hreach
      simpa [mass] using hreach
    · exact Or.inr ⟨m, le_antisymm hle hreach⟩
  · rintro (⟨m, hm⟩ | ⟨m, hm⟩) i <;> refine ⟨fun h => h.lt hinj ht, fun hlt => ?_⟩
    · -- No outcome as heavy as `m` is above `i`.
      have hmi : p m ≤ p i := by
        by_contra h0
        exact absurd (hm.trans (le_mass hp (mem_heavier.mpr (not_le.mp h0)))) (not_le.mpr hlt)
      refine ⟨ht.trans_le (hm.trans hmi), Or.inl (Finset.eq_empty_of_forall_notMem fun k hk => ?_)⟩
      have hki := (mem_heavier.mp hk).le
      exact absurd (hm.trans (hmi.trans (hki.trans (le_mass hp hk)))) (not_le.mpr hlt)
    · have hmi : p m ≤ p i := by
        by_contra h0
        have hsub := mass_mono hp (upTo_subset_heavier (not_le.mp h0))
        rw [hm] at hsub
        exact absurd hsub (not_le.mpr hlt)
      have hpos : 0 < p m := by
        refine lt_of_le_of_ne (hp m) fun h0 => ?_
        have hall : upTo p m = Finset.univ := by
          ext k
          simpa [← h0] using hp k
        rw [hall] at hm
        exact htotal.ne hm.symm
      exact ⟨hpos.trans_le hmi, Or.inr ((mass_mono hp (upTo_subset_upTo hmi)).trans_eq hm)⟩

end Mass

end MoeInfinity.Lib.Nucleus
