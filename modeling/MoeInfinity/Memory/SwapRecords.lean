import Mathlib.Data.Finset.Basic
import Mathlib.Data.List.Nodup
import Mathlib.Logic.Function.Basic

/-! # The records of swapped sequences

What the manager knows of the CPU blocks, apart from the pools: which CPU blocks are taken, which
GPU ids stand for the copy of a sequence, and which CPU block a GPU id stands for. The map from GPU
ids to CPU blocks is shared by all sequences. `Kept` says that it works as if every sequence had a
map of its own: a copy can be given to a sequence only if its GPU ids are not in the map
(`Kept.give`), and taking a copy away needs nothing (`Kept.drop`). -/

namespace MoeInfinity.Memory.SwapRecords

structure Records where
  map : ℕ → Option ℕ
  swapped : String → Option (List ℕ)
  allocated : Finset ℕ
  given : String → Option (List ℕ)

/-- The GPU ids that stand for the copy of a sequence. -/
def Records.keysOf (r : Records) (seqId : String) : List ℕ := (r.swapped seqId).getD []

/-- The CPU blocks recorded for a sequence, in table order. -/
def Records.blocksOf (r : Records) (seqId : String) : List ℕ := (r.keysOf seqId).filterMap r.map

/-- Each taken CPU block belongs to one place in the copy of one sequence. -/
structure Kept (r : Records) : Prop where
  nodup : ∀ i, (r.keysOf i).Nodup
  mapped : ∀ i, ∀ g ∈ r.keysOf i, ∃ c, r.map g = some c
  apart : ∀ i j g, g ∈ r.keysOf i → g ∈ r.keysOf j → i = j
  inj : ∀ g g' c, r.map g = some c → r.map g' = some c → g = g'
  live : ∀ g c, r.map g = some c → c ∈ r.allocated
  owned : ∀ c ∈ r.allocated, ∃ i, ∃ g ∈ r.keysOf i, r.map g = some c
  given : ∀ i ids, r.swapped i = some ids → r.given i = some (r.blocksOf i)

variable {r : Records}

theorem Kept.mem_blocksOf {i : String} {c : ℕ} :
    c ∈ r.blocksOf i ↔ ∃ g ∈ r.keysOf i, r.map g = some c := by
  unfold Records.blocksOf
  exact List.mem_filterMap

/-- The copies of different sequences have no block in common. -/
theorem Kept.disjoint (h : Kept r) {i j : String} (hij : i ≠ j) :
    List.Disjoint (r.blocksOf i) (r.blocksOf j) := by
  intro c hi hj
  obtain ⟨g, hg, hgc⟩ := Kept.mem_blocksOf.mp hi
  obtain ⟨g', hg', hgc'⟩ := Kept.mem_blocksOf.mp hj
  have hgg : g = g' := h.inj g g' c hgc hgc'
  subst hgg
  exact hij (h.apart i j g hg hg')

theorem Kept.nodup_blocksOf (h : Kept r) (i : String) : (r.blocksOf i).Nodup := by
  refine (h.nodup i).filterMap fun g g' c hg hg' => ?_
  exact h.inj g g' c hg hg'

/-! ### Taking a copy away -/

/-- The records without the keys `ids`, and without the copy of the sequence. -/
def drop (seqId : String) (ids : List ℕ) (r : Records) : Records where
  map := fun g => if g ∈ ids then none else r.map g
  swapped := Function.update r.swapped seqId none
  allocated := r.allocated.filter fun c => ∀ g ∈ ids, r.map g ≠ some c
  given := r.given

theorem map_drop {i : String} {ids : List ℕ} {g c : ℕ} :
    (drop i ids r).map g = some c ↔ g ∉ ids ∧ r.map g = some c := by
  change (if g ∈ ids then none else r.map g) = some c ↔ _
  split_ifs with h
  · simp [h]
  · simp [h]

theorem keysOf_drop_self {i : String} {ids : List ℕ} : (drop i ids r).keysOf i = [] := by
  simp [Records.keysOf, drop]

theorem keysOf_drop_of_ne {i j : String} {ids : List ℕ} (h : j ≠ i) :
    (drop i ids r).keysOf j = r.keysOf j := by
  simp [Records.keysOf, drop, Function.update_of_ne h]

/-- **Taking away** the copy of a sequence keeps the others. -/
theorem Kept.drop (h : Kept r) (i : String) : Kept (drop i (r.keysOf i) r) := by
  have hmap : ∀ j, j ≠ i → ∀ g ∈ r.keysOf j, (SwapRecords.drop i (r.keysOf i) r).map g =
      r.map g := by
    intro j hj g hg
    exact if_neg fun hgi => hj (h.apart j i g hg hgi)
  have hkeys : ∀ j g, g ∈ (SwapRecords.drop i (r.keysOf i) r).keysOf j → j ≠ i ∧
      g ∈ r.keysOf j := by
    intro j g hg
    by_cases hj : j = i
    · subst hj
      rw [keysOf_drop_self] at hg
      cases hg
    · rw [keysOf_drop_of_ne hj] at hg
      exact ⟨hj, hg⟩
  refine ⟨fun j => ?_, fun j g hg => ?_, fun j j' g hg hg' => ?_, fun g g' c hg hg' => ?_,
    fun g c hg => ?_, fun c hc => ?_, fun j ids hj => ?_⟩
  · by_cases hj : j = i
    · subst hj; rw [keysOf_drop_self]; exact List.nodup_nil
    · rw [keysOf_drop_of_ne hj]; exact h.nodup j
  · obtain ⟨hj, hg⟩ := hkeys j g hg
    rw [hmap j hj g hg]
    exact h.mapped j g hg
  · exact h.apart j j' g (hkeys j g hg).2 (hkeys j' g hg').2
  · exact h.inj g g' c (map_drop.mp hg).2 (map_drop.mp hg').2
  · obtain ⟨hgi, hgc⟩ := map_drop.mp hg
    refine Finset.mem_filter.mpr ⟨h.live g c hgc, fun g' hg' hg'c => ?_⟩
    have : g = g' := h.inj g g' c hgc hg'c
    subst this
    exact hgi hg'
  · obtain ⟨hca, hfree⟩ := Finset.mem_filter.mp hc
    obtain ⟨j, g, hg, hgc⟩ := h.owned c hca
    have hj : j ≠ i := by
      rintro rfl
      exact hfree g hg hgc
    refine ⟨j, g, ?_, ?_⟩
    · rw [keysOf_drop_of_ne hj]; exact hg
    · rw [hmap j hj g hg]; exact hgc
  · have hji : j ≠ i := by
      rintro rfl
      simp [SwapRecords.drop] at hj
    have hj' : r.swapped j = some ids := by
      rw [← hj]
      exact (Function.update_of_ne hji _ _).symm
    change r.given j = _
    rw [h.given j ids hj']
    unfold Records.blocksOf
    rw [keysOf_drop_of_ne hji]
    congr 1
    exact List.filterMap_congr fun g hg => (hmap j hji g hg).symm

/-! ### Giving a copy -/

/-- The map after the pairs have been stored one by one. -/
def storeAll (m : ℕ → Option ℕ) (pairs : List (ℕ × ℕ)) : ℕ → Option ℕ :=
  pairs.foldl (fun m pair => Function.update m pair.1 (some pair.2)) m

theorem storeAll_of_notMem : ∀ {pairs : List (ℕ × ℕ)} {m : ℕ → Option ℕ} {g : ℕ},
    g ∉ pairs.map (·.1) → storeAll m pairs g = m g
  | [], _, _, _ => rfl
  | pair :: pairs, m, g, hg => by
    rw [List.map_cons, List.mem_cons, not_or] at hg
    change storeAll (Function.update m pair.1 (some pair.2)) pairs g = m g
    rw [storeAll_of_notMem hg.2, Function.update_of_ne hg.1]

theorem storeAll_of_mem : ∀ {pairs : List (ℕ × ℕ)} {m : ℕ → Option ℕ}, (pairs.map (·.1)).Nodup →
    ∀ pair ∈ pairs, storeAll m pairs pair.1 = some pair.2
  | [], _, _, _, h => by cases h
  | p :: pairs, m, hn, pair, h => by
    rw [List.map_cons, List.nodup_cons] at hn
    change storeAll (Function.update m p.1 (some p.2)) pairs pair.1 = some pair.2
    rcases List.mem_cons.mp h with rfl | h
    · rw [storeAll_of_notMem hn.1, Function.update_self]
    · exact storeAll_of_mem hn.2 pair h

/-- The records after a swap-out with the given pairs of GPU ids and CPU blocks. -/
def give (seqId : String) (pairs : List (ℕ × ℕ)) (r : Records) : Records where
  map := storeAll r.map pairs
  swapped := Function.update r.swapped seqId (some (pairs.map (·.1)))
  allocated := r.allocated ∪ (pairs.map (·.2)).toFinset
  given := Function.update r.given seqId (some (pairs.map (·.2)))

theorem keysOf_give_self {i : String} {pairs : List (ℕ × ℕ)} :
    (give i pairs r).keysOf i = pairs.map (·.1) := by
  simp [Records.keysOf, give]

theorem keysOf_give_of_ne {i j : String} {pairs : List (ℕ × ℕ)} (h : j ≠ i) :
    (give i pairs r).keysOf j = r.keysOf j := by
  simp [Records.keysOf, give, Function.update_of_ne h]

/-- **Giving** a copy to a sequence without one, under GPU ids that stand for no other copy and with
CPU blocks that are not taken. -/
theorem Kept.give (h : Kept r) {i : String} {pairs : List (ℕ × ℕ)} (hi : r.swapped i = none)
    (hkeys : (pairs.map (·.1)).Nodup) (hnew : ∀ g ∈ pairs.map (·.1), r.map g = none)
    (hblocks : (pairs.map (·.2)).Nodup) (hfree : ∀ c ∈ pairs.map (·.2), c ∉ r.allocated) :
    Kept (give i pairs r) := by
  have hold : ∀ g c, r.map g = some c → (SwapRecords.give i pairs r).map g = some c := by
    intro g c hgc
    refine (storeAll_of_notMem fun hg => ?_).trans hgc
    rw [hnew g hg] at hgc
    cases hgc
  have hmem : ∀ pair ∈ pairs, (SwapRecords.give i pairs r).map pair.1 = some pair.2 :=
    storeAll_of_mem hkeys
  have hcases : ∀ g c, (SwapRecords.give i pairs r).map g = some c →
      (g, c) ∈ pairs ∨ (g ∉ pairs.map (·.1) ∧ r.map g = some c) := by
    intro g c hgc
    by_cases hg : g ∈ pairs.map (·.1)
    · obtain ⟨pair, hp, rfl⟩ := List.mem_map.mp hg
      have := hmem pair hp
      rw [hgc] at this
      rw [Option.some.inj this]
      exact Or.inl hp
    · refine Or.inr ⟨hg, ?_⟩
      rw [← hgc]
      exact (storeAll_of_notMem hg).symm
  have hkeyNew : ∀ j, ∀ g ∈ r.keysOf j, g ∉ pairs.map (·.1) := by
    intro j g hg hgp
    obtain ⟨c, hc⟩ := h.mapped j g hg
    rw [hnew g hgp] at hc
    cases hc
  refine ⟨fun j => ?_, fun j g hg => ?_, fun j j' g hg hg' => ?_, fun g g' c hg hg' => ?_,
    fun g c hg => ?_, fun c hc => ?_, fun j ids hj => ?_⟩
  · by_cases hj : j = i
    · subst hj; rw [keysOf_give_self]; exact hkeys
    · rw [keysOf_give_of_ne hj]; exact h.nodup j
  · by_cases hj : j = i
    · subst hj
      rw [keysOf_give_self] at hg
      obtain ⟨pair, hp, rfl⟩ := List.mem_map.mp hg
      exact ⟨pair.2, hmem pair hp⟩
    · rw [keysOf_give_of_ne hj] at hg
      obtain ⟨c, hc⟩ := h.mapped j g hg
      exact ⟨c, hold g c hc⟩
  · by_cases hj : j = i <;> by_cases hj' : j' = i
    · rw [hj, hj']
    · subst hj
      rw [keysOf_give_self] at hg
      rw [keysOf_give_of_ne hj'] at hg'
      exact absurd hg (hkeyNew j' g hg')
    · subst hj'
      rw [keysOf_give_of_ne hj] at hg
      rw [keysOf_give_self] at hg'
      exact absurd hg' (hkeyNew j g hg)
    · rw [keysOf_give_of_ne hj] at hg
      rw [keysOf_give_of_ne hj'] at hg'
      exact h.apart j j' g hg hg'
  · have htaken : ∀ g₁ g₂, (g₁, c) ∈ pairs → r.map g₂ = some c → False := fun g₁ g₂ h₁ h₂ =>
      hfree c (List.mem_map.mpr ⟨_, h₁, rfl⟩) (h.live g₂ c h₂)
    rcases hcases g c hg with hp | ⟨-, hp⟩ <;> rcases hcases g' c hg' with hp' | ⟨-, hp'⟩
    · exact congrArg Prod.fst (List.inj_on_of_nodup_map hblocks hp hp' rfl)
    · exact (htaken g g' hp hp').elim
    · exact (htaken g' g hp' hp).elim
    · exact h.inj g g' c hp hp'
  · refine Finset.mem_union.mpr ?_
    rcases hcases g c hg with hp | ⟨-, hp⟩
    · exact Or.inr (List.mem_toFinset.mpr (List.mem_map.mpr ⟨_, hp, rfl⟩))
    · exact Or.inl (h.live g c hp)
  · rcases Finset.mem_union.mp hc with hc | hc
    · obtain ⟨j, g, hg, hgc⟩ := h.owned c hc
      have hj : j ≠ i := by
        rintro rfl
        simp [Records.keysOf, hi] at hg
      exact ⟨j, g, by rw [keysOf_give_of_ne hj]; exact hg, hold g c hgc⟩
    · obtain ⟨pair, hp, rfl⟩ := List.mem_map.mp (List.mem_toFinset.mp hc)
      refine ⟨i, pair.1, ?_, hmem pair hp⟩
      rw [keysOf_give_self]
      exact List.mem_map.mpr ⟨pair, hp, rfl⟩
  · by_cases hji : j = i
    · subst hji
      have hall : (pairs.map (·.1)).filterMap (SwapRecords.give j pairs r).map =
        pairs.map (·.2) := by
        rw [List.filterMap_map, ← List.filterMap_eq_map]
        exact List.filterMap_congr fun pair hp => hmem pair hp
      unfold Records.blocksOf
      rw [keysOf_give_self, hall]
      exact Function.update_self _ _ _
    · have hj' : r.swapped j = some ids := by
        rw [← hj]
        exact (Function.update_of_ne hji _ _).symm
      have hgj : (SwapRecords.give i pairs r).given j = r.given j := Function.update_of_ne hji _ _
      rw [hgj, h.given j ids hj']
      unfold Records.blocksOf
      rw [keysOf_give_of_ne hji]
      congr 1
      refine List.filterMap_congr fun g hg => ?_
      exact (storeAll_of_notMem (hkeyNew j g hg)).symm

end MoeInfinity.Memory.SwapRecords
