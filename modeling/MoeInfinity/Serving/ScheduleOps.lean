import Mathlib.Data.List.Flatten
import MoeInfinity.Serving.ScheduleCall

/-! # The other operations of the scheduler

`add_request`, `update_after_step` and `abort_request` keep the invariant, also when they raise.
None of them touches a sequence that is and stays swapped. -/

namespace MoeInfinity.Serving.ScheduleOps

open MoeInfinity.Python MoeInfinity.Lib.Imperative
open MoeInfinity.Serving.Sequence MoeInfinity.Serving.KvCache MoeInfinity.Serving.KvCacheSpec
open MoeInfinity.Serving.Schedule MoeInfinity.Serving.Schedule.Scheduler
open MoeInfinity.Serving.Lifecycle MoeInfinity.Serving.ScheduleSpec MoeInfinity.Serving.ScheduleInv

variable {β : Type}

/-! ### Changes within the queues -/

/-- A change of status that leaves every group in a queue that fits. -/
def InPlace (st st' : SequenceStatus) : Prop :=
  st' = st ∨ (Active st ∧ st' = .decode) ∨ (st ≠ .waiting ∧ st' = .finished)

theorem InPlace.trans {st st' st'' : SequenceStatus} (h : InPlace st st') (h' : InPlace st' st'') :
    InPlace st st'' := by
  rcases h' with rfl | ⟨hact, rfl⟩ | ⟨hne, rfl⟩
  · exact h
  · rcases h with rfl | ⟨h1, rfl⟩ | ⟨h1, rfl⟩
    · exact Or.inr (Or.inl ⟨hact, rfl⟩)
    · exact Or.inr (Or.inl ⟨h1, rfl⟩)
    · rcases hact with h0 | h0 <;> cases h0
  · rcases h with rfl | ⟨h1, rfl⟩ | ⟨h1, rfl⟩
    · exact Or.inr (Or.inr ⟨hne, rfl⟩)
    · refine Or.inr (Or.inr ⟨?_, rfl⟩)
      rintro rfl
      rcases h1 with h0 | h0 <;> cases h0
    · exact Or.inr (Or.inr ⟨h1, rfl⟩)

/-- **Changes in place** keep the invariant. -/
theorem inv_inPlace {s s' : Scheduler β} (h : Inv s) {P : ℕ → Life β → Life β → Prop} {ids : List ℕ}
    (hE : Each P ids s s') (hok : ∀ i ∈ ids, (life s' i).Ok ∧ (s'.store i).seqId = i ∧
      InPlace (s.store i).status (s'.store i).status) : Inv s' := by
  have hstore : ∀ i, i ∉ ids → s'.store i = s.store i := fun i hi =>
    congrArg Life.data (hE.other i hi)
  have hplace : ∀ i, InPlace (s.store i).status (s'.store i).status := by
    intro i
    by_cases hi : i ∈ ids
    · exact (hok i hi).2.2
    · exact Or.inl (by rw [hstore i hi])
  have hq : queuedGroups s' = queuedGroups s := by
    unfold queuedGroups
    rw [hE.same.waiting, hE.same.running, hE.same.swapped]
  refine ⟨hE.wf, fun i => ?_, fun i => ?_, fun i hi => ?_, fun g hg i hi => ?_, fun g hg i hi => ?_,
    fun g hg i hi => ?_, by rw [hq]; exact h.nodup, by rw [hq, hE.same.requestMap]; exact h.queued,
    by rw [hE.same.requestMap]; exact h.requests, by rw [hE.same.requestMap]; exact h.ids,
    by rw [hE.same.requestMap, hE.same.sequenceMap]; exact h.member⟩
  · by_cases hi : i ∈ ids
    · exact (hok i hi).2.1
    · rw [hstore i hi]; exact h.seqId i
  · by_cases hi : i ∈ ids
    · exact (hok i hi).1
    · rw [hE.other i hi]; exact h.ok i
  · rw [hE.same.sequenceMap]
    rcases hplace i with h1 | ⟨h1, -⟩ | ⟨-, h1⟩
    · rw [h1] at hi; exact h.registered i hi
    · exact h.registered i h1.hasTable
    · rw [h1] at hi
      rcases hi with h0 | h0 | h0 <;> cases h0
  · rw [hE.same.waiting] at hg
    have hw := h.waiting g hg i hi
    rcases hplace i with h1 | ⟨h1, -⟩ | ⟨h1, -⟩
    · rw [h1]; exact hw
    · rw [hw] at h1
      rcases h1 with h0 | h0 <;> cases h0
    · exact absurd hw h1
  · rw [hE.same.running] at hg
    rcases hplace i with h1 | ⟨-, h1⟩ | ⟨-, h1⟩
    · rw [h1]; exact h.running g hg i hi
    · exact Or.inl (Or.inr h1)
    · exact Or.inr h1
  · rw [hE.same.swapped] at hg
    rcases hplace i with h1 | ⟨h1, -⟩ | ⟨-, h1⟩
    · rw [h1]; exact h.swapped g hg i hi
    · rcases h.swapped g hg i hi with h2 | h2 <;> rw [h2] at h1 <;>
        rcases h1 with h0 | h0 <;> cases h0
    · exact Or.inr h1

/-- A swapped sequence has been left alone. -/
def KeepsSwapped (s s' : Scheduler β) : Prop :=
  ∀ i, (s'.store i).status = .swapped → life s' i = life s i

theorem KeepsSwapped.trans {s s' s'' : Scheduler β} (h : KeepsSwapped s s')
    (h' : KeepsSwapped s' s'') : KeepsSwapped s s'' := by
  intro i hi
  have h1 := h' i hi
  have h2 : (s'.store i).status = .swapped := by
    rw [← hi]; exact congrArg (fun l : Life β => l.data.status) h1.symm
  exact h1.trans (h i h2)

/-! ### `update_after_step` -/

theorem nodup_fromkeys : ∀ xs : List ℕ, (fromkeys xs).Nodup
  | [] => List.nodup_nil
  | x :: xs => by
    refine List.nodup_cons.mpr ⟨fun h0 => ?_, (nodup_fromkeys xs).filter _⟩
    simp at h0

/-- What a life looks like after the first loop has visited it. -/
theorem interrupted_spec {s : Scheduler β} {completed : List ℕ} {i : ℕ} {l : Life β} (h : Inv s)
    (hl : Interrupted s completed i (life s i) l) :
    l.Ok ∧ l.data.seqId = i ∧ InPlace (s.store i).status l.data.status ∧
      (l.data.status = .swapped → l = life s i) := by
  have hok := h.ok i
  have hid := h.seqId i
  have hdecode : Active (s.store i).status → ∀ n (new : List β),
      (((life s i).withStatus .decode).grown n new).Ok := by
    intro hact n new
    have hmark : (life s i).share.swappedOut = false := hok.mark_false (by
      rintro h0
      have h0 : (s.store i).status = .swapped := h0
      rw [h0] at hact
      rcases hact with h1 | h1 <;> cases h1)
    exact (hok.withStatus hmark hact.hasTable (Or.inr (Or.inl rfl))).grown (Or.inr rfl) n new
  rcases hl with hl | rfl | ⟨hact, rfl⟩
  · unfold Updated at hl
    split_ifs at hl with hg
    · obtain ⟨n, new, -, -, rfl⟩ := hl
      exact ⟨hdecode hg.2.2 n new, hid, Or.inr (Or.inl ⟨hg.2.2, rfl⟩), fun h0 => by cases h0⟩
    · subst hl
      exact ⟨hok, hid, Or.inl rfl, fun _ => rfl⟩
  · exact ⟨hok, hid, Or.inl rfl, fun _ => rfl⟩
  · have hact : Active (s.store i).status := hact
    have hmark : (life s i).share.swappedOut = false := hok.mark_false (by
      rintro h0
      have h0 : (s.store i).status = .swapped := h0
      rw [h0] at hact
      rcases hact with h1 | h1 <;> cases h1)
    exact ⟨hok.withStatus hmark hact.hasTable (Or.inr (Or.inl rfl)), hid,
      Or.inr (Or.inl ⟨hact, rfl⟩), fun h0 => by cases h0⟩

/-- Ending a sequence. -/
theorem ended_spec {s : Scheduler β} {i : ℕ} {st : SequenceStatus} {l : Life β} (h : Inv s)
    (hst : st = .finished ∨ st = .cancelled) (hl : Ended st (life s i) l) :
    l.Ok ∧ l.data.seqId = i ∧ (l.data.status = .finished ∨ l.data.status = .cancelled) := by
  have hfinal : finalStatus st (s.store i) = .finished ∨
      finalStatus st (s.store i) = .cancelled := by
    unfold finalStatus
    split_ifs with hlive
    · exact hst
    · unfold SequenceData.Live at hlive
      by_cases hf : (s.store i).status = .finished
      · exact Or.inl hf
      · exact Or.inr (not_not.mp fun hc => hlive ⟨hf, hc⟩)
  unfold Ended at hl
  subst hl
  refine ⟨(h.ok i).ended fun h0 => ?_, h.seqId i, hfinal⟩
  have h0 : HasTable (finalStatus st (s.store i)) := h0
  rcases hfinal with h1 | h1 <;> rw [h1] at h0 <;> rcases h0 with h2 | h2 | h2 <;> cases h2

theorem closed_spec {s : Scheduler β} {i : ℕ} {l : Life β} (h : Inv s)
    (hl : Closed s i (life s i) l) :
    l.Ok ∧ l.data.seqId = i ∧ InPlace (s.store i).status l.data.status ∧
      (l.data.status = .swapped → l = life s i) := by
  unfold Closed at hl
  split_ifs at hl with hreg
  · obtain ⟨hw, hl⟩ := hl
    obtain ⟨hok, hid, hst⟩ := ended_spec h (Or.inl rfl) hl
    refine ⟨hok, hid, ?_, fun h0 => by rcases hst with h1 | h1 <;> rw [h0] at h1 <;> cases h1⟩
    have hfinal : l.data.status = finalStatus .finished (s.store i) := by rw [hl]; rfl
    unfold finalStatus at hfinal
    split_ifs at hfinal with hlive
    · exact Or.inr (Or.inr ⟨hw, hfinal⟩)
    · exact Or.inl hfinal
  · subst hl
    exact ⟨h.ok i, h.seqId i, Or.inl rfl, fun _ => rfl⟩

theorem wp_finishSequences (ids : List ℕ) (s : Scheduler β) (hnd : ids.Nodup) (hwf : Wf s.kvCache) :
    wp (forEach finishSequence ids) (fun _ s' => Each (Closed s) ids s s')
      (fun _ s' => (∃ i ∈ ids, i ∈ s.sequenceMap ∧ (s.store i).status = .waiting) ∧
        Each (fun i l l' => Closed s i l l' ∨ l' = l) ids s s') s := by
  refine wp_forEach_each (P := Closed s) (Q := fun i l l' => Closed s i l l' ∨ l' = l)
    (fun _ _ _ h => Or.inl h) (fun _ _ => Or.inr rfl) ids s hnd hwf fun i hi t hwf' hq hl => ?_
  have hclosed : ∀ l l', Closed t i l l' ↔ Closed s i l l' := fun l l' => by
    unfold Closed; rw [hq.sequenceMap]
  refine wp_mono (wp_finishSequence hwf') (fun _ t' hE => ?_) ?_
  · refine hE.mono fun j hj hl' => ?_
    rw [List.mem_singleton.mp hj] at hl' ⊢
    exact (hclosed _ _).mp hl'
  · rintro e t' ⟨rfl, hreg, hst⟩
    refine ⟨⟨i, hi, ?_, ?_⟩, Each.stay (fun _ _ => Or.inr rfl) hwf' [i]⟩
    · rw [← hq.sequenceMap]; exact hreg
    · rw [← hst]
      exact congrArg (fun l : Life β => l.data.status) hl.symm

/-- Dropping some groups takes their ids out of the sequence map. -/
theorem foldl_drop_sequenceMap : ∀ (gs : List SequenceGroup) (s : Scheduler β),
    (gs.foldl (fun s g => dropRequestMetadata g s) s).sequenceMap =
      s.sequenceMap \ (gs.flatMap (·.sequenceIds)).toFinset
  | [], s => by simp
  | g :: gs, s => by
    rw [List.foldl_cons, foldl_drop_sequenceMap gs]
    ext i
    simp [dropRequestMetadata]
    tauto

theorem foldl_drop_eq : ∀ (gs : List SequenceGroup) (s : Scheduler β),
    (gs.foldl (fun s g => dropRequestMetadata g s) s).kvCache = s.kvCache ∧
      (gs.foldl (fun s g => dropRequestMetadata g s) s).store = s.store ∧
      (gs.foldl (fun s g => dropRequestMetadata g s) s).cfg = s.cfg
  | [], _ => ⟨rfl, rfl, rfl⟩
  | g :: gs, s => foldl_drop_eq gs (dropRequestMetadata g s)

theorem life_prune (s : Scheduler β) (i : ℕ) :
    life (pruneFinishedAndCancelledRequests s) i = life s i := by
  obtain ⟨h1, h2, -⟩ := foldl_drop_eq (s.requestMap.filter fun g => !s.hasActive g) s
  unfold life pruneFinishedAndCancelledRequests
  simp only [h1, h2]

theorem hasActive_iff {s : Scheduler β} {g : SequenceGroup} :
    s.hasActive g = true ↔ ∃ i ∈ g.sequenceIds, (s.store i).Live := by
  simp [hasActive]

/-- **Pruning** keeps the invariant. -/
theorem inv_prune {s : Scheduler β} (h : Inv s) : Inv (pruneFinishedAndCancelledRequests s) := by
  have hstore : (pruneFinishedAndCancelledRequests s).store = s.store :=
    (foldl_drop_eq (s.requestMap.filter fun g => !s.hasActive g) s).2.1
  have hkv : (pruneFinishedAndCancelledRequests s).kvCache = s.kvCache :=
    (foldl_drop_eq (s.requestMap.filter fun g => !s.hasActive g) s).1
  have hseq : (pruneFinishedAndCancelledRequests s).sequenceMap = s.sequenceMap \
      ((s.requestMap.filter fun g => !s.hasActive g).flatMap (·.sequenceIds)).toFinset :=
    foldl_drop_sequenceMap _ s
  have hreq : (pruneFinishedAndCancelledRequests s).requestMap =
    s.requestMap.filter s.hasActive := rfl
  -- a sequence that is still live is in no group that is dropped
  have hlive : ∀ i, (s.store i).Live →
      i ∉ (s.requestMap.filter fun g => !s.hasActive g).flatMap (·.sequenceIds) := by
    intro i hi h0
    obtain ⟨g, hg, hig⟩ := List.mem_flatMap.mp h0
    have hno := (List.mem_filter.mp hg).2
    rw [Bool.not_eq_true'] at hno
    rw [hasActive_iff.mpr ⟨i, hig, hi⟩] at hno
    cases hno
  have hkeep : ∀ g ∈ s.requestMap,
      g.requestId ∈ (s.requestMap.filter s.hasActive).map (·.requestId) →
      g ∈ s.requestMap.filter s.hasActive := by
    intro g hg hid
    obtain ⟨g', hg', he⟩ := List.mem_map.mp hid
    rw [h.eq_of_requestId hg (List.mem_filter.mp hg').1 he.symm]
    exact hg'
  have hsub : (queuedGroups (pruneFinishedAndCancelledRequests s)).Sublist (queuedGroups s) :=
    ((List.filter_sublist).append (List.filter_sublist)).append (List.filter_sublist)
  refine ⟨by
    rw [hkv]; exact h.wf, by rw [hstore]; exact h.seqId, fun i => by rw [life_prune]; exact h.ok i,
    fun i hi => ?_, fun g hg i hi => ?_, fun g hg i hi => ?_, fun g hg i hi => ?_,
    h.nodup.sublist hsub,
    fun g hg => ?_, ?_, ?_, fun g hg i hi => ?_⟩
  · rw [hstore] at hi
    rw [hseq, Finset.mem_sdiff, List.mem_toFinset]
    refine ⟨h.registered i hi, hlive i ⟨fun h0 => ?_, fun h0 => ?_⟩⟩
    · rw [h0] at hi; rcases hi with h1 | h1 | h1 <;> cases h1
    · rw [h0] at hi; rcases hi with h1 | h1 | h1 <;> cases h1
  · rw [hstore]; exact h.waiting g (List.mem_filter.mp hg).1 i hi
  · rw [hstore]; exact h.running g (List.mem_filter.mp hg).1 i hi
  · rw [hstore]; exact h.swapped g (List.mem_filter.mp hg).1 i hi
  · rw [hreq]
    refine hkeep g (h.queued g (hsub.subset hg)) ?_
    simp only [queuedGroups, List.mem_append] at hg
    rcases hg with (hg | hg) | hg
    · simpa using (List.mem_filter.mp hg).2
    · simpa using (List.mem_filter.mp hg).2
    · simpa using (List.mem_filter.mp hg).2
  · rw [hreq]
    exact h.requests.sublist (List.filter_sublist.map _)
  · rw [hreq]
    exact h.ids.sublist (List.filter_sublist.flatMap _)
  · rw [hreq] at hg
    obtain ⟨hg, hact⟩ := List.mem_filter.mp hg
    rw [hseq, Finset.mem_sdiff, List.mem_toFinset]
    refine ⟨h.member g hg i hi, fun h0 => ?_⟩
    obtain ⟨g', hg', hi'⟩ := List.mem_flatMap.mp h0
    obtain ⟨hg', hno⟩ := List.mem_filter.mp hg'
    rw [← h.eq_of_mem hg hg' hi hi', hact] at hno
    cases hno

/-- The blocks that `update_after_step` takes. -/
def growthNeed (s : Scheduler β) (completed newDecode : List ℕ) : ℕ :=
  ((fromkeys newDecode).map (growthOf s completed)).sum

/-- The two loops of `update_after_step`, and what there is when one of them raises. -/
theorem wp_updateAfterStep (completed newDecode : List ℕ) {s : Scheduler β} (h : Inv s) :
    wp (updateAfterStep completed newDecode)
      (fun _ s' => ∃ s₁ s₂, Each (Updated s completed) (fromkeys newDecode) s s₁ ∧
        Each (Closed s₁) (fromkeys completed) s₁ s₂ ∧ s' = pruneFinishedAndCancelledRequests s₂)
      (fun _ s' => (s.numFreeBlocks < growthNeed s completed newDecode ∧
          Each (Interrupted s completed) (fromkeys newDecode) s s') ∨
        ∃ s₁, Each (Updated s completed) (fromkeys newDecode) s s₁ ∧
          (∃ i ∈ completed, i ∈ s₁.sequenceMap ∧ (s₁.store i).status = .waiting) ∧
          Each (fun i l l' => Closed s₁ i l l' ∨ l' = l) (fromkeys completed) s₁ s') s := by
  simp only [updateAfterStep, wp_bind, wp_update]
  refine wp_mono (wp_growSequences completed (fromkeys newDecode) s (nodup_fromkeys _) h.wf
    fun i _ => h.ok i) (fun _ s₁ hE => ?_) fun _ s₁ h0 => Or.inl h0
  refine wp_mono (wp_finishSequences (fromkeys completed) s₁ (nodup_fromkeys _) hE.wf)
    (fun _ s₂ hE₂ => ⟨s₁, s₂, hE, hE₂, rfl⟩) ?_
  rintro e s₂ ⟨⟨i, hi, hreg, hst⟩, hE₂⟩
  exact Or.inr ⟨s₁, hE, ⟨i, mem_fromkeys.mp hi, hreg, hst⟩, hE₂⟩

/-- Loops that change sequences in place and leave the swapped ones alone. -/
theorem inv_of_each {s s' : Scheduler β} {P : ℕ → Life β → Life β → Prop} {ids : List ℕ} (h : Inv s)
    (hE : Each P ids s s') (hspec : ∀ i ∈ ids, ∀ l, P i (life s i) l → l.Ok ∧ l.data.seqId = i ∧
      InPlace (s.store i).status l.data.status ∧ (l.data.status = .swapped → l = life s i)) :
    Inv s' ∧ KeepsSwapped s s' := by
  refine ⟨inv_inPlace h hE fun i hi => ?_, fun i hi => ?_⟩
  · obtain ⟨h1, h2, h3, -⟩ := hspec i hi _ (hE.each i hi)
    exact ⟨h1, h2, h3⟩
  · by_cases hmem : i ∈ ids
    · exact (hspec i hmem _ (hE.each i hmem)).2.2.2 hi
    · exact hE.other i hmem

/-- **`update_after_step`** keeps the invariant, also when it raises. -/
theorem inv_updateAfterStep (completed newDecode : List ℕ) {s : Scheduler β} (h : Inv s) :
    Inv ((updateAfterStep completed newDecode).state s) ∧
      KeepsSwapped s ((updateAfterStep completed newDecode).state s) := by
  refine inv_of_wp (I := fun s' => Inv s' ∧ KeepsSwapped s s')
    (wp_mono (wp_updateAfterStep completed newDecode h) ?_ ?_)
  · rintro _ s' ⟨s₁, s₂, hE, hE₂, rfl⟩
    obtain ⟨h₁, hk₁⟩ := inv_of_each h hE fun i _ l hl => interrupted_spec h (Or.inl hl)
    obtain ⟨h₂, hk₂⟩ := inv_of_each h₁ hE₂ fun i _ l hl => closed_spec h₁ hl
    exact ⟨inv_prune h₂, (hk₁.trans hk₂).trans fun i _ => life_prune s₂ i⟩
  · rintro e s' (⟨-, hE⟩ | ⟨s₁, hE, -, hE₂⟩)
    · exact inv_of_each h hE fun i _ l hl => interrupted_spec h hl
    · obtain ⟨h₁, hk₁⟩ := inv_of_each h hE fun i _ l hl => interrupted_spec h (Or.inl hl)
      obtain ⟨h₂, hk₂⟩ := inv_of_each h₁ hE₂ fun i _ l hl => by
        rcases hl with hl | rfl
        · exact closed_spec h₁ hl
        · exact ⟨h₁.ok i, h₁.seqId i, Or.inl rfl, fun _ => rfl⟩
      exact ⟨h₂, hk₁.trans hk₂⟩

/-! ### The maps -/

/-- Every registered sequence belongs to a request. -/
def Grouped (s : Scheduler β) : Prop :=
  ∀ i ∈ s.sequenceMap, ∃ g ∈ s.requestMap, i ∈ g.sequenceIds

/-- Requests are only removed, with all their sequences. -/
structure Shrinks (s s' : Scheduler β) : Prop where
  cfg : s'.cfg = s.cfg
  blockSize : s'.kvCache.blockSize = s.kvCache.blockSize
  requestMap : ∀ g ∈ s'.requestMap, g ∈ s.requestMap
  sequenceMap : ∀ i ∈ s'.sequenceMap, i ∈ s.sequenceMap
  grouped : Grouped s → Grouped s'

theorem Shrinks.refl (s : Scheduler β) : Shrinks s s :=
  ⟨rfl, rfl, fun _ h => h, fun _ h => h, fun h => h⟩

theorem Shrinks.trans {s s' s'' : Scheduler β} (h : Shrinks s s') (h' : Shrinks s' s'') :
    Shrinks s s'' :=
  ⟨h'.cfg.trans h.cfg, h'.blockSize.trans h.blockSize,
    fun g hg => h.requestMap g (h'.requestMap g hg),
    fun i hi => h.sequenceMap i (h'.sequenceMap i hi), fun hg => h'.grouped (h.grouped hg)⟩

theorem shrinks_of_same {s s' : Scheduler β} (hcfg : s'.cfg = s.cfg)
    (hk : s'.kvCache.blockSize = s.kvCache.blockSize) (hr : s'.requestMap = s.requestMap)
    (hs : s'.sequenceMap = s.sequenceMap) : Shrinks s s' := by
  refine ⟨hcfg, hk, fun g hg => by rwa [hr] at hg, fun i hi => by rwa [hs] at hi, fun h i hi => ?_⟩
  rw [hs] at hi
  rw [hr]
  exact h i hi

theorem shrinks_of_each {s s' : Scheduler β} {P : ℕ → Life β → Life β → Prop} {ids : List ℕ}
    (hE : Each P ids s s') : Shrinks s s' :=
  shrinks_of_same hE.same.cfg hE.same.blockSize hE.same.requestMap hE.same.sequenceMap

theorem shrinks_prune (s : Scheduler β) : Shrinks s (pruneFinishedAndCancelledRequests s) := by
  have hdrop := foldl_drop_eq (s.requestMap.filter fun g => !s.hasActive g) s
  have hseq : (pruneFinishedAndCancelledRequests s).sequenceMap = s.sequenceMap \
      ((s.requestMap.filter fun g => !s.hasActive g).flatMap (·.sequenceIds)).toFinset :=
    foldl_drop_sequenceMap _ s
  refine ⟨hdrop.2.2, congrArg PagedKVCache.blockSize hdrop.1, fun g hg => (List.mem_filter.mp hg).1,
    fun i hi => ?_, fun hgr i hi => ?_⟩
  · rw [hseq] at hi
    exact (Finset.mem_sdiff.mp hi).1
  · rw [hseq, Finset.mem_sdiff, List.mem_toFinset] at hi
    obtain ⟨g, hg, hig⟩ := hgr i hi.1
    refine ⟨g, List.mem_filter.mpr ⟨hg, ?_⟩, hig⟩
    by_contra h0
    exact hi.2 (List.mem_flatMap.mpr ⟨g, List.mem_filter.mpr ⟨hg, by simpa using h0⟩, hig⟩)

theorem shrinks_drop {s s₁ : Scheduler β} (h : Inv s) {g : SequenceGroup} (hg : g ∈ s.requestMap)
    {P : ℕ → Life β → Life β → Prop} (hE : Each P g.sequenceIds s s₁) :
    Shrinks s (dropRequestMetadata g { s₁ with
      waiting := s₁.waiting.filter (·.requestId ≠ g.requestId)
      running := s₁.running.filter (·.requestId ≠ g.requestId)
      swapped := s₁.swapped.filter (·.requestId ≠ g.requestId) }) := by
  have hreq : s₁.requestMap = s.requestMap := hE.same.requestMap
  have hseq : s₁.sequenceMap = s.sequenceMap := hE.same.sequenceMap
  refine ⟨hE.same.cfg, hE.same.blockSize, fun g' hg' => ?_, fun i hi => ?_, fun hgr i hi => ?_⟩
  · rw [← hreq]; exact (List.mem_filter.mp hg').1
  · rw [← hseq]; exact (Finset.mem_sdiff.mp hi).1
  · obtain ⟨hi, hnot⟩ := Finset.mem_sdiff.mp hi
    have hi : i ∈ s₁.sequenceMap := hi
    rw [hseq] at hi
    obtain ⟨g', hg', hig⟩ := hgr i hi
    refine ⟨g', List.mem_filter.mpr ⟨by rw [hreq]; exact hg', ?_⟩, hig⟩
    simp only [ne_eq, decide_not, Bool.not_eq_true', decide_eq_false_iff_not]
    intro h0
    rw [h.eq_of_requestId hg' hg h0] at hig
    exact hnot (List.mem_toFinset.mpr hig)

theorem shrinks_updateAfterStep (completed newDecode : List ℕ) {s : Scheduler β} (h : Inv s) :
    Shrinks s ((updateAfterStep completed newDecode).state s) := by
  refine inv_of_wp (I := fun s' => Shrinks s s')
    (wp_mono (wp_updateAfterStep completed newDecode h) ?_ ?_)
  · rintro _ s' ⟨s₁, s₂, hE, hE₂, rfl⟩
    exact ((shrinks_of_each hE).trans (shrinks_of_each hE₂)).trans (shrinks_prune s₂)
  · rintro e s' (⟨-, hE⟩ | ⟨s₁, hE, -, hE₂⟩)
    · exact shrinks_of_each hE
    · exact (shrinks_of_each hE).trans (shrinks_of_each hE₂)

/-! ### `abort_request` -/

/-- The group `g` is taken out of all queues and maps after its sequences have ended. -/
theorem inv_abort {s s₁ : Scheduler β} (h : Inv s) {g : SequenceGroup} (hg : g ∈ s.requestMap)
    (hE : Each (fun _ => Ended .cancelled) g.sequenceIds s s₁) :
    Inv (dropRequestMetadata g { s₁ with
      waiting := s₁.waiting.filter (·.requestId ≠ g.requestId)
      running := s₁.running.filter (·.requestId ≠ g.requestId)
      swapped := s₁.swapped.filter (·.requestId ≠ g.requestId) }) := by
  have hended : ∀ i ∈ g.sequenceIds, (life s₁ i).Ok ∧ (life s₁ i).data.seqId = i ∧
      ((life s₁ i).data.status = .finished ∨ (life s₁ i).data.status = .cancelled) := fun i hi =>
    ended_spec h (Or.inr rfl) (hE.each i hi)
  have hstore : ∀ i, i ∉ g.sequenceIds → s₁.store i = s.store i := fun i hi =>
    congrArg Life.data (hE.other i hi)
  have hgroup : ∀ g' ∈ s.requestMap, g'.requestId ≠ g.requestId → ∀ i ∈ g'.sequenceIds,
      i ∉ g.sequenceIds := by
    intro g' hg' hne i hi h0
    exact hne (congrArg SequenceGroup.requestId (h.eq_of_mem hg' hg hi h0))
  have hmem : ∀ {l : List SequenceGroup} {g' : SequenceGroup},
      g' ∈ l.filter (·.requestId ≠ g.requestId) → g' ∈ l ∧ g'.requestId ≠ g.requestId := by
    intro l g' hg'
    simpa using List.mem_filter.mp hg'
  refine ⟨hE.wf, fun i => ?_, fun i => ?_, fun i hi => ?_, fun g' hg' i hi => ?_,
    fun g' hg' i hi => ?_, fun g' hg' i hi => ?_, ?_, fun g' hg' => ?_, ?_, ?_,
    fun g' hg' i hi => ?_⟩
  · change (s₁.store i).seqId = i
    by_cases hi : i ∈ g.sequenceIds
    · exact (hended i hi).2.1
    · rw [hstore i hi]; exact h.seqId i
  · change (life s₁ i).Ok
    by_cases hi : i ∈ g.sequenceIds
    · exact (hended i hi).1
    · rw [hE.other i hi]; exact h.ok i
  · have hi : HasTable (life s₁ i).data.status := hi
    change i ∈ s₁.sequenceMap \ g.sequenceIds.toFinset
    rw [hE.same.sequenceMap, Finset.mem_sdiff, List.mem_toFinset]
    by_cases hmem : i ∈ g.sequenceIds
    · rcases (hended i hmem).2.2 with h1 | h1 <;> rw [h1] at hi <;>
        rcases hi with h2 | h2 | h2 <;> cases h2
    · rw [hE.other i hmem] at hi
      exact ⟨h.registered i hi, hmem⟩
  · obtain ⟨hg', hne⟩ := hmem hg'
    rw [hE.same.waiting] at hg'
    change (s₁.store i).status = _
    rw [hstore i (hgroup g' (h.waiting_mem hg') hne i hi)]
    exact h.waiting g' hg' i hi
  · obtain ⟨hg', hne⟩ := hmem hg'
    rw [hE.same.running] at hg'
    change Active (s₁.store i).status ∨ (s₁.store i).status = _
    rw [hstore i (hgroup g' (h.running_mem hg') hne i hi)]
    exact h.running g' hg' i hi
  · obtain ⟨hg', hne⟩ := hmem hg'
    rw [hE.same.swapped] at hg'
    change (s₁.store i).status = _ ∨ (s₁.store i).status = _
    rw [hstore i (hgroup g' (h.swapped_mem hg') hne i hi)]
    exact h.swapped g' hg' i hi
  · refine h.nodup.sublist ?_
    unfold queuedGroups
    change List.Sublist (s₁.waiting.filter _ ++ s₁.running.filter _ ++ s₁.swapped.filter _) _
    rw [hE.same.waiting, hE.same.running, hE.same.swapped]
    exact (List.filter_sublist.append List.filter_sublist).append List.filter_sublist
  · change g' ∈ s₁.requestMap.filter (·.requestId ≠ g.requestId)
    rw [hE.same.requestMap, List.mem_filter]
    have hg' : g' ∈ s₁.waiting.filter (·.requestId ≠ g.requestId) ++
      s₁.running.filter (·.requestId ≠ g.requestId) ++
      s₁.swapped.filter (·.requestId ≠ g.requestId) := hg'
    rw [List.mem_append, List.mem_append, hE.same.waiting, hE.same.running, hE.same.swapped] at hg'
    rcases hg' with (hg' | hg') | hg'
    · exact ⟨h.waiting_mem (hmem hg').1, by simpa using (hmem hg').2⟩
    · exact ⟨h.running_mem (hmem hg').1, by simpa using (hmem hg').2⟩
    · exact ⟨h.swapped_mem (hmem hg').1, by simpa using (hmem hg').2⟩
  · change ((s₁.requestMap.filter _).map _).Nodup
    rw [hE.same.requestMap]
    exact h.requests.sublist (List.filter_sublist.map _)
  · change ((s₁.requestMap.filter _).flatMap _).Nodup
    rw [hE.same.requestMap]
    exact h.ids.sublist (List.filter_sublist.flatMap _)
  · obtain ⟨hg', hne⟩ := hmem hg'
    rw [hE.same.requestMap] at hg'
    change i ∈ s₁.sequenceMap \ g.sequenceIds.toFinset
    rw [hE.same.sequenceMap, Finset.mem_sdiff, List.mem_toFinset]
    exact ⟨h.member g' hg' i hi, hgroup g' hg' hne i hi⟩

/-- **`abort_request`** ends the sequences of the request and never raises. -/
theorem wp_abortRequest (requestId : String) {s : Scheduler β} (h : Inv s) :
    wp (abortRequest requestId) (fun _ s' => Inv s' ∧ Shrinks s s' ∧
      (∀ g ∈ s'.requestMap, g.requestId ≠ requestId) ∧ ∀ i, life s' i = life s i ∨
        Ended .cancelled (life s i) (life s' i)) (fun _ _ => False) s := by
  simp only [abortRequest, wp_bind, wp_current]
  cases hfind : s.requestMap.find? (·.requestId = requestId) with
  | none =>
    refine ⟨h, Shrinks.refl s, fun g hg h0 => ?_, fun i => Or.inl rfl⟩
    simpa [h0] using List.find?_eq_none.mp hfind g hg
  | some g =>
    have hg : g ∈ s.requestMap := List.mem_of_find?_eq_some hfind
    have hid : g.requestId = requestId := by simpa using List.find?_some hfind
    simp only [wp_bind, wp_update]
    refine wp_mono (wp_forEach_each (P := fun _ => Ended .cancelled) (Q := fun _ _ _ => True)
      (F := False) (fun _ _ _ _ => trivial) (fun _ _ => trivial) g.sequenceIds s
      (h.group_nodup hg) h.wf
      fun i _ t hwf _ _ => wp_cancelSequence hwf) (fun _ s₁ hE => ?_) fun _ _ h0 => h0.1
    have hinv := inv_abort h hg hE
    have hshrink := shrinks_drop h hg hE
    rw [hid] at hinv hshrink
    refine ⟨inv_prune hinv, hshrink.trans (shrinks_prune _), fun g' hg' h0 => ?_, fun i => ?_⟩
    · have hmem := (shrinks_prune _).requestMap g' hg'
      have hne := (List.mem_filter.mp hmem).2
      rw [hid, h0] at hne
      simp at hne
    rw [life_prune]
    by_cases hi : i ∈ g.sequenceIds
    · exact Or.inr (hE.each i hi)
    · exact Or.inl (hE.other i hi)

theorem keepsSwapped_of_ended {s s' : Scheduler β} (h : Inv s)
    (hl : ∀ i, life s' i = life s i ∨ Ended .cancelled (life s i) (life s' i)) :
    KeepsSwapped s s' := by
  intro i hi
  rcases hl i with h1 | h1
  · exact h1
  · have hi : (life s' i).data.status = .swapped := hi
    rcases (ended_spec h (Or.inr rfl) h1).2.2 with h2 | h2 <;> rw [hi] at h2 <;> cases h2

/-! ### Outputs -/

/-- Appending an output changes neither the status nor the share of a sequence. -/
theorem wp_appendOutput {s : Scheduler β} (h : Inv s) (i t : ℕ) :
    wp (appendOutput i t)
      (fun _ s' => Inv s' ∧ Each (fun _ l l' => l' = l.appended t) [i] s s')
      (fun _ s' => s' = s ∧ ¬ (s.store i).Live) s := by
  simp only [appendOutput, wp_bind, wp_current, wp_update]
  by_cases hlive : (s.store i).Live
  · rw [SequenceData.appendOutputToken_eq hlive, wp_ofExcept_ok]
    have hE := Each.of_data (s := s) (i := i) h.wf { s.store i with
      outputTokenIds := (s.store i).outputTokenIds ++ [t]
      numComputedTokens :=
        (s.store i).promptTokenIds.length + ((s.store i).outputTokenIds ++ [t]).length }
    refine ⟨inv_inPlace h hE fun j hj => ?_, hE.mono fun j hj hl => ?_⟩
    · rw [List.mem_singleton.mp hj, hE.each i (by simp)]
      have hdata := congrArg Life.data (hE.each i (by simp))
      refine ⟨(h.ok i).congr_data rfl, ?_, ?_⟩
      · change (Function.update s.store i _ i).seqId = i
        rw [Function.update_self]; exact h.seqId i
      · left
        change (Function.update s.store i _ i).status = _
        rw [Function.update_self]
    · rw [List.mem_singleton.mp hj] at hl ⊢
      exact hl
  · have herr : ∃ e, (s.store i).appendOutputToken t = .error e := by
      unfold SequenceData.appendOutputToken
      have hdone : (s.store i).status = .finished ∨ (s.store i).status = .cancelled := by
        by_contra h0
        exact hlive ⟨fun h1 => h0 (Or.inl h1), fun h1 => h0 (Or.inr h1)⟩
      rw [if_pos hdone]
      exact ⟨_, rfl⟩
    obtain ⟨e, he⟩ := herr
    rw [he, wp_ofExcept_error]
    exact ⟨rfl, hlive⟩

/-! ### `add_request` -/

/-- The state after `add_request` has registered the sequences `done`. -/
structure Registering (s : Scheduler β) (done : List SequenceData) (t : Scheduler β) : Prop where
  inv : Inv t
  cfg : t.cfg = s.cfg
  blockSize : t.kvCache.blockSize = s.kvCache.blockSize
  queues : queuedGroups t = queuedGroups s
  waiting : t.waiting = s.waiting
  requestMap : t.requestMap = s.requestMap
  sequenceMap : t.sequenceMap = s.sequenceMap ∪ (done.map (·.seqId)).toFinset
  nodup : (done.map (·.seqId)).Nodup
  new : ∀ d ∈ done, d.seqId ∉ s.sequenceMap
  share : ∀ i, share t.kvCache i = share s.kvCache i
  other : ∀ i, i ∉ done.map (·.seqId) → t.store i = s.store i
  registered : ∀ d ∈ done, t.store d.seqId = { d with status := .waiting }

theorem Registering.start {s : Scheduler β} (h : Inv s) : Registering s [] s :=
  ⟨h, rfl, rfl, rfl, rfl, rfl, by simp, List.nodup_nil, fun _ hd => absurd hd List.not_mem_nil,
    fun _ => rfl, fun _ _ => rfl, fun _ hd => absurd hd List.not_mem_nil⟩

/-- Registering a sequence whose id is not in use. -/
theorem inv_register {s : Scheduler β} (h : Inv s) {d : SequenceData} (hd : d.seqId ∉ s.sequenceMap)
    (hst : d.status = .waiting) :
    Inv { s with
      store := Function.update s.store d.seqId d
      sequenceMap := insert d.seqId s.sequenceMap } := by
  have hnotable : ¬ HasTable (s.store d.seqId).status := fun h0 => hd (h.registered _ h0)
  have hold := h.ok d.seqId
  have hstore : ∀ i, i ≠ d.seqId → Function.update s.store d.seqId d i = s.store i := fun i hi =>
    Function.update_of_ne hi d s.store
  have hgroup : ∀ g ∈ s.requestMap, ∀ i ∈ g.sequenceIds, i ≠ d.seqId := by
    rintro g hg i hi rfl
    exact hd (h.member g hg _ hi)
  refine ⟨h.wf, fun i => ?_, fun i => ?_, fun i hi => ?_, fun g hg i hi => ?_, fun g hg i hi => ?_,
    fun g hg i hi => ?_, h.nodup, h.queued, h.requests, h.ids,
    fun g hg i hi => Finset.mem_insert_of_mem (h.member g hg i hi)⟩
  · change (Function.update s.store d.seqId d i).seqId = i
    by_cases hi : i = d.seqId
    · rw [hi, Function.update_self]
    · rw [hstore i hi]; exact h.seqId i
  · change Life.Ok ⟨Function.update s.store d.seqId d i, share s.kvCache i⟩
    by_cases hi : i = d.seqId
    · subst hi
      have htok : (share s.kvCache d.seqId).tokens = none := hold.tokens_none hnotable
      have hmark : (share s.kvCache d.seqId).swappedOut = false :=
        hold.mark_false fun h0 => hnotable (Or.inr (Or.inr h0))
      rw [Function.update_self]
      refine ⟨⟨fun h0 => absurd htok h0, fun h0 => ?_⟩, hold.rows,
        fun h0 => absurd (hmark.symm.trans h0) Bool.false_ne_true, hold.copy⟩
      have h0 : HasTable d.status := h0
      rw [hst] at h0
      rcases h0 with h1 | h1 | h1 <;> cases h1
    · rw [hstore i hi]; exact h.ok i
  · have hi : HasTable (Function.update s.store d.seqId d i).status := hi
    by_cases hid : i = d.seqId
    · rw [hid]; exact Finset.mem_insert_self _ _
    · rw [hstore i hid] at hi
      exact Finset.mem_insert_of_mem (h.registered i hi)
  · change (Function.update s.store d.seqId d i).status = _
    rw [hstore i (hgroup g (h.waiting_mem hg) i hi)]; exact h.waiting g hg i hi
  · change Active (Function.update s.store d.seqId d i).status ∨
      (Function.update s.store d.seqId d i).status = _
    rw [hstore i (hgroup g (h.running_mem hg) i hi)]; exact h.running g hg i hi
  · change (Function.update s.store d.seqId d i).status = _ ∨
      (Function.update s.store d.seqId d i).status = _
    rw [hstore i (hgroup g (h.swapped_mem hg) i hi)]; exact h.swapped g hg i hi

theorem setStatus_ok {d d' : SequenceData} {st : SequenceStatus} (h : d.setStatus st = .ok d') :
    d' = { d with status := st } := by
  unfold SequenceData.setStatus at h
  cases hv : d.validateTransition st with
  | error e => rw [hv] at h; cases h
  | ok u => rw [hv] at h; exact (Except.ok.inj h).symm

theorem wp_registerSequence {s : Scheduler β} {done : List SequenceData} {t : Scheduler β}
    (h : Registering s done t) (d : SequenceData) :
    wp (registerSequence d) (fun _ t' => Registering s (done ++ [d]) t')
      (fun _ t' => Registering s done t' ∧ (d.seqId ∈ t'.sequenceMap ∨ d.status ≠ .waiting)) t := by
  have hgo : ∀ d' : SequenceData, d' = { d with status := .waiting } → d.seqId ∉ t.sequenceMap →
      Registering s (done ++ [d]) { t with
        store := Function.update t.store d.seqId d'
        sequenceMap := insert d.seqId t.sequenceMap } := by
    rintro d' rfl hd
    have hnot : d.seqId ∉ s.sequenceMap ∧ d.seqId ∉ done.map (·.seqId) := by
      rw [h.sequenceMap, Finset.mem_union, not_or, List.mem_toFinset] at hd
      exact hd
    refine ⟨inv_register (d := { d with status := .waiting }) h.inv hd rfl, h.cfg, h.blockSize,
      h.queues, h.waiting, h.requestMap, ?_, ?_, fun d₁ hd₁ => ?_, h.share, fun i hi => ?_,
      fun d₁ hd₁ => ?_⟩
    · rw [h.sequenceMap, List.map_append, List.toFinset_append]
      ext i
      simp only [List.map_cons, List.map_nil, List.toFinset_cons, List.toFinset_nil,
        Finset.mem_insert, Finset.mem_union, Finset.mem_singleton, insert_empty_eq]
      tauto
    · rw [List.map_append]
      refine List.nodup_append'.mpr ⟨h.nodup, List.nodup_singleton _, fun i hi hi' => hnot.2 ?_⟩
      have he : i = d.seqId := List.mem_singleton.mp hi'
      rw [← he]; exact hi
    · rcases List.mem_append.mp hd₁ with hd₁ | hd₁
      · exact h.new d₁ hd₁
      · rw [List.mem_singleton.mp hd₁]; exact hnot.1
    · rw [List.map_append, List.mem_append, not_or] at hi
      have hne : i ≠ d.seqId := fun h0 => hi.2 (by rw [h0]; exact List.mem_singleton_self _)
      change Function.update t.store d.seqId _ i = _
      rw [Function.update_of_ne hne]
      exact h.other i hi.1
    · change Function.update t.store d.seqId _ d₁.seqId = _
      rcases List.mem_append.mp hd₁ with hd₁ | hd₁
      · have hne : d₁.seqId ≠ d.seqId := fun h0 => hnot.2 (h0 ▸ List.mem_map_of_mem hd₁)
        rw [Function.update_of_ne hne]
        exact h.registered d₁ hd₁
      · rw [List.mem_singleton.mp hd₁, Function.update_self]
  simp only [registerSequence, wp_bind, wp_current, wp_ite, wp_raise, wp_update, wp_pure]
  refine ⟨fun hd => ⟨h, Or.inl hd⟩, fun hd => ⟨fun hst => ?_, fun hst => ?_⟩⟩
  · cases hset : d.setStatus .waiting with
    | error e => exact ⟨h, Or.inr hst⟩
    | ok d' => exact hgo d' (setStatus_ok hset) hd
  · refine hgo d ?_ hd
    rw [← not_not.mp hst]

/-- **`add_request`** registers new sequences; if it raises, some of them may stay registered. -/
theorem wp_addRequest (requestId : String) (sequences : List SequenceData) {s : Scheduler β}
    (h : Inv s) :
    wp (addRequest requestId sequences)
      (fun _ s' => Inv s' ∧ ∃ t, Registering s sequences t ∧ s' = { t with
        requestMap := t.requestMap ++ [⟨requestId, sequences.map (·.seqId)⟩]
        waiting := t.waiting ++ [⟨requestId, sequences.map (·.seqId)⟩] })
      (fun _ s' => (requestId ∈ s.requestMap.map (·.requestId) ∧ s' = s) ∨
        ∃ done d rest, sequences = done ++ d :: rest ∧ Registering s done s' ∧
          (d.seqId ∈ s'.sequenceMap ∨ d.status ≠ .waiting)) s := by
  simp only [addRequest, wp_bind, wp_current, wp_ite, wp_raise, wp_update]
  refine ⟨fun hold => Or.inl ⟨hold, trivial⟩, fun hfresh => ?_⟩
  refine wp_mono (wp_forEach (fun rest t => ∃ done, sequences = done ++ rest ∧ Registering s done t)
    (R := fun _ t => ∃ done d rest, sequences = done ++ d :: rest ∧ Registering s done t ∧
      (d.seqId ∈ t.sequenceMap ∨ d.status ≠ .waiting)) (fun d rest t hI => ?_) sequences s
    ⟨[], rfl, Registering.start h⟩) ?_ fun _ _ h => Or.inr h
  · obtain ⟨done, hsplit, hreg⟩ := hI
    refine wp_mono (wp_registerSequence hreg d) (fun _ t' ht => ?_)
      fun _ t' ht => ⟨done, d, rest, hsplit, ht⟩
    exact ⟨done ++ [d], by rw [hsplit, List.append_assoc]; rfl, ht⟩
  · rintro _ t ⟨done, hsplit, hreg⟩
    rw [List.append_nil] at hsplit
    subst hsplit
    refine ⟨?_, t, hreg, rfl⟩
    have hst : ∀ i ∈ sequences.map (·.seqId), (t.store i).status = .waiting := by
      intro i hi
      obtain ⟨d, hd, rfl⟩ := List.mem_map.mp hi
      rw [hreg.registered d hd]
    have hidnot : ∀ g ∈ t.requestMap, ∀ i ∈ g.sequenceIds, i ∉ sequences.map (·.seqId) := by
      intro g hg i hi h0
      obtain ⟨d, hd, rfl⟩ := List.mem_map.mp h0
      rw [hreg.requestMap] at hg
      exact hreg.new d hd (h.member g hg _ hi)
    have hrid : ∀ g ∈ t.requestMap, g.requestId ≠ requestId := by
      rintro g hg rfl
      rw [hreg.requestMap] at hg
      exact hfresh (List.mem_map_of_mem hg)
    have ht := hreg.inv
    refine ⟨ht.wf, ht.seqId, ht.ok, ht.registered, fun g hg i hi => ?_, ht.running, ht.swapped, ?_,
      fun g hg => ?_, ?_, ?_, fun g hg i hi => ?_⟩
    · rcases List.mem_append.mp hg with hg | hg
      · exact ht.waiting g hg i hi
      · rw [List.mem_singleton.mp hg] at hi
        exact hst i hi
    · have hnd : ((⟨requestId, sequences.map (·.seqId)⟩ : SequenceGroup) :: queuedGroups t).Nodup :=
        List.nodup_cons.mpr ⟨fun h0 => hrid _ (ht.queued _ h0) rfl, ht.nodup⟩
      refine nodup_of_count hnd fun a => ?_
      simp only [queuedGroups, List.count_append, List.count_cons, List.count_nil]
      omega
    · simp only [queuedGroups, List.mem_append] at hg
      rcases hg with ((hg | hg) | hg) | hg
      · exact List.mem_append_left _ (ht.waiting_mem hg)
      · exact List.mem_append_right _ hg
      · exact List.mem_append_left _ (ht.running_mem hg)
      · exact List.mem_append_left _ (ht.swapped_mem hg)
    · rw [List.map_append]
      refine List.nodup_append'.mpr ⟨ht.requests, List.nodup_singleton _, fun r hr hr' => ?_⟩
      obtain ⟨g, hg, rfl⟩ := List.mem_map.mp hr
      exact hrid g hg (List.mem_singleton.mp hr')
    · rw [List.flatMap_append]
      refine List.nodup_append'.mpr ⟨ht.ids, ?_, fun i hi hi' => ?_⟩
      · simpa using hreg.nodup
      · obtain ⟨g, hg, hig⟩ := List.mem_flatMap.mp hi
        exact hidnot g hg i hig (by simpa using hi')
    · rcases List.mem_append.mp hg with hg | hg
      · exact ht.member g hg i hi
      · rw [List.mem_singleton.mp hg] at hi
        change i ∈ t.sequenceMap
        rw [hreg.sequenceMap, Finset.mem_union, List.mem_toFinset]
        exact Or.inr hi

theorem Registering.keepsSwapped {s t : Scheduler β} {done : List SequenceData}
    (h : Registering s done t) : KeepsSwapped s t := by
  intro i hi
  by_cases hmem : i ∈ done.map (·.seqId)
  · obtain ⟨d, hd, rfl⟩ := List.mem_map.mp hmem
    rw [h.registered d hd] at hi
    cases hi
  · unfold life
    rw [h.other i hmem, h.share i]

end MoeInfinity.Serving.ScheduleOps
