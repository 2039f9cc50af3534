import MoeInfinity.Serving.ScheduleSpec

/-! # The invariant of the scheduler

In every state between two calls the three queues hold different registered requests, the statuses
of their sequences fit the queue, and every sequence is `Ok`. Under this invariant `schedule` never
raises. -/

namespace MoeInfinity.Serving.ScheduleInv

open MoeInfinity.Python MoeInfinity.Lib.Imperative
open MoeInfinity.Serving.Sequence MoeInfinity.Serving.KvCache MoeInfinity.Serving.KvCacheSpec
open MoeInfinity.Serving.Schedule MoeInfinity.Serving.Schedule.Scheduler
open MoeInfinity.Serving.Lifecycle MoeInfinity.Serving.ScheduleSpec

variable {β : Type}

/-! ### The invariant -/

/-- All groups that are queued. -/
def queuedGroups (s : Scheduler β) : List SequenceGroup := s.waiting ++ s.running ++ s.swapped

/-- **The invariant** of the scheduler. -/
structure Inv (s : Scheduler β) : Prop where
  wf : Wf s.kvCache
  seqId : ∀ i, (s.store i).seqId = i
  ok : ∀ i, (life s i).Ok
  registered : ∀ i, HasTable (s.store i).status → i ∈ s.sequenceMap
  waiting : ∀ g ∈ s.waiting, ∀ i ∈ g.sequenceIds, (s.store i).status = .waiting
  running : ∀ g ∈ s.running, ∀ i ∈ g.sequenceIds,
    Active (s.store i).status ∨ (s.store i).status = .finished
  swapped : ∀ g ∈ s.swapped, ∀ i ∈ g.sequenceIds,
    (s.store i).status = .swapped ∨ (s.store i).status = .finished
  nodup : (queuedGroups s).Nodup
  queued : ∀ g ∈ queuedGroups s, g ∈ s.requestMap
  requests : (s.requestMap.map (·.requestId)).Nodup
  ids : (s.requestMap.flatMap (·.sequenceIds)).Nodup
  member : ∀ g ∈ s.requestMap, ∀ i ∈ g.sequenceIds, i ∈ s.sequenceMap

theorem inv_new (cfg : SchedConfig) (kvCfg : KvConfig) (kv : ℕ → β) :
    Inv (Scheduler.new cfg (PagedKVCache.new kvCfg kv)) := by
  refine ⟨wf_new kvCfg kv, fun _ => rfl, fun i => ?_, fun i hi => ?_, ?_, ?_, ?_,
    List.nodup_nil, ?_, List.nodup_nil, List.nodup_nil, ?_⟩
  · refine ⟨⟨fun h0 => absurd rfl h0, fun h0 => ?_⟩, fun _ => rfl, fun h0 => ?_, fun _ => rfl⟩
    · rcases h0 with h0 | h0 | h0 <;> cases h0
    · cases h0
  · rcases hi with h0 | h0 | h0 <;> cases h0
  all_goals
    intro g hg
    cases hg

section Inv

variable {s s' : Scheduler β} (h : Inv s)
include h

theorem Inv.group_nodup {g : SequenceGroup} (hg : g ∈ s.requestMap) : g.sequenceIds.Nodup :=
  (List.nodup_flatMap.mp h.ids).1 g hg

theorem Inv.eq_of_mem {g g' : SequenceGroup} (hg : g ∈ s.requestMap) (hg' : g' ∈ s.requestMap)
    {i : ℕ} (hi : i ∈ g.sequenceIds) (hi' : i ∈ g'.sequenceIds) : g = g' := by
  by_contra hne
  have hpair := (List.nodup_flatMap.mp h.ids).2
  have hsymm : Std.Symm (Function.onFun (List.Disjoint (α := ℕ)) SequenceGroup.sequenceIds) :=
    ⟨fun _ _ hd => hd.symm⟩
  exact hpair.forall hg hg' hne hi hi'

theorem Inv.eq_of_requestId {g g' : SequenceGroup} (hg : g ∈ s.requestMap) (hg' : g' ∈ s.requestMap)
    (he : g.requestId = g'.requestId) : g = g' :=
  List.inj_on_of_nodup_map h.requests hg hg' he

theorem Inv.waiting_mem {g : SequenceGroup} (hg : g ∈ s.waiting) : g ∈ s.requestMap :=
  h.queued g (List.mem_append_left _ (List.mem_append_left _ hg))

theorem Inv.running_mem {g : SequenceGroup} (hg : g ∈ s.running) : g ∈ s.requestMap :=
  h.queued g (List.mem_append_left _ (List.mem_append_right _ hg))

theorem Inv.swapped_mem {g : SequenceGroup} (hg : g ∈ s.swapped) : g ∈ s.requestMap :=
  h.queued g (List.mem_append_right _ hg)

/-- The head of the waiting queue is dropped. -/
theorem Inv.dropWaiting {g : SequenceGroup} {rest : List SequenceGroup}
    (hw : s.waiting = g :: rest) :
    Inv { s with waiting := rest } := by
  have hmem : ∀ g' ∈ rest, g' ∈ s.waiting :=
    fun g' hg' => by rw [hw]; exact List.mem_cons_of_mem g hg'
  have hsub : (rest ++ s.running ++ s.swapped).Sublist (queuedGroups s) := by
    rw [queuedGroups, hw]
    exact ((List.sublist_cons_self g rest).append_right _).append_right _
  exact ⟨h.wf, h.seqId, h.ok, h.registered, fun g' hg' => h.waiting g' (hmem g' hg'), h.running,
    h.swapped, h.nodup.sublist hsub, fun g' hg' => h.queued g' (hsub.subset hg'), h.requests, h.ids,
    h.member⟩

/-- **Regrouping**: the sequences of one group change, and the group may change its queue. -/
theorem Inv.regroup {g : SequenceGroup} (hg : g ∈ s.requestMap)
    {P : ℕ → Life β → Life β → Prop} {ids : List ℕ} (hids : ∀ i ∈ ids, i ∈ g.sequenceIds)
    {W R S : List SequenceGroup}
    (hE : Each P ids { s with waiting := W, running := R, swapped := S } s')
    (hok : ∀ i ∈ ids, (life s' i).Ok ∧ (s'.store i).seqId = i)
    (hW : ∀ g' ∈ W, (g' ∈ s.waiting ∧ g' ≠ g) ∨
      (g' = g ∧ ∀ i ∈ g.sequenceIds, (s'.store i).status = .waiting))
    (hR : ∀ g' ∈ R, (g' ∈ s.running ∧ g' ≠ g) ∨ (g' = g ∧ ∀ i ∈ g.sequenceIds,
      Active (s'.store i).status ∨ (s'.store i).status = .finished))
    (hS : ∀ g' ∈ S, (g' ∈ s.swapped ∧ g' ≠ g) ∨ (g' = g ∧ ∀ i ∈ g.sequenceIds,
      (s'.store i).status = .swapped ∨ (s'.store i).status = .finished))
    (hnd : (W ++ R ++ S).Nodup) : Inv s' := by
  have hother : ∀ i, i ∉ ids → life s' i = life s i := fun i hi => hE.other i hi
  have hstore : ∀ i, i ∉ ids → s'.store i = s.store i :=
    fun i hi => congrArg Life.data (hother i hi)
  -- the sequences of the other groups are untouched
  have hgroup : ∀ g' ∈ s.requestMap, g' ≠ g → ∀ i ∈ g'.sequenceIds, s'.store i = s.store i := by
    intro g' hg' hne i hi
    exact hstore i fun h0 => hne (h.eq_of_mem hg' hg hi (hids i h0))
  have hmap : s'.requestMap = s.requestMap := hE.same.requestMap
  have hseq : s'.sequenceMap = s.sequenceMap := hE.same.sequenceMap
  have hq : queuedGroups s' = W ++ R ++ S := by
    unfold queuedGroups
    rw [hE.same.waiting, hE.same.running, hE.same.swapped]
  refine ⟨hE.wf, fun i => ?_, fun i => ?_, fun i hi => ?_, fun g' hg' i hi => ?_,
    fun g' hg' i hi => ?_, fun g' hg' i hi => ?_,
    by rw [hq]; exact hnd, fun g' hg' => ?_, by rw [hmap]; exact h.requests,
    by rw [hmap]; exact h.ids, by rw [hmap, hseq]; exact h.member⟩
  · by_cases hi : i ∈ ids
    · exact (hok i hi).2
    · rw [hstore i hi]; exact h.seqId i
  · by_cases hi : i ∈ ids
    · exact (hok i hi).1
    · rw [hother i hi]; exact h.ok i
  · rw [hseq]
    by_cases hmem : i ∈ ids
    · exact h.member g hg i (hids i hmem)
    · rw [hstore i hmem] at hi; exact h.registered i hi
  · rw [hE.same.waiting] at hg'
    rcases hW g' hg' with ⟨hw, hne⟩ | ⟨rfl, hst⟩
    · rw [hgroup g' (h.waiting_mem hw) hne i hi]; exact h.waiting g' hw i hi
    · exact hst i hi
  · rw [hE.same.running] at hg'
    rcases hR g' hg' with ⟨hw, hne⟩ | ⟨rfl, hst⟩
    · rw [hgroup g' (h.running_mem hw) hne i hi]; exact h.running g' hw i hi
    · exact hst i hi
  · rw [hE.same.swapped] at hg'
    rcases hS g' hg' with ⟨hw, hne⟩ | ⟨rfl, hst⟩
    · rw [hgroup g' (h.swapped_mem hw) hne i hi]; exact h.swapped g' hw i hi
    · exact hst i hi
  · rw [hmap]
    rw [hq, List.mem_append, List.mem_append] at hg'
    rcases hg' with (hg' | hg') | hg'
    · rcases hW g' hg' with ⟨hw, -⟩ | ⟨rfl, -⟩
      exacts [h.waiting_mem hw, hg]
    · rcases hR g' hg' with ⟨hw, -⟩ | ⟨rfl, -⟩
      exacts [h.running_mem hw, hg]
    · rcases hS g' hg' with ⟨hw, -⟩ | ⟨rfl, -⟩
      exacts [h.swapped_mem hw, hg]

end Inv

/-! ### Preemption -/

/-- The running sequences of a group. -/
def activeIds (s : Scheduler β) (g : SequenceGroup) : List ℕ :=
  g.sequenceIds.filter fun i => Active (s.store i).status

theorem mem_activeIds {s : Scheduler β} {g : SequenceGroup} {i : ℕ} :
    i ∈ activeIds s g ↔ i ∈ g.sequenceIds ∧ Active (s.store i).status := by
  simp [activeIds]

theorem activeIds_congr {s s' : Scheduler β} {g : SequenceGroup}
    (h : ∀ i ∈ g.sequenceIds, s'.store i = s.store i) : activeIds s' g = activeIds s g :=
  List.filter_congr fun i hi => by rw [h i hi]

/-- Preemption from the running queue `gs`: the groups before the first one with a running sequence
are dropped, and the running sequences of that one are preempted. -/
def Preempts (s : Scheduler β) (gs : List SequenceGroup) (r : List ℕ) (s' : Scheduler β) : Prop :=
  (r = [] ∧ (∀ g ∈ gs, activeIds s g = []) ∧
    Each (fun _ l l' => l' = l.preempted) [] { s with running := [] } s') ∨
  ∃ dead g rest, gs = dead ++ g :: rest ∧ (∀ g' ∈ dead, activeIds s g' = []) ∧
    r = activeIds s g ∧ r ≠ [] ∧ Each (fun _ l l' => l' = l.preempted) r
      { s with running := rest, swapped := s.swapped ++ [g] } s'

theorem nodup_of_count {α : Type} [DecidableEq α] {l l' : List α} (h : l.Nodup)
    (hc : ∀ a, l'.count a ≤ l.count a) : l'.Nodup :=
  List.nodup_iff_count_le_one.mpr fun a => (hc a).trans (List.nodup_iff_count_le_one.mp h a)

theorem wp_preemptLoop : ∀ (gs : List SequenceGroup) (s : Scheduler β), Inv s → s.running = gs →
    wp (preemptLoop gs) (fun r s' => Inv s' ∧ Preempts s gs r s') (fun _ _ => False) s
  | [], s, h, hrun => by
    refine ⟨h, Or.inl ⟨rfl, fun g hg => absurd hg List.not_mem_nil, ?_⟩⟩
    exact ⟨h.wf, ⟨rfl, rfl, rfl, hrun, rfl, rfl, rfl⟩, fun _ _ => rfl,
      fun _ hi => absurd hi List.not_mem_nil, rfl⟩
  | g :: rest, s, h, hrun => by
    have hmem : g ∈ s.running := by rw [hrun]; exact List.mem_cons_self
    have hreq := h.running_mem hmem
    have hnd : (s.waiting ++ (g :: rest) ++ s.swapped).Nodup := by
      have := h.nodup
      rwa [queuedGroups, hrun] at this
    have hrest : ∀ g' ∈ rest, g' ∈ s.running ∧ g' ≠ g := by
      intro g' hg'
      refine ⟨by rw [hrun]; exact List.mem_cons_of_mem g hg', ?_⟩
      rintro rfl
      exact (List.nodup_cons.mp (List.nodup_append.mp (List.nodup_append.mp hnd).1).2.1).1 hg'
    have hne : ∀ g' ∈ s.waiting ++ s.swapped, g' ≠ g := by
      rintro g' hg' rfl
      have hcount := List.nodup_iff_count_le_one.mp hnd g'
      have hpos := List.count_pos_iff.mpr hg'
      simp only [List.count_append, List.count_cons_self] at hcount hpos
      omega
    have hW : ∀ g' ∈ s.waiting, g' ∈ s.waiting ∧ g' ≠ g := fun g' hg' =>
      ⟨hg', hne g' (List.mem_append_left _ hg')⟩
    have hS : ∀ g' ∈ s.swapped, g' ∈ s.swapped ∧ g' ≠ g := fun g' hg' =>
      ⟨hg', hne g' (List.mem_append_right _ hg')⟩
    simp only [preemptLoop, wp_bind, wp_update, wp_ite, wp_pure]
    refine wp_mono (wp_preemptSequences g.sequenceIds { s with running := rest }
      (h.group_nodup hreq) h.wf fun i _ => h.ok i) ?_ fun _ _ h => h
    rintro r s₁ ⟨hr, hE⟩
    have hr : r = activeIds s g := hr
    have hids : ∀ i ∈ r, i ∈ g.sequenceIds := fun i hi => (mem_activeIds.mp (hr ▸ hi)).1
    have hlife : ∀ i ∈ r, life s₁ i = (life s i).preempted := fun i hi => hE.each i hi
    have hok : ∀ i ∈ r, (life s₁ i).Ok ∧ (s₁.store i).seqId = i := by
      intro i hi
      have hact : Active (s.store i).status := (mem_activeIds.mp (hr ▸ hi)).2
      refine ⟨by rw [hlife i hi]; exact (h.ok i).preempted hact, ?_⟩
      rw [show s₁.store i = (life s i).preempted.data from congrArg Life.data (hlife i hi)]
      exact h.seqId i
    refine ⟨fun hne' => ?_, fun hnil => ?_⟩
    · -- the group is preempted
      have hE' := hE.requeue id id (· ++ [g])
      refine ⟨h.regroup hreq hids hE' hok (fun g' hg' => Or.inl (hW g' hg'))
        (fun g' hg' => Or.inl (hrest g' hg')) (fun g' hg' => ?_) ?_,
        Or.inr ⟨[], g, rest, rfl, fun g' hg' => absurd hg' List.not_mem_nil, hr, hne', hE'⟩⟩
      · rcases List.mem_append.mp hg' with hg' | hg'
        · exact Or.inl (hS g' hg')
        · refine Or.inr ⟨List.mem_singleton.mp hg', fun i hi => ?_⟩
          by_cases hact : Active (s.store i).status
          · have hir : i ∈ r := by rw [hr]; exact mem_activeIds.mpr ⟨hi, hact⟩
            left
            exact congrArg (fun l : Life β => l.data.status) (hlife i hir)
          · have hir : i ∉ r := fun h0 => hact (mem_activeIds.mp (hr ▸ h0)).2
            right
            have hst := (h.running g hmem i hi).resolve_left hact
            rw [← hst]
            exact congrArg (fun l : Life β => l.data.status) (hE.other i hir)
      · refine nodup_of_count hnd fun a => ?_
        simp only [id, List.count_append, List.count_cons, List.count_nil]
        omega
    · -- the group has no running sequence
      have hnil : r = [] := not_not.mp hnil
      rw [hnil] at hE
      have hinv : Inv s₁ := by
        refine h.regroup hreq (fun i hi => absurd hi List.not_mem_nil) (hE.requeue id id id)
          (fun i hi => absurd hi List.not_mem_nil) (fun g' hg' => Or.inl (hW g' hg'))
          (fun g' hg' => Or.inl (hrest g' hg')) (fun g' hg' => Or.inl (hS g' hg')) ?_
        refine nodup_of_count hnd fun a => ?_
        simp only [id, List.count_append, List.count_cons]
        omega
      have hstore : ∀ i, s₁.store i = s.store i := fun i =>
        congrArg Life.data (hE.other i List.not_mem_nil)
      have hact : ∀ g', activeIds s₁ g' = activeIds s g' := fun g' =>
        activeIds_congr fun i _ => hstore i
      refine wp_mono (wp_preemptLoop rest s₁ hinv hE.same.running) ?_ fun _ _ h => h
      rintro r' s' ⟨hinv', hP⟩
      refine ⟨hinv', ?_⟩
      rcases hP with ⟨hr', hdead, hE'⟩ | ⟨dead, g₁, rest₁, hsplit, hdead, hr', hne', hE'⟩
      · refine Or.inl ⟨hr', fun g' hg' => ?_, ?_⟩
        · rcases List.mem_cons.mp hg' with rfl | hg'
          · rw [← hr, hnil]
          · rw [← hact]; exact hdead g' hg'
        · refine ((hE.requeue id (fun _ => []) id).trans hE').mono fun i hi =>
            absurd hi List.not_mem_nil
      · refine Or.inr ⟨g :: dead, g₁, rest₁,
          by rw [hsplit]; rfl, fun g' hg' => ?_, by rw [hr', hact], hne', ?_⟩
        · rcases List.mem_cons.mp hg' with rfl | hg'
          · rw [← hr, hnil]
          · rw [← hact]; exact hdead g' hg'
        · refine (((hE.requeue id (fun _ => rest₁) (· ++ [g₁])).widen r').trans hE').mono
            fun i _ hl => ?_
          obtain ⟨l₁, rfl, hl⟩ := hl
          exact hl

/-! ### Recovery -/

/-- The swapped sequences of a group. -/
def swappedIds (s : Scheduler β) (g : SequenceGroup) : List ℕ := s.withStatus g .swapped

theorem mem_swappedIds {s : Scheduler β} {g : SequenceGroup} {i : ℕ} :
    i ∈ swappedIds s g ↔ i ∈ g.sequenceIds ∧ (s.store i).status = .swapped := by
  simp [swappedIds, withStatus]

theorem swappedIds_congr {s s' : Scheduler β} {g : SequenceGroup}
    (h : ∀ i ∈ g.sequenceIds, s'.store i = s.store i) : swappedIds s' g = swappedIds s g :=
  List.filter_congr fun i hi => by rw [h i hi]

/-- What the recovery of one group does. -/
inductive Recovers (g : SequenceGroup) (s s' : Scheduler β) : Prop
  | skip (hg : g ∉ s.swapped) (hs : s' = s)
  | drop (hg : g ∈ s.swapped) (hnil : swappedIds s g = [])
      (hs : s' = { s with swapped := s.swapped.erase g })
  | fail (hg : g ∈ s.swapped) (hlt : s.numFreeBlocks < demandOf s (swappedIds s g))
      (hE : Each (fun _ => Disturbed) (swappedIds s g) s s')
  | done (hg : g ∈ s.swapped) (hne : swappedIds s g ≠ [])
      (hE : Each (fun _ l l' => l' = l.recovered) (swappedIds s g)
        { s with running := g :: s.running, swapped := s.swapped.erase g } s')

theorem disturbed_ok {l l' : Life β} (h : Disturbed l l') (hok : l.Ok)
    (hst : l.data.status = .swapped) : l'.Ok ∧ l'.data = l.data := by
  rcases h with rfl | rfl | rfl
  · exact ⟨hok, rfl⟩
  · exact ⟨hok.restored hst, rfl⟩
  · exact ⟨hok.lost, rfl⟩

theorem wp_recoverGroup {s : Scheduler β} (h : Inv s) (g : SequenceGroup) :
    wp (recoverGroup g) (fun _ s' => Inv s' ∧ Recovers g s s') (fun _ _ => False) s := by
  simp only [recoverGroup, wp_bind, wp_current, wp_ite, wp_pure, wp_update]
  refine ⟨fun hg => ⟨h, .skip hg rfl⟩, fun hg => ?_⟩
  have hg : g ∈ s.swapped := not_not.mp hg
  have hreq := h.swapped_mem hg
  have hnodup := h.nodup
  have hcount := List.nodup_iff_count_le_one.mp hnodup g
  have hpos := List.count_pos_iff.mpr hg
  simp only [queuedGroups, List.count_append] at hcount
  have hW : ∀ g' ∈ s.waiting, g' ∈ s.waiting ∧ g' ≠ g := by
    refine fun g' hg' => ⟨hg', ?_⟩
    rintro rfl
    have := List.count_pos_iff.mpr hg'
    omega
  have hR : ∀ g' ∈ s.running, g' ∈ s.running ∧ g' ≠ g := by
    refine fun g' hg' => ⟨hg', ?_⟩
    rintro rfl
    have := List.count_pos_iff.mpr hg'
    omega
  have hS : ∀ g' ∈ s.swapped.erase g, g' ∈ s.swapped ∧ g' ≠ g := by
    refine fun g' hg' => ⟨List.mem_of_mem_erase hg', ?_⟩
    rintro rfl
    have := List.count_pos_iff.mpr hg'
    rw [List.count_erase_self] at this
    omega
  have herase : ∀ a, (s.swapped.erase g).count a + (if g = a then 1 else 0) =
      s.swapped.count a := by
    intro a
    rw [List.count_erase]
    by_cases ha : g = a
    · subst ha
      simp only [beq_self_eq_true, if_true]
      omega
    · simp [ha]
  have hok : ∀ i ∈ swappedIds s g, (life s i).Ok ∧ (s.store i).status = .swapped := fun i hi =>
    ⟨h.ok i, (mem_swappedIds.mp hi).2⟩
  refine ⟨fun hnil => ⟨?_, .drop hg hnil rfl⟩, fun hne => ?_⟩
  · have hstay := (Each.stay (P := fun _ l l' => l' = l) (fun _ _ => rfl) h.wf []).requeue id id
      fun _ => s.swapped.erase g
    refine h.regroup hreq (fun i hi => absurd hi List.not_mem_nil) hstay
      (fun i hi => absurd hi List.not_mem_nil) (fun g' hg' => Or.inl (hW g' hg'))
      (fun g' hg' => Or.inl (hR g' hg')) (fun g' hg' => Or.inl (hS g' hg')) ?_
    refine nodup_of_count hnodup fun a => ?_
    have := herase a
    simp only [queuedGroups, id, List.count_append]
    omega
  · have hnd : (swappedIds s g).Nodup := (h.group_nodup hreq).filter _
    refine wp_mono (wp_swapInAll (swappedIds s g) s hnd h.wf hok) ?_ fun _ _ h => h
    rintro r s₁ (⟨rfl, hE⟩ | ⟨rfl, hlt, hE⟩)
    · refine ⟨fun h0 => absurd h0.symm Bool.false_ne_true, fun _ => ?_⟩
      have hst₁ : ∀ i ∈ swappedIds s g, (s₁.store i).status = .swapped := fun i hi => by
        rw [← (hok i hi).2]
        exact congrArg (fun l : Life β => l.data.status) (hE.each i hi)
      refine wp_mono (wp_forEach_each (P := fun _ l l' => l' = l.withStatus .decode)
        (Q := fun _ _ _ => True) (F := False) (fun _ _ _ _ => trivial) (fun _ _ => trivial)
        (swappedIds s g) s₁ hnd hE.wf fun i hi t hwf hq hl => ?_) (fun _ s₂ hE₂ => ?_)
        fun _ _ h => h.1
      · refine wp_setStatus hwf ?_ fun _ h => h
        rw [show t.store i = s₁.store i from congrArg Life.data hl, hst₁ i hi]
        decide
      · have hEach : Each (fun _ l l' => l' = l.recovered) (swappedIds s g) s s₂ :=
          (hE.trans hE₂).mono fun i _ hl => by
            obtain ⟨l₁, rfl, hl⟩ := hl
            exact hl
        have hE' := hEach.requeue id (g :: ·) (·.erase g)
        have hlife : ∀ i ∈ swappedIds s g, life s₂ i = (life s i).recovered := hEach.each
        refine ⟨h.regroup hreq (fun i hi => (mem_swappedIds.mp hi).1) hE' (fun i hi => ?_)
          (fun g' hg' => Or.inl (hW g' hg')) (fun g' hg' => ?_)
          (fun g' hg' => Or.inl (hS g' hg')) ?_,
          .done hg hne hE'⟩
        · refine ⟨?_, ?_⟩
          · rw [show life { s₂ with running := g :: s₂.running, swapped := s₂.swapped.erase g } i =
              life s₂ i from rfl, hlife i hi]
            exact (h.ok i).recovered (hok i hi).2
          · rw [show s₂.store i = (life s i).recovered.data from congrArg Life.data (hlife i hi)]
            exact h.seqId i
        · rcases List.mem_cons.mp hg' with rfl | hg'
          · refine Or.inr ⟨rfl, fun i hi => ?_⟩
            rcases h.swapped g' hg i hi with hst | hst
            · left; right
              exact congrArg (fun l : Life β => l.data.status)
                (hlife i (mem_swappedIds.mpr ⟨hi, hst⟩))
            · right
              have hno : i ∉ swappedIds s g' := fun h0 => by
                have := (mem_swappedIds.mp h0).2
                rw [hst] at this; cases this
              rw [← hst]
              exact congrArg (fun l : Life β => l.data.status) (hEach.other i hno)
          · exact Or.inl (hR g' hg')
        · refine nodup_of_count hnodup fun a => ?_
          have := herase a
          simp only [queuedGroups, id, List.count_append, List.count_cons, beq_iff_eq]
          omega
    · refine ⟨fun _ => ⟨?_, .fail hg hlt hE⟩, fun h0 => absurd rfl h0⟩
      have hdata : ∀ i ∈ swappedIds s g, (life s₁ i).Ok ∧
      (life s₁ i).data = s.store i := fun i hi =>
        disturbed_ok (hE.each i hi) (hok i hi).1 (hok i hi).2
      refine h.regroup hreq (fun i hi => (mem_swappedIds.mp hi).1) (hE.requeue id id id)
        (fun i hi => ⟨(hdata i hi).1, ?_⟩) (fun g' hg' => Or.inl (hW g' hg'))
        (fun g' hg' => Or.inl (hR g' hg')) (fun g' hg' => ?_) hnodup
      · rw [show s₁.store i = s.store i from (hdata i hi).2]; exact h.seqId i
      · by_cases he : g' = g
        · refine Or.inr ⟨he, fun i hi => ?_⟩
          have hsame : s₁.store i = s.store i := by
            by_cases hmem : i ∈ swappedIds s g
            · exact (hdata i hmem).2
            · exact congrArg Life.data (hE.other i hmem)
          change (s₁.store i).status = _ ∨ (s₁.store i).status = _
          rw [hsame]
          exact h.swapped g hg i hi
        · exact Or.inl ⟨hg', he⟩

end MoeInfinity.Serving.ScheduleInv
