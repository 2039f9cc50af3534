import Mathlib.Algebra.BigOperators.Group.List.Basic
import MoeInfinity.Serving.ScheduleInv

/-! # One call of `schedule`

`schedule` keeps the invariant and never raises. Two things about a call depend on numbers only:

* whether every swapped group comes back, which holds if the CPU copies fit into the free blocks
  (`CopiesFit`);
* whether a group that the call itself has admitted is preempted again, which a count of the free
  blocks, of the blocks of the older groups and of the demands of the waiting groups decides
  (`Serves`). -/

namespace MoeInfinity.Serving.ScheduleCall

open MoeInfinity.Python MoeInfinity.Lib.Imperative
open MoeInfinity.Serving.Sequence MoeInfinity.Serving.KvCache MoeInfinity.Serving.KvCacheSpec
open MoeInfinity.Serving.Schedule MoeInfinity.Serving.Schedule.Scheduler
open MoeInfinity.Serving.Lifecycle MoeInfinity.Serving.ScheduleSpec MoeInfinity.Serving.ScheduleInv

variable {β : Type}

/-! ### Recovery -/

/-- The blocks that bringing the groups `gs` back takes. -/
def groupDemand (s : Scheduler β) (gs : List SequenceGroup) : ℕ :=
  (gs.map fun g => demandOf s (swappedIds s g)).sum

/-- No swapped group is tried, or the CPU copies of all of them fit into the free blocks. -/
def CopiesFit (s : Scheduler β) : Prop :=
  s.numFreeBlocks = 0 ∨ groupDemand s s.swapped ≤ s.numFreeBlocks

instance (s : Scheduler β) : Decidable (CopiesFit s) := inferInstanceAs (Decidable (_ ∨ _))

/-- The groups among `gs` that have a swapped sequence. -/
def withSwapped (s : Scheduler β) (gs : List SequenceGroup) : List SequenceGroup :=
  gs.filter fun g => swappedIds s g ≠ []

/-- What happens to a sequence during recovery; `F` allows for a failed `swap_in`. -/
def Returns (F : Prop) (l l' : Life β) : Prop :=
  l' = l ∨ l.data.status = .swapped ∧ (l' = l.recovered ∨ F ∧ Disturbed l l')

/-- The state after recovery has tried the groups `done` of the swapped queue. -/
structure Recovering (s : Scheduler β) (done rest : List SequenceGroup)
    (t : Scheduler β) : Prop where
  inv : Inv t
  cfg : t.cfg = s.cfg
  blockSize : t.kvCache.blockSize = s.kvCache.blockSize
  waiting : t.waiting = s.waiting
  sequenceMap : t.sequenceMap = s.sequenceMap
  requestMap : t.requestMap = s.requestMap
  lives : ∀ i, Returns (s.numFreeBlocks < groupDemand s s.swapped) (life s i) (life t i)
  untouched : ∀ g ∈ rest, ∀ i ∈ g.sequenceIds, life t i = life s i
  pending : ∀ g ∈ rest, g ∈ t.swapped
  running : groupDemand s s.swapped ≤ s.numFreeBlocks →
    t.running = (withSwapped s done).reverse ++ s.running
  swapped : groupDemand s s.swapped ≤ s.numFreeBlocks → t.swapped = rest
  free : groupDemand s s.swapped ≤ s.numFreeBlocks →
    t.numFreeBlocks + groupDemand s done = s.numFreeBlocks
  back : groupDemand s s.swapped ≤ s.numFreeBlocks →
    ∀ g ∈ done, ∀ i ∈ swappedIds s g, life t i = (life s i).recovered

theorem groupDemand_append (s : Scheduler β) (gs gs' : List SequenceGroup) :
    groupDemand s (gs ++ gs') = groupDemand s gs + groupDemand s gs' := by
  simp [groupDemand]

theorem groupDemand_cons (s : Scheduler β) (g : SequenceGroup) (gs : List SequenceGroup) :
    groupDemand s (g :: gs) = demandOf s (swappedIds s g) + groupDemand s gs := rfl

theorem withSwapped_snoc (s : Scheduler β) (gs : List SequenceGroup) (g : SequenceGroup) :
    withSwapped s (gs ++ [g]) = withSwapped s gs ++ if swappedIds s g = [] then [] else [g] := by
  rw [withSwapped, List.filter_append]
  by_cases hnil : swappedIds s g = []
  · rw [List.filter_cons_of_neg (by simpa using hnil), if_pos hnil]
    rfl
  · rw [List.filter_cons_of_pos (by simpa using hnil), if_neg hnil]
    rfl

theorem Recovering.start {s : Scheduler β} (h : Inv s) : Recovering s [] s.swapped s :=
  ⟨h, rfl, rfl, rfl, rfl, rfl, fun _ => Or.inl rfl, fun _ _ _ _ => rfl, fun _ hg => hg,
    fun _ => rfl, fun _ => rfl, fun _ => rfl, fun _ _ hg => absurd hg List.not_mem_nil⟩

theorem Recovering.step {s t t' : Scheduler β} {done rest : List SequenceGroup} {g : SequenceGroup}
    (hs : Inv s) (hsplit : s.swapped = done ++ g :: rest) (h : Recovering s done (g :: rest) t)
    (hinv : Inv t') (hr : Recovers g t t') : Recovering s (done ++ [g]) rest t' := by
  have hmem : ∀ g' ∈ g :: rest, g' ∈ s.swapped := fun g' hg' => by
    rw [hsplit]; exact List.mem_append_right _ hg'
  have hg : g ∈ t.swapped := h.pending g List.mem_cons_self
  have hgs : g ∈ s.swapped := hmem g List.mem_cons_self
  have hlife : ∀ i ∈ g.sequenceIds, life t i = life s i := h.untouched g List.mem_cons_self
  have hids : swappedIds t g = swappedIds s g :=
    swappedIds_congr fun i hi => congrArg Life.data (hlife i hi)
  have hidsMem : ∀ i ∈ swappedIds s g, i ∈ g.sequenceIds := fun i hi => (mem_swappedIds.mp hi).1
  have hdemand : demandOf t (swappedIds s g) = demandOf s (swappedIds s g) :=
    demandOf_congr fun i hi => hlife i (hidsMem i hi)
  have hnd : (done ++ g :: rest).Nodup := by
    rw [← hsplit]
    exact (List.nodup_append.mp hs.nodup).2.1
  have hgrest : g ∉ rest := (List.nodup_cons.mp (List.nodup_append.mp hnd).2.1).1
  have hgdone : ∀ g' ∈ done, g' ≠ g := fun g' hg' => by
    rintro rfl
    exact (List.nodup_append'.mp hnd).2.2 hg' List.mem_cons_self
  -- the other groups of the snapshot have other sequences
  have hother : ∀ g' ∈ s.swapped, g' ≠ g → ∀ i ∈ g'.sequenceIds, i ∉ swappedIds s g :=
    fun g' hg' hne i hi h0 =>
      hne (hs.eq_of_mem (hs.swapped_mem hg') (hs.swapped_mem hgs) hi (hidsMem i h0))
  have hsum : groupDemand s s.swapped =
      groupDemand s done + (demandOf s (swappedIds s g) + groupDemand s rest) := by
    rw [hsplit, groupDemand_append, groupDemand_cons]
  have hrestMem : ∀ g' ∈ rest, g' ∈ s.swapped ∧ g' ≠ g := fun g' hg' =>
    ⟨hmem g' (List.mem_cons_of_mem g hg'), fun h0 => hgrest (h0 ▸ hg')⟩
  have hdoneMem : ∀ g' ∈ done, g' ∈ s.swapped := fun g' hg' => by
    rw [hsplit]; exact List.mem_append_left _ hg'
  have hdoneDemand : groupDemand s (done ++ [g]) =
      groupDemand s done + demandOf s (swappedIds s g) := by
    rw [groupDemand_append, groupDemand_cons]
    rfl
  cases hr with
  | skip hno _ => exact absurd hg hno
  | drop _ hnil hst =>
    subst hst
    rw [hids] at hnil
    have hzero : demandOf s (swappedIds s g) = 0 := by rw [hnil]; rfl
    refine ⟨hinv, h.cfg, h.blockSize, h.waiting, h.sequenceMap, h.requestMap, h.lives,
      fun g' hg' => h.untouched g' (List.mem_cons_of_mem g hg'), fun g' hg' => ?_, fun hfit => ?_,
      fun hfit => ?_, fun hfit => ?_, fun hfit g' hg' i hi => ?_⟩
    · exact (List.mem_erase_of_ne (hrestMem g' hg').2).mpr
        (h.pending g' (List.mem_cons_of_mem g hg'))
    · rw [withSwapped_snoc, if_pos hnil, List.append_nil]
      exact h.running hfit
    · have := h.swapped hfit
      change t.swapped.erase g = rest
      rw [this, List.erase_cons_head]
    · have := h.free hfit
      rw [hdoneDemand, hzero]
      exact this
    · rcases List.mem_append.mp hg' with hg' | hg'
      · exact h.back hfit g' hg' i hi
      · rw [List.mem_singleton.mp hg', hnil] at hi
        exact absurd hi List.not_mem_nil
  | fail _ hlt hE =>
    rw [hids] at hE hlt
    rw [hdemand] at hlt
    -- the failure is for lack of blocks
    have hF : s.numFreeBlocks < groupDemand s s.swapped := by
      by_contra hfit
      have := h.free (not_lt.mp hfit)
      omega
    have hno : ¬ groupDemand s s.swapped ≤ s.numFreeBlocks := not_le.mpr hF
    refine ⟨hinv, hE.same.cfg.trans h.cfg, hE.same.blockSize.trans h.blockSize,
      hE.same.waiting.trans h.waiting, hE.same.sequenceMap.trans h.sequenceMap,
      hE.same.requestMap.trans h.requestMap, fun i => ?_, fun g' hg' i hi => ?_, fun g' hg' => ?_,
      fun hfit => absurd hfit hno, fun hfit => absurd hfit hno, fun hfit => absurd hfit hno,
      fun hfit => absurd hfit hno⟩
    · by_cases hi : i ∈ swappedIds s g
      · refine Or.inr ⟨(mem_swappedIds.mp hi).2, Or.inr ⟨hF, ?_⟩⟩
        rw [← hlife i (hidsMem i hi)]
        exact hE.each i hi
      · rw [hE.other i hi]; exact h.lives i
    · rw [hE.other i (hother g' (hrestMem g' hg').1 (hrestMem g' hg').2 i hi)]
      exact h.untouched g' (List.mem_cons_of_mem g hg') i hi
    · rw [hE.same.swapped]; exact h.pending g' (List.mem_cons_of_mem g hg')
  | done _ hne hE =>
    rw [hids] at hE hne
    have hEach : ∀ i ∈ swappedIds s g, life t' i = (life s i).recovered := fun i hi => by
      rw [← hlife i (hidsMem i hi)]; exact hE.each i hi
    have hOther : ∀ i ∉ swappedIds s g, life t' i = life t i := fun i hi => hE.other i hi
    refine ⟨hinv, hE.same.cfg.trans h.cfg, hE.same.blockSize.trans h.blockSize,
      hE.same.waiting.trans h.waiting, hE.same.sequenceMap.trans h.sequenceMap,
      hE.same.requestMap.trans h.requestMap, fun i => ?_, fun g' hg' i hi => ?_, fun g' hg' => ?_,
      fun hfit => ?_, fun hfit => ?_, fun hfit => ?_, fun hfit g' hg' i hi => ?_⟩
    · by_cases hi : i ∈ swappedIds s g
      · exact Or.inr ⟨(mem_swappedIds.mp hi).2, Or.inl (hEach i hi)⟩
      · rw [hOther i hi]; exact h.lives i
    · rw [hOther i (hother g' (hrestMem g' hg').1 (hrestMem g' hg').2 i hi)]
      exact h.untouched g' (List.mem_cons_of_mem g hg') i hi
    · rw [hE.same.swapped]
      exact (List.mem_erase_of_ne (hrestMem g' hg').2).mpr
        (h.pending g' (List.mem_cons_of_mem g hg'))
    · rw [hE.same.running]
      change g :: t.running = _
      rw [h.running hfit, withSwapped_snoc, if_neg hne, List.reverse_append]
      rfl
    · rw [hE.same.swapped]
      change t.swapped.erase g = rest
      rw [h.swapped hfit, List.erase_cons_head]
    · -- recovery takes the blocks it asks for
      have hfree : t'.numFreeBlocks + blocksOf t' (swappedIds s g) =
          t.numFreeBlocks + blocksOf t (swappedIds s g) := hE.free
      have hblocks : blocksOf t' (swappedIds s g) =
          blocksOf t (swappedIds s g) + demandOf s (swappedIds s g) := by
        unfold blocksOf demandOf
        rw [← List.sum_map_add]
        refine congrArg List.sum (List.map_congr_left fun i hi => ?_)
        rw [hEach i hi, hlife i (hidsMem i hi)]
        exact (hs.ok i).restored_length
      have := h.free hfit
      rw [hdoneDemand]
      omega
    · rcases List.mem_append.mp hg' with hg' | hg'
      · rw [hOther i (hother g' (hdoneMem g' hg') (hgdone g' hg') i (mem_swappedIds.mp hi).1)]
        exact h.back hfit g' hg' i hi
      · rw [List.mem_singleton.mp hg'] at hi
        exact hEach i hi

/-- **Recovery** tries the whole swapped queue, or nothing if there is no free block. -/
theorem wp_recoverSwappedGroups {s : Scheduler β} (h : Inv s) :
    wp (recoverSwappedGroups s.swapped)
      (fun _ s' => (s.numFreeBlocks = 0 ∧ s' = s) ∨
        (s.numFreeBlocks ≠ 0 ∧ Recovering s s.swapped [] s')) (fun _ _ => False) s := by
  simp only [recoverSwappedGroups, wp_bind, wp_current, wp_ite, wp_pure]
  refine ⟨fun h0 => Or.inl ⟨h0, trivial⟩, fun h0 => ?_⟩
  refine wp_mono (wp_forEach
    (fun rest t => ∃ done, s.swapped = done ++ rest ∧ Recovering s done rest t)
    (R := fun _ _ => False) (fun g rest t hI => ?_) s.swapped s ⟨[], rfl, Recovering.start h⟩) ?_
    fun _ _ h => h
  · obtain ⟨done, hsplit, hrec⟩ := hI
    refine wp_mono (wp_recoverGroup hrec.inv g) ?_ fun _ _ h => h
    rintro _ t' ⟨hinv, hr⟩
    exact ⟨done ++ [g], by rw [hsplit, List.append_assoc]; rfl, hrec.step h hsplit hinv hr⟩
  · rintro _ s' ⟨done, hsplit, hrec⟩
    rw [List.append_nil] at hsplit
    rw [hsplit]
    exact Or.inr ⟨h0, hrec⟩

/-! ### Admission -/

/-- What admission asks for a group: sequences, tokens and blocks. -/
structure Demand where
  seqs : ℕ
  tokens : ℕ
  blocks : ℕ
deriving DecidableEq, Repr

/-- The demand of a waiting group. -/
def demandOfGroup (s : Scheduler β) (g : SequenceGroup) : Demand :=
  ⟨(s.withStatus g .waiting).length,
    ((s.withStatus g .waiting).map fun i => numPrefillTokens (s.store i)).sum,
    ((s.withStatus g .waiting).map fun i => s.requiredBlocks (s.store i)).sum⟩

/-- Whether admission goes through without preempting a group that it has itself admitted, when it
starts with `free` blocks and `older` are the blocks of the running groups, oldest first: every
preemption finds an older group, or nothing has been admitted yet. -/
def serves (cfg : SchedConfig) : ℕ → List ℕ → List Demand → ℕ → ℕ → Bool
  | _, _, [], _, _ => true
  | free, older, d :: ds, seqs, tokens =>
    if d.seqs = 0 then serves cfg free older ds seqs tokens
    else if cfg.maxBatchSize < seqs + d.seqs then true
    else if cfg.maxTokensPerStep < tokens + d.tokens then true
    else if d.blocks ≤ free then
      serves cfg (free - d.blocks) older ds (seqs + d.seqs) (tokens + d.tokens)
    else match older with
      | [] => decide (seqs = 0)
      | b :: older =>
        if d.blocks ≤ free + b then
          serves cfg (free + b - d.blocks) older ds (seqs + d.seqs) (tokens + d.tokens)
        else true

theorem serves_cons (cfg : SchedConfig) (free : ℕ) (older : List ℕ) (d : Demand) (ds : List Demand)
    (seqs tokens : ℕ) : serves cfg free older (d :: ds) seqs tokens =
      if d.seqs = 0 then serves cfg free older ds seqs tokens
      else if cfg.maxBatchSize < seqs + d.seqs then true
      else if cfg.maxTokensPerStep < tokens + d.tokens then true
      else if d.blocks ≤ free then
        serves cfg (free - d.blocks) older ds (seqs + d.seqs) (tokens + d.tokens)
      else match older with
        | [] => decide (seqs = 0)
        | b :: older =>
          if d.blocks ≤ free + b then
            serves cfg (free + b - d.blocks) older ds (seqs + d.seqs) (tokens + d.tokens)
          else true := by
  cases older <;> rfl

/-- The blocks of the groups among `gs` that have a running sequence. -/
def olderBlocks (s : Scheduler β) (gs : List SequenceGroup) : List ℕ :=
  (gs.filter fun g => activeIds s g ≠ []).map fun g => blocksOf s (activeIds s g)

/-- What happens to a sequence during admission. -/
inductive Event (k : ℕ) (l l' : Life β) : Prop
  | enter (hok : l.Ok) (hst : l.data.status = .waiting) (h : Admitted k l l')
  | preempt (hok : l.Ok) (hst : Active l.data.status) (h : l' = l.preempted)

theorem Event.ne_waiting {k : ℕ} {l l' : Life β} (h : Event k l l') :
    l'.data.status ≠ .waiting := by
  intro h0
  cases h with
  | enter hok hst h =>
    obtain ⟨rows, -, rfl⟩ := h
    cases h0
  | preempt hok hst h =>
    subst h
    cases h0

/-- A sequence that still waits has gone through nothing. -/
theorem eq_of_waiting {k : ℕ} {l l' : Life β} (h : Relation.ReflTransGen (Event k) l l')
    (hst : l'.data.status = .waiting) : l' = l := by
  rcases Relation.ReflTransGen.cases_tail h with heq | ⟨l₁, -, hlast⟩
  · exact heq
  · exact absurd hst hlast.ne_waiting

/-- The state in the middle of admission, which started in `s₀`. -/
structure Admitting (s₀ : Scheduler β) (out : SchedulerOutput) (s : Scheduler β) : Prop where
  inv : Inv s
  cfg : s.cfg = s₀.cfg
  blockSize : s.kvCache.blockSize = s₀.kvCache.blockSize
  sequenceMap : s.sequenceMap = s₀.sequenceMap
  requestMap : s.requestMap = s₀.requestMap
  lives : ∀ i, Relation.ReflTransGen (Event s₀.kvCache.blockSize) (life s₀ i) (life s i)
  prefill_nodup : out.prefillSeqIds.Nodup
  preempted_nodup : out.preemptedSeqIds.Nodup
  prefill : ∀ i ∈ out.prefillSeqIds, (s.store i).status = .prefill ∨ i ∈ out.preemptedSeqIds
  preempted : ∀ i ∈ out.preemptedSeqIds, (s.store i).status = .swapped
  decode : out.decodeSeqIds = []
  entered : ∀ i ∈ out.prefillSeqIds, (s₀.store i).status = .waiting

theorem Admitting.start {s : Scheduler β} (h : Inv s) : Admitting s {} s :=
  ⟨h, rfl, rfl, rfl, rfl, fun _ => .refl, List.nodup_nil, List.nodup_nil,
    fun _ hi => absurd hi List.not_mem_nil, fun _ hi => absurd hi List.not_mem_nil, rfl,
    fun _ hi => absurd hi List.not_mem_nil⟩

/-- A preemption in the middle of admission. -/
theorem Admitting.preempt {s₀ s s' : Scheduler β} {out : SchedulerOutput} {r : List ℕ}
    (h : Admitting s₀ out s) (hinv : Inv s') (hP : Preempts s s.running r s') :
    Admitting s₀ { out with preemptedSeqIds := out.preemptedSeqIds ++ r } s' := by
  -- in both cases the sequences of `r` were running and are preempted, and nothing else happens
  have hcases : ∃ R S, (∀ i ∈ r, Active (s.store i).status) ∧ r.Nodup ∧
      Each (fun _ l l' => l' = l.preempted) r { s with running := R, swapped := S } s' := by
    rcases hP with ⟨rfl, -, hE⟩ | ⟨dead, g, rest, hsplit, -, rfl, -, hE⟩
    · exact ⟨_, _, fun _ hi => absurd hi List.not_mem_nil, List.nodup_nil, hE⟩
    · have hg : g ∈ s.running := by
        rw [hsplit]; exact List.mem_append_right _ List.mem_cons_self
      exact ⟨_, _, fun i hi => (mem_activeIds.mp hi).2,
        (h.inv.group_nodup (h.inv.running_mem hg)).filter _, hE⟩
  obtain ⟨R, S, hact, hnd, hE⟩ := hcases
  have hother : ∀ i ∉ r, s'.store i = s.store i := fun i hi => congrArg Life.data (hE.other i hi)
  have hst : ∀ i ∈ r, (s'.store i).status = .swapped := fun i hi =>
    congrArg (fun l : Life β => l.data.status) (hE.each i hi)
  refine ⟨hinv, hE.same.cfg.trans h.cfg, hE.same.blockSize.trans h.blockSize,
    hE.same.sequenceMap.trans h.sequenceMap, hE.same.requestMap.trans h.requestMap, fun i => ?_,
    h.prefill_nodup, ?_, fun i hi => ?_, fun i hi => ?_, h.decode, h.entered⟩
  · by_cases hi : i ∈ r
    · exact (h.lives i).tail (.preempt (h.inv.ok i) (hact i hi) (hE.each i hi))
    · rw [hE.other i hi]; exact h.lives i
  · refine List.nodup_append'.mpr ⟨h.preempted_nodup, hnd, fun i hi hir => ?_⟩
    have h1 := h.preempted i hi
    rcases hact i hir with h2 | h2 <;> rw [h1] at h2 <;> cases h2
  · by_cases hir : i ∈ r
    · exact Or.inr (List.mem_append_right _ hir)
    · rw [hother i hir]
      exact (h.prefill i hi).imp_right fun h0 => List.mem_append_left _ h0
  · by_cases hir : i ∈ r
    · exact hst i hir
    · rw [hother i hir]
      exact h.preempted i ((List.mem_append.mp hi).resolve_right hir)

/-- The admission of a group. -/
theorem Admitting.enter {s₀ s s' : Scheduler β} {out out' : SchedulerOutput} {g : SequenceGroup}
    {rest : List SequenceGroup} (h : Admitting s₀ out s) (hw : s.waiting = g :: rest)
    (hE : Each (fun _ => Admitted s.kvCache.blockSize) (s.withStatus g .waiting)
      { s with waiting := rest, running := s.running ++ [g] } s')
    (hpre : out'.prefillSeqIds = out.prefillSeqIds ++ s.withStatus g .waiting)
    (hpmt : out'.preemptedSeqIds = out.preemptedSeqIds) (hdec : out'.decodeSeqIds = []) :
    Admitting s₀ out' s' := by
  have hg : g ∈ s.waiting := by rw [hw]; exact List.mem_cons_self
  have hreq := h.inv.waiting_mem hg
  have hwait : ∀ i ∈ s.withStatus g .waiting, (s.store i).status = .waiting := fun i hi => by
    simpa using (List.mem_filter.mp hi).2
  have hids : ∀ i ∈ s.withStatus g .waiting, i ∈ g.sequenceIds := fun i hi =>
    (List.mem_filter.mp hi).1
  have hall : ∀ i ∈ g.sequenceIds, i ∈ s.withStatus g .waiting := fun i hi =>
    List.mem_filter.mpr ⟨hi, by simpa using h.inv.waiting g hg i hi⟩
  have hst : ∀ i ∈ s.withStatus g .waiting, (s'.store i).status = .prefill := fun i hi => by
    obtain ⟨rows, -, hl⟩ := hE.each i hi
    exact congrArg (fun l : Life β => l.data.status) hl
  have hother : ∀ i ∉ s.withStatus g .waiting, s'.store i = s.store i := fun i hi =>
    congrArg Life.data (hE.other i hi)
  have hnd : (g :: rest ++ s.running ++ s.swapped).Nodup := by
    have := h.inv.nodup
    rwa [queuedGroups, hw] at this
  have hcount := List.nodup_iff_count_le_one.mp hnd g
  simp only [List.count_append, List.count_cons_self] at hcount
  have hne : ∀ {l : List SequenceGroup}, l.count g = 0 → ∀ g' ∈ l, g' ≠ g := by
    rintro l hl g' hg' rfl
    exact List.count_eq_zero.mp hl hg'
  refine ⟨h.inv.regroup hreq hids hE (fun i hi => ?_) (fun g' hg' => ?_) (fun g' hg' => ?_)
    (fun g' hg' => Or.inl ⟨hg', hne (by omega) g' hg'⟩) ?_, hE.same.cfg.trans h.cfg,
    hE.same.blockSize.trans h.blockSize, hE.same.sequenceMap.trans h.sequenceMap,
    hE.same.requestMap.trans h.requestMap, fun i => ?_, ?_, ?_, fun i hi => ?_,
    fun i hi => ?_, hdec,
    fun i hi => ?_⟩
  · obtain ⟨rows, -, hl⟩ := hE.each i hi
    refine ⟨by rw [hl]; exact (h.inv.ok i).admitted (hwait i hi) rows, ?_⟩
    rw [show s'.store i = ((life s i).admitted rows).data from congrArg Life.data hl]
    exact h.inv.seqId i
  · refine Or.inl ⟨by rw [hw]; exact List.mem_cons_of_mem g hg', hne (by omega) g' hg'⟩
  · rcases List.mem_append.mp hg' with hg' | hg'
    · exact Or.inl ⟨hg', hne (by omega) g' hg'⟩
    · exact Or.inr ⟨List.mem_singleton.mp hg', fun i hi => Or.inl (Or.inl (hst i (hall i hi)))⟩
  · refine nodup_of_count hnd fun a => ?_
    simp only [List.count_append, List.count_cons, List.count_nil]
    omega
  · by_cases hi : i ∈ s.withStatus g .waiting
    · refine (h.lives i).tail (.enter (h.inv.ok i) (hwait i hi) ?_)
      rw [← h.blockSize]
      exact hE.each i hi
    · rw [hE.other i hi]; exact h.lives i
  · rw [hpre]
    refine List.nodup_append'.mpr ⟨h.prefill_nodup, (h.inv.group_nodup hreq).filter _,
      fun i hi hi' => ?_⟩
    have h1 := hwait i hi'
    rcases h.prefill i hi with h2 | h2
    · rw [h1] at h2; cases h2
    · have h3 := h.preempted i h2
      rw [h1] at h3; cases h3
  · rw [hpmt]; exact h.preempted_nodup
  · rw [hpmt]
    by_cases hmem : i ∈ s.withStatus g .waiting
    · exact Or.inl (hst i hmem)
    · rw [hpre, List.mem_append] at hi
      rw [hother i hmem]
      exact h.prefill i (hi.resolve_right hmem)
  · rw [hpmt] at hi
    have hsw := h.preempted i hi
    rw [hother i fun h0 => ?_]
    · exact hsw
    · have := hwait i h0
      rw [hsw] at this; cases this
  · rw [hpre, List.mem_append] at hi
    rcases hi with hi | hi
    · exact h.entered i hi
    · have hsame : s.store i = s₀.store i :=
        congrArg Life.data (eq_of_waiting (h.lives i) (hwait i hi))
      rw [← hsame]
      exact hwait i hi

/-! ### No admitted group is preempted -/

/-- The running queue is what is left of the older groups, followed by the groups that this call has
admitted, which have kept their sequences in `PREFILL`. -/
structure Fresh (s : Scheduler β) (prefill : List ℕ) (seqs : ℕ) (olds fresh : List SequenceGroup) :
    Prop where
  running : s.running = olds ++ fresh
  prefill : ∀ i ∈ prefill, (s.store i).status = .prefill ∧ ∃ g ∈ fresh, i ∈ g.sequenceIds
  seqs : fresh ≠ [] → seqs ≠ 0

theorem olderBlocks_eq_nil {s : Scheduler β} {gs : List SequenceGroup} :
    olderBlocks s gs = [] ↔ ∀ g ∈ gs, activeIds s g = [] := by
  simp [olderBlocks, List.filter_eq_nil_iff]

theorem olderBlocks_congr {s s' : Scheduler β} {gs : List SequenceGroup}
    (h : ∀ g ∈ gs, ∀ i ∈ g.sequenceIds, life s' i = life s i) :
    olderBlocks s' gs = olderBlocks s gs := by
  have hact : ∀ g ∈ gs, activeIds s' g = activeIds s g := fun g hg =>
    activeIds_congr fun i hi => congrArg Life.data (h g hg i hi)
  unfold olderBlocks
  rw [List.filter_congr fun g hg => by rw [hact g hg]]
  refine List.map_congr_left fun g hg => ?_
  have hg := (List.mem_filter.mp hg).1
  rw [hact g hg]
  exact blocksOf_congr fun i hi => h g hg i (mem_activeIds.mp hi).1

theorem olderBlocks_split {s : Scheduler β} {dead rest : List SequenceGroup} {g : SequenceGroup}
    (hdead : ∀ g' ∈ dead, activeIds s g' = []) (hg : activeIds s g ≠ []) :
    olderBlocks s (dead ++ g :: rest) = blocksOf s (activeIds s g) :: olderBlocks s rest := by
  unfold olderBlocks
  rw [List.filter_append, List.filter_eq_nil_iff.mpr fun g' hg' => by simpa using hdead g' hg',
    List.nil_append, List.filter_cons_of_pos (by simpa using hg), List.map_cons]

/-- The group that is preempted is one of the older ones, if one of these is running at all. -/
theorem split_of_older {s : Scheduler β} {olds fresh dead rest : List SequenceGroup}
    {g : SequenceGroup} (hsplit : olds ++ fresh = dead ++ g :: rest)
    (hdead : ∀ g' ∈ dead, activeIds s g' = []) (hold : olderBlocks s olds ≠ []) :
    ∃ olds', olds = dead ++ g :: olds' ∧ rest = olds' ++ fresh := by
  rcases List.append_eq_append_iff.mp hsplit with ⟨x, hx, -⟩ | ⟨x, hx, hx'⟩
  · refine absurd (olderBlocks_eq_nil.mpr fun g' hg' => hdead g' ?_) hold
    rw [hx]; exact List.mem_append_left _ hg'
  · cases x with
    | nil =>
      rw [List.append_nil] at hx
      exact absurd (olderBlocks_eq_nil.mpr fun g' hg' => hdead g' (hx ▸ hg')) hold
    | cons a x =>
      rw [List.cons_append, List.cons.injEq] at hx'
      obtain ⟨rfl, rfl⟩ := hx'
      exact ⟨x, hx, rfl⟩

/-- What a preemption means for the groups admitted by this call. -/
theorem Fresh.preempt {s s' : Scheduler β} {prefill r : List ℕ} {seqs : ℕ}
    {olds fresh : List SequenceGroup} (h : Fresh s prefill seqs olds fresh) (hinv : Inv s)
    (hP : Preempts s s.running r s') (hold : olderBlocks s olds = [] → seqs = 0) :
    (∀ i ∈ prefill, (s'.store i).status = .prefill) ∧
    (r ≠ [] → ∃ b olds', olderBlocks s olds = b :: olderBlocks s' olds' ∧
      s'.numFreeBlocks = s.numFreeBlocks + b ∧ Fresh s' prefill seqs olds' fresh) := by
  rcases hP with ⟨rfl, -, hE⟩ | ⟨dead, g, rest, hsplit, hdead, rfl, hne, hE⟩
  · have hstore : ∀ i, s'.store i = s.store i := fun i =>
      congrArg Life.data (hE.other i List.not_mem_nil)
    exact ⟨fun i hi => by rw [hstore]; exact (h.prefill i hi).1, fun h0 => absurd rfl h0⟩
  · rw [h.running] at hsplit
    by_cases hnil : olderBlocks s olds = []
    · -- then nothing has been admitted, and no group is running
      have hfresh : fresh = [] := by
        by_contra h0
        exact h.seqs h0 (hold hnil)
      rw [hfresh, List.append_nil] at hsplit
      refine absurd (olderBlocks_eq_nil.mp hnil g ?_) hne
      rw [hsplit]; exact List.mem_append_right _ List.mem_cons_self
    · obtain ⟨olds', hold', hrest⟩ := split_of_older hsplit hdead hnil
      have hrun : s.running = dead ++ g :: (olds' ++ fresh) := by rw [h.running, hsplit, hrest]
      have hnd : (dead ++ g :: (olds' ++ fresh)).Nodup := by
        have := (List.nodup_append.mp (List.nodup_append.mp hinv.nodup).1).2.1
        rwa [hrun] at this
      have hgrun : g ∈ s.running := by
        rw [hrun]; exact List.mem_append_right _ List.mem_cons_self
      have hgnot : g ∉ olds' ++ fresh := (List.nodup_cons.mp (List.nodup_append.mp hnd).2.1).1
      -- the other running groups keep their sequences
      have hkeep : ∀ g' ∈ olds' ++ fresh, ∀ i ∈ g'.sequenceIds, life s' i = life s i := by
        intro g' hg' i hi
        have hrun' : g' ∈ s.running := by
          rw [hrun]; exact List.mem_append_right _ (List.mem_cons_of_mem g hg')
        refine hE.other i fun h0 => hgnot ?_
        rw [← hinv.eq_of_mem (hinv.running_mem hrun') (hinv.running_mem hgrun) hi
          (mem_activeIds.mp h0).1]
        exact hg'
      have hst : ∀ i ∈ prefill, (s'.store i).status = .prefill ∧
          ∃ g ∈ fresh, i ∈ g.sequenceIds := by
        intro i hi
        obtain ⟨hpre, g', hg', hi'⟩ := h.prefill i hi
        refine ⟨?_, g', hg', hi'⟩
        rw [← hpre]
        exact congrArg (fun l : Life β => l.data.status)
          (hkeep g' (List.mem_append_right _ hg') i hi')
      refine ⟨fun i hi => (hst i hi).1, fun _ => ⟨blocksOf s (activeIds s g), olds', ?_, ?_, ?_⟩⟩
      · rw [hold', olderBlocks_split hdead hne,
          olderBlocks_congr fun g' hg' => hkeep g' (List.mem_append_left _ hg')]
      · have hfree : s'.numFreeBlocks + blocksOf s' (activeIds s g) =
            s.numFreeBlocks + blocksOf s (activeIds s g) := hE.free
        have hzero : blocksOf s' (activeIds s g) = 0 := by
          refine List.sum_eq_zero fun n hn => ?_
          obtain ⟨i, hi, rfl⟩ := List.mem_map.mp hn
          rw [hE.each i hi]
          rfl
        omega
      · exact ⟨by rw [hE.same.running, hrest], hst, h.seqs⟩

/-! ### The admission loop -/

theorem wp_makeRoom {s : Scheduler β} (h : Inv s) (required : ℕ) (out : SchedulerOutput) :
    wp (makeRoom required out)
      (fun r s' => (required ≤ s.numFreeBlocks ∧ r = (true, out) ∧ s' = s) ∨
        (s.numFreeBlocks < required ∧ ∃ pre, Inv s' ∧ Preempts s s.running pre s' ∧
          r = (decide (pre ≠ [] ∧ required ≤ s'.numFreeBlocks),
            { out with preemptedSeqIds := out.preemptedSeqIds ++ pre })))
      (fun _ _ => False) s := by
  simp only [makeRoom, preemptOldestRunningGroup, wp_bind, wp_current, wp_ite, wp_pure]
  refine ⟨fun hlt => ?_, fun hle => Or.inl ⟨not_lt.mp hle, trivial, trivial⟩⟩
  refine wp_mono (wp_preemptLoop s.running s h rfl) ?_ fun _ _ h => h
  rintro pre s' ⟨hinv, hP⟩
  refine ⟨fun hnil => Or.inr ⟨hlt, pre, hinv, hP, ?_⟩, fun hne => Or.inr ⟨hlt, pre, hinv, hP, ?_⟩⟩
  · simp [hnil]
  · simp [hne]

theorem demandOfGroup_congr {s s' : Scheduler β} {gs : List SequenceGroup}
    (hk : s'.kvCache.blockSize = s.kvCache.blockSize)
    (h : ∀ g ∈ gs, ∀ i ∈ g.sequenceIds, s'.store i = s.store i) :
    gs.map (demandOfGroup s') = gs.map (demandOfGroup s) := by
  refine List.map_congr_left fun g hg => ?_
  have hids : s'.withStatus g .waiting = s.withStatus g .waiting :=
    List.filter_congr fun i hi => by rw [h g hg i hi]
  have hmem : ∀ i ∈ s.withStatus g .waiting, s'.store i = s.store i := fun i hi =>
    h g hg i (List.mem_filter.mp hi).1
  have htokens : (s.withStatus g .waiting).map (fun i => numPrefillTokens (s'.store i)) =
      (s.withStatus g .waiting).map fun i => numPrefillTokens (s.store i) :=
    List.map_congr_left fun i hi => by rw [hmem i hi]
  have hblocks : (s.withStatus g .waiting).map (fun i => s'.requiredBlocks (s'.store i)) =
      (s.withStatus g .waiting).map fun i => s.requiredBlocks (s.store i) :=
    List.map_congr_left fun i hi => by rw [hmem i hi, requiredBlocks_eq, requiredBlocks_eq, hk]
  unfold demandOfGroup
  rw [hids, htokens, hblocks]

/-- A preemption does not touch the waiting groups. -/
theorem preempts_waiting {s s' : Scheduler β} {r : List ℕ} (hinv : Inv s)
    (hP : Preempts s s.running r s') :
    s'.waiting = s.waiting ∧ s'.cfg = s.cfg ∧ s'.kvCache.blockSize = s.kvCache.blockSize ∧
      ∀ g ∈ s.waiting, ∀ i ∈ g.sequenceIds, life s' i = life s i := by
  rcases hP with ⟨rfl, -, hE⟩ | ⟨dead, g, rest, hsplit, -, rfl, -, hE⟩
  · exact ⟨hE.same.waiting, hE.same.cfg, hE.same.blockSize,
      fun _ _ i _ => hE.other i List.not_mem_nil⟩
  · refine ⟨hE.same.waiting, hE.same.cfg, hE.same.blockSize,
      fun g' hg' i hi => hE.other i fun h0 => ?_⟩
    have h1 := hinv.waiting g' hg' i hi
    rcases (mem_activeIds.mp h0).2 with h2 | h2 <;> rw [h1] at h2 <;> cases h2

/-- The admission of a group by an admission that serves the groups so far. -/
theorem Fresh.enter {s s' : Scheduler β} {prefill : List ℕ} {seqs k : ℕ}
    {olds fresh rest : List SequenceGroup} {g : SequenceGroup}
    (h : Fresh s prefill seqs olds fresh) (hne : s.withStatus g .waiting ≠ [])
    (hE : Each (fun _ => Admitted k) (s.withStatus g .waiting)
      { s with waiting := rest, running := s.running ++ [g] } s') :
    Fresh s' (prefill ++ s.withStatus g .waiting) (seqs + (s.withStatus g .waiting).length) olds
      (fresh ++ [g]) := by
  refine ⟨?_, fun i hi => ?_, fun _ h0 => ?_⟩
  · rw [hE.same.running]
    change s.running ++ [g] = _
    rw [h.running, List.append_assoc]
  · by_cases hmem : i ∈ s.withStatus g .waiting
    · obtain ⟨rows, -, hl⟩ := hE.each i hmem
      exact ⟨congrArg (fun l : Life β => l.data.status) hl, g, by simp, (List.mem_filter.mp hmem).1⟩
    · obtain ⟨hst, g', hg', hi'⟩ := h.prefill i ((List.mem_append.mp hi).resolve_right hmem)
      refine ⟨?_, g', List.mem_append_left _ hg', hi'⟩
      rw [← hst]
      exact congrArg (fun l : Life β => l.data.status) (hE.other i hmem)
  · have := List.length_pos_of_ne_nil hne
    omega

/-- After the admission of `g`, older and waiting groups are as before and its blocks are taken. -/
theorem enter_numbers {s s' : Scheduler β} {rest : List SequenceGroup} {g : SequenceGroup}
    (hinv : Inv s) (hw : s.waiting = g :: rest)
    (hE : Each (fun _ => Admitted s.kvCache.blockSize) (s.withStatus g .waiting)
      { s with waiting := rest, running := s.running ++ [g] } s') :
    s'.numFreeBlocks + (demandOfGroup s g).blocks = s.numFreeBlocks ∧
      (∀ gs, (∀ g' ∈ gs, g' ∈ s.running) → olderBlocks s' gs = olderBlocks s gs) ∧
      rest.map (demandOfGroup s') = rest.map (demandOfGroup s) := by
  have hg : g ∈ s.waiting := by rw [hw]; exact List.mem_cons_self
  have hnot : ∀ g' ∈ s.requestMap, g' ≠ g → ∀ i ∈ g'.sequenceIds, life s' i = life s i :=
    fun g' hg' hne i hi => hE.other i fun h0 =>
      hne (hinv.eq_of_mem hg' (hinv.waiting_mem hg) hi (List.mem_filter.mp h0).1)
  have hcount := List.nodup_iff_count_le_one.mp hinv.nodup g
  rw [queuedGroups, hw] at hcount
  simp only [List.count_append, List.count_cons_self] at hcount
  have hne : ∀ {l : List SequenceGroup}, l.count g = 0 → ∀ g' ∈ l, g' ≠ g := by
    rintro l hl g' hg' rfl
    exact List.count_eq_zero.mp hl hg'
  refine ⟨?_, fun gs hgs => olderBlocks_congr fun g' hg' =>
    hnot g' (hinv.running_mem (hgs g' hg')) (hne (by omega) g' (hgs g' hg')),
    demandOfGroup_congr hE.same.blockSize fun g' hg' i hi => ?_⟩
  · have hfree : s'.numFreeBlocks + blocksOf s' (s.withStatus g .waiting) =
        s.numFreeBlocks + blocksOf s (s.withStatus g .waiting) := hE.free
    have hnone : ∀ i ∈ s.withStatus g .waiting, (life s i).share.rows = [] := fun i hi => by
      have hst : (s.store i).status = .waiting := by simpa using (List.mem_filter.mp hi).2
      refine (hinv.ok i).rows ((hinv.ok i).tokens_none ?_)
      change ¬ HasTable (s.store i).status
      rw [hst]; decide
    have h1 : blocksOf s (s.withStatus g .waiting) = 0 := by
      refine List.sum_eq_zero fun n hn => ?_
      obtain ⟨i, hi, rfl⟩ := List.mem_map.mp hn
      rw [hnone i hi]; rfl
    have h2 : blocksOf s' (s.withStatus g .waiting) = (demandOfGroup s g).blocks := by
      unfold blocksOf demandOfGroup
      refine congrArg List.sum (List.map_congr_left fun i hi => ?_)
      obtain ⟨rows, hrows, hl⟩ := hE.each i hi
      rw [hl, requiredBlocks_eq]
      exact hrows
    omega
  · exact congrArg Life.data (hnot g'
      (hinv.waiting_mem (by rw [hw]; exact List.mem_cons_of_mem g hg'))
      (hne (by omega) g' hg') i hi)

theorem wp_enter {s₀ s : Scheduler β} {out : SchedulerOutput} {g : SequenceGroup}
    {rest : List SequenceGroup} (h : Admitting s₀ out s) (hw : s.waiting = g :: rest)
    (hroom : (demandOfGroup s g).blocks ≤ s.numFreeBlocks) :
    wp (forEach admitSequence ((s.withStatus g .waiting).map s.store))
      (fun _ s' => Each (fun _ => Admitted s.kvCache.blockSize) (s.withStatus g .waiting)
        { s with waiting := rest, running := s.running ++ [g] } s')
      (fun _ _ => False) { s with waiting := rest, running := s.running ++ [g] } := by
  have hg : g ∈ s.waiting := by rw [hw]; exact List.mem_cons_self
  refine wp_admitSequences (s.withStatus g .waiting)
    { s with waiting := rest, running := s.running ++ [g] }
    ((h.inv.group_nodup (h.inv.waiting_mem hg)).filter _) h.inv.wf (fun i hi => ?_) hroom
  exact ⟨h.inv.ok i, by simpa using (List.mem_filter.mp hi).2, h.inv.seqId i⟩

/-- Admission that serves all groups it looks at. -/
def Served (s : Scheduler β) (out : SchedulerOutput) (ws : List SequenceGroup) (seqs tokens : ℕ) :
    Prop :=
  ∃ olds fresh, Fresh s out.prefillSeqIds seqs olds fresh ∧
    serves s.cfg s.numFreeBlocks (olderBlocks s olds) (ws.map (demandOfGroup s)) seqs tokens = true

theorem wp_admitWaiting {s₀ : Scheduler β} : ∀ (ws : List SequenceGroup) (seqs tokens : ℕ)
    (out : SchedulerOutput) (s : Scheduler β), Admitting s₀ out s → s.waiting = ws →
    wp (admitWaiting ws seqs tokens out)
      (fun r s' => Admitting s₀ r.2.2 s' ∧ (Served s out ws seqs tokens →
        ∀ i ∈ r.2.2.prefillSeqIds, (s'.store i).status = .prefill)) (fun _ _ => False) s
  | [], seqs, tokens, out, s, h, _ => by
    refine ⟨h, fun hserved i hi => ?_⟩
    obtain ⟨_, _, hfresh, -⟩ := hserved
    exact (hfresh.prefill i hi).1
  | g :: rest, seqs, tokens, out, s, h, hw => by
    have hstop : Served s out (g :: rest) seqs tokens →
        ∀ i ∈ out.prefillSeqIds, (s.store i).status = .prefill := by
      intro hserved i hi
      obtain ⟨_, _, hfresh, -⟩ := hserved
      exact (hfresh.prefill i hi).1
    have hlen : ((s.withStatus g .waiting).map s.store).length = (demandOfGroup s g).seqs :=
      List.length_map _
    have htok : (((s.withStatus g .waiting).map s.store).map numPrefillTokens).sum =
        (demandOfGroup s g).tokens := by
      rw [List.map_map]; rfl
    have hblk : (((s.withStatus g .waiting).map s.store).map s.requiredBlocks).sum =
        (demandOfGroup s g).blocks := by
      rw [List.map_map]; rfl
    have hseq : ((s.withStatus g .waiting).map s.store).map (·.seqId) =
        s.withStatus g .waiting := by
      rw [List.map_map]
      exact (List.map_congr_left fun i _ => h.inv.seqId i).trans (List.map_id _)
    have hnil : (s.withStatus g .waiting).map s.store = [] ↔ (demandOfGroup s g).seqs = 0 := by
      rw [← hlen, List.length_eq_zero_iff]
    simp only [admitWaiting, wp_bind, wp_current, wp_ite, wp_update, wp_pure, hnil,
      hlen, htok, hblk]
    refine ⟨fun hzero => ?_, fun hpos => ⟨fun _ => ⟨h, hstop⟩, fun hbatch => ⟨fun _ => ⟨h, hstop⟩,
      fun htokens => ?_⟩⟩⟩
    · -- no waiting sequence: the group leaves the queue
      have hrest : Admitting s₀ out { s with waiting := rest } :=
        ⟨h.inv.dropWaiting hw, h.cfg, h.blockSize, h.sequenceMap, h.requestMap, h.lives,
          h.prefill_nodup, h.preempted_nodup, h.prefill, h.preempted, h.decode, h.entered⟩
      refine wp_mono (wp_admitWaiting rest seqs tokens out _ hrest rfl) ?_ fun _ _ h => h
      rintro r s' ⟨hadm, hserve⟩
      refine ⟨hadm, fun hserved => ?_⟩
      obtain ⟨olds, fresh, hfresh, hok⟩ := hserved
      refine hserve ⟨olds, fresh, ⟨hfresh.running, hfresh.prefill, hfresh.seqs⟩, ?_⟩
      rw [List.map_cons, serves_cons, if_pos hzero] at hok
      exact hok
    · -- the rest of the loop, from a state in which the group fits
      have hgo : ∀ (out₁ : SchedulerOutput) (s₁ : Scheduler β), Admitting s₀ out₁ s₁ →
          s₁.waiting = g :: rest → s₁.withStatus g .waiting = s.withStatus g .waiting →
          (s.withStatus g .waiting).map s₁.store = (s.withStatus g .waiting).map s.store →
          out₁.prefillSeqIds = out.prefillSeqIds →
          (demandOfGroup s₁ g).blocks ≤ s₁.numFreeBlocks →
          wp (forEach admitSequence ((s.withStatus g .waiting).map s.store))
            (fun _ t => wp (admitWaiting rest (seqs + (demandOfGroup s g).seqs)
                (tokens + (demandOfGroup s g).tokens)
                { out₁ with
                  prefillSeqIds := out₁.prefillSeqIds ++
                    ((s.withStatus g .waiting).map s.store).map (·.seqId)
                  numPrefillTokens := out₁.numPrefillTokens + (demandOfGroup s g).tokens })
              (fun r s' => Admitting s₀ r.2.2 s' ∧ ((∃ olds fresh,
                Fresh s₁ out₁.prefillSeqIds seqs olds fresh ∧
                serves s₁.cfg (s₁.numFreeBlocks - (demandOfGroup s₁ g).blocks) (olderBlocks s₁ olds)
                  (rest.map (demandOfGroup s₁)) (seqs + (demandOfGroup s g).seqs)
                  (tokens + (demandOfGroup s g).tokens) = true) →
                ∀ i ∈ r.2.2.prefillSeqIds, (s'.store i).status = .prefill)) (fun _ _ => False) t)
            (fun _ _ => False) { s₁ with waiting := rest, running := s₁.running ++ [g] } := by
        intro out₁ s₁ h₁ hw₁ hids hmap hpre hroom
        rw [← hmap, ← hids]
        refine wp_mono (wp_enter h₁ hw₁ hroom) (fun _ s₂ hE => ?_) fun _ _ h => h
        have hseq₁ : ((s₁.withStatus g .waiting).map s₁.store).map (·.seqId) =
            s₁.withStatus g .waiting := by rw [hids, hmap, hseq]
        have h₂ : Admitting s₀ { out₁ with
            prefillSeqIds := out₁.prefillSeqIds ++
              ((s₁.withStatus g .waiting).map s₁.store).map (·.seqId)
            numPrefillTokens := out₁.numPrefillTokens + (demandOfGroup s g).tokens } s₂ :=
          h₁.enter hw₁ hE (by rw [hseq₁]) rfl h₁.decode
        refine wp_mono (wp_admitWaiting rest _ _ _ s₂ h₂ hE.same.waiting) ?_ fun _ _ h => h
        rintro r s' ⟨hadm, hserve⟩
        refine ⟨hadm, fun hserved => ?_⟩
        obtain ⟨olds, fresh, hfresh, hok⟩ := hserved
        refine hserve ⟨olds, fresh ++ [g], ?_, ?_⟩
        · have hne : s₁.withStatus g .waiting ≠ [] := fun h0 => hpos (by
            rw [hids] at h0
            rw [← hlen, h0]; rfl)
          have hgo := hfresh.enter hne hE
          rw [hseq₁]
          rw [show (s₁.withStatus g .waiting).length = (demandOfGroup s g).seqs by
            rw [hids, ← hlen, List.length_map]] at hgo
          exact hgo
        · obtain ⟨hfree, holder, hdem⟩ := enter_numbers h₁.inv hw₁ hE
          rw [hE.same.cfg, hdem, holder olds fun g' hg' => by
            rw [hfresh.running]; exact List.mem_append_left _ hg',
            show s₂.numFreeBlocks = s₁.numFreeBlocks - (demandOfGroup s₁ g).blocks by omega]
          exact hok
      refine wp_mono (wp_makeRoom h.inv _ out) ?_ fun _ _ h => h
      rintro r s₁ (⟨hle, rfl, rfl⟩ | ⟨hlt, pre, hinv₁, hP, rfl⟩)
      · -- enough free blocks
        refine ⟨fun h0 => absurd h0.symm Bool.false_ne_true, fun _ => ?_⟩
        refine wp_mono (hgo out s₁ h hw rfl rfl rfl hle) (fun _ t ht => ?_) fun _ _ h => h
        refine wp_mono ht ?_ fun _ _ h => h
        rintro r s' ⟨hadm, hserve⟩
        refine ⟨hadm, fun hserved => ?_⟩
        obtain ⟨olds, fresh, hfresh, hok⟩ := hserved
        refine hserve ⟨olds, fresh, hfresh, ?_⟩
        rw [List.map_cons, serves_cons, if_neg hpos, if_neg hbatch, if_neg htokens, if_pos hle]
          at hok
        exact hok
      · -- a preemption first
        have h₁ := h.preempt hinv₁ hP
        obtain ⟨hw₁, hcfg₁, hk₁, hkeep⟩ := preempts_waiting h.inv hP
        have hstore : ∀ g' ∈ s.waiting, ∀ i ∈ g'.sequenceIds, s₁.store i = s.store i :=
          fun g' hg' i hi => congrArg Life.data (hkeep g' hg' i hi)
        have hg : g ∈ s.waiting := by rw [hw]; exact List.mem_cons_self
        have hids : s₁.withStatus g .waiting = s.withStatus g .waiting :=
          List.filter_congr fun i hi => by rw [hstore g hg i hi]
        have hmap : (s.withStatus g .waiting).map s₁.store =
            (s.withStatus g .waiting).map s.store :=
          List.map_congr_left fun i hi => hstore g hg i (List.mem_filter.mp hi).1
        have hdem : (g :: rest).map (demandOfGroup s₁) = (g :: rest).map (demandOfGroup s) :=
          demandOfGroup_congr hk₁ fun g' hg' => hstore g' (by rw [hw]; exact hg')
        have hdemg : demandOfGroup s₁ g = demandOfGroup s g := (List.cons.inj hdem).1
        have hdemr : rest.map (demandOfGroup s₁) = rest.map (demandOfGroup s) :=
          (List.cons.inj hdem).2
        -- what the count says at this group
        have hunfold : ∀ olds, serves s.cfg s.numFreeBlocks (olderBlocks s olds)
            ((g :: rest).map (demandOfGroup s)) seqs tokens = true →
            (match olderBlocks s olds with
              | [] => decide (seqs = 0)
              | b :: older =>
                if (demandOfGroup s g).blocks ≤ s.numFreeBlocks + b then
                  serves s.cfg (s.numFreeBlocks + b - (demandOfGroup s g).blocks) older
                    (rest.map (demandOfGroup s)) (seqs + (demandOfGroup s g).seqs)
                    (tokens + (demandOfGroup s g).tokens)
                else true) = true := by
          intro olds hok
          rw [List.map_cons, serves_cons, if_neg hpos, if_neg hbatch, if_neg htokens,
            if_neg (not_le.mpr hlt)] at hok
          exact hok
        have hzero : ∀ olds, serves s.cfg s.numFreeBlocks (olderBlocks s olds)
            ((g :: rest).map (demandOfGroup s)) seqs tokens = true →
            olderBlocks s olds = [] → seqs = 0 := by
          intro olds hok h0
          have := hunfold olds hok
          rw [h0] at this
          simpa using this
        refine ⟨fun hroom => ⟨h₁, fun hserved => ?_⟩, fun hroom => ?_⟩
        · obtain ⟨olds, fresh, hfresh, hok⟩ := hserved
          exact (hfresh.preempt h.inv hP (hzero olds hok)).1
        · have hroom : pre ≠ [] ∧ (demandOfGroup s g).blocks ≤ s₁.numFreeBlocks := by
            simpa using hroom
          refine wp_mono (hgo _ s₁ h₁ (hw₁.trans hw) hids hmap rfl (by rw [hdemg]; exact hroom.2))
            (fun _ t ht => ?_) fun _ _ h => h
          refine wp_mono ht ?_ fun _ _ h => h
          rintro r s' ⟨hadm, hserve⟩
          refine ⟨hadm, fun hserved => ?_⟩
          obtain ⟨olds, fresh, hfresh, hok⟩ := hserved
          obtain ⟨b, olds', hold, hfree, hfresh'⟩ :=
            (hfresh.preempt h.inv hP (hzero olds hok)).2 hroom.1
          refine hserve ⟨olds', fresh, hfresh', ?_⟩
          have hthis := hunfold olds hok
          rw [hold] at hthis
          simp only at hthis
          rw [← hfree, if_pos hroom.2] at hthis
          rw [hcfg₁, hdemr, hdemg]
          exact hthis

/-! ### The whole call -/

theorem selectDecode_spec (s : Scheduler β) : ∀ (ids : List ℕ) (seqs tokens : ℕ)
    (out : SchedulerOutput), ∃ l, l.Sublist ids ∧ (∀ i ∈ l, (s.store i).status = .decode) ∧
      (selectDecode s ids seqs tokens out).decodeSeqIds = out.decodeSeqIds ++ l ∧
      (selectDecode s ids seqs tokens out).prefillSeqIds = out.prefillSeqIds ∧
      (selectDecode s ids seqs tokens out).preemptedSeqIds = out.preemptedSeqIds
  | [], _, _, out => ⟨[], List.Sublist.slnil, fun _ hi => absurd hi List.not_mem_nil,
      (List.append_nil _).symm, rfl, rfl⟩
  | i :: ids, seqs, tokens, out => by
    have hstop : ∃ l, l.Sublist (i :: ids) ∧ (∀ j ∈ l, (s.store j).status = .decode) ∧
        out.decodeSeqIds = out.decodeSeqIds ++ l ∧ out.prefillSeqIds = out.prefillSeqIds ∧
        out.preemptedSeqIds = out.preemptedSeqIds :=
      ⟨[], List.nil_sublist _, fun _ hj => absurd hj List.not_mem_nil, (List.append_nil _).symm,
        rfl, rfl⟩
    unfold selectDecode
    split_ifs with h1 h2 h3
    · obtain ⟨l, hsub, hst, hdec, hpre, hpmt⟩ := selectDecode_spec s ids seqs tokens out
      exact ⟨l, hsub.cons i, hst, hdec, hpre, hpmt⟩
    · exact hstop
    · exact hstop
    · obtain ⟨l, hsub, hst, hdec, hpre, hpmt⟩ := selectDecode_spec s ids (seqs + 1) (tokens + 1)
        { out with
          decodeSeqIds := out.decodeSeqIds ++ [i], numDecodeTokens := out.numDecodeTokens + 1 }
      refine ⟨i :: l, hsub.cons_cons i, fun j hj => ?_, ?_, hpre, hpmt⟩
      · rcases List.mem_cons.mp hj with rfl | hj
        · exact not_not.mp h1
        · exact hst j hj
      · rw [hdec, List.append_assoc]
        rfl

/-- The waiting queue as admission sees it is a rearrangement. -/
theorem sortWaiting_eq (predict : Option (String → List ℕ → ℚ)) (s : Scheduler β) :
    ∃ W, W.Perm s.waiting ∧ sortWaiting predict s = { s with waiting := W } := by
  unfold sortWaiting
  cases predict with
  | none => exact ⟨s.waiting, List.Perm.refl _, rfl⟩
  | some f =>
    simp only
    split_ifs with h
    · exact ⟨_, List.perm_insertionSort _ _, rfl⟩
    · exact ⟨s.waiting, List.Perm.refl _, rfl⟩

theorem inv_sortWaiting {s : Scheduler β} (h : Inv s) (predict : Option (String → List ℕ → ℚ)) :
    Inv (Scheduler.sortWaiting predict s) := by
  obtain ⟨W, hperm, heq⟩ := sortWaiting_eq predict s
  rw [heq]
  refine ⟨h.wf, h.seqId, h.ok, h.registered, fun g hg => h.waiting g (hperm.mem_iff.mp hg),
    h.running, h.swapped, ?_, fun g hg => h.queued g ?_, h.requests, h.ids, h.member⟩
  · refine nodup_of_count h.nodup fun a => ?_
    simp only [queuedGroups, List.count_append, hperm.count_eq, le_refl]
  · simp only [queuedGroups, List.mem_append, hperm.mem_iff] at hg ⊢
    exact hg

/-- The sorted queue depends on the prompts only. -/
theorem sortWaiting_waiting_congr {s t : Scheduler β} (predict : Option (String → List ℕ → ℚ))
    (hw : t.waiting = s.waiting)
    (hp : ∀ i, (t.store i).promptTokenIds = (s.store i).promptTokenIds) :
    (sortWaiting predict t).waiting = (sortWaiting predict s).waiting := by
  have hids : t.groupTokenIds = s.groupTokenIds := by
    funext g
    unfold groupTokenIds
    rw [funext hp]
  unfold sortWaiting
  cases predict with
  | none => exact hw
  | some f =>
    simp only
    rw [hw, hids]
    split_ifs with h
    · rfl
    · exact hw

/-- The free blocks when admission starts, if every copy fits. -/
def startFree (s : Scheduler β) : ℕ :=
  if s.numFreeBlocks = 0 then 0 else s.numFreeBlocks - groupDemand s s.swapped

/-- The blocks of the running groups when admission starts, oldest first: the groups that come back
stand before those that ran already. -/
def startOlder (s : Scheduler β) : List ℕ :=
  (if s.numFreeBlocks = 0 then [] else (withSwapped s s.swapped).reverse.map fun g =>
    blocksOf s (swappedIds s g) + demandOf s (swappedIds s g)) ++ olderBlocks s s.running

/-- By the numbers of the state before the call, no group that the call admits is preempted by
it. -/
def NoFreshVictim (predict : Option (String → List ℕ → ℚ)) (s : Scheduler β) : Prop :=
  serves s.cfg (startFree s) (startOlder s)
    ((sortWaiting predict s).waiting.map (demandOfGroup s)) 0 0 = true

instance (predict : Option (String → List ℕ → ℚ)) (s : Scheduler β) :
    Decidable (NoFreshVictim predict s) := inferInstanceAs (Decidable (_ = _))

/-- What a call of `schedule` does, with its result. -/
structure Scheduled (predict : Option (String → List ℕ → ℚ)) (s : Scheduler β)
    (out : SchedulerOutput) (s' : Scheduler β) : Prop where
  inv : Inv s'
  cfg : s'.cfg = s.cfg
  blockSize : s'.kvCache.blockSize = s.kvCache.blockSize
  sequenceMap : s'.sequenceMap = s.sequenceMap
  requestMap : s'.requestMap = s.requestMap
  lives : ∀ i, ∃ l, Returns (¬ CopiesFit s) (life s i) l ∧
    Relation.ReflTransGen (Event s.kvCache.blockSize) l (life s' i)
  prefill_nodup : out.prefillSeqIds.Nodup
  decode_nodup : out.decodeSeqIds.Nodup
  preempted_nodup : out.preemptedSeqIds.Nodup
  prefill : ∀ i ∈ out.prefillSeqIds, (s'.store i).status = .prefill ∨ i ∈ out.preemptedSeqIds
  decode : ∀ i ∈ out.decodeSeqIds, (s'.store i).status = .decode
  preempted : ∀ i ∈ out.preemptedSeqIds, (s'.store i).status = .swapped
  entered : ∀ i ∈ out.prefillSeqIds, (s.store i).status = .waiting
  kept : CopiesFit s → NoFreshVictim predict s →
    ∀ i ∈ out.prefillSeqIds, (s'.store i).status = .prefill

/-- The state in which admission starts. -/
structure Started (s s₁ : Scheduler β) : Prop where
  inv : Inv s₁
  cfg : s₁.cfg = s.cfg
  blockSize : s₁.kvCache.blockSize = s.kvCache.blockSize
  waiting : s₁.waiting = s.waiting
  sequenceMap : s₁.sequenceMap = s.sequenceMap
  requestMap : s₁.requestMap = s.requestMap
  lives : ∀ i, Returns (¬ CopiesFit s) (life s i) (life s₁ i)
  free : CopiesFit s → s₁.numFreeBlocks = startFree s
  older : CopiesFit s → olderBlocks s₁ s₁.running = startOlder s

/-- The numbers with which admission starts are those read off the state before the call. -/
theorem Recovering.started {s s₁ : Scheduler β} (hs : Inv s) (hpos : s.numFreeBlocks ≠ 0)
    (h : Recovering s s.swapped [] s₁) : Started s s₁ := by
  have hfit : CopiesFit s → groupDemand s s.swapped ≤ s.numFreeBlocks := fun h0 =>
    h0.resolve_left hpos
  have hF : s.numFreeBlocks < groupDemand s s.swapped → ¬ CopiesFit s := fun hlt h0 =>
    absurd (hfit h0) (not_le.mpr hlt)
  refine ⟨h.inv, h.cfg, h.blockSize, h.waiting, h.sequenceMap, h.requestMap, fun i => ?_,
    fun h0 => ?_, fun h0 => ?_⟩
  · exact (h.lives i).imp_right fun ⟨hst, hl⟩ => ⟨hst, hl.imp_right fun ⟨h1, h2⟩ => ⟨hF h1, h2⟩⟩
  · have := h.free (hfit h0)
    rw [startFree, if_neg hpos]
    omega
  · have hrun := h.running (hfit h0)
    have hback := h.back (hfit h0)
    -- the groups that ran before keep their sequences
    have hkeep : ∀ g ∈ s.running, ∀ i ∈ g.sequenceIds, life s₁ i = life s i := by
      intro g hg i hi
      rcases h.lives i with hl | ⟨hst, -⟩
      · exact hl
      · have hst : (s.store i).status = .swapped := hst
        rcases hs.running g hg i hi with (h1 | h1) | h1 <;> rw [hst] at h1 <;> cases h1
    -- a group that came back runs with its swapped sequences
    have hact : ∀ g ∈ s.swapped, activeIds s₁ g = swappedIds s g := by
      intro g hg
      refine List.filter_congr fun i hi => ?_
      have hiff : Active (s₁.store i).status ↔ (s.store i).status = .swapped := by
        constructor
        · intro hact
          rcases h.lives i with hl | ⟨hst, -⟩
          · have hsame : s₁.store i = s.store i := congrArg Life.data hl
            rw [hsame] at hact
            rcases hs.swapped g hg i hi with h1 | h1
            · exact h1
            · rcases hact with h2 | h2 <;> rw [h1] at h2 <;> cases h2
          · exact hst
        · intro hst
          have hl := hback g hg i (mem_swappedIds.mpr ⟨hi, hst⟩)
          exact Or.inr (congrArg (fun l : Life β => l.data.status) hl)
      simp only [decide_eq_decide]
      exact hiff
    have hblocks : ∀ g ∈ s.swapped, blocksOf s₁ (activeIds s₁ g) =
        blocksOf s (swappedIds s g) + demandOf s (swappedIds s g) := by
      intro g hg
      rw [hact g hg]
      unfold blocksOf demandOf
      rw [← List.sum_map_add]
      refine congrArg List.sum (List.map_congr_left fun i hi => ?_)
      rw [hback g hg i hi]
      exact (hs.ok i).restored_length
    have hmem : ∀ g ∈ (withSwapped s s.swapped).reverse, g ∈ s.swapped ∧ swappedIds s g ≠ [] := by
      intro g hg
      simpa [withSwapped] using hg
    rw [hrun, startOlder, if_neg hpos]
    unfold olderBlocks
    rw [List.filter_append, List.map_append]
    congr 1
    · rw [List.filter_eq_self.mpr fun g hg => ?_]
      · exact List.map_congr_left fun g hg => hblocks g (hmem g hg).1
      · rw [hact g (hmem g hg).1]
        simpa using (hmem g hg).2
    · exact olderBlocks_congr hkeep

theorem wp_schedule (predict : Option (String → List ℕ → ℚ)) {s : Scheduler β} (h : Inv s) :
    wp (schedule predict) (fun out s' => Scheduled predict s out s') (fun _ _ => False) s := by
  simp only [schedule, wp_bind, wp_current, wp_update, wp_pure]
  have hstart : ∀ s₁ : Scheduler β, Started s s₁ →
      wp (admitWaiting (sortWaiting predict s₁).waiting 0 0 {})
        (fun r s' => Scheduled predict s
          (selectDecode s' s'.runningIds r.1 r.2.1 r.2.2) s') (fun _ _ => False)
        (sortWaiting predict s₁) := by
    intro s₁ h₁
    obtain ⟨W, hperm, heq⟩ := sortWaiting_eq predict s₁
    have hinv := inv_sortWaiting h₁.inv predict
    have hprompt : ∀ i, (s₁.store i).promptTokenIds = (s.store i).promptTokenIds := by
      intro i
      have hdata : (life s₁ i).data.promptTokenIds = (life s i).data.promptTokenIds := by
        rcases h₁.lives i with hl | ⟨-, hl | ⟨-, hl | hl | hl⟩⟩ <;> rw [hl] <;> rfl
      exact hdata
    have hsorted := sortWaiting_waiting_congr predict h₁.waiting hprompt
    refine wp_mono (wp_admitWaiting _ 0 0 {} _ (Admitting.start hinv) rfl) ?_ fun _ _ h => h
    rintro ⟨seqs, tokens, out⟩ s' ⟨hadm, hserved⟩
    obtain ⟨l, hsub, hst, hdec, hpre, hpmt⟩ := selectDecode_spec s' s'.runningIds seqs tokens out
    rw [heq] at hadm
    simp only at hadm hserved ⊢
    rw [hadm.decode, List.nil_append] at hdec
    have hrunning : s'.runningIds.Nodup := by
      refine List.nodup_flatMap.mpr ⟨fun g hg => hadm.inv.group_nodup (hadm.inv.running_mem hg), ?_⟩
      have hnd : s'.running.Nodup :=
        (List.nodup_append.mp (List.nodup_append.mp hadm.inv.nodup).1).2.1
      refine hnd.imp_of_mem fun {g g'} hg hg' hne i hi hi' => hne ?_
      exact hadm.inv.eq_of_mem (hadm.inv.running_mem hg) (hadm.inv.running_mem hg') hi hi'
    refine ⟨hadm.inv, hadm.cfg.trans h₁.cfg, hadm.blockSize.trans h₁.blockSize,
      hadm.sequenceMap.trans h₁.sequenceMap, hadm.requestMap.trans h₁.requestMap,
      fun i => ⟨life s₁ i, h₁.lives i, ?_⟩, by rw [hpre]; exact hadm.prefill_nodup,
      by rw [hdec]; exact hrunning.sublist hsub, by rw [hpmt]; exact hadm.preempted_nodup,
      by rw [hpre, hpmt]; exact hadm.prefill,
      by rw [hdec]; exact hst, by rw [hpmt]; exact hadm.preempted,
      fun i hi => ?_, fun hfit hserves => ?_⟩
    · rw [← h₁.blockSize]
      exact hadm.lives i
    · rw [hpre] at hi
      have hw : (life s₁ i).data.status = .waiting := hadm.entered i hi
      rcases h₁.lives i with hl | ⟨hst, hl | ⟨-, hl | hl | hl⟩⟩
      · rw [hl] at hw; exact hw
      · rw [hl] at hw; cases hw
      all_goals
        rw [hl] at hw
        exact hw
    · rw [hpre]
      refine hserved
        ⟨s₁.running, [], ⟨?_, fun i hi => absurd hi List.not_mem_nil, fun h0 => absurd rfl h0⟩, ?_⟩
      · rw [heq, List.append_nil]
      · have hwait : ∀ g ∈ (sortWaiting predict s).waiting, ∀ i ∈ g.sequenceIds,
            s₁.store i = s.store i := by
          intro g hg i hi
          obtain ⟨W', hperm', heq'⟩ := sortWaiting_eq predict s
          rw [heq'] at hg
          have hw := h.waiting g (hperm'.mem_iff.mp hg) i hi
          rcases h₁.lives i with hl | ⟨hst, -⟩
          · exact congrArg Life.data hl
          · have hst : (s.store i).status = .swapped := hst
            rw [hw] at hst; cases hst
        unfold NoFreshVictim at hserves
        rw [← h₁.free hfit, ← h₁.older hfit, ← h₁.cfg,
          ← demandOfGroup_congr h₁.blockSize hwait, ← hsorted] at hserves
        rw [heq] at hserves ⊢
        exact hserves
  refine wp_mono (wp_recoverSwappedGroups h) ?_ fun _ _ h => h
  rintro _ s₁ (⟨hzero, rfl⟩ | ⟨hpos, hrec⟩)
  · refine hstart s₁ ⟨h, rfl, rfl, rfl, rfl, rfl, fun _ => Or.inl rfl, fun _ => ?_, fun _ => ?_⟩
    · rw [startFree, if_pos hzero, hzero]
    · rw [startOlder, if_pos hzero, List.nil_append]
  · exact hstart s₁ (hrec.started h hpos)

/-- A sequence that the call has admitted and not preempted has the blocks of its prompt. -/
theorem Scheduled.entered_blocks {predict : Option (String → List ℕ → ℚ)} {s s' : Scheduler β}
    {out : SchedulerOutput} (h : Scheduled predict s out s') {i : ℕ} (hi : i ∈ out.prefillSeqIds)
    (hst : (s'.store i).status = .prefill) :
    (owned s'.kvCache i).length = ceilDiv (s.store i).promptLength s.kvCache.blockSize := by
  have hw : (life s i).data.status = .waiting := h.entered i hi
  have hst : (life s' i).data.status = .prefill := hst
  obtain ⟨l, hret, hev⟩ := h.lives i
  have hl : l = life s i := by
    rcases hret with hl | ⟨hsw, -⟩
    · exact hl
    · rw [hw] at hsw; cases hsw
  rcases Relation.ReflTransGen.cases_tail hev with heq | ⟨l₁, hev₁, hlast⟩
  · rw [heq, hl, hw] at hst; cases hst
  · rw [← share_rows_length]
    show (life s' i).share.rows.length = _
    cases hlast with
    | enter hok hst₁ hadm =>
      obtain ⟨rows, hrows, hl'⟩ := hadm
      rw [hl']
      show rows.length = _
      rw [hrows, eq_of_waiting hev₁ hst₁, hl]
      rfl
    | preempt hok hact hpre => rw [hpre] at hst; cases hst

end MoeInfinity.Serving.ScheduleCall
