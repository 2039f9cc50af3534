import MoeInfinity.Serving.Progress

/-! # What a step delivers

A step that returns has advanced its batch: every sequence of the batch has one more token, its
output reports this token, and a sequence that met its finish condition is `FINISHED` and has given
its blocks back (`Stepped`). A step that raises before `update_after_step` has appended nothing. In
between there are two ways to lose tokens that have been appended (`Broken`). When the pool runs out
while the sequences of the batch grow, `update_after_step` raises: the outputs are lost and the
completed sequences stay where they are. When a callback or the eviction hook raises afterwards, the
outputs that were not yet passed on are lost. `settled_of_uninterrupted`: everything is delivered
and ended as it should be while the blocks suffice for the growth (`GrowthFits`) and the outputs get
through (`GetsThrough`), and the latter is exact (`Attended.settled_iff`). -/

namespace MoeInfinity.Serving.Delivery

open MoeInfinity.Python MoeInfinity.Lib.Imperative MoeInfinity.Lib.Runs
open MoeInfinity.Serving.Sequence MoeInfinity.Serving.KvCache MoeInfinity.Serving.KvCacheSpec
open MoeInfinity.Serving.Schedule MoeInfinity.Serving.Lifecycle MoeInfinity.Serving.ScheduleSpec
open MoeInfinity.Serving.ScheduleInv MoeInfinity.Serving.ScheduleCall
  MoeInfinity.Serving.ScheduleOps
open MoeInfinity.Serving.ModelRunner MoeInfinity.Serving.Engine
open MoeInfinity.Serving.Engine.ContinuousBatchingEngine MoeInfinity.Serving.EngineInv
open MoeInfinity.Serving.EngineStep MoeInfinity.Serving.Queues MoeInfinity.Serving.Selection
open MoeInfinity.Serving.Progress MoeInfinity.Serving.Callbacks

variable {β ρ : Type}

/-! ### Steps that return -/

/-- A step that returned `outputs`; `s₁` is the scheduler after `schedule`, which gave `out`. -/
structure Stepped (env : Env ρ) (predict : Option (String → List ℕ → ℚ))
    (e : ContinuousBatchingEngine β) (out : SchedulerOutput) (s₁ : Scheduler β)
    (outputs : List RequestOutput) (e' : ContinuousBatchingEngine β) : Prop where
  consistent : Consistent e'
  maps : SameMaps e e'
  ran : (Scheduler.schedule predict).run e.scheduler = (s₁, .ok out)
  scheduled : Scheduled predict e.scheduler out s₁
  shrinks : Shrinks e.scheduler e'.scheduler
  ids : outputs.map (·.seqId) = batchIds out
  reported : ∀ o ∈ outputs, Reported env e'.scheduler o
  tokens : ∀ i ∈ batchIds out, ∃ tokens t, Sampled env e.calls (batchOf s₁ out) e'.calls tokens ∧
    (i, t) ∈ (batchIds out).zip tokens ∧
    (e'.scheduler.store i).outputTokenIds = (s₁.store i).outputTokenIds ++ [t]
  lives : ∀ i, i ∉ batchIds out ∧ life e'.scheduler i = life s₁ i ∨
    i ∈ batchIds out ∧ Advanced env s₁.kvCache.blockSize (life s₁ i) (life e'.scheduler i)

theorem getFinishReason_statusOnly {env : Env ρ} {d d' : SequenceData}
    (h : StatusOnly d d') (t : ℕ) :
    getFinishReason env d' t = getFinishReason env d t := by
  unfold getFinishReason
  rw [h.1]

theorem reported_of_statusOnly {env : Env ρ} {s s' : Scheduler β} {o : RequestOutput}
    (h : Reported env s o) (hs : StatusOnly (s.store o.seqId) (s'.store o.seqId)) :
    Reported env s' o := by
  refine ⟨?_, ?_⟩
  · rw [hs.1]; exact h.last
  · rw [getFinishReason_statusOnly hs]; exact h.finished

/-- A batch with tokens whose `update_after_step` returned. -/
theorem stepped_of_accepted {env : Env ρ} {predict : Option (String → List ℕ → ℚ)}
    {e e₁ e' : ContinuousBatchingEngine β} {out : SchedulerOutput} {s₁ s₂ s₃ : Scheduler β}
    {tokens : List ℕ} {outputs : List RequestOutput}
    (hacc : Accepted env predict e out s₁ tokens outputs e₁)
    (hrep : ∀ o ∈ outputs, Reported env e₁.scheduler o)
    (hE : Each (Updated e₁.scheduler (completedSeqIds outputs)) (fromkeys (newDecodeSeqIds outputs))
      e₁.scheduler s₂)
    (hE₂ : Each (Closed s₂) (fromkeys (completedSeqIds outputs)) s₂ s₃)
    (hc : Closing e₁ e') (hs : e'.scheduler = Scheduler.pruneFinishedAndCancelledRequests s₃) :
    Stepped env predict e out s₁ outputs e' := by
  have hshrinks : Shrinks e.scheduler e'.scheduler := by
    rw [hs]
    exact (((shrinks_scheduled hacc.scheduled).trans (shrinks_of_each hacc.lives)).trans
      ((shrinks_of_each hE).trans (shrinks_of_each hE₂))).trans (shrinks_prune s₃)
  refine ⟨hc.consistent, hacc.maps.trans hc.maps, hacc.ran, hacc.scheduled, hshrinks, hacc.outputs,
    fun o ho => reported_of_statusOnly (hrep o ho) (hc.store _), fun i hi => ?_, fun i => ?_⟩
  · obtain ⟨t, hmem, hl⟩ := hacc.lives.each i hi
    refine ⟨tokens, t, ?_, hmem, ?_⟩
    · rw [hc.calls]; exact hacc.sampled
    · rw [(hc.store i).1, show e₁.scheduler.store i = ((life s₁ i).appended t).data from
        congrArg Life.data hl]
      rfl
  · rw [hs, life_prune]
    exact step_life hacc hrep hE hE₂ i

/-- A step in which nothing was scheduled. -/
theorem stepped_of_halted {env : Env ρ} {predict : Option (String → List ℕ → ℚ)}
    {e e' : ContinuousBatchingEngine β} {out : SchedulerOutput} (h : Halted env predict e out e')
    (hnil : batchIds out = []) : Stepped env predict e out e'.scheduler [] e' := by
  refine ⟨h.consistent, h.maps, h.ran, h.scheduled, shrinks_scheduled h.scheduled, hnil.symm,
    fun o ho => ?_, fun i hi => ?_, fun i => Or.inl ⟨?_, rfl⟩⟩
  · exact absurd ho List.not_mem_nil
  · rw [hnil] at hi
    exact absurd hi List.not_mem_nil
  · rw [hnil]
    exact List.not_mem_nil

/-- `update_after_step` raises only when the blocks do not suffice for the growth of the batch. -/
theorem wp_update_fits {env : Env ρ} {predict : Option (String → List ℕ → ℚ)}
    {e e₁ : ContinuousBatchingEngine β} {out : SchedulerOutput} {s₁ : Scheduler β}
    {tokens : List ℕ} {outputs : List RequestOutput}
    (hacc : Accepted env predict e out s₁ tokens outputs e₁) :
    wp (Scheduler.updateAfterStep (completedSeqIds outputs) (newDecodeSeqIds outputs))
      (fun _ s' => ∃ s₂ s₃, Each (Updated e₁.scheduler (completedSeqIds outputs))
          (fromkeys (newDecodeSeqIds outputs)) e₁.scheduler s₂ ∧
        Each (Closed s₂) (fromkeys (completedSeqIds outputs)) s₂ s₃ ∧
        s' = Scheduler.pruneFinishedAndCancelledRequests s₃)
      (fun _ _ => e₁.scheduler.numFreeBlocks < growthNeed e₁.scheduler (completedSeqIds outputs)
        (newDecodeSeqIds outputs)) e₁.scheduler := by
  refine wp_mono (wp_updateAfterStep _ _ hacc.consistent.inv) (fun _ _ h0 => h0) ?_
  rintro err s' (⟨hlt, -⟩ | ⟨s₂, hE, ⟨i, hi, -, hst⟩, -⟩)
  · exact hlt
  · -- a completed sequence is not waiting: it is in the batch
    exfalso
    have hb : i ∈ batchIds out := (mem_batch_iff hacc.outputs i).mpr (Or.inl hi)
    have hw := (statusOnly_each hE (fun _ _ _ hl => statusOnly_interrupted (Or.inl hl)) i).2 hst
    obtain ⟨t, -, hl⟩ := hacc.lives.each i hb
    rw [show e₁.scheduler.store i = ((life s₁ i).appended t).data from congrArg Life.data hl] at hw
    have hw : (s₁.store i).status = .waiting := hw
    rcases (batch_spec hacc.scheduled).2 i hb with h1 | h1 | h1 <;> rw [hw] at h1 <;> cases h1

/-! ### The announcements -/

/-- The engine when the outputs of a step are announced; `e₁` has accepted its tokens. -/
def closed (e₁ : ContinuousBatchingEngine β) (outputs : List RequestOutput) :
    ContinuousBatchingEngine β :=
  { e₁ with
    scheduler :=
      (Scheduler.updateAfterStep (completedSeqIds outputs) (newDecodeSeqIds outputs)).state
      e₁.scheduler
    numSteps := e₁.numSteps + 1 }

/-- The outputs of a step are all passed to their callbacks or returned: the callbacks and the
eviction hook that it calls return, or each output has a callback and at most the last call
raises. -/
def GetsThrough (env : Env ρ) (predict : Option (String → List ℕ → ℚ))
    (e : ContinuousBatchingEngine β) : Prop :=
  match (stepTokens env predict).run e with
  | (e₁, .ok (some outputs)) => Heard env (closed e₁ outputs) outputs
  | _ => True

theorem getsThrough_iff {env : Env ρ} {predict : Option (String → List ℕ → ℚ)}
    {e e₁ : ContinuousBatchingEngine β} {outputs : List RequestOutput}
    (hrun : (stepTokens env predict).run e = (e₁, .ok (some outputs))) :
    GetsThrough env predict e ↔ Heard env (closed e₁ outputs) outputs := by
  unfold GetsThrough
  rw [hrun]

/-- A step without outputs has nothing to announce. -/
theorem getsThrough_of_quiet {env : Env ρ} {predict : Option (String → List ℕ → ℚ)}
    {e : ContinuousBatchingEngine β}
    (hno : ∀ outputs, ((stepTokens env predict).run e).2 ≠ .ok (some outputs)) :
    GetsThrough env predict e := by
  unfold GetsThrough
  split
  · next heq => exact absurd (congrArg Prod.snd heq) (hno _)
  · trivial

instance (env : Env ρ) (predict : Option (String → List ℕ → ℚ)) (e : ContinuousBatchingEngine β) :
    Decidable (GetsThrough env predict e) :=
  match hrun : (stepTokens env predict).run e with
  | (_, .ok (some _)) => decidable_of_iff _ (getsThrough_iff hrun).symm
  | (_, .ok none) => isTrue (getsThrough_of_quiet fun _ h => by rw [hrun] at h; cases h)
  | (_, .error _) => isTrue (getsThrough_of_quiet fun _ h => by rw [hrun] at h; cases h)

/-- A request has at most one callback, and none unless it is known. -/
structure OneEach (e : ContinuousBatchingEngine β) : Prop where
  one : ∀ r, (e.callbacks r).length ≤ 1
  known : ∀ r, e.callbacks r ≠ [] → (e.requestToSeqIds r).isSome = true

theorem OneEach.popped {e e' : ContinuousBatchingEngine β} (h : OneEach e) (hp : Popped e e')
    (hknown : ∀ r, e'.callbacks r ≠ [] → e'.requestToSeqIds r = e.requestToSeqIds r) :
    OneEach e' := by
  refine ⟨fun r => ?_, fun r hr => ?_⟩
  · rcases hp r with h0 | h0
    · rw [h0]
      exact h.one r
    · rw [h0]
      exact Nat.zero_le 1
  · rw [hknown r hr]
    exact h.known r fun h0 => hr ((hp r).elim (fun h1 => h1.trans h0) id)

/-- An announcement has raised, after the outputs `passed` were passed to callbacks. -/
structure CutShort (env : Env ρ) (predict : Option (String → List ℕ → ℚ))
    (e : ContinuousBatchingEngine β) (outputs passed : List RequestOutput)
    (e' : ContinuousBatchingEngine β) : Prop where
  delivered : e'.delivered = e.delivered ++ passed
  sublist : OneEach e → passed.Sublist outputs
  through : OneEach e → (GetsThrough env predict e ↔ passed = outputs)

/-- The announcements of a step, from what it has accepted on. -/
theorem wp_announce_closed {env : Env ρ} {predict : Option (String → List ℕ → ℚ)}
    {e e₁ : ContinuousBatchingEngine β} {outputs : List RequestOutput}
    (hrun : (stepTokens env predict).run e = (e₁, .ok (some outputs))) :
    wp (announce env outputs)
      (fun _ e' => GetsThrough env predict e ∧ Popped e e')
      (fun _ e' => (∃ passed, CutShort env predict e outputs passed e') ∧ Popped e e')
      (closed e₁ outputs) := by
  have hhearing : Pool.hearing e₁ = Pool.hearing e := by
    have hleaves := Pool.leaves_stepTokens_hearing env predict e
    unfold Prog.state at hleaves
    rwa [hrun] at hleaves
  have hcallbacks : (closed e₁ outputs).callbacks = e.callbacks := congrArg Prod.fst hhearing
  have hdelivered : (closed e₁ outputs).delivered = e.delivered :=
    congrArg Prod.fst (congrArg Prod.snd hhearing)
  have hone : OneEach e → ∀ r, ((closed e₁ outputs).callbacks r).length ≤ 1 := by
    rw [hcallbacks]
    exact OneEach.one
  have hthrough : GetsThrough env predict e ↔ Heard env (closed e₁ outputs) outputs :=
    getsThrough_iff hrun
  have hpopped : ∀ e', Popped (closed e₁ outputs) e' → Popped e e' := by
    intro e' hp r
    have hr := hp r
    rwa [hcallbacks] at hr
  refine wp_mono (wp_and (wp_announce env outputs _) (wp_announce_popped env outputs _)) ?_ ?_
  · rintro _ e' ⟨hall, hp⟩
    exact ⟨hthrough.mpr (Or.inl hall), hpopped e' hp⟩
  · rintro _ e' ⟨⟨passed, rest, hsplit, hpassed, hraised⟩, hp⟩
    refine ⟨⟨passed.map Prod.fst, ⟨?_, fun h => ?_,
      fun h => hthrough.trans (heard_iff (hone h) hsplit hraised)⟩⟩, hpopped e' hp⟩
    · rw [hpassed, hdelivered]
    · refine List.Sublist.trans ?_ (sublist_callbackCalls (hone h) outputs)
      rw [hsplit, List.map_append]
      exact List.sublist_append_left _ _

/-! ### The result of a step -/

/-- What has happened when a step raises: no token was appended and nothing was passed on, the
blocks do not suffice for the growth, or an announcement has raised after the batch has advanced. -/
inductive Broken (env : Env ρ) (predict : Option (String → List ℕ → ℚ))
    (e e' : ContinuousBatchingEngine β) : Prop
  | halted (out : SchedulerOutput) (hhalt : Halted env predict e out e')
      (hhearing : Pool.hearing e' = Pool.hearing e) (hthrough : GetsThrough env predict e)
  | crowded (hno : ¬ GrowthFits env predict e)
  | cutShort (out : SchedulerOutput) (s₁ : Scheduler β) (outputs passed : List RequestOutput)
      (hstepped : Stepped env predict e out s₁ outputs e') (hpopped : Popped e e')
      (hcut : CutShort env predict e outputs passed e')

/-- **The result of a step**: it returns with its batch advanced, or it raises in one of the three
ways. -/
theorem wp_step_stepped (env : Env ρ) (predict : Option (String → List ℕ → ℚ))
    {e : ContinuousBatchingEngine β} (h : Consistent e) :
    wp (step env predict)
      (fun outputs e' => (∃ out s₁, Stepped env predict e out s₁ outputs e') ∧
        GetsThrough env predict e ∧ Popped e e')
      (fun _ e' => Broken env predict e e') e := by
  have hnone := wp_stepTokens_reported env predict e
  have htokens := wp_stepTokens env predict h
  have hhearing : Pool.hearing ((stepTokens env predict).state e) = Pool.hearing e :=
    Pool.leaves_stepTokens_hearing env predict e
  unfold Prog.state at hhearing
  rw [step, wp_bind]
  cases hrun : (stepTokens env predict).run e with
  | mk e₁ r =>
    rw [hrun] at hhearing
    have hquiet : (∀ outputs, r ≠ .ok (some outputs)) → GetsThrough env predict e := by
      intro hno
      refine getsThrough_of_quiet fun outputs => ?_
      rw [hrun]
      exact hno outputs
    cases r with
    | error err =>
      obtain ⟨out, hhalt, -, -⟩ := wp_error htokens hrun
      exact wp_of_error hrun (.halted out hhalt hhearing (hquiet fun _ h0 => by cases h0))
    | ok r =>
      refine wp_of_eq hrun ?_
      cases r with
      | none =>
        obtain ⟨out, hran, hpre, hdec⟩ := wp_ok hnone hrun
        obtain ⟨out', hhalt⟩ := wp_ok htokens hrun
        have hout : out' = out :=
          Except.ok.inj (Prod.mk.inj (hhalt.ran.symm.trans hran)).2
        subst hout
        rw [wp_pure]
        have hthrough : GetsThrough env predict e := hquiet fun _ h0 => by cases h0
        refine ⟨⟨out', e₁.scheduler, stepped_of_halted hhalt ?_⟩, hthrough, fun r => ?_⟩
        · unfold batchIds
          rw [hpre, hdec]
          rfl
        · exact Or.inl (congrFun (congrArg Prod.fst hhearing) r)
      | some outputs =>
        obtain ⟨out, s₁, tokens, hacc⟩ := wp_ok htokens hrun
        have hrep : ∀ o ∈ outputs, Reported env e₁.scheduler o :=
          wp_ok hnone hrun (by rw [hacc.outputs]; exact hacc.nodup)
        simp only [wp_bind, wp_onScheduler, wp_update, wp_pure]
        refine wp_mono (wp_and (wp_update_fits hacc) (wp_of_state (I := fun s' => s' =
          (Scheduler.updateAfterStep (completedSeqIds outputs) (newDecodeSeqIds outputs)).state
            e₁.scheduler) rfl)) ?_ fun _ s' hupdate => .crowded fun hfit => ?_
        · rintro _ s' ⟨⟨s₂, s₃, hE, hE₂, hs⟩, hstate⟩
          have hend : ∀ e', Announced (closed e₁ outputs) e' →
          Stepped env predict e out s₁ outputs e' := by
            intro e' ha
            obtain ⟨hclose, hsched⟩ := (hacc.closing rfl (e₁.numSteps + 1)).announced ha
            exact stepped_of_accepted hacc hrep hE hE₂ hclose (hsched.trans (hstate.symm.trans hs))
          rw [hstate]
          refine wp_mono
            (wp_and (wp_announce_announced env outputs _) (wp_announce_closed hrun)) ?_ ?_
          · rintro _ e' ⟨ha, hthrough, hp⟩
            exact ⟨⟨out, s₁, hend e' ha⟩, hthrough, hp⟩
          · rintro _ e' ⟨ha, ⟨passed, hcut⟩, hp⟩
            exact .cutShort out s₁ outputs passed (hend e' ha) hp hcut
        · have hlt := hupdate.1
          unfold GrowthFits at hfit
          rw [hrun] at hfit
          have hfit : growthNeed e₁.scheduler (completedSeqIds outputs) (newDecodeSeqIds outputs) ≤
            e₁.scheduler.numFreeBlocks := hfit
          omega

theorem wp_step_returned (env : Env ρ) (predict : Option (String → List ℕ → ℚ))
    {e : ContinuousBatchingEngine β} (h : Consistent e) :
    wp (step env predict) (fun outputs e' => ∃ out s₁, Stepped env predict e out s₁ outputs e')
      (fun _ _ => True) e :=
  wp_mono (wp_step_stepped env predict h) (fun _ _ h0 => h0.1) fun _ _ _ => trivial

/-! ### One sequence in a step that returned -/

section Stepped

variable {env : Env ρ} {predict : Option (String → List ℕ → ℚ)} {e e' : ContinuousBatchingEngine β}
  {out : SchedulerOutput} {s₁ : Scheduler β} {outputs : List RequestOutput}

/-- The outputs of a sequence, by its id. -/
def outputsOf (outputs : List RequestOutput) (i : ℕ) : List RequestOutput :=
  outputs.filter (·.seqId = i)

theorem outputsOf_of_notMem {ids : List ℕ} (h : outputs.map (·.seqId) = ids) {i : ℕ}
    (hi : i ∉ ids) :
    outputsOf outputs i = [] := by
  subst h
  refine List.filter_eq_nil_iff.mpr fun o ho h0 => hi ?_
  exact List.mem_map.mpr ⟨o, ho, by simpa using h0⟩

theorem outputsOf_of_mem : ∀ {outputs : List RequestOutput}, (outputs.map (·.seqId)).Nodup →
    ∀ {o : RequestOutput}, o ∈ outputs → outputsOf outputs o.seqId = [o]
  | o' :: os, hnd, o, ho => by
    obtain ⟨hno, hnd⟩ := List.nodup_cons.mp hnd
    rcases List.mem_cons.mp ho with rfl | ho
    · unfold outputsOf
      rw [List.filter_cons_of_pos (by simp)]
      exact congrArg _ (outputsOf_of_notMem rfl hno)
    · have hne : o'.seqId ≠ o.seqId := fun h0 =>
        hno (List.mem_map.mpr ⟨o, ho, h0.symm⟩)
      unfold outputsOf
      rw [List.filter_cons_of_neg (by simpa using hne)]
      exact outputsOf_of_mem hnd ho

/-- **One sequence in a step that returned**: it is outside the batch, or it has advanced and its
one output reports it. -/
theorem Stepped.cases (h : Stepped env predict e out s₁ outputs e') (i : ℕ) :
    (i ∉ batchIds out ∧ outputsOf outputs i = [] ∧ life e'.scheduler i = life s₁ i) ∨
      ∃ o ∈ outputs, o.seqId = i ∧ outputsOf outputs i = [o] ∧ i ∈ batchIds out ∧
        (e'.scheduler.store i).outputTokenIds = (s₁.store i).outputTokenIds ++ [o.tokenId] ∧
        o.finished = (getFinishReason env (e'.scheduler.store i) o.tokenId).isSome ∧
        Advanced env s₁.kvCache.blockSize (life s₁ i) (life e'.scheduler i) := by
  rcases h.lives i with ⟨hno, hl⟩ | ⟨hi, hadv⟩
  · exact Or.inl ⟨hno, outputsOf_of_notMem h.ids hno, hl⟩
  · have hmem := hi
    rw [← h.ids] at hmem
    obtain ⟨o, ho, rfl⟩ := List.mem_map.mp hmem
    have hnd : (outputs.map (·.seqId)).Nodup := by
      rw [h.ids]; exact (batch_spec h.scheduled).1
    obtain ⟨-, t, -, -, ht⟩ := h.tokens _ hi
    have hlast := (h.reported o ho).last
    rw [ht, List.getLast?_concat] at hlast
    refine Or.inr ⟨o, ho, rfl, outputsOf_of_mem hnd ho, hi, ?_, (h.reported o ho).finished, hadv⟩
    rw [ht, Option.some.inj hlast]

end Stepped

/-! ### The property and the condition -/

/-- The outputs that a step delivers: those it returns, or those passed to callbacks before it
raised. -/
def deliveredOutputs (env : Env ρ) (predict : Option (String → List ℕ → ℚ))
    (e : ContinuousBatchingEngine β) : List RequestOutput :=
  match (step env predict).run e with
  | (_, .ok outputs) => outputs
  | (e', .error _) => e'.delivered.drop e.delivered.length

/-- After a step, whether it returned or raised: the sequences that met their finish condition have
ended, the tokens that were appended have been delivered, and no sequence has too many. -/
structure Settled (env : Env ρ) (predict : Option (String → List ℕ → ℚ))
    (e : ContinuousBatchingEngine β) : Prop where
  ended : ∀ i t, (((step env predict).state e).scheduler.store i).outputTokenIds =
      (e.scheduler.store i).outputTokenIds ++ [t] →
    (getFinishReason env (((step env predict).state e).scheduler.store i) t).isSome →
    (((step env predict).state e).scheduler.store i).status = .finished ∧
      ((step env predict).state e).scheduler.kvCache.sequenceTables i = none
  delivered : ∀ i, (((step env predict).state e).scheduler.store i).outputTokenIds =
    (e.scheduler.store i).outputTokenIds ++
      (outputsOf (deliveredOutputs env predict e) i).map (·.tokenId)
  bounded : ∀ i, ((((step env predict).state e).scheduler.store i).outputTokenIds.length : ℤ) ≤
    max 1 (((step env predict).state e).scheduler.store i).samplingParams.maxTokens

/-- The property of a step, for the operations of a run. -/
def StepSettled (env : Env ρ) (e : ContinuousBatchingEngine β) : Op → Prop
  | .step predict => Settled env predict e
  | _ => True

/-- The condition on a step, in the state before it. -/
def Uninterrupted (env : Env ρ) (e : ContinuousBatchingEngine β) : Op → Prop
  | .step predict => GrowthFits env predict e ∧ GetsThrough env predict e
  | _ => True

instance (env : Env ρ) (e : ContinuousBatchingEngine β) :
    ∀ o : Op, Decidable (Uninterrupted env e o)
  | .step predict =>
    inferInstanceAs (Decidable (GrowthFits env predict e ∧ GetsThrough env predict e))
  | .addRequest _ _ _ _ _ => isTrue trivial
  | .abortRequest _ => isTrue trivial

/-! ### The invariant -/

/-- A sequence has at most its maximal number of outputs, and fewer as long as it is live and has
outputs. -/
structure Limited (d : SequenceData) : Prop where
  bounded : (d.outputTokenIds.length : ℤ) ≤ max 1 d.samplingParams.maxTokens
  short : d.Live → d.outputTokenIds = [] ∨ Short d

theorem limited_of_nil {d : SequenceData} (h : d.outputTokenIds = []) : Limited d := by
  refine ⟨?_, fun _ => Or.inl h⟩
  rw [h]
  exact le_trans (by decide) (le_max_left _ _)

theorem Limited.of_statusOnly {d d' : SequenceData} (h : Limited d) (hs : StatusOnly d d')
    (hl : d'.Live → d.Live) : Limited d' := by
  refine ⟨?_, fun hlive => ?_⟩
  · rw [hs.1]; exact h.bounded
  · unfold Short
    rw [hs.1]
    exact h.short (hl hlive)

theorem Limited.appended {d d' : SequenceData} {t : ℕ} (h : Limited d) (hl : d.Live)
    (ht : d'.outputTokenIds = d.outputTokenIds ++ [t]) (hp : d'.samplingParams = d.samplingParams)
    (hshort : d'.Live → Short d') : Limited d' := by
  refine ⟨?_, fun hlive => Or.inr (hshort hlive)⟩
  rw [ht, hp, List.length_append, List.length_singleton]
  rcases h.short hl with h0 | h0
  · rw [h0]
    exact le_max_left _ _
  · unfold Short at h0
    refine le_trans ?_ (le_max_right _ _)
    omega

theorem keeps_of_ran {predict : Option (String → List ℕ → ℚ)} {s s₁ : Scheduler β}
    {out : SchedulerOutput} (h : Inv s)
    (hran : (Scheduler.schedule predict).run s = (s₁, .ok out)) :
    Keeps s s₁ := (wp_ok (wp_schedule_keeps predict h) hran).2.1

/-- All sequences of the engine are limited. -/
structure Bounded (e : ContinuousBatchingEngine β) : Prop where
  consistent : Consistent e
  limited : ∀ i, Limited (e.scheduler.store i)

theorem bounded_start (cfg : SchedConfig) (kvCfg : KvConfig) (kv : ℕ → β) :
    Bounded (start cfg kvCfg kv) := ⟨consistent_new cfg kvCfg kv, fun _ => limited_of_nil rfl⟩

theorem oneEach_start (cfg : SchedConfig) (kvCfg : KvConfig) (kv : ℕ → β) :
    OneEach (start cfg kvCfg kv) := ⟨fun _ => Nat.zero_le 1, fun _ hr => absurd rfl hr⟩

section

variable {env : Env ρ} {predict : Option (String → List ℕ → ℚ)} {e e' : ContinuousBatchingEngine β}
  {out : SchedulerOutput} {s₁ : Scheduler β} {outputs passed : List RequestOutput}

/-- `schedule` keeps the limits. -/
theorem Bounded.scheduled (h : Bounded e)
    (hran : (Scheduler.schedule predict).run e.scheduler = (s₁, .ok out))
    (hs : Scheduled predict e.scheduler out s₁) (i : ℕ) : Limited (s₁.store i) :=
  (h.limited i).of_statusOnly (statusOnly_scheduled hs i)
    ((keeps_of_ran h.consistent.inv hran).live i).mp

theorem Bounded.stepped (h : Bounded e) (hs : Stepped env predict e out s₁ outputs e') :
    Bounded e' := by
  refine ⟨hs.consistent, fun i => ?_⟩
  have hlim := h.scheduled hs.ran hs.scheduled i
  rcases hs.cases i with ⟨-, -, hl⟩ | ⟨o, -, -, -, hi, ht, -, hadv⟩
  · rw [show e'.scheduler.store i = s₁.store i from congrArg Life.data hl]
    exact hlim
  · exact hlim.appended ((batch_spec hs.scheduled).2 i hi).live ht hadv.data.2 hadv.short

theorem Bounded.halted (h : Bounded e) (hh : Halted env predict e out e') : Bounded e' :=
  ⟨hh.consistent, h.scheduled hh.ran hh.scheduled⟩

theorem outputs_scheduled (hs : Scheduled predict e.scheduler out s₁) (i : ℕ) :
    (s₁.store i).outputTokenIds = (e.scheduler.store i).outputTokenIds := by
  rw [(statusOnly_scheduled hs i).1]

/-- A sequence of the batch is finished exactly if it met its finish condition. -/
theorem finished_iff_reason {k t : ℕ} {l l' : Life β} (hadv : Advanced env k l l')
    (hlive : l.data.Live) (ht : l'.data.outputTokenIds = l.data.outputTokenIds ++ [t]) :
    l'.data.status = .finished ↔ (getFinishReason env l'.data t).isSome = true := by
  have hcongr : ∀ {t' : ℕ}, l.data.outputTokenIds ++ [t'] = l.data.outputTokenIds ++ [t] → t' = t :=
    fun h0 => List.singleton_inj.mp (List.append_cancel_left h0)
  cases hadv with
  | ended t' hr =>
    obtain rfl := hcongr ht
    exact ⟨fun _ => hr, fun _ => if_pos hlive⟩
  | grown t' _ hr hg =>
    obtain ⟨n, new, -, -, rfl⟩ := hg
    obtain rfl := hcongr ht
    refine ⟨fun h0 => ?_, fun h0 => absurd (hr.symm.trans h0) Bool.false_ne_true⟩
    cases h0
  | parked t' hr hst =>
    obtain rfl := hcongr ht
    exact ⟨fun h0 => absurd h0 hlive.1, fun h0 => absurd (hr.symm.trans h0) Bool.false_ne_true⟩

/-! ### One step -/

/-- The tokens of a sequence grow by those its outputs report. -/
theorem Stepped.grown (hs : Stepped env predict e out s₁ outputs e') (i : ℕ) :
    (e'.scheduler.store i).outputTokenIds = (e.scheduler.store i).outputTokenIds ++
      (outputsOf outputs i).map (·.tokenId) := by
  rw [← outputs_scheduled hs.scheduled i]
  rcases hs.cases i with ⟨-, hnil, hl⟩ | ⟨o, -, -, hone, -, ht, -, -⟩
  · rw [hnil, show e'.scheduler.store i = s₁.store i from congrArg Life.data hl]
    exact (List.append_nil _).symm
  · rw [hone, ht]
    rfl

/-- A sequence that met its finish condition has ended. -/
theorem Stepped.ended (hs : Stepped env predict e out s₁ outputs e') {i t : ℕ}
    (ht : (e'.scheduler.store i).outputTokenIds = (e.scheduler.store i).outputTokenIds ++ [t])
    (hr : (getFinishReason env (e'.scheduler.store i) t).isSome) :
    (e'.scheduler.store i).status = .finished ∧ e'.scheduler.kvCache.sequenceTables i = none := by
  rw [← outputs_scheduled hs.scheduled i] at ht
  rcases hs.cases i with ⟨-, -, hl⟩ | ⟨o, -, -, -, hi, -, -, hadv⟩
  · rw [show e'.scheduler.store i = s₁.store i from congrArg Life.data hl] at ht
    have hlen := congrArg List.length ht
    simp at hlen
  · have htable := (batch_spec hs.scheduled).2 i hi
    have hfin := (finished_iff_reason hadv htable.live ht).mpr hr
    refine ⟨hfin, Option.map_eq_none_iff.mp ((hs.consistent.inv.ok i).tokens_none ?_)⟩
    rintro (h0 | h0 | h0) <;> rw [hfin] at h0 <;> cases h0

theorem settled_of_stepped (hstate : (step env predict).state e = e')
    (hs : Stepped env predict e out s₁ outputs e') (hb : Bounded e')
    (hd : deliveredOutputs env predict e = outputs) : Settled env predict e := by
  subst hstate
  refine ⟨fun i t ht hr => hs.ended ht hr, fun i => ?_, fun i => (hb.limited i).bounded⟩
  rw [hd]
  exact hs.grown i

theorem settled_of_halted (hstate : (step env predict).state e = e')
    (hh : Halted env predict e out e') (hb : Bounded e')
    (hd : deliveredOutputs env predict e = []) : Settled env predict e := by
  subst hstate
  have hout := outputs_scheduled hh.scheduled
  refine ⟨fun i t ht => ?_, fun i => ?_, fun i => (hb.limited i).bounded⟩
  · rw [hout i] at ht
    have hlen := congrArg List.length ht
    simp at hlen
  · rw [hout i, hd]
    exact (List.append_nil _).symm

theorem deliveredOutputs_of_ok (hrun : (step env predict).run e = (e', .ok outputs)) :
    deliveredOutputs env predict e = outputs := by
  unfold deliveredOutputs
  rw [hrun]

theorem deliveredOutputs_of_error {err : PyError}
    (hrun : (step env predict).run e = (e', .error err))
    (hd : e'.delivered = e.delivered ++ passed) : deliveredOutputs env predict e = passed := by
  unfold deliveredOutputs
  rw [hrun]
  show e'.delivered.drop _ = passed
  rw [hd, List.drop_left]

/-- Where every token was delivered, every output was passed on. -/
theorem CutShort.all_passed (hcut : CutShort env predict e outputs passed e') (hone : OneEach e)
    (hs : Stepped env predict e out s₁ outputs e')
    (hdel : ∀ i, (e'.scheduler.store i).outputTokenIds = (e.scheduler.store i).outputTokenIds ++
      (outputsOf passed i).map (·.tokenId)) : passed = outputs := by
  have hnd : (outputs.map (·.seqId)).Nodup := by
    rw [hs.ids]; exact (batch_spec hs.scheduled).1
  have hall : outputs ⊆ passed := by
    intro o ho
    have hmine := outputsOf_of_mem hnd ho
    have htokens := List.append_cancel_left ((hs.grown o.seqId).symm.trans (hdel o.seqId))
    rw [hmine] at htokens
    cases hpassed : outputsOf passed o.seqId with
    | nil =>
      rw [hpassed] at htokens
      cases htokens
    | cons o' more =>
      have hmem : o' ∈ outputsOf passed o.seqId := by
        rw [hpassed]
        exact List.mem_cons_self
      obtain ⟨ho', hid⟩ := List.mem_filter.mp hmem
      have hsame : o' ∈ outputsOf outputs o.seqId :=
        List.mem_filter.mpr ⟨(hcut.sublist hone).subset ho', hid⟩
      rw [hmine, List.mem_singleton] at hsame
      rw [← hsame]
      exact ho'
  exact (hcut.sublist hone).eq_of_length_le (List.subperm_of_subset hnd.of_map hall).length_le

/-- The invariant of the runs in which no step is interrupted. -/
structure Attended (e : ContinuousBatchingEngine β) : Prop where
  bounded : Bounded e
  oneEach : OneEach e

theorem Attended.stepped (h : Attended e) (hs : Stepped env predict e out s₁ outputs e')
    (hp : Popped e e') : Attended e' :=
  ⟨h.bounded.stepped hs, h.oneEach.popped hp fun r _ => congrFun hs.maps.requestToSeqIds r⟩

/-- **A step that is not interrupted** ends and delivers everything it should. -/
theorem Attended.settled (h : Attended e) (hfit : GrowthFits env predict e)
    (hthrough : GetsThrough env predict e) :
    Settled env predict e ∧ Attended ((step env predict).state e) := by
  have hwp := wp_step_stepped env predict h.bounded.consistent
  cases hrun : (step env predict).run e with
  | mk e' r =>
    have hstate : (step env predict).state e = e' := congrArg Prod.fst hrun
    rw [hstate]
    cases r with
    | ok outputs =>
      obtain ⟨⟨out, s₁, hs⟩, -, hp⟩ := wp_ok hwp hrun
      have ha := h.stepped hs hp
      exact ⟨settled_of_stepped hstate hs ha.bounded (deliveredOutputs_of_ok hrun), ha⟩
    | error err =>
      cases wp_error hwp hrun with
      | halted out hhalt hhearing _ =>
        have hb := h.bounded.halted hhalt
        have hsame : e'.delivered = e.delivered := congrArg Prod.fst (congrArg Prod.snd hhearing)
        have hcallbacks : e'.callbacks = e.callbacks := congrArg Prod.fst hhearing
        refine ⟨settled_of_halted hstate hhalt hb (deliveredOutputs_of_error hrun ?_), hb,
          h.oneEach.popped (fun r => Or.inl (congrFun hcallbacks r)) fun r _ =>
            congrFun hhalt.maps.requestToSeqIds r⟩
        rw [hsame, List.append_nil]
      | crowded hno => exact absurd hfit hno
      | cutShort out s₁ outputs passed hs hp hcut =>
        have ha := h.stepped hs hp
        have hpassed := (hcut.through h.oneEach).mp hthrough
        refine ⟨settled_of_stepped hstate hs ha.bounded ?_, ha⟩
        rw [← hpassed]
        exact deliveredOutputs_of_error hrun hcut.delivered

/-- **Exactness**: where the blocks suffice for the growth, a step delivers everything exactly if
its outputs get through. -/
theorem Attended.settled_iff (h : Attended e) (hfit : GrowthFits env predict e) :
    Settled env predict e ↔ GetsThrough env predict e := by
  refine ⟨fun hsettled => ?_, fun hthrough => (h.settled hfit hthrough).1⟩
  have hwp := wp_step_stepped env predict h.bounded.consistent
  cases hrun : (step env predict).run e with
  | mk e' r =>
    cases r with
    | ok outputs => exact (wp_ok hwp hrun).2.1
    | error err =>
      cases wp_error hwp hrun with
      | halted _ _ _ hthrough => exact hthrough
      | crowded hno => exact absurd hfit hno
      | cutShort out s₁ outputs passed hs hp hcut =>
        refine (hcut.through h.oneEach).mpr (hcut.all_passed h.oneEach hs fun i => ?_)
        have hdel := hsettled.delivered i
        rw [deliveredOutputs_of_error hrun hcut.delivered,
          show (step env predict).state e = e' from congrArg Prod.fst hrun] at hdel
        exact hdel

end

/-! ### Runs -/

theorem OneEach.addRequest {e : ContinuousBatchingEngine β} (h : OneEach e) (rid : String)
    (prompt : List ℕ) (params : SamplingParams) (n : ℕ) (onToken : Option Callback) :
    OneEach ((addRequest rid prompt params n onToken).state e) := by
  refine inv_of_wp (I := OneEach) ?_
  simp only [ContinuousBatchingEngine.addRequest, wp_bind, wp_current, wp_ite, wp_raise, wp_update,
    wp_onScheduler]
  refine ⟨fun _ => h, fun hnew => ⟨fun _ => h, fun _ => ?_⟩⟩
  have hnil : e.callbacks rid = [] := by
    by_contra hne
    exact hnew (h.known rid hne)
  suffices hadded : ∀ (s : Scheduler β) (k : ℕ) (q : Finset ℕ) (m : ℕ → Option String)
      (ids : List ℕ) (o : String → Option (ℕ → Option (List ℕ))), OneEach { e with
        scheduler := s, nextSeqId := k, sequences := q, sequenceToRequestId := m,
        requestOutputs := o
        requestToSeqIds := Function.update e.requestToSeqIds rid (some ids)
        callbacks := Function.update e.callbacks rid (e.callbacks rid ++ onToken.toList) } from
    wp_of_forall (fun _ s => hadded s _ _ _ _ _) fun _ s => hadded s _ _ _ _ _
  intro s k q m ids o
  refine ⟨fun r => ?_, fun r hr => ?_⟩
  · by_cases hreq : r = rid
    · show (Function.update e.callbacks rid _ r).length ≤ 1
      rw [hreq, Function.update_self, hnil]
      cases onToken with
      | none => exact Nat.zero_le 1
      | some callback => exact le_refl 1
    · show (Function.update e.callbacks rid _ r).length ≤ 1
      rw [Function.update_of_ne hreq]
      exact h.one r
  · show (Function.update e.requestToSeqIds rid _ r).isSome = true
    by_cases hreq : r = rid
    · rw [hreq, Function.update_self]
      rfl
    · rw [Function.update_of_ne hreq]
      have hr : Function.update e.callbacks rid (e.callbacks rid ++ onToken.toList) r ≠ [] := hr
      rw [Function.update_of_ne hreq] at hr
      exact h.known r hr

theorem OneEach.abortRequest {e : ContinuousBatchingEngine β} (h : OneEach e) (env : Env ρ)
    (rid : String) :
    OneEach ((abortRequest env rid).state e) := by
  refine inv_of_wp (I := OneEach) ?_
  simp only [ContinuousBatchingEngine.abortRequest, popCallbacks, wp_bind, wp_current,
    wp_onScheduler]
  have hkept : ∀ s : Scheduler β, OneEach { e with scheduler := s } := fun _ => ⟨h.one, h.known⟩
  refine wp_of_forall (fun _ s => ?_) fun _ s => hkept s
  have hpopped : ∀ e' : ContinuousBatchingEngine β,
      e'.callbacks = Function.update e.callbacks rid [] →
      (∀ r, r ≠ rid → e'.requestToSeqIds r = e.requestToSeqIds r) → OneEach e' := by
    intro e' hc hids
    refine h.popped ((Popped.refl e).pop rid hc) fun r hr => hids r ?_
    rintro rfl
    rw [hc, Function.update_self] at hr
    exact hr rfl
  simp only [wp_update, wp_ite, wp_pure, wp_bind]
  refine ⟨fun _ => hpopped _ rfl fun _ _ => rfl,
    fun _ => wp_mono (wp_notifyEviction env .aborted rid) ?_ ?_⟩
  · rintro _ _ ⟨-, rfl⟩
    exact hpopped _ rfl fun r hr => Function.update_of_ne hr _ _
  · rintro _ _ ⟨-, rfl⟩
    exact hpopped _ rfl fun _ _ => rfl

theorem Bounded.added {env : Env ρ} {e : ContinuousBatchingEngine β} (h : Bounded e) (rid : String)
    (prompt : List ℕ) (params : SamplingParams) (n : ℕ) (onToken : Option Callback) :
    Bounded (runOp env e (.addRequest rid prompt params n onToken)) := by
  refine ⟨consistent_runOp env h.consistent _, ?_⟩
  rcases add_cases rid prompt params n onToken h.consistent env with h0 | ⟨-, h0⟩
  · rw [h0]; exact h.limited
  · intro i
    by_cases hi : e.nextSeqId ≤ i ∧ i < e.nextSeqId + n
    · rw [h0.new i hi.1 hi.2]
      exact limited_of_nil rfl
    · rw [h0.other i hi]
      exact h.limited i

theorem Bounded.aborted {env : Env ρ} {e : ContinuousBatchingEngine β} (h : Bounded e)
    (rid : String) :
    Bounded (runOp env e (.abortRequest rid)) := by
  refine ⟨consistent_runOp env h.consistent _, fun i => ?_⟩
  have hlives := (abort_cases rid h.consistent env).lives
  refine (h.limited i).of_statusOnly (statusOnly_cancelled (hlives i)) fun hl => ?_
  rcases hlives i with h0 | h0
  · rw [show e.scheduler.store i = _ from (congrArg Life.data h0).symm]
    exact hl
  · have hl : (life (EngineStep.runOp env e (.abortRequest rid)).scheduler i).data.Live := hl
    rw [h0] at hl
    by_contra hdead
    refine hdead ?_
    have hst : finalStatus .cancelled (life e.scheduler i).data = (e.scheduler.store i).status :=
      if_neg hdead
    unfold SequenceData.Live at hl ⊢
    rw [← hst]
    exact hl

/-- **Every operation** of such a run keeps the invariant. -/
theorem Attended.runOp {env : Env ρ} {e : ContinuousBatchingEngine β} (h : Attended e) {o : Op}
    (hg : Uninterrupted env e o) : Attended (runOp env e o) := by
  cases o with
  | step predict => exact (h.settled hg.1 hg.2).2
  | addRequest rid prompt params n onToken =>
    exact ⟨h.bounded.added rid prompt params n onToken,
      h.oneEach.addRequest rid prompt params n onToken⟩
  | abortRequest rid => exact ⟨h.bounded.aborted rid, h.oneEach.abortRequest env rid⟩

/-- **Steps end and deliver**: in every run in which, at every step, the blocks suffice for the
growth and the outputs get through. -/
theorem settled_of_uninterrupted (env : Env ρ) (cfg : SchedConfig) (kvCfg : KvConfig) (kv : ℕ → β)
    (ops : List Op) (h : Along (runOp env) (Uninterrupted env) (start cfg kvCfg kv) ops) :
    Along (runOp env) (StepSettled env) (start cfg kvCfg kv) ops := by
  refine along_of_inv (I := Attended) (fun _ _ hs hg => hs.runOp hg) (fun e o hs hg => ?_) ops _
    ⟨bounded_start cfg kvCfg kv, oneEach_start cfg kvCfg kv⟩ h
  cases o with
  | step predict => exact (hs.settled hg.1 hg.2).1
  | addRequest rid prompt params n onToken => trivial
  | abortRequest rid => trivial

/-- Two requests that run together. The first ends with its second token; the second then has a full
block. -/
def runTogether (onToken : Option Callback) : List Op :=
  [.addRequest "a" [1, 2, 3] { temperature := 0, maxTokens := 2 } 1 onToken,
    .addRequest "b" [4, 5, 6] { temperature := 0, maxTokens := 5 } 1 onToken, .step none]

/-- A callback that takes `n` outputs in all, and then raises. -/
def takes (n : ℕ) : Callback := fun past _ =>
  if past.length < n then .ok () else .error (.keyError "stream")

/-- The second step raises at its last call, when everything has been passed on. -/
theorem settled_runTogether :
    Along (runOp repeatLast) (Uninterrupted repeatLast) (engineWith 3 (by decide))
        (runTogether (some (takes 3)) ++ [.step none]) ∧
      Along (runOp repeatLast) (StepSettled repeatLast) (engineWith 3 (by decide))
        (runTogether (some (takes 3)) ++ [.step none]) ∧
      ((exec (runOp repeatLast) (engineWith 3 (by decide))
        (runTogether (some (takes 3)) ++ [.step none])).scheduler.store 0).status = .finished ∧
      ((step repeatLast none).run (exec (runOp repeatLast) (engineWith 3 (by decide))
        (runTogether (some (takes 3))))).2.isOk = false :=
  ⟨by decide, settled_of_uninterrupted _ _ _ _ _ (by decide), by decide, by decide⟩

/-- A callback that raises one call earlier leaves an output behind. -/
example : ¬ Along (runOp repeatLast) (Uninterrupted repeatLast) (engineWith 3 (by decide))
    (runTogether (some (takes 2)) ++ [.step none]) := by decide

/-- With two blocks the second step raises. The first request has got its last token by then; the
token is not delivered, and the sequence goes on running. -/
theorem undelivered_tokens : ¬ ∀ (env : Env ℕ) (cfg : SchedConfig) (kvCfg : KvConfig) (kv : ℕ → ℕ)
    (ops : List Op), Along (runOp env) (StepSettled env) (start cfg kvCfg kv) ops := by
  intro h
  have hrun := h repeatLast ⟨8, 64, by decide, by decide⟩ ⟨2, 4, by decide, by decide⟩ (fun b => b)
    (runTogether none ++ [.step none])
  have hlast : Settled repeatLast none
      (exec (runOp repeatLast) (engineWith 2 (by decide)) (runTogether none)) :=
    (along_append.mp hrun).2.1
  have hdel := hlast.delivered 0
  have hno : ¬ ((((step repeatLast none).state (exec (runOp repeatLast) (engineWith 2 (by decide))
      (runTogether none))).scheduler.store 0).outputTokenIds =
    ((exec (runOp repeatLast) (engineWith 2 (by decide)) (runTogether none)).scheduler.store
        0).outputTokenIds ++
      (outputsOf
        (deliveredOutputs repeatLast none
          (exec (runOp repeatLast) (engineWith 2 (by decide)) (runTogether none))) 0).map
          (·.tokenId)) := by decide
  exact hno hdel

end MoeInfinity.Serving.Delivery
