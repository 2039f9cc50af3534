import MoeInfinity.Serving.Delivery
import MoeInfinity.Serving.Greedy
import MoeInfinity.Serving.Pending

/-! # The streams of outputs

The outputs that the steps of a run return, taken in order and for one sequence, are its stream. In
runs in which no call raises the stream of a sequence lists its output tokens, the one output with
`finished=True` is its last, the eos token comes last if at all, nothing follows an abort, and
`get_request_n_outputs` returns the same tokens. -/

namespace MoeInfinity.Serving.Streams

open MoeInfinity.Python MoeInfinity.Lib.Imperative MoeInfinity.Lib.Runs
open MoeInfinity.Serving.Sequence MoeInfinity.Serving.KvCache MoeInfinity.Serving.KvCacheSpec
open MoeInfinity.Serving.Schedule MoeInfinity.Serving.Lifecycle MoeInfinity.Serving.ScheduleSpec
open MoeInfinity.Serving.ScheduleInv MoeInfinity.Serving.ScheduleCall
  MoeInfinity.Serving.ScheduleOps
open MoeInfinity.Serving.ModelRunner MoeInfinity.Serving.Engine
open MoeInfinity.Serving.Engine.ContinuousBatchingEngine MoeInfinity.Serving.EngineInv
open MoeInfinity.Serving.EngineStep MoeInfinity.Serving.Progress MoeInfinity.Serving.Greedy
open MoeInfinity.Serving.Delivery MoeInfinity.Serving.Callbacks

variable {β ρ : Type}

/-! ### The outputs of a run -/

/-- What an operation returns to its caller. -/
def opOutputs (env : Env ρ) (e : ContinuousBatchingEngine β) : Op → List RequestOutput
  | .step predict =>
    match ((step env predict).run e).2 with
    | .ok outputs => outputs
    | .error _ => []
  | _ => []

/-- The outputs of all steps of a run, in order. -/
def emitted (env : Env ρ) : ContinuousBatchingEngine β → List Op → List RequestOutput
  | _, [] => []
  | e, o :: os => opOutputs env e o ++ emitted env (runOp env e o) os

theorem emitted_append (env : Env ρ) : ∀ (e : ContinuousBatchingEngine β) (os os' : List Op),
    emitted env e (os ++ os') = emitted env e os ++ emitted env (exec (runOp env) e os) os'
  | _, [], _ => rfl
  | e, o :: os, os' => by
    simp only [List.cons_append, emitted, exec_cons, emitted_append, List.append_assoc]

theorem outputsOf_append (xs ys : List RequestOutput) (i : ℕ) :
    outputsOf (xs ++ ys) i = outputsOf xs i ++ outputsOf ys i := List.filter_append ..

/-- The stream `outs` of a sequence with the object `d`. -/
structure StreamOk (env : Env ρ) (d : SequenceData) (outs : List RequestOutput) : Prop where
  tokens : outs.map (·.tokenId) = d.outputTokenIds
  ended : d.status = .finished → ∃ init last, outs = init ++ [last] ∧ last.finished = true ∧
    ∀ o ∈ init, o.finished = false
  going : d.status ≠ .finished → ∀ o ∈ outs, o.finished = false
  count : (outs.length : ℤ) ≤ max 1 d.samplingParams.maxTokens
  eos : ∀ o ∈ outs.dropLast, env.eosTokenId ≠ some o.tokenId

/-! ### `_request_outputs` -/

/-- `_request_outputs` has the outputs of every sequence that the engine knows, and
`_request_to_seq_ids` lists it. -/
structure Mirrored (e : ContinuousBatchingEngine β) : Prop where
  outputs : ∀ i r, e.sequenceToRequestId i = some r → ∃ outs, e.requestOutputs r = some outs ∧
    outs i = some (e.scheduler.store i).outputTokenIds
  listed : ∀ i r, e.sequenceToRequestId i = some r → ∃ ids, e.requestToSeqIds r = some ids ∧ i ∈ ids

theorem Mirrored.congr {e e' : ContinuousBatchingEngine β} (h : Mirrored e)
    (hm : e'.sequenceToRequestId = e.sequenceToRequestId)
    (hr : e'.requestToSeqIds = e.requestToSeqIds) (ho : e'.requestOutputs = e.requestOutputs)
    (hd : ∀ i, (e'.scheduler.store i).outputTokenIds = (e.scheduler.store i).outputTokenIds) :
    Mirrored e' := by
  refine ⟨fun i r hi => ?_, fun i r hi => ?_⟩
  · rw [hm] at hi
    rw [ho, hd i]
    exact h.outputs i r hi
  · rw [hm] at hi
    rw [hr]
    exact h.listed i r hi

theorem outputs_appendOutputToken {d d' : SequenceData} {t : ℕ}
    (h : d.appendOutputToken t = .ok d') :
    d'.outputTokenIds = d.outputTokenIds ++ [t] := by
  unfold SequenceData.appendOutputToken at h
  split at h
  · cases h
  · rw [← Except.ok.inj h]

theorem Mirrored.wp_acceptToken {e : ContinuousBatchingEngine β} (h : Mirrored e) (env : Env ρ)
    (i t : ℕ) : wp (acceptToken env i t) (fun _ e' => Mirrored e') (fun _ _ => True) e := by
  simp only [acceptToken, wp_bind, wp_current, wp_ite, wp_raise, implies_true, true_and]
  intro _
  cases hreq : e.sequenceToRequestId i with
  | none => exact trivial
  | some rid =>
    simp only [wp_bind, wp_onScheduler, Scheduler.appendOutput, wp_current, wp_update, wp_pure]
    cases happ : (e.scheduler.store i).appendOutputToken t with
    | error err => exact trivial
    | ok d =>
      rw [wp_ofExcept_ok]
      obtain ⟨outs, hro, hout⟩ := h.outputs i rid hreq
      simp only [recordOutput, wp_bind, wp_current, hro, hout, wp_update]
      refine ⟨fun j r hj => ?_, h.listed⟩
      have hj : e.sequenceToRequestId j = some r := hj
      show ∃ outs', Function.update e.requestOutputs rid _ r = some outs' ∧
        outs' j = some (Function.update e.scheduler.store i d j).outputTokenIds
      by_cases hji : j = i
      · subst hji
        obtain rfl : rid = r := Option.some.inj (hreq.symm.trans hj)
        refine ⟨_, Function.update_self _ _ _, ?_⟩
        rw [Function.update_self, Function.update_self, outputs_appendOutputToken happ]
      · obtain ⟨outs', hro', hout'⟩ := h.outputs j r hj
        rw [Function.update_of_ne hji]
        by_cases hr : r = rid
        · subst hr
          obtain rfl : outs = outs' := Option.some.inj (hro.symm.trans hro')
          refine ⟨_, Function.update_self _ _ _, ?_⟩
          rw [Function.update_of_ne hji]
          exact hout'
        · exact ⟨outs', by rw [Function.update_of_ne hr]; exact hro', hout'⟩

theorem Mirrored.wp_acceptTokens (env : Env ρ) : ∀ (pairs : List (ℕ × ℕ))
    {e : ContinuousBatchingEngine β}, Mirrored e →
    wp (acceptTokens env pairs) (fun _ e' => Mirrored e') (fun _ _ => True) e
  | [], _, h => h
  | (i, t) :: pairs, _, h => by
    simp only [acceptTokens, wp_bind, wp_pure]
    exact wp_mono (h.wp_acceptToken env i t) (fun _ _ h₁ => Mirrored.wp_acceptTokens env pairs h₁)
      fun _ _ h0 => h0

/-- The parts of the engine that `Mirrored` is about. -/
def ledger (e : ContinuousBatchingEngine β) : Scheduler β × (ℕ → Option String) ×
    (String → Option (List ℕ)) × (String → Option (ℕ → Option (List ℕ))) :=
  (e.scheduler, e.sequenceToRequestId, e.requestToSeqIds, e.requestOutputs)

theorem Mirrored.wp_stepTokens {e : ContinuousBatchingEngine β} (h : Mirrored e)
    (hinv : Inv e.scheduler) (env : Env ρ) (predict : Option (String → List ℕ → ℚ)) :
    wp (stepTokens env predict) (fun _ e' => Mirrored e') (fun _ _ => True) e := by
  simp only [stepTokens, wp_bind, wp_onScheduler]
  obtain ⟨out, s₁, hran, hs⟩ := schedule_run predict hinv
  refine wp_of_eq hran ?_
  have h₁ : Mirrored { e with scheduler := s₁ } :=
    h.congr rfl rfl rfl fun i => by
      show (s₁.store i).outputTokenIds = _
      rw [(statusOnly_scheduled hs i).1]
  simp only [wp_ite, wp_pure, wp_bind, wp_current]
  refine ⟨fun _ => h₁, fun _ => ?_⟩
  refine wp_mono ((leaves_ofExcept (f := fun e : ContinuousBatchingEngine β => e) _).wp _)
    (fun b e₂ he₂ => ⟨fun _ => trivial, fun _ => ?_⟩) fun _ _ _ => trivial
  have he₂ : e₂ = { e with scheduler := s₁ } := he₂
  subst he₂
  refine wp_mono ((Pool.leaves_forwardAndSample (f := ledger) (fun _ _ => rfl) env b).wp _)
    (fun tokens e₃ he₃ => ?_) fun _ _ _ => trivial
  simp only [ledger, Prod.mk.injEq] at he₃
  obtain ⟨hsch, hm, hr, ho⟩ := he₃
  exact wp_mono (Mirrored.wp_acceptTokens env _ (h₁.congr hm hr ho fun i => by rw [hsch]))
    (fun _ _ h0 => h0) fun _ _ h0 => h0

theorem Mirrored.wp_step {e : ContinuousBatchingEngine β} (h : Mirrored e) (hc : Consistent e)
    (env : Env ρ) (predict : Option (String → List ℕ → ℚ)) :
    wp (step env predict) (fun _ e' => Mirrored e') (fun _ _ => True) e := by
  rw [step, wp_bind]
  refine wp_mono
    (wp_and (h.wp_stepTokens hc.inv env predict) (EngineStep.wp_stepTokens env predict hc)) ?_
    fun _ _ _ => trivial
  rintro r e₁ ⟨h₁, hr⟩
  cases r with
  | none => exact h₁
  | some outputs =>
    obtain ⟨out, s₁, tokens, hacc⟩ := hr
    simp only [wp_bind, wp_onScheduler, wp_update, wp_pure]
    refine wp_mono (wp_of_state (I := fun s' => ∀ i, StatusOnly (e₁.scheduler.store i) (s'.store i))
      (statusOnly_updateAfterStep _ _ hacc.consistent.inv)) (fun _ s' hs => ?_) fun _ _ _ => trivial
    refine wp_mono (wp_announce_announced env outputs _) ?_ fun _ _ _ => trivial
    rintro _ _ ⟨C, c, d, v, rfl⟩
    refine h₁.congr rfl rfl rfl fun i => ?_
    show (s'.store i).outputTokenIds = _
    rw [(hs i).1]

/-- What `add_request` writes into the maps of the engine. -/
theorem wp_addRequest_ledger (rid : String) (prompt : List ℕ) (params : SamplingParams) (n : ℕ)
    (onToken : Option Callback) (e : ContinuousBatchingEngine β) :
    wp (addRequest rid prompt params n onToken) (fun _ e' => e.requestToSeqIds rid = none ∧ n ≠ 0 ∧
      (∀ i, e'.sequenceToRequestId i =
        if i ∈ (newSequences e.nextSeqId n prompt params).map (·.seqId) then some rid
        else e.sequenceToRequestId i) ∧
      e'.requestToSeqIds = Function.update e.requestToSeqIds rid
        (some ((newSequences e.nextSeqId n prompt params).map (·.seqId))) ∧
      e'.requestOutputs = Function.update e.requestOutputs rid (some fun i =>
        if i ∈ (newSequences e.nextSeqId n prompt params).map (·.seqId) then some [] else none))
      (fun _ _ => True) e := by
  simp only [addRequest, wp_bind, wp_current, wp_ite, wp_raise, wp_update, wp_onScheduler]
  refine ⟨fun _ => trivial, fun hnew => ⟨fun _ => trivial, fun hn => ?_⟩⟩
  exact wp_of_forall (fun _ s' => ⟨Option.not_isSome_iff_eq_none.mp hnew, hn, fun _ => trivial,
    trivial, trivial⟩) fun _ _ => trivial

theorem Mirrored.added {e e' : ContinuousBatchingEngine β} (h : Mirrored e) {rid : String}
    {prompt : List ℕ} {params : SamplingParams} {n : ℕ} {ids : List ℕ}
    (hadd : Added prompt params n e e')
    (hids : ∀ i, i ∈ ids ↔ e.nextSeqId ≤ i ∧ i < e.nextSeqId + n)
    (hnone : e.requestToSeqIds rid = none)
    (hm : ∀ i, e'.sequenceToRequestId i = if i ∈ ids then some rid else e.sequenceToRequestId i)
    (hr : e'.requestToSeqIds = Function.update e.requestToSeqIds rid (some ids))
    (ho : e'.requestOutputs = Function.update e.requestOutputs rid
      (some fun i => if i ∈ ids then some [] else none)) : Mirrored e' := by
  have hother : ∀ i r, i ∉ ids → e'.sequenceToRequestId i = some r →
      e.sequenceToRequestId i = some r ∧ r ≠ rid := by
    intro i r hi hreq
    rw [hm i, if_neg hi] at hreq
    refine ⟨hreq, ?_⟩
    rintro rfl
    obtain ⟨ids', h0, -⟩ := h.listed i r hreq
    rw [hnone] at h0
    cases h0
  refine ⟨fun i r hreq => ?_, fun i r hreq => ?_⟩
  · by_cases hi : i ∈ ids
    · rw [hm i, if_pos hi] at hreq
      obtain rfl := Option.some.inj hreq
      refine ⟨_, by rw [ho]; exact Function.update_self _ _ _, ?_⟩
      rw [hadd.new i ((hids i).mp hi).1 ((hids i).mp hi).2, if_pos hi]
    · obtain ⟨hreq, hne⟩ := hother i r hi hreq
      rw [ho, Function.update_of_ne hne, hadd.other i fun h0 => hi ((hids i).mpr h0)]
      exact h.outputs i r hreq
  · by_cases hi : i ∈ ids
    · rw [hm i, if_pos hi] at hreq
      obtain rfl := Option.some.inj hreq
      exact ⟨ids, by rw [hr]; exact Function.update_self _ _ _, hi⟩
    · obtain ⟨hreq, hne⟩ := hother i r hi hreq
      rw [hr, Function.update_of_ne hne]
      exact h.listed i r hreq

/-- What `abort_request` leaves of the maps: nothing but the entries of the request changes. -/
theorem wp_abortRequest_ledger (env : Env ρ) (rid : String) {e : ContinuousBatchingEngine β}
    (h : Mirrored e) :
    wp (abortRequest env rid) (fun _ e' =>
      (∀ i r, e'.sequenceToRequestId i = some r → e.sequenceToRequestId i = some r ∧
        e'.requestToSeqIds r = e.requestToSeqIds r ∧ e'.requestOutputs r = e.requestOutputs r) ∧
      ∀ r ≠ rid, e'.requestToSeqIds r = e.requestToSeqIds r) (fun _ _ => True) e := by
  simp only [abortRequest, popCallbacks, wp_bind, wp_current, wp_onScheduler, wp_update]
  refine wp_of_forall (fun _ s' => ?_) fun _ _ => trivial
  simp only [wp_ite, wp_pure, wp_bind, wp_update]
  refine ⟨fun _ => ⟨fun i r hr => ⟨hr, trivial, trivial⟩, fun _ _ => trivial⟩, fun _ => ?_⟩
  refine wp_mono (wp_notifyEviction env .aborted rid) ?_ fun _ _ _ => trivial
  rintro _ _ ⟨-, rfl⟩
  refine ⟨fun i r hr => ?_, fun r hr => Function.update_of_ne hr _ _⟩
  have hr : (if i ∈ (e.requestToSeqIds rid).getD [] then none
    else e.sequenceToRequestId i) = some r := hr
  split_ifs at hr with hi
  have hne : r ≠ rid := by
    intro h0
    subst h0
    obtain ⟨ids, hids, hmem⟩ := h.listed i r (by assumption)
    rw [hids] at hi
    exact hi hmem
  exact ⟨hr, Function.update_of_ne hne _ _, Function.update_of_ne hne _ _⟩

/-! ### The stream of one sequence -/

/-- The object is the same but for its status, and has not ended or been finished meanwhile. -/
structure SameEnd (d d' : SequenceData) : Prop where
  only : StatusOnly d d'
  finished : d'.status = .finished ↔ d.status = .finished
  live : d'.Live → d.Live

theorem SameEnd.outputs {d d' : SequenceData} (h : SameEnd d d') :
    d'.outputTokenIds = d.outputTokenIds := by
  rw [h.only.1]

theorem StreamOk.congr {env : Env ρ} {d d' : SequenceData} {outs : List RequestOutput}
    (h : StreamOk env d outs) (hs : SameEnd d d') : StreamOk env d' outs := by
  refine ⟨?_, fun h0 => h.ended (hs.finished.mp h0), fun h0 => h.going fun h1 =>
    h0 (hs.finished.mpr h1),
    ?_, h.eos⟩
  · rw [hs.only.1]; exact h.tokens
  · rw [hs.only.1]; exact h.count

theorem StreamOk.snoc {env : Env ρ} {d d' : SequenceData} {outs : List RequestOutput}
    {o : RequestOutput} (h : StreamOk env d outs) (hlive : d.Live)
    (hclean : ∀ t ∈ d.outputTokenIds, env.eosTokenId ≠ some t)
    (ht : d'.outputTokenIds = d.outputTokenIds ++ [o.tokenId])
    (hfin : d'.status = .finished ↔ o.finished = true) (hlim : Limited d') :
    StreamOk env d' (outs ++ [o]) := by
  have htokens : (outs ++ [o]).map (·.tokenId) = d'.outputTokenIds := by
    rw [List.map_append, h.tokens, ht]
    rfl
  have hgoing := h.going hlive.1
  refine ⟨htokens, fun h0 => ⟨outs, o, rfl, hfin.mp h0, hgoing⟩, fun h0 o' ho' => ?_, ?_,
    fun o' ho' => ?_⟩
  · rcases List.mem_append.mp ho' with ho' | ho'
    · exact hgoing o' ho'
    · rw [List.mem_singleton.mp ho']
      simpa using mt hfin.mpr h0
  · have hlen := congrArg List.length htokens
    rw [List.length_map] at hlen
    rw [hlen]
    exact hlim.bounded
  · rw [List.dropLast_concat] at ho'
    refine hclean _ ?_
    rw [← h.tokens]
    exact List.mem_map_of_mem ho'

theorem sameEnd_of_dead {d d' : SequenceData} (h : ¬ d.Live → d' = d) (hs : StatusOnly d d')
    (hl : d'.Live ↔ d.Live) : SameEnd d d' := by
  refine ⟨hs, ?_, hl.mp⟩
  by_cases hlive : d.Live
  · exact ⟨fun h0 => absurd h0 (hl.mpr hlive).1, fun h0 => absurd h0 hlive.1⟩
  · rw [h hlive]

theorem Event.live {k : ℕ} {l l' : Life β} (h : Event k l l') : l.data.Live := by
  cases h with
  | enter hok hst h =>
    constructor <;> rw [hst] <;> decide
  | preempt hok hst h => exact hst.hasTable.live

/-- `schedule` leaves the sequences alone that have ended. -/
theorem scheduled_dead {predict : Option (String → List ℕ → ℚ)} {s s' : Scheduler β}
    {out : SchedulerOutput} (h : Scheduled predict s out s') {i : ℕ} (hd : ¬ (s.store i).Live) :
    s'.store i = s.store i := by
  obtain ⟨l, hret, hev⟩ := h.lives i
  have hl : l = life s i := by
    rcases hret with rfl | ⟨hst, -⟩
    · rfl
    · refine absurd (HasTable.live (Or.inr (Or.inr ?_))) hd
      exact hst
  subst hl
  rcases Relation.ReflTransGen.cases_head hev with heq | ⟨l', hfirst, -⟩
  · exact congrArg Life.data heq.symm
  · exact absurd (Event.live hfirst) hd

theorem sameEnd_cancelled {s s' : Scheduler β} {i : ℕ}
    (h : life s' i = life s i ∨ Ended .cancelled (life s i) (life s' i)) :
    SameEnd (s.store i) (s'.store i) := by
  refine ⟨statusOnly_cancelled h, ?_, ?_⟩ <;> rcases h with h | h
  · rw [show s'.store i = s.store i from congrArg Life.data h]
  · have hst : (s'.store i).status = finalStatus .cancelled (s.store i) :=
      congrArg (fun l : Life β => l.data.status) h
    rw [hst]
    unfold finalStatus
    split_ifs with hlive
    · exact ⟨fun h0 => absurd h0 (by decide), fun h0 => absurd h0 hlive.1⟩
    · exact Iff.rfl
  · rw [show s'.store i = s.store i from congrArg Life.data h]
    exact fun h0 => h0
  · have hst : (s'.store i).status = finalStatus .cancelled (s.store i) :=
      congrArg (fun l : Life β => l.data.status) h
    intro hl
    by_contra hdead
    refine hdead ?_
    unfold SequenceData.Live at hl
    rw [hst, finalStatus, if_neg hdead] at hl
    exact hl

/-! ### The invariant -/

/-- The engine and the outputs so far. -/
structure Streaming (env : Env ρ) (e : ContinuousBatchingEngine β) (log : List RequestOutput) :
    Prop where
  bounded : Bounded e
  mirrored : Mirrored e
  fresh : ∀ i, e.nextSeqId ≤ i → (e.scheduler.store i).outputTokenIds = []
  stream : ∀ i, StreamOk env (e.scheduler.store i) (outputsOf log i)
  clean : ∀ i, (e.scheduler.store i).Live → ∀ t ∈ (e.scheduler.store i).outputTokenIds,
    env.eosTokenId ≠ some t

theorem streamOk_nil {env : Env ρ} {d : SequenceData} (h : d.outputTokenIds = [])
    (hst : d.status ≠ .finished) : StreamOk env d [] :=
  ⟨h.symm, fun h0 => absurd h0 hst, fun _ _ ho => absurd ho List.not_mem_nil,
    le_trans (by decide) (le_max_left _ _), fun _ ho => absurd ho List.not_mem_nil⟩

theorem streaming_start (env : Env ρ) (cfg : SchedConfig) (kvCfg : KvConfig) (kv : ℕ → β) :
    Streaming env (start cfg kvCfg kv) [] := by
  refine ⟨bounded_start cfg kvCfg kv, ⟨fun i r h => ?_, fun i r h => ?_⟩, fun i _ => rfl,
    fun i => streamOk_nil rfl fun h0 => ?_, fun i _ t ht => ?_⟩
  · cases h
  · cases h
  · cases h0
  · exact absurd ht List.not_mem_nil

section

variable {env : Env ρ} {predict : Option (String → List ℕ → ℚ)} {e e' : ContinuousBatchingEngine β}
  {log outputs : List RequestOutput} {out : SchedulerOutput} {s₁ : Scheduler β}

theorem sameEnd_scheduled (hinv : Inv e.scheduler)
    (hran : (Scheduler.schedule predict).run e.scheduler = (s₁, .ok out))
    (hs : Scheduled predict e.scheduler out s₁) (i : ℕ) :
    SameEnd (e.scheduler.store i) (s₁.store i) :=
  sameEnd_of_dead (scheduled_dead hs) (statusOnly_scheduled hs i) ((keeps_of_ran hinv hran).live i)

theorem ne_eos_of_reason {d : SequenceData} {t : ℕ}
    (h : (getFinishReason env d t).isSome = false) : env.eosTokenId ≠ some t := by
  intro h0
  rw [getFinishReason, if_pos h0] at h
  cases h

/-- The sequences of a batch are registered, so that their ids have been given out. -/
theorem notMem_batch (hc : Consistent e) (hs : Scheduled predict e.scheduler out s₁) {i : ℕ}
    (hi : e.nextSeqId ≤ i) : i ∉ batchIds out := by
  intro hbatch
  have hreg := hs.inv.registered i ((batch_spec hs).2 i hbatch)
  rw [hs.sequenceMap] at hreg
  have := hc.used i hreg
  omega

/-- **A step that returned** extends the streams by its outputs. -/
theorem Streaming.stepped (h : Streaming env e log) (hm : Mirrored e')
    (hs : Stepped env predict e out s₁ outputs e') : Streaming env e' (log ++ outputs) := by
  have hb := h.bounded.stepped hs
  have hsame := sameEnd_scheduled h.bounded.consistent.inv hs.ran hs.scheduled
  refine ⟨hb, hm, fun i hi => ?_, fun i => ?_, fun i hlive => ?_⟩
  · rw [hs.maps.nextSeqId] at hi
    rcases hs.cases i with ⟨-, -, hl⟩ | ⟨o, -, -, -, hbatch, -, -, -⟩
    · rw [show e'.scheduler.store i = s₁.store i from congrArg Life.data hl, (hsame i).outputs]
      exact h.fresh i hi
    · exact absurd hbatch (notMem_batch h.bounded.consistent hs.scheduled hi)
  · have hstream := (h.stream i).congr (hsame i)
    rw [outputsOf_append]
    rcases hs.cases i with ⟨-, hnil, hl⟩ | ⟨o, -, -, hone, hbatch, ht, hrep, hadv⟩
    · rw [hnil, List.append_nil, show e'.scheduler.store i = s₁.store i from congrArg Life.data hl]
      exact hstream
    · have hlive := ((batch_spec hs.scheduled).2 i hbatch).live
      rw [hone]
      refine hstream.snoc hlive ?_ ht ?_ (hb.limited i)
      · rw [(hsame i).outputs]
        exact h.clean i ((hsame i).live hlive)
      · rw [hrep]
        exact finished_iff_reason hadv hlive ht
  · rcases hs.cases i with ⟨-, -, hl⟩ | ⟨o, -, -, -, hbatch, ht, -, hadv⟩
    · rw [show e'.scheduler.store i = s₁.store i from congrArg Life.data hl] at hlive ⊢
      rw [(hsame i).outputs]
      exact h.clean i ((hsame i).live hlive)
    · have hlive₁ := ((batch_spec hs.scheduled).2 i hbatch).live
      have hold := h.clean i ((hsame i).live hlive₁)
      have hreason : (getFinishReason env (e'.scheduler.store i) o.tokenId).isSome = false := by
        by_contra h0
        rw [Bool.not_eq_false] at h0
        exact hlive.1 ((finished_iff_reason hadv hlive₁ ht).mpr h0)
      intro t hmem
      rw [ht, (hsame i).outputs] at hmem
      rcases List.mem_append.mp hmem with hmem | hmem
      · exact hold t hmem
      · rw [List.mem_singleton.mp hmem]
        exact ne_eos_of_reason hreason

theorem Streaming.added (h : Streaming env e log) {prompt : List ℕ}
    {params : SamplingParams} {n : ℕ} (hb : Bounded e') (hm : Mirrored e')
    (hadd : Added prompt params n e e') :
    Streaming env e' log := by
  refine ⟨hb, hm, fun i hi => ?_, fun i => ?_, fun i hlive => ?_⟩
  · rw [hadd.nextSeqId] at hi
    rw [hadd.other i (by omega)]
    exact h.fresh i (by omega)
  · by_cases hi : e.nextSeqId ≤ i ∧ i < e.nextSeqId + n
    · have hnil : outputsOf log i = [] := by
        have htokens := (h.stream i).tokens
        rw [h.fresh i hi.1] at htokens
        exact List.map_eq_nil_iff.mp htokens
      rw [hnil, hadd.new i hi.1 hi.2]
      refine streamOk_nil rfl fun h0 => ?_
      cases h0
    · rw [hadd.other i hi]
      exact h.stream i
  · by_cases hi : e.nextSeqId ≤ i ∧ i < e.nextSeqId + n
    · rw [hadd.new i hi.1 hi.2]
      exact fun t ht => absurd ht List.not_mem_nil
    · rw [hadd.other i hi] at hlive ⊢
      exact h.clean i hlive

theorem Streaming.aborted (h : Streaming env e log) (hb : Bounded e')
    (hnext : e'.nextSeqId = e.nextSeqId)
    (hend : ∀ i, SameEnd (e.scheduler.store i) (e'.scheduler.store i))
    (hmaps : ∀ i r, e'.sequenceToRequestId i = some r → e.sequenceToRequestId i = some r ∧
      e'.requestToSeqIds r = e.requestToSeqIds r ∧ e'.requestOutputs r = e.requestOutputs r) :
    Streaming env e' log := by
  refine ⟨hb, ⟨fun i r hr => ?_, fun i r hr => ?_⟩, fun i hi => ?_,
    fun i => (h.stream i).congr (hend i), fun i hlive => ?_⟩
  · obtain ⟨hr', -, ho⟩ := hmaps i r hr
    rw [ho, (hend i).outputs]
    exact h.mirrored.outputs i r hr'
  · obtain ⟨hr', hl, -⟩ := hmaps i r hr
    rw [hl]
    exact h.mirrored.listed i r hr'
  · rw [hnext] at hi
    rw [(hend i).outputs]
    exact h.fresh i hi
  · rw [(hend i).outputs]
    exact h.clean i ((hend i).live hlive)

end

/-- **One operation** that returns keeps the invariant. -/
theorem Streaming.runOp {env : Env ρ} {e : ContinuousBatchingEngine β} {log : List RequestOutput}
    (h : Streaming env e log) {o : Op} (hok : OpReturns env e o) :
    Streaming env (runOp env e o) (log ++ opOutputs env e o) := by
  have hc := h.bounded.consistent
  cases o with
  | step predict =>
    have hwp := wp_and (wp_step_returned env predict hc) (h.mirrored.wp_step hc env predict)
    cases hrun : (step env predict).run e with
    | mk e' r =>
      have hstate : EngineStep.runOp env e (.step predict) = e' := congrArg Prod.fst hrun
      cases r with
      | error err =>
        have hok : ((step env predict).run e).2.isOk = true := hok
        rw [hrun] at hok
        cases hok
      | ok outputs =>
        obtain ⟨⟨out, s₁, hs⟩, hm⟩ := wp_ok hwp hrun
        rw [hstate, opOutputs, hrun]
        exact h.stepped hm hs
  | addRequest rid prompt params n onToken =>
    obtain ⟨-, ⟨-, hadd⟩, hnone, -, hseq, hids, hout⟩ := post_of_isOk
      (wp_and (EngineInv.wp_addRequest rid prompt params n onToken hc)
        (wp_addRequest_ledger rid prompt params n onToken e)) hok
    have hm := h.mirrored.added hadd (fun i => seqId_newSequences) hnone hseq hids hout
    have hb : Bounded (EngineStep.runOp env e (.addRequest rid prompt params n onToken)) :=
      h.bounded.added rid prompt params n onToken
    have hs := h.added hb hm hadd
    exact (List.append_nil log).symm ▸ hs
  | abortRequest rid =>
    obtain ⟨-, ⟨-, -, hnext, -, hlives⟩, hsame, -⟩ := post_of_isOk
      (wp_and (EngineInv.wp_abortRequest env rid hc) (wp_abortRequest_ledger env rid h.mirrored))
      hok
    have hb : Bounded (EngineStep.runOp env e (.abortRequest rid)) := h.bounded.aborted rid
    have hs := h.aborted hb hnext (fun i => sameEnd_cancelled (hlives i)) hsame
    exact (List.append_nil log).symm ▸ hs

theorem Streaming.exec {env : Env ρ} : ∀ (ops : List Op) {e : ContinuousBatchingEngine β}
    {log : List RequestOutput}, Streaming env e log →
    Along (EngineStep.runOp env) (OpReturns env) e ops →
    Streaming env (exec (EngineStep.runOp env) e ops) (log ++ emitted env e ops)
  | [], _, _, h, _ => by rw [emitted, List.append_nil]; exact h
  | o :: ops, e, log, h, hok => by
    rw [emitted, ← List.append_assoc]
    exact Streaming.exec ops (h.runOp hok.1) hok.2

/-! ### After an abort -/

/-- `abort_request` deregisters the sequences of the request. -/
theorem wp_abortRequest_gone (env : Env ρ) (rid : String) {e : ContinuousBatchingEngine β}
    (hc : Consistent e) :
    wp (abortRequest env rid)
      (fun _ e' => ((∀ i ∈ e'.scheduler.sequenceMap, i ∈ e.scheduler.sequenceMap) ∧
      ∀ i, e.sequenceToRequestId i = some rid → i ∉ e'.scheduler.sequenceMap) ∧
      e'.nextSeqId = e.nextSeqId) (fun _ _ => True) e := by
  simp only [abortRequest, popCallbacks, wp_bind, wp_current, wp_onScheduler, wp_update]
  refine wp_mono (ScheduleOps.wp_abortRequest rid hc.inv) ?_ fun _ _ _ => trivial
  rintro _ s' ⟨hinv, hshrink, hgone, -⟩
  have hreg : ∀ i, e.sequenceToRequestId i = some rid → i ∉ s'.sequenceMap := by
    intro i hi hmem
    obtain ⟨g, hg, hig⟩ := hshrink.grouped hc.grouped i hmem
    obtain ⟨-, howner, -⟩ := hc.owner g (hshrink.requestMap g hg) i hig
    rw [hi] at howner
    exact hgone g hg (Option.some.inj howner).symm
  simp only [wp_ite, wp_pure, wp_bind, wp_update]
  refine ⟨fun _ => ⟨⟨hshrink.sequenceMap, hreg⟩, trivial⟩, fun _ => ?_⟩
  refine wp_mono (wp_notifyEviction env .aborted rid) ?_ fun _ _ _ => trivial
  rintro _ _ ⟨-, rfl⟩
  exact ⟨⟨hshrink.sequenceMap, hreg⟩, rfl⟩

/-- The sequence was registered once and is no longer. -/
def Gone (e : ContinuousBatchingEngine β) (i : ℕ) : Prop :=
  i < e.nextSeqId ∧ i ∉ e.scheduler.sequenceMap

theorem Gone.runOp {env : Env ρ} {e : ContinuousBatchingEngine β} (hc : Consistent e) {i : ℕ}
    (h : Gone e i) {o : Op} (hok : OpReturns env e o) :
    Gone (EngineStep.runOp env e o) i ∧ outputsOf (opOutputs env e o) i = [] := by
  cases o with
  | step predict =>
    cases hrun : (step env predict).run e with
    | mk e' r =>
      have hstate : EngineStep.runOp env e (.step predict) = e' := congrArg Prod.fst hrun
      cases r with
      | error err =>
        have hok : ((step env predict).run e).2.isOk = true := hok
        rw [hrun] at hok
        cases hok
      | ok outputs =>
        obtain ⟨out, s₁, hs⟩ := wp_ok (wp_step_returned env predict hc) hrun
        rw [hstate, opOutputs, hrun]
        refine ⟨⟨?_, fun h0 => h.2 (hs.shrinks.sequenceMap i h0)⟩, outputsOf_of_notMem hs.ids ?_⟩
        · rw [hs.maps.nextSeqId]
          exact h.1
        · intro hi
          have hreg := hs.scheduled.inv.registered i ((batch_spec hs.scheduled).2 i hi)
          rw [hs.scheduled.sequenceMap] at hreg
          exact h.2 hreg
  | addRequest rid prompt params n onToken =>
    obtain ⟨-, ⟨-, hadd⟩, -, -, -, t, hreg, heq⟩ := post_of_isOk
      (wp_and (EngineInv.wp_addRequest rid prompt params n onToken hc)
        (Pending.wp_addRequest_registers rid prompt params n onToken hc.inv)) hok
    have hlt := h.1
    refine ⟨⟨?_, fun h0 => ?_⟩, rfl⟩
    · show i < ((addRequest rid prompt params n onToken).state e).nextSeqId
      rw [hadd.nextSeqId]
      omega
    · have h0 : i ∈ ((addRequest rid prompt params n onToken).state e).scheduler.sequenceMap := h0
      rw [heq] at h0
      have h0 : i ∈ t.sequenceMap := h0
      rw [hreg.sequenceMap, Finset.mem_union, List.mem_toFinset] at h0
      rcases h0 with h0 | h0
      · exact h.2 h0
      · have := (seqId_newSequences.mp h0).1
        omega
  | abortRequest rid =>
    obtain ⟨-, hsched, hnext⟩ := post_of_isOk (wp_abortRequest_gone env rid hc) hok
    refine ⟨⟨?_, fun h0 => h.2 (hsched.1 i h0)⟩, rfl⟩
    show i < ((abortRequest env rid).state e).nextSeqId
    rw [hnext]
    exact h.1

theorem Gone.emitted_nil {env : Env ρ} {i : ℕ} : ∀ (ops : List Op) {e : ContinuousBatchingEngine β},
    Consistent e → Gone e i → Along (EngineStep.runOp env) (OpReturns env) e ops →
    outputsOf (emitted env e ops) i = []
  | [], _, _, _, _ => rfl
  | o :: ops, e, hc, h, hok => by
    obtain ⟨hgone, hnil⟩ := h.runOp hc hok.1
    rw [emitted, outputsOf_append, hnil, List.nil_append]
    exact Gone.emitted_nil ops (consistent_runOp env hc o) hgone hok.2

/-! ### `get_request_n_outputs` -/

/-- A request keeps its list of sequences until it is aborted. -/
theorem listed_runOp {env : Env ρ} {e : ContinuousBatchingEngine β} (hc : Consistent e)
    (hm : Mirrored e) {rid : String} {ids : List ℕ} (h : e.requestToSeqIds rid = some ids) {o : Op}
    (hok : OpReturns env e o) (hne : o ≠ .abortRequest rid) :
    (runOp env e o).requestToSeqIds rid = some ids := by
  cases o with
  | step predict =>
    obtain ⟨outputs, out, s₁, hs⟩ := post_of_isOk (wp_step_returned env predict hc) hok
    rw [← h, ← hs.maps.requestToSeqIds]
    rfl
  | addRequest rid' prompt params n onToken =>
    obtain ⟨-, hnone, -, -, hids, -⟩ :=
      post_of_isOk (wp_addRequest_ledger rid' prompt params n onToken e) hok
    show ((addRequest rid' prompt params n onToken).state e).requestToSeqIds rid = some ids
    rw [hids, Function.update_of_ne, h]
    rintro rfl
    rw [h] at hnone
    cases hnone
  | abortRequest rid' =>
    obtain ⟨-, -, hother⟩ := post_of_isOk (wp_abortRequest_ledger env rid' hm) hok
    rw [← h]
    refine hother rid ?_
    rintro rfl
    exact hne rfl

theorem listed_exec {env : Env ρ} {rid : String} {ids : List ℕ} : ∀ (ops : List Op)
    {e : ContinuousBatchingEngine β} {log : List RequestOutput}, Streaming env e log →
    e.requestToSeqIds rid = some ids → Along (runOp env) (OpReturns env) e ops →
    .abortRequest rid ∉ ops → (exec (runOp env) e ops).requestToSeqIds rid = some ids
  | [], _, _, _, hl, _, _ => hl
  | o :: ops, e, log, h, hl, hok, hno => by
    rw [List.mem_cons, not_or] at hno
    exact listed_exec ops (h.runOp hok.1) (listed_runOp h.bounded.consistent h.mirrored hl hok.1
      fun h0 => hno.1 h0.symm) hok.2 hno.2

/-- The lists that `get_request_n_outputs` returns are the outputs of the sequences. -/
theorem getRequestNOutputs_eq {e : ContinuousBatchingEngine β} (hc : Consistent e) (hm : Mirrored e)
    {rid : String} {ids : List ℕ} (h : e.requestToSeqIds rid = some ids) (hne : ids ≠ []) :
    e.getRequestNOutputs rid = .ok (ids.map fun i => (e.scheduler.store i).outputTokenIds) := by
  have howner := hc.lists rid ids h
  obtain ⟨i₀, hi₀⟩ := List.exists_mem_of_ne_nil ids hne
  obtain ⟨outs, hout, -⟩ := hm.outputs i₀ rid (howner i₀ hi₀)
  unfold getRequestNOutputs
  rw [hout, h]
  refine mapM_ok fun i hi => ?_
  obtain ⟨outs', hout', heq⟩ := hm.outputs i rid (howner i hi)
  obtain rfl : outs = outs' := Option.some.inj (hout.symm.trans hout')
  rw [heq]

/-! ### Whole runs -/

/-- The streams of a run of the engine from the state `e`. -/
structure StreamsOk (env : Env ρ) (e : ContinuousBatchingEngine β) (ops : List Op) : Prop where
  stream : ∀ i, StreamOk env ((exec (runOp env) e ops).scheduler.store i)
    (outputsOf (emitted env e ops) i)
  aborted : ∀ ops₁ rid ops₂, ops = ops₁ ++ .abortRequest rid :: ops₂ →
    ∀ ids, (exec (runOp env) e ops₁).requestToSeqIds rid = some ids → ∀ i ∈ ids,
      outputsOf (emitted env (exec (runOp env) e (ops₁ ++ [.abortRequest rid])) ops₂) i = []
  results : ∀ ops₁ rid prompt params n onToken ops₂,
    ops = ops₁ ++ .addRequest rid prompt params n onToken :: ops₂ → .abortRequest rid ∉ ops₂ →
      (exec (runOp env) e ops).getRequestNOutputs rid = .ok ((List.range n).map fun k =>
        (outputsOf (emitted env e ops) ((exec (runOp env) e ops₁).nextSeqId + k)).map (·.tokenId))

/-- **The streams of every run** in which no call raises. -/
theorem streams_of_returns (env : Env ρ) (cfg : SchedConfig) (kvCfg : KvConfig) (kv : ℕ → β)
    (ops : List Op) (h : Along (runOp env) (OpReturns env) (start cfg kvCfg kv) ops) :
    StreamsOk env (start cfg kvCfg kv) ops := by
  have hstart := streaming_start (β := β) env cfg kvCfg kv
  have hall := hstart.exec ops h
  rw [List.nil_append] at hall
  refine ⟨hall.stream, ?_, ?_⟩
  · rintro ops₁ rid ops₂ rfl ids hids i hi
    obtain ⟨h₁, hab, h₂⟩ := along_append.mp h
    have hmid := hstart.exec ops₁ h₁
    have hc := hmid.bounded.consistent
    have howner := hc.lists rid ids hids i hi
    obtain ⟨-, ⟨-, hgone⟩, hnext⟩ := post_of_isOk (wp_abortRequest_gone env rid hc) hab
    have hlt := hc.bound i rid howner
    rw [exec_append]
    refine Gone.emitted_nil ops₂ (consistent_runOp env hc (.abortRequest rid))
      ⟨?_, hgone i howner⟩ h₂
    show i < ((abortRequest env rid).state _).nextSeqId
    rw [hnext]
    exact hlt
  · rintro ops₁ rid prompt params n onToken ops₂ rfl hno
    obtain ⟨h₁, hadd, h₂⟩ := along_append.mp h
    have hmid := hstart.exec ops₁ h₁
    obtain ⟨-, -, hn, -, hids, -⟩ :=
      post_of_isOk (wp_addRequest_ledger rid prompt params n onToken _) hadd
    have hl := congrFun hids rid
    rw [Function.update_self] at hl
    have hlisted := listed_exec ops₂ (hmid.runOp hadd) hl h₂ hno
    rw [← exec_cons, ← exec_append] at hlisted
    rw [getRequestNOutputs_eq hall.bounded.consistent hall.mirrored hlisted ?_]
    · simp only [newSequences, List.map_map]
      refine congrArg _ (List.map_congr_left fun k _ => ?_)
      exact ((hall.stream _).tokens).symm
    · exact fun h0 => Pending.newSequences_ne_nil _ hn prompt params (List.map_eq_nil_iff.mp h0)

/-- Two requests that run together; one finishes, the other is aborted and its id used again. -/
def reusedId : List Op :=
  runTogether none ++
    [.step none, .abortRequest "b", .addRequest "b" [7] { temperature := 0 } 2 none, .step none]

theorem streams_reusedId :
    Along (runOp Selection.repeatLast) (OpReturns Selection.repeatLast)
        (Selection.engineWith 4 (by decide)) reusedId ∧
      StreamsOk Selection.repeatLast (Selection.engineWith 4 (by decide)) reusedId ∧
      (emitted Selection.repeatLast (Selection.engineWith 4 (by decide)) reusedId).map
        (fun o => (o.seqId, o.tokenId, o.finished)) = [(0, 3, false), (1, 6, false), (0, 3, true),
          (1, 6, false), (2, 7, false), (3, 7, false)] :=
  ⟨by decide, streams_of_returns _ _ _ _ _ (by decide), by decide⟩

end MoeInfinity.Serving.Streams
