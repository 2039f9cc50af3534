import MoeInfinity.Lib.Backtrack
import MoeInfinity.Serving.Streams

/-! # Stop strings

`_get_finish_reason` looks for the stop strings at the end of the decoded outputs only. A stop
string that ends inside the text of a token is missed, and the sequence goes on with the stop string
in its text (`stop_inside_token`). In runs in which no stop string does so, and in which the blocks
suffice when a stop string has appeared, generation ends at the first token with which it has
(`stops_in_time`). -/

namespace MoeInfinity.Serving.StopStrings

open MoeInfinity.Python MoeInfinity.Lib.Imperative MoeInfinity.Lib.Runs MoeInfinity.Lib.Backtrack
open MoeInfinity.Serving.Sequence MoeInfinity.Serving.KvCache MoeInfinity.Serving.KvCacheSpec
open MoeInfinity.Serving.Schedule MoeInfinity.Serving.Lifecycle MoeInfinity.Serving.ScheduleSpec
open MoeInfinity.Serving.ScheduleInv MoeInfinity.Serving.ModelRunner MoeInfinity.Serving.Engine
open MoeInfinity.Serving.Engine.ContinuousBatchingEngine MoeInfinity.Serving.EngineInv
open MoeInfinity.Serving.EngineStep MoeInfinity.Serving.Selection MoeInfinity.Serving.Delivery
open MoeInfinity.Serving.Streams

variable {β ρ : Type}

/-! ### Texts -/

/-- The text of the tokens, one after the other. -/
def textOf (text : ℕ → String) (tokens : List ℕ) : List Char :=
  tokens.flatMap fun t => (text t).toList

theorem textOf_concat (text : ℕ → String) (tokens : List ℕ) (t : ℕ) :
    textOf text (tokens ++ [t]) = textOf text tokens ++ (text t).toList := by
  simp [textOf]

/-- `decode` of the tokenizer joins the texts of the tokens. -/
def Joins (text : ℕ → String) (env : Env ρ) : Prop :=
  ∀ ids, env.decodeTokens ids = some (String.join (ids.map text))

/-- No stop string occurs in the text of the tokens. -/
def StopFree (text : ℕ → String) (stops : List String) (tokens : List ℕ) : Prop :=
  ∀ stop ∈ stops, stop ≠ "" → ¬ stop.toList <:+: textOf text tokens

theorem stopFree_nil (text : ℕ → String) (stops : List String) : StopFree text stops [] := by
  intro stop _ hne h
  have hnil : stop.toList = [] := List.infix_nil.mp h
  exact hne (String.toList_eq_nil_iff.mp hnil)

/-- No stop string occurs in the text of an unfinished sequence, nor in the text of a sequence
before its last token. -/
structure StopsInTime (text : ℕ → String) (d : SequenceData) : Prop where
  going : d.Live → StopFree text d.samplingParams.stop d.outputTokenIds
  before : StopFree text d.samplingParams.stop d.outputTokenIds.dropLast

theorem stopsInTime_of_nil (text : ℕ → String) {d : SequenceData} (h : d.outputTokenIds = []) :
    StopsInTime text d := by
  constructor
  · rw [h]
    exact fun _ => stopFree_nil text _
  · rw [h]
    exact stopFree_nil text _

theorem StopsInTime.congr {text : ℕ → String} {d d' : SequenceData} (h : StopsInTime text d)
    (hs : SameEnd d d') : StopsInTime text d' := by
  have hstop : d'.samplingParams = d.samplingParams := by rw [hs.only.1]
  constructor
  · rw [hstop, hs.outputs]
    exact fun hl => h.going (hs.live hl)
  · rw [hstop, hs.outputs]
    exact h.before

/-! ### The condition -/

/-- The token ends the generation of the sequence, or no stop string ends inside its text. -/
def EndsAtToken (text : ℕ → String) (env : Env ρ) (d : SequenceData) (t : ℕ) : Prop :=
  env.eosTokenId = some t ∨ d.samplingParams.maxTokens ≤ d.outputTokenIds.length + 1 ∨
    (∃ stop ∈ d.samplingParams.stop, stop.toList <:+ textOf text (d.outputTokenIds ++ [t])) ∨
    ∀ stop ∈ d.samplingParams.stop, ∀ u ∈ (text t).toList.inits, u ≠ [] →
      ¬ stop.toList <:+ textOf text d.outputTokenIds ++ u

instance (text : ℕ → String) (env : Env ρ) (d : SequenceData) (t : ℕ) :
    Decidable (EndsAtToken text env d t) :=
  inferInstanceAs (Decidable (_ ∨ _ ∨ (∃ stop ∈ _, _) ∨ ∀ stop ∈ _, ∀ u ∈ _, _ → _))

/-- The tokens that the model and the sampler give for a batch. -/
def sampleBatch (env : Env ρ) (calls : List Call) (b : Batch.BatchMetadata) :
    Except PyError (List ℕ) := do
  let logits ← (executeBatch env calls b).2
  let last ← extractLastTokenLogits b.rows logits
  sample env (executeBatch env calls b).1 last b.samplingParams

theorem sampleBatch_eq {env : Env ρ} {calls calls' : List Call} {b : Batch.BatchMetadata}
    {tokens : List ℕ} (h : Sampled env calls b calls' tokens) :
    sampleBatch env calls b = .ok tokens := by
  obtain ⟨logits, last, hexec, hlast, htokens⟩ := h
  rw [sampleBatch, hexec]
  change (do
    let last ← extractLastTokenLogits b.rows logits; sample env calls' last b.samplingParams) = _
  rw [hlast]
  exact htokens

/-- `P` holds of every token that a step samples, and of the sequence before it. -/
def EachToken (P : SequenceData → ℕ → Prop) (env : Env ρ) (predict : Option (String → List ℕ → ℚ))
    (e : ContinuousBatchingEngine β) : Prop :=
  match (Scheduler.schedule predict).run e.scheduler with
  | (_, .error _) => True
  | (s₁, .ok out) =>
    match sampleBatch env e.calls (batchOf s₁ out) with
    | .error _ => True
    | .ok tokens => ∀ p ∈ (batchIds out).zip tokens, P (s₁.store p.1) p.2

instance (P : SequenceData → ℕ → Prop) [∀ d t, Decidable (P d t)] (env : Env ρ)
    (predict : Option (String → List ℕ → ℚ)) (e : ContinuousBatchingEngine β) :
    Decidable (EachToken P env predict e) := by
  unfold EachToken
  split
  · infer_instance
  · split <;> infer_instance

theorem EachToken.apply {P : SequenceData → ℕ → Prop} {env : Env ρ}
    {predict : Option (String → List ℕ → ℚ)} {e : ContinuousBatchingEngine β} {s₁ : Scheduler β}
    {out : SchedulerOutput} {calls' : List Call} {tokens : List ℕ} (h : EachToken P env predict e)
    (hran : (Scheduler.schedule predict).run e.scheduler = (s₁, .ok out))
    (hsampled : Sampled env e.calls (batchOf s₁ out) calls' tokens) {i t : ℕ}
    (hzip : (i, t) ∈ (batchIds out).zip tokens) : P (s₁.store i) t := by
  unfold EachToken at h
  rw [hran] at h
  simp only [sampleBatch_eq hsampled] at h
  exact h _ hzip

/-- No stop string is in the text with the token. -/
def StaysFree (text : ℕ → String) (d : SequenceData) (t : ℕ) : Prop :=
  StopFree text d.samplingParams.stop (d.outputTokenIds ++ [t])

instance (text : ℕ → String) (d : SequenceData) (t : ℕ) : Decidable (StaysFree text d t) :=
  inferInstanceAs (Decidable (∀ stop ∈ _, _ → ¬ _ <:+: _))

/-- The condition on a call, in the state before it: no stop string ends inside a token that does
not end its sequence anyway, and the blocks suffice for the sequences that go on; or no stop string
appears at all. -/
def StopsAtToken (text : ℕ → String) (env : Env ρ) (e : ContinuousBatchingEngine β) : Op → Prop
  | .step predict => (GrowthFits env predict e ∧ EachToken (EndsAtToken text env) env predict e) ∨
      EachToken (StaysFree text) env predict e
  | _ => True

instance (text : ℕ → String) (env : Env ρ) (e : ContinuousBatchingEngine β) :
    ∀ o : Op, Decidable (StopsAtToken text env e o)
  | .step predict => inferInstanceAs (Decidable ((GrowthFits env predict e ∧
      EachToken (EndsAtToken text env) env predict e) ∨ EachToken (StaysFree text) env predict e))
  | .addRequest _ _ _ _ _ => isTrue trivial
  | .abortRequest _ => isTrue trivial

/-! ### One token -/

section

variable {text : ℕ → String} {env : Env ρ} {d d' : SequenceData} {t : ℕ}

/-- Generation goes on with a token only if it is no reason to end it. -/
theorem not_suffix_of_reason (hjoins : Joins text env)
    (hreason : (getFinishReason env d t).isSome = false) :
    env.eosTokenId ≠ some t ∧ ¬ d.samplingParams.maxTokens ≤ d.outputTokenIds.length ∧
      ∀ stop ∈ d.samplingParams.stop, ¬ stop.toList <:+ textOf text d.outputTokenIds := by
  have hdecode : ∀ stop : String, (String.join (d.outputTokenIds.map text)).endsWith stop = true ↔
      stop.toList <:+ textOf text d.outputTokenIds := by
    intro stop
    change (String.join (d.outputTokenIds.map text)).toSlice.endsWith stop = true ↔ _
    rw [String.Slice.endsWith_string_iff, String.copy_toSlice, String.toList_join, List.flatMap_map]
    rfl
  have heos := ne_eos_of_reason hreason
  have hlen : ¬ d.samplingParams.maxTokens ≤ d.outputTokenIds.length := by
    intro h0
    rw [getFinishReason, if_neg heos, if_pos h0] at hreason
    cases hreason
  refine ⟨heos, hlen, fun stop hstop h => ?_⟩
  have hne : d.samplingParams.stop ≠ [] := List.ne_nil_of_mem hstop
  have hany :
      (d.samplingParams.stop.any fun stop =>
        (String.join (d.outputTokenIds.map text)).endsWith stop) = true :=
    List.any_eq_true.mpr ⟨stop, hstop, (hdecode stop).mpr h⟩
  rw [getFinishReason, if_neg heos, if_neg hlen, if_neg hne, hjoins] at hreason
  simp only [hany, if_true] at hreason
  cases hreason

/-- **One token more**: the text stays free of stop strings while generation goes on. -/
theorem StopFree.snoc (hjoins : Joins text env)
    (hfree : StopFree text d.samplingParams.stop d.outputTokenIds)
    (hends : EndsAtToken text env d t) (hparams : d'.samplingParams = d.samplingParams)
    (houts : d'.outputTokenIds = d.outputTokenIds ++ [t])
    (hreason : (getFinishReason env d' t).isSome = false) :
    StopFree text d'.samplingParams.stop d'.outputTokenIds := by
  obtain ⟨heos, hlen, hsuffix⟩ := not_suffix_of_reason hjoins hreason
  rw [hparams, houts] at hlen hsuffix ⊢
  rw [List.length_append, List.length_singleton] at hlen
  intro stop hstop hne hin
  rw [textOf_concat, infix_append_iff] at hin
  rcases hin with hin | ⟨u, hu, hpre, hend⟩
  · exact hfree stop hstop hne hin
  · rcases hends with h0 | h0 | ⟨stop', hstop', h0⟩ | h0
    · exact heos h0
    · exact hlen (by exact_mod_cast h0)
    · exact hsuffix stop' hstop' h0
    · exact h0 stop hstop u ((List.mem_inits u _).mpr hpre) hu hend

end

/-! ### Runs -/

/-- All sequences stop in time, and those to come have no outputs. -/
structure Timely (text : ℕ → String) (e : ContinuousBatchingEngine β) : Prop where
  consistent : Consistent e
  fresh : ∀ i, e.nextSeqId ≤ i → (e.scheduler.store i).outputTokenIds = []
  stops : ∀ i, StopsInTime text (e.scheduler.store i)

theorem timely_start (text : ℕ → String) (cfg : SchedConfig) (kvCfg : KvConfig) (kv : ℕ → β) :
    Timely text (start cfg kvCfg kv) :=
  ⟨consistent_new cfg kvCfg kv, fun _ _ => rfl, fun _ => stopsInTime_of_nil text rfl⟩

section

variable {text : ℕ → String} {env : Env ρ} {predict : Option (String → List ℕ → ℚ)}
  {e e' : ContinuousBatchingEngine β} {out : SchedulerOutput} {s₁ : Scheduler β}
    {outputs : List RequestOutput}

/-- A call that leaves every object as it is but for its status. -/
theorem Timely.congr (h : Timely text e) (hc : Consistent e') (hnext : e'.nextSeqId = e.nextSeqId)
    (hsame : ∀ i, SameEnd (e.scheduler.store i) (e'.scheduler.store i)) : Timely text e' := by
  refine ⟨hc, fun i hi => ?_, fun i => (h.stops i).congr (hsame i)⟩
  rw [hnext] at hi
  rw [(hsame i).outputs]
  exact h.fresh i hi

theorem samplingParams_advanced {k : ℕ} {l l' : Life β} (h : Progress.Advanced env k l l') :
    l'.data.samplingParams = l.data.samplingParams := by
  cases h with
  | ended t hr => rfl
  | grown t _ hr hg =>
    obtain ⟨n, new, -, -, rfl⟩ := hg
    rfl
  | parked t hr hst => rfl

/-- **A step that returned.** -/
theorem Timely.stepped (h : Timely text e) (hjoins : Joins text env)
    (hs : Stepped env predict e out s₁ outputs e')
    (hends : EachToken (EndsAtToken text env) env predict e) :
    Timely text e' := by
  have hsame := sameEnd_scheduled h.consistent.inv hs.ran hs.scheduled
  refine ⟨hs.consistent, fun i hi => ?_, fun i => ?_⟩
  · rw [hs.maps.nextSeqId] at hi
    rcases hs.cases i with ⟨-, -, hl⟩ | ⟨o, -, -, -, hbatch, -, -, -⟩
    · rw [show e'.scheduler.store i = s₁.store i from congrArg Life.data hl, (hsame i).outputs]
      exact h.fresh i hi
    · exact absurd hbatch (notMem_batch h.consistent hs.scheduled hi)
  · rcases hs.cases i with ⟨-, -, hl⟩ | ⟨o, -, -, -, hbatch, ht, -, hadv⟩
    · rw [show e'.scheduler.store i = s₁.store i from congrArg Life.data hl]
      exact (h.stops i).congr (hsame i)
    · have hlive := ((batch_spec hs.scheduled).2 i hbatch).live
      have hfree := ((h.stops i).congr (hsame i)).going hlive
      have hparams : (e'.scheduler.store i).samplingParams = (s₁.store i).samplingParams :=
        samplingParams_advanced hadv
      refine ⟨fun hlive' => ?_, ?_⟩
      · have hreason : (getFinishReason env (e'.scheduler.store i) o.tokenId).isSome = false := by
          by_contra h0
          rw [Bool.not_eq_false] at h0
          exact hlive'.1 ((finished_iff_reason hadv hlive ht).mpr h0)
        obtain ⟨tokens, t, hsampled, hzip, ht'⟩ := hs.tokens i hbatch
        obtain rfl : t = o.tokenId :=
          List.singleton_inj.mp (List.append_cancel_left (ht'.symm.trans ht))
        exact hfree.snoc hjoins (hends.apply hs.ran hsampled hzip) hparams ht hreason
      · rw [ht, List.dropLast_concat, hparams]
        exact hfree

/-- `update_after_step` leaves the sequences alone that are not handed to it, also when it
raises. -/
theorem store_updateAfterStep {completed newDecode : List ℕ} {s : Scheduler β} (h : Inv s) {i : ℕ}
    (hc : i ∉ completed) (hd : i ∉ newDecode) :
    ((Scheduler.updateAfterStep completed newDecode).state s).store i = s.store i := by
  have hc' : i ∉ fromkeys completed := mt mem_fromkeys.mp hc
  have hd' : i ∉ fromkeys newDecode := mt mem_fromkeys.mp hd
  refine inv_of_wp (I := fun s' => s'.store i = s.store i)
    (wp_mono (ScheduleOps.wp_updateAfterStep completed newDecode h) ?_ ?_)
  · rintro _ s' ⟨s₁, s₂, hE, hE₂, rfl⟩
    exact congrArg Life.data
      ((ScheduleOps.life_prune s₂ i).trans ((hE₂.other i hc').trans (hE.other i hd')))
  · rintro _ s' (⟨-, hE⟩ | ⟨s₁, hE, -, hE₂⟩)
    · exact congrArg Life.data (hE.other i hd')
    · exact congrArg Life.data ((hE₂.other i hc').trans (hE.other i hd'))

/-- **A step without stop strings**, whether it returned or raised. -/
theorem Timely.free (h : Timely text e) (hfree : EachToken (StaysFree text) env predict e) :
    Timely text (runOp env e (.step predict)) := by
  rcases step_cases env predict h.consistent
    with ⟨out, hhalt⟩ | ⟨out, s₁, tokens, outputs, e₁, hacc, hclose, hupdate⟩
  · exact h.congr hhalt.consistent hhalt.maps.nextSeqId
      (sameEnd_scheduled h.consistent.inv hhalt.ran hhalt.scheduled)
  · have hsame := sameEnd_scheduled h.consistent.inv hacc.ran hacc.scheduled
    have hnext := hclose.maps.nextSeqId.trans hacc.maps.nextSeqId
    refine ⟨hclose.consistent, fun i hi => ?_, fun i => ?_⟩
    · rw [hnext] at hi
      have hout := notMem_batch h.consistent hacc.scheduled hi
      rw [(hclose.store i).1, show e₁.scheduler.store i = s₁.store i from
        congrArg Life.data (hacc.lives.other i hout), ← h.fresh i hi]
      exact (hsame i).outputs
    · by_cases hbatch : i ∈ batchIds out
      · obtain ⟨t, hzip, hl⟩ := hacc.lives.each i hbatch
        have hold :=
          ((h.stops i).congr (hsame i)).going ((batch_spec hacc.scheduled).2 i hbatch).live
        have hnew := hfree.apply hacc.ran hacc.sampled hzip
        have hdata : e₁.scheduler.store i = ((life s₁ i).appended t).data := congrArg Life.data hl
        have hstop : ((runOp env e (.step predict)).scheduler.store i).samplingParams =
            (s₁.store i).samplingParams := by
          rw [(hclose.store i).1, hdata]
          rfl
        have houts : ((runOp env e (.step predict)).scheduler.store i).outputTokenIds =
            (s₁.store i).outputTokenIds ++ [t] := by
          rw [(hclose.store i).1, hdata]
          rfl
        constructor
        · rw [hstop, houts]
          exact fun _ => hnew
        · rw [hstop, houts, List.dropLast_concat]
          exact hold
      · have hother : e₁.scheduler.store i = s₁.store i :=
          congrArg Life.data (hacc.lives.other i hbatch)
        have hids := mt (mem_batch_iff hacc.outputs i).mpr hbatch
        rw [not_or] at hids
        rw [hupdate, store_updateAfterStep hacc.consistent.inv hids.1 hids.2, hother]
        exact (h.stops i).congr (hsame i)

theorem Timely.runOp (h : Timely text e) (hjoins : Joins text env) {o : Op}
    (hcond : StopsAtToken text env e o) :
    Timely text (runOp env e o) := by
  have hc := h.consistent
  cases o with
  | step predict =>
    rcases hcond with ⟨hfits, hends⟩ | hfree
    swap
    · exact h.free hfree
    have hwp := wp_step_stepped env predict hc
    cases hrun : (step env predict).run e with
    | mk e' r =>
      have hstate : EngineStep.runOp env e (.step predict) = e' := congrArg Prod.fst hrun
      rw [hstate]
      cases r with
      | ok outputs =>
        obtain ⟨⟨out, s₁, hs⟩, -⟩ := wp_ok hwp hrun
        exact h.stepped hjoins hs hends
      | error err =>
        cases wp_error hwp hrun with
        | halted out hhalt _ _ =>
          exact h.congr hhalt.consistent hhalt.maps.nextSeqId
            (sameEnd_scheduled hc.inv hhalt.ran hhalt.scheduled)
        | crowded hno => exact absurd hfits hno
        | cutShort out s₁ outputs passed hs _ _ => exact h.stepped hjoins hs hends
  | addRequest rid prompt params n onToken =>
    rcases add_cases rid prompt params n onToken hc env with h0 | ⟨hc', hadd⟩
    · rw [h0]
      exact h
    · refine ⟨hc', fun i hi => ?_, fun i => ?_⟩
      · rw [hadd.nextSeqId] at hi
        rw [hadd.other i (by omega)]
        exact h.fresh i (by omega)
      · by_cases hi : e.nextSeqId ≤ i ∧ i < e.nextSeqId + n
        · rw [hadd.new i hi.1 hi.2]
          exact stopsInTime_of_nil text rfl
        · rw [hadd.other i hi]
          exact h.stops i
  | abortRequest rid =>
    obtain ⟨hc', -, hnext, -, hlives⟩ := abort_cases rid hc env
    exact h.congr hc' hnext fun i => sameEnd_cancelled (hlives i)

end

/-- **Generation ends in time** in every run whose calls meet the condition: no stop string is in
the text of an unfinished sequence, nor in the text before the last token. -/
theorem stops_in_time (text : ℕ → String) (env : Env ρ) (hjoins : Joins text env)
    (cfg : SchedConfig) (kvCfg : KvConfig) (kv : ℕ → β) (ops : List Op)
    (h : Along (runOp env) (StopsAtToken text env) (start cfg kvCfg kv) ops) (i : ℕ) :
    StopsInTime text ((exec (runOp env) (start cfg kvCfg kv) ops).scheduler.store i) :=
  (inv_exec (I := Timely text) (fun _ _ h0 hcond => h0.runOp hjoins hcond) ops _
    (timely_start text cfg kvCfg kv) h).stops i

/-- Every sequence repeats its last token, whose text is `word`. -/
def repeatWord (word : String) : Env ℕ :=
  { repeatLast with decodeTokens := fun ids => some (String.join (ids.map fun _ => word)) }

theorem joins_repeatWord (word : String) : Joins (fun _ => word) (repeatWord word) := fun _ => rfl

/-- A request with a stop string, and three steps. -/
def stopRequest (stop : String) : List Op :=
  [.addRequest "a" [3] { temperature := 0, stop := [stop] } 1 none, .step none,
    .step none, .step none]

/-- A stop string over two tokens. -/
theorem stops_in_time_twoTokens :
    Along (runOp (repeatWord "ab")) (StopsAtToken (fun _ => "ab") (repeatWord "ab"))
        (engineWith 4 (by decide)) (stopRequest "bab") ∧
      StopsInTime (fun _ => "ab") ((exec (runOp (repeatWord "ab")) (engineWith 4 (by decide))
        (stopRequest "bab")).scheduler.store 0) ∧
      ((exec (runOp (repeatWord "ab")) (engineWith 4 (by decide))
        (stopRequest "bab")).scheduler.store 0).outputTokenIds = [3, 3] :=
  ⟨by decide +kernel, stops_in_time _ _ (joins_repeatWord "ab") _ _ _ _ (by
    decide +kernel) 0, by decide +kernel⟩

/-- **A stop string inside a token is missed**: the text is `ab`, the sequence goes on. -/
theorem stop_inside_token : ¬ ∀ (text : ℕ → String) (env : Env ℕ), Joins text env →
    ∀ (cfg : SchedConfig) (kvCfg : KvConfig) (kv : ℕ → ℕ) (ops : List Op) (i : ℕ),
      StopsInTime text ((exec (runOp env) (start cfg kvCfg kv) ops).scheduler.store i) := by
  intro h
  have hstops :=
    h (fun _ => "ab") (repeatWord "ab") (joins_repeatWord "ab") ⟨8, 64, by decide, by decide⟩
      ⟨4, 4, by decide, by decide⟩ (fun b => b) ((stopRequest "a").take 2) 0
  have hlive :
      ((exec (runOp (repeatWord "ab")) (engineWith 4 (by decide))
        ((stopRequest "a").take 2)).scheduler.store 0).Live := by decide +kernel
  have hstop :
      ((exec (runOp (repeatWord "ab")) (engineWith 4 (by decide))
        ((stopRequest "a").take 2)).scheduler.store 0).samplingParams.stop = ["a"] := by
          decide +kernel
  have houts :
      ((exec (runOp (repeatWord "ab")) (engineWith 4 (by decide))
        ((stopRequest "a").take 2)).scheduler.store 0).outputTokenIds = [3] := by decide +kernel
  have hfree := hstops.going hlive
  unfold engineWith at hstop houts
  rw [hstop, houts] at hfree
  exact hfree "a" List.mem_cons_self (by decide) ⟨[], ['b'], rfl⟩

end MoeInfinity.Serving.StopStrings
