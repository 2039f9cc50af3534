import MoeInfinity.Lib.Runs
import MoeInfinity.Serving.EngineInv

/-! # One step of the engine, and runs

A step schedules, builds the batch of the scheduled sequences, calls the model, accepts one token
per sequence, updates the scheduler and calls the callbacks. `wp_step` says what has happened when a
step returns or raises: either it ended before a token was accepted (`Halted`), or every sequence of
the batch has got its token (`Accepted`) and `update_after_step` ran. Apart from the tokens, a step
changes only the statuses of the sequence objects (`StatusOnly`). -/

namespace MoeInfinity.Serving.EngineStep

open MoeInfinity.Python MoeInfinity.Lib.Imperative MoeInfinity.Lib.Runs
open MoeInfinity.Serving.Sequence MoeInfinity.Serving.KvCache MoeInfinity.Serving.KvCacheSpec
open MoeInfinity.Serving.Schedule MoeInfinity.Serving.Lifecycle MoeInfinity.Serving.ScheduleSpec
open MoeInfinity.Serving.ScheduleInv MoeInfinity.Serving.ScheduleCall
  MoeInfinity.Serving.ScheduleOps
open MoeInfinity.Serving.Batch MoeInfinity.Serving.ModelRunner MoeInfinity.Serving.Engine
open MoeInfinity.Serving.Engine.ContinuousBatchingEngine MoeInfinity.Serving.EngineInv
open MoeInfinity.Serving.Callbacks

variable {β ρ : Type}

/-! ### Changes of the status only -/

/-- Only the status of an object may have changed, and no object has gone back to `WAITING`. -/
def StatusOnly (d d' : SequenceData) : Prop :=
  d' = { d with status := d'.status } ∧ (d'.status = .waiting → d.status = .waiting)

theorem StatusOnly.refl (d : SequenceData) : StatusOnly d d := ⟨rfl, fun h => h⟩

theorem StatusOnly.trans {d d' d'' : SequenceData} (h : StatusOnly d d') (h' : StatusOnly d' d'') :
    StatusOnly d d'' := by
  refine ⟨?_, fun h0 => h.2 (h'.2 h0)⟩
  rw [h'.1, h.1]

theorem StatusOnly.to {d : SequenceData} {st : SequenceStatus} (h : st ≠ .waiting) :
    StatusOnly d { d with status := st } := ⟨rfl, fun h0 => absurd h0 h⟩

theorem statusOnly_returns {F : Prop} {l l' : Life β} (h : Returns F l l') :
    StatusOnly l.data l'.data := by
  rcases h with rfl | ⟨-, rfl | ⟨-, rfl | rfl | rfl⟩⟩
  · exact .refl _
  · exact .to (by decide)
  · exact .refl _
  · exact .refl _
  · exact .refl _

theorem statusOnly_event {k : ℕ} {l l' : Life β} (h : Event k l l') :
    StatusOnly l.data l'.data := by
  cases h with
  | enter hok hst h =>
    obtain ⟨rows, -, rfl⟩ := h
    exact .to (by decide)
  | preempt hok hst h =>
    subst h
    exact .to (by decide)

theorem statusOnly_events {k : ℕ} {l l' : Life β} (h : Relation.ReflTransGen (Event k) l l') :
    StatusOnly l.data l'.data := by
  induction h with
  | refl => exact .refl _
  | tail _ hlast ih => exact ih.trans (statusOnly_event hlast)

theorem statusOnly_scheduled {predict : Option (String → List ℕ → ℚ)} {s s' : Scheduler β}
    {out : SchedulerOutput} (h : Scheduled predict s out s') (i : ℕ) :
    StatusOnly (s.store i) (s'.store i) := by
  obtain ⟨l, hret, hev⟩ := h.lives i
  refine (statusOnly_returns hret).trans ?_
  exact statusOnly_events hev

theorem statusOnly_interrupted {s : Scheduler β} {completed : List ℕ} {i : ℕ} {l l' : Life β}
    (h : Interrupted s completed i l l') : StatusOnly l.data l'.data := by
  rcases h with h | rfl | ⟨-, rfl⟩
  · unfold Updated at h
    split_ifs at h with hg
    · obtain ⟨n, new, -, -, rfl⟩ := h
      exact .to (by decide)
    · subst h
      exact .refl _
  · exact .refl _
  · exact .to (by decide)

theorem statusOnly_ended {st : SequenceStatus} (hst : st ≠ .waiting) {l l' : Life β}
    (h : Ended st l l') : StatusOnly l.data l'.data := by
  unfold Ended finalStatus at h
  subst h
  refine ⟨rfl, fun h0 => ?_⟩
  have h0 : (if l.data.Live then st else l.data.status) = .waiting := h0
  split_ifs at h0 with hlive
  · exact absurd h0 hst
  · exact h0

theorem statusOnly_cancelled {s s' : Scheduler β} {i : ℕ}
    (h : life s' i = life s i ∨ Ended .cancelled (life s i) (life s' i)) :
    StatusOnly (s.store i) (s'.store i) := by
  rcases h with h | h
  · have hstore : s'.store i = s.store i := congrArg Life.data h
    rw [hstore]
    exact .refl _
  · exact statusOnly_ended (by decide) h

theorem statusOnly_closed {s : Scheduler β} {i : ℕ} {l l' : Life β} (h : Closed s i l l') :
    StatusOnly l.data l'.data := by
  unfold Closed at h
  split_ifs at h with hreg
  · exact statusOnly_ended (by decide) h.2
  · subst h
    exact .refl _

/-- A loop that changes statuses only. -/
theorem statusOnly_each {s s' : Scheduler β} {P : ℕ → Life β → Life β → Prop} {ids : List ℕ}
    (hE : Each P ids s s') (hP : ∀ i l l', P i l l' → StatusOnly l.data l'.data) (i : ℕ) :
    StatusOnly (s.store i) (s'.store i) := by
  by_cases hi : i ∈ ids
  · exact hP i _ _ (hE.each i hi)
  · have hstore : s'.store i = s.store i := congrArg Life.data (hE.other i hi)
    rw [hstore]
    exact .refl _

theorem statusOnly_updateAfterStep (completed newDecode : List ℕ) {s : Scheduler β} (h : Inv s)
    (i : ℕ) :
    StatusOnly (s.store i) (((Scheduler.updateAfterStep completed newDecode).state s).store i) := by
  refine inv_of_wp (I := fun s' => StatusOnly (s.store i) (s'.store i))
    (wp_mono (wp_updateAfterStep completed newDecode h) ?_ ?_)
  · rintro _ s' ⟨s₁, s₂, hE, hE₂, rfl⟩
    have hprune : (Scheduler.pruneFinishedAndCancelledRequests s₂).store i = s₂.store i :=
      congrArg Life.data (life_prune s₂ i)
    rw [hprune]
    exact (statusOnly_each hE (fun _ _ _ hl => statusOnly_interrupted (Or.inl hl)) i).trans
      (statusOnly_each hE₂ (fun _ _ _ hl => statusOnly_closed hl) i)
  · rintro e s' (⟨-, hE⟩ | ⟨s₁, hE, -, hE₂⟩)
    · exact statusOnly_each hE (fun _ _ _ hl => statusOnly_interrupted hl) i
    · refine (statusOnly_each hE (fun _ _ _ hl => statusOnly_interrupted (Or.inl hl)) i).trans
        (statusOnly_each hE₂ (fun _ _ _ hl => ?_) i)
      rcases hl with hl | rfl
      · exact statusOnly_closed hl
      · exact .refl _

/-! ### The batch -/

/-- The row of a prefill sequence. -/
def prefillRowOf (s : Scheduler β) (i : ℕ) : BatchRow :=
  ⟨i, (s.store i).promptTokenIds.drop (s.store i).numComputedTokens, (s.store i).numComputedTokens,
    true, owned s.kvCache i, (s.store i).samplingParams⟩

/-- The row of a decode sequence. -/
def decodeRowOf (s : Scheduler β) (i : ℕ) : BatchRow :=
  ⟨i, (s.store i).totalTokenIds.drop ((s.store i).totalTokenIds.length - 1),
    (s.store i).numComputedTokens, false, owned s.kvCache i, (s.store i).samplingParams⟩

/-- The sequences of the batch, in order. -/
def batchIds (out : SchedulerOutput) : List ℕ := out.prefillSeqIds ++ out.decodeSeqIds

/-- The batch that a step builds after `schedule` has left the scheduler in `s`. -/
def batchOf (s : Scheduler β) (out : SchedulerOutput) : BatchMetadata :=
  ⟨out.prefillSeqIds.map (prefillRowOf s) ++ out.decodeSeqIds.map (decodeRowOf s)⟩

theorem seqIds_batchOf (s : Scheduler β) (out : SchedulerOutput) :
    (batchOf s out).seqIds = batchIds out := by
  unfold batchOf batchIds BatchMetadata.seqIds
  rw [List.map_append, List.map_map, List.map_map]
  congr 1
  · exact List.map_id _
  · exact List.map_id _

theorem mapM_ok {ε α γ : Type} {f : α → Except ε γ} {g : α → γ} :
    ∀ {xs : List α}, (∀ x ∈ xs, f x = .ok (g x)) → xs.mapM f = .ok (xs.map g)
  | [], _ => rfl
  | x :: xs, h => by
    rw [List.mapM_cons, h x List.mem_cons_self, mapM_ok fun y hy => h y (List.mem_cons_of_mem x hy)]
    rfl

/-- The batch is built if every sequence has its object and its table. -/
theorem fromSchedulerOutput_eq {s : Scheduler β} {out : SchedulerOutput} {keys : Finset ℕ}
    (h : ∀ i ∈ batchIds out, i ∈ keys ∧ s.kvCache.sequenceTables i ≠ none) :
    fromSchedulerOutput out keys s.store s.kvCache = .ok (batchOf s out) := by
  have hrow : ∀ i ∈ batchIds out, lookupSequence keys s.store i = .ok (s.store i) ∧
      blockTableOf s.kvCache i = .ok (owned s.kvCache i) := by
    intro i hi
    obtain ⟨hkey, htab⟩ := h i hi
    refine ⟨if_pos hkey, ?_⟩
    unfold blockTableOf owned
    cases ht : s.kvCache.sequenceTables i with
    | none => exact absurd ht htab
    | some t => rfl
  have hpre : out.prefillSeqIds.mapM (prefillRow keys s.store s.kvCache) =
      .ok (out.prefillSeqIds.map (prefillRowOf s)) := mapM_ok fun i hi => by
    obtain ⟨h1, h2⟩ := hrow i (List.mem_append_left _ hi)
    unfold prefillRow
    rw [h1, h2]
    rfl
  have hdec : out.decodeSeqIds.mapM (decodeRow keys s.store s.kvCache) =
      .ok (out.decodeSeqIds.map (decodeRowOf s)) := mapM_ok fun i hi => by
    obtain ⟨h1, h2⟩ := hrow i (List.mem_append_right _ hi)
    unfold decodeRow
    rw [h1, h2]
    rfl
  unfold fromSchedulerOutput
  rw [hpre, hdec]
  rfl

theorem length_extractLast : ∀ {rows : List BatchRow} {logits last : List ρ},
    extractLastTokenLogits rows logits = .ok last → last.length = rows.length
  | [], _, last, h => by
    unfold extractLastTokenLogits at h
    rw [← Except.ok.inj h]
    rfl
  | r :: rows, logits, last, h => by
    unfold extractLastTokenLogits at h
    split_ifs at h with hlen
    cases hget : logits[r.tokens.length - 1]? with
    | none => rw [hget] at h; cases h
    | some l =>
      rw [hget] at h
      cases hrest : extractLastTokenLogits rows (logits.drop r.tokens.length) with
      | error err => simp only [hrest] at h; cases h
      | ok rest =>
        simp only [hrest] at h
        have hl : l :: rest = last := Except.ok.inj h
        rw [← hl, List.length_cons, List.length_cons, length_extractLast hrest]

theorem length_sample {env : Env ρ} {calls : List Call} : ∀ {rows : List ρ}
    {params : List SamplingParams} {tokens : List ℕ}, sample env calls rows params = .ok tokens →
    tokens.length = rows.length
  | [], [], tokens, h => by
    unfold sample at h
    rw [← Except.ok.inj h]
    rfl
  | [], _ :: _, _, h => by
    unfold sample at h
    cases h
  | _ :: _, [], _, h => by
    unfold sample at h
    cases h
  | row :: rows, p :: params, tokens, h => by
    unfold sample at h
    cases hrow : sampleRow env calls row p with
    | error err => rw [hrow] at h; cases h
    | ok t =>
      rw [hrow] at h
      cases hrest : sample env calls rows params with
      | error err => simp only [hrest] at h; cases h
      | ok ts =>
        simp only [hrest] at h
        have hl : t :: ts = tokens := Except.ok.inj h
        rw [← hl, List.length_cons, List.length_cons, length_sample hrest]

/-! ### Up to the sampled tokens -/

/-- The model and the sampler give the tokens, after the calls made before. -/
def Sampled (env : Env ρ) (calls : List Call) (b : BatchMetadata) (calls' : List Call)
    (tokens : List ℕ) : Prop :=
  ∃ logits last, executeBatch env calls b = (calls', .ok logits) ∧
    extractLastTokenLogits b.rows logits = .ok last ∧
    sample env calls' last b.samplingParams = .ok tokens

/-- There is no token to sample for the batch. -/
def Barren (env : Env ρ) (calls : List Call) (b : BatchMetadata) : Prop :=
  b.totalTokens = 0 ∨ ∀ calls' tokens, ¬ Sampled env calls b calls' tokens

/-- A step that ended before a token was accepted. -/
structure Halted (env : Env ρ) (predict : Option (String → List ℕ → ℚ))
    (e : ContinuousBatchingEngine β) (out : SchedulerOutput) (e' : ContinuousBatchingEngine β) :
    Prop where
  consistent : Consistent e'
  maps : SameMaps e e'
  ran : (Scheduler.schedule predict).run e.scheduler = (e'.scheduler, .ok out)
  scheduled : Scheduled predict e.scheduler out e'.scheduler
  calls : e'.calls = e.calls ∨ e'.calls = (executeBatch env e.calls (batchOf e'.scheduler out)).1

/-- Every sequence of the batch has got its token; `s₁` is the scheduler after `schedule`. -/
structure Accepted (env : Env ρ) (predict : Option (String → List ℕ → ℚ))
    (e : ContinuousBatchingEngine β) (out : SchedulerOutput) (s₁ : Scheduler β) (tokens : List ℕ)
    (outputs : List RequestOutput) (e' : ContinuousBatchingEngine β) : Prop where
  consistent : Consistent e'
  maps : SameMaps e e'
  ran : (Scheduler.schedule predict).run e.scheduler = (s₁, .ok out)
  scheduled : Scheduled predict e.scheduler out s₁
  nodup : (batchIds out).Nodup
  sampled : Sampled env e.calls (batchOf s₁ out) e'.calls tokens
  length : tokens.length = (batchIds out).length
  outputs : outputs.map (·.seqId) = batchIds out
  lives : Each (fun i l l' => ∃ t, (i, t) ∈ (batchIds out).zip tokens ∧ l' = l.appended t)
    (batchIds out) s₁ e'.scheduler

/-- The sequences of a batch: no duplicates, with a table and an object, and still live. -/
theorem batch_spec {predict : Option (String → List ℕ → ℚ)} {s s₁ : Scheduler β}
    {out : SchedulerOutput} (h : Scheduled predict s out s₁) :
    (batchIds out).Nodup ∧ ∀ i ∈ batchIds out, HasTable (s₁.store i).status := by
  have hst : ∀ i ∈ out.prefillSeqIds, (s₁.store i).status = .prefill ∨
      (s₁.store i).status = .swapped := fun i hi => (h.prefill i hi).imp_right (h.preempted i)
  constructor
  · refine List.nodup_append'.mpr ⟨h.prefill_nodup, h.decode_nodup, fun i hi hi' => ?_⟩
    rcases hst i hi with h1 | h1 <;> rw [h.decode i hi'] at h1 <;> cases h1
  · intro i hi
    rcases List.mem_append.mp hi with hi | hi
    · rcases hst i hi with h1 | h1
      · exact Or.inl h1
      · exact Or.inr (Or.inr h1)
    · exact Or.inr (Or.inl (h.decode i hi))

theorem shrinks_scheduled {predict : Option (String → List ℕ → ℚ)} {s s₁ : Scheduler β}
    {out : SchedulerOutput} (h : Scheduled predict s out s₁) : Shrinks s s₁ :=
  shrinks_of_same h.cfg h.blockSize h.requestMap h.sequenceMap

/-- The batch of a step can always be built. -/
theorem batch_built {predict : Option (String → List ℕ → ℚ)} {e : ContinuousBatchingEngine β}
    (h : Consistent e) {s₁ : Scheduler β} {out : SchedulerOutput}
    (hs : Scheduled predict e.scheduler out s₁) :
    fromSchedulerOutput out e.sequences s₁.store s₁.kvCache = .ok (batchOf s₁ out) := by
  obtain ⟨-, htable⟩ := batch_spec hs
  refine fromSchedulerOutput_eq fun i hi => ⟨?_, fun h0 => ?_⟩
  · refine (h.registered ?_).1
    rw [← hs.sequenceMap]
    exact hs.inv.registered i (htable i hi)
  · refine (hs.inv.ok i).table.mpr (htable i hi) ?_
    show (s₁.kvCache.sequenceTables i).map (·.numTokens) = none
    rw [h0]
    rfl

theorem schedule_run (predict : Option (String → List ℕ → ℚ)) {s : Scheduler β} (h : Inv s) :
    ∃ out s', (Scheduler.schedule predict).run s = (s', .ok out) ∧ Scheduled predict s out s' := by
  have hwp := wp_schedule predict h
  cases hrun : (Scheduler.schedule predict).run s with
  | mk s' r =>
    cases r with
    | error err => exact (wp_error hwp hrun).elim
    | ok out => exact ⟨out, s', rfl, wp_ok hwp hrun⟩

theorem wp_stepTokens (env : Env ρ) (predict : Option (String → List ℕ → ℚ))
    {e : ContinuousBatchingEngine β} (h : Consistent e) :
    wp (stepTokens env predict)
      (fun r e' => match r with
        | none => ∃ out, Halted env predict e out e'
        | some outputs => ∃ out s₁ tokens, Accepted env predict e out s₁ tokens outputs e')
      (fun _ e' => ∃ out, Halted env predict e out e' ∧ batchIds out ≠ [] ∧
        Barren env e.calls (batchOf e'.scheduler out)) e := by
  simp only [stepTokens, wp_bind, wp_onScheduler]
  obtain ⟨out, s₁, hran, hs⟩ := schedule_run predict h.inv
  refine wp_of_eq hran ?_
  have hcons : ∀ calls, Consistent { e with scheduler := s₁, calls := calls } := fun _ =>
    h.of_shrinks ⟨rfl, rfl, rfl, rfl, fun _ _ h0 => h0⟩ hs.inv (shrinks_scheduled hs)
  have hhalt : ∀ calls, (calls = e.calls ∨ calls = (executeBatch env e.calls (batchOf s₁ out)).1) →
      Halted env predict e out { e with scheduler := s₁, calls := calls } := fun calls hc =>
    ⟨hcons calls, ⟨rfl, rfl, rfl, rfl, fun _ _ h0 => h0⟩, hran, hs, hc⟩
  have hstay : Halted env predict e out { e with scheduler := s₁ } := hhalt e.calls (Or.inl rfl)
  obtain ⟨hnd, htable⟩ := batch_spec hs
  have hreg : ∀ i ∈ batchIds out, i ∈ s₁.sequenceMap := fun i hi =>
    hs.inv.registered i (htable i hi)
  have hbatch := batch_built h hs
  have hlive : ∀ i ∈ batchIds out, (s₁.store i).Live := fun i hi => (htable i hi).live
  simp only [wp_ite, wp_pure, wp_bind, wp_current]
  refine ⟨fun _ => ⟨out, hstay⟩, fun hsome => ?_⟩
  have hne : batchIds out ≠ [] := fun h0 => hsome (List.append_eq_nil_iff.mp h0)
  rw [hbatch, wp_ofExcept_ok]
  refine ⟨fun hzero => ⟨out, hstay, hne, Or.inl hzero⟩, fun _ => ?_⟩
  simp only [forwardAndSample, wp_bind, wp_current, wp_update]
  cases hexec : executeBatch env e.calls (batchOf s₁ out) with
  | mk calls' r =>
    have hhalt' := hhalt calls' (Or.inr (by rw [hexec]))
    cases hr : r with
    | error err =>
      refine ⟨out, hhalt', hne, Or.inr fun _ _ hran => ?_⟩
      obtain ⟨_, _, h0, -, -⟩ := hran
      rw [hexec, hr] at h0
      cases h0
    | ok logits =>
      rw [wp_ofExcept_ok]
      cases hlast : extractLastTokenLogits (batchOf s₁ out).rows logits with
      | error err =>
        refine ⟨out, hhalt', hne, Or.inr fun _ _ hran => ?_⟩
        obtain ⟨_, _, h0, h1, -⟩ := hran
        rw [hexec, hr] at h0
        cases h0
        rw [hlast] at h1
        cases h1
      | ok last =>
        rw [wp_ofExcept_ok]
        cases htok : sample env calls' last (batchOf s₁ out).samplingParams with
        | error err =>
          refine ⟨out, hhalt', hne, Or.inr fun _ _ hran => ?_⟩
          obtain ⟨_, _, h0, h1, h2⟩ := hran
          rw [hexec, hr] at h0
          cases h0
          rw [hlast] at h1
          cases h1
          rw [htok] at h2
          cases h2
        | ok tokens =>
          rw [wp_ofExcept_ok, seqIds_batchOf]
          have hlen : tokens.length = (batchIds out).length := by
            rw [length_sample htok, length_extractLast hlast, ← seqIds_batchOf s₁ out]
            exact (List.length_map _).symm
          have hfst : ((batchIds out).zip tokens).map Prod.fst = batchIds out :=
            List.map_fst_zip (le_of_eq hlen.symm)
          refine wp_mono (wp_acceptTokens env ((batchIds out).zip tokens) _ (hcons calls')
            (by rw [hfst]; exact hnd) fun i hi => ?_) ?_ fun _ _ h0 => h0.elim
          · rw [hfst] at hi
            exact ⟨hreg i hi, hlive i hi⟩
          · rintro outputs e' ⟨hc, hm, hcalls, hos, hE⟩
            rw [hfst] at hos hE
            refine ⟨out, s₁, tokens, hc, ⟨hm.nextSeqId, hm.sequences, hm.sequenceToRequestId,
              hm.requestToSeqIds, hm.recorded⟩, hran, hs, hnd, ⟨logits, last, ?_, hlast, ?_⟩,
              hlen, hos, hE⟩
            · rw [hexec, hr, hcalls]
            · rw [hcalls]; exact htok

/-! ### The whole step -/

/-- What `update_after_step` has left of an engine whose batch had accepted its tokens. -/
structure Closing (e₁ e' : ContinuousBatchingEngine β) : Prop where
  consistent : Consistent e'
  maps : SameMaps e₁ e'
  calls : e'.calls = e₁.calls
  store : ∀ i, StatusOnly (e₁.scheduler.store i) (e'.scheduler.store i)

theorem Accepted.closing {env : Env ρ} {predict : Option (String → List ℕ → ℚ)}
    {e e₁ : ContinuousBatchingEngine β} {out : SchedulerOutput} {s₁ s' : Scheduler β}
    {tokens : List ℕ} {outputs : List RequestOutput}
    (h : Accepted env predict e out s₁ tokens outputs e₁)
    (hs : s' = (Scheduler.updateAfterStep (completedSeqIds outputs)
      (newDecodeSeqIds outputs)).state e₁.scheduler) (n : ℕ) :
    Closing e₁ { e₁ with scheduler := s', numSteps := n } := by
  subst hs
  obtain ⟨hinv, -⟩ := inv_updateAfterStep (completedSeqIds outputs) (newDecodeSeqIds outputs)
    h.consistent.inv
  have hshrink := shrinks_updateAfterStep (completedSeqIds outputs) (newDecodeSeqIds outputs)
    h.consistent.inv
  have hstore := statusOnly_updateAfterStep (completedSeqIds outputs) (newDecodeSeqIds outputs)
    h.consistent.inv
  exact ⟨h.consistent.of_shrinks ⟨rfl, rfl, rfl, rfl, fun _ _ h0 => h0⟩ hinv hshrink,
    ⟨rfl, rfl, rfl, rfl, fun _ _ h0 => h0⟩, rfl, hstore⟩

theorem Closing.announced {e₁ e₂ e' : ContinuousBatchingEngine β} (h : Closing e₁ e₂)
    (ha : Announced e₂ e') : Closing e₁ e' ∧ e'.scheduler = e₂.scheduler := by
  have hmaps := SameMaps.of_announced ha
  have hcon := h.consistent.of_announced ha
  obtain ⟨C, c, d, v, rfl⟩ := ha
  exact ⟨⟨hcon, h.maps.trans hmaps, h.calls, h.store⟩, rfl⟩

/-- **A step** halts before a token is accepted, or every sequence of the batch gets its token and
`update_after_step` runs. -/
theorem wp_step (env : Env ρ) (predict : Option (String → List ℕ → ℚ))
    {e : ContinuousBatchingEngine β} (h : Consistent e) :
    wp (step env predict)
      (fun _ e' => (∃ out, Halted env predict e out e') ∨
        ∃ out s₁ tokens outputs e₁, Accepted env predict e out s₁ tokens outputs e₁ ∧
          Closing e₁ e' ∧ e'.scheduler = (Scheduler.updateAfterStep (completedSeqIds outputs)
            (newDecodeSeqIds outputs)).state e₁.scheduler)
      (fun _ e' => (∃ out, Halted env predict e out e') ∨
        ∃ out s₁ tokens outputs e₁, Accepted env predict e out s₁ tokens outputs e₁ ∧
          Closing e₁ e' ∧ e'.scheduler = (Scheduler.updateAfterStep (completedSeqIds outputs)
            (newDecodeSeqIds outputs)).state e₁.scheduler) e := by
  rw [step, wp_bind]
  refine wp_mono (wp_stepTokens env predict h) ?_ fun _ _ h0 =>
    Or.inl (h0.imp fun _ h0 => h0.1)
  intro r e₁ hr
  cases r with
  | none =>
    rw [wp_pure]
    exact Or.inl hr
  | some outputs =>
    obtain ⟨out, s₁, tokens, hacc⟩ := hr
    simp only [wp_bind, wp_onScheduler, wp_update, wp_pure]
    refine wp_mono (wp_of_state (I := fun s' => s' = (Scheduler.updateAfterStep
      (completedSeqIds outputs) (newDecodeSeqIds outputs)).state e₁.scheduler) rfl)
      (fun _ s' hs' => ?_) fun _ s' hs' => ?_
    · have hend : ∀ e', Announced { e₁ with scheduler := s', numSteps := e₁.numSteps + 1 } e' →
          Closing e₁ e' ∧ e'.scheduler = (Scheduler.updateAfterStep (completedSeqIds outputs)
            (newDecodeSeqIds outputs)).state e₁.scheduler := by
        intro e' ha
        obtain ⟨hclose, hsched⟩ := (hacc.closing hs' (e₁.numSteps + 1)).announced ha
        exact ⟨hclose, hsched.trans hs'⟩
      exact wp_mono (wp_announce_announced env outputs _)
        (fun _ e' ha => Or.inr ⟨out, s₁, tokens, outputs, e₁, hacc, hend e' ha⟩)
        fun _ e' ha => Or.inr ⟨out, s₁, tokens, outputs, e₁, hacc, hend e' ha⟩
    · exact Or.inr ⟨out, s₁, tokens, outputs, e₁, hacc, hacc.closing hs' _, hs'⟩

/-! ### Runs -/

/-- The operations of a run of the engine. -/
inductive Op where
  | addRequest (requestId : String) (prompt : List ℕ) (params : SamplingParams) (n : ℕ)
      (onToken : Option Callback)
  | step (predict : Option (String → List ℕ → ℚ))
  | abortRequest (requestId : String)

/-- One operation; when it raises, the state it has reached is kept. -/
def runOp (env : Env ρ) (e : ContinuousBatchingEngine β) : Op → ContinuousBatchingEngine β
  | .addRequest rid prompt params n onToken => (addRequest rid prompt params n onToken).state e
  | .step predict => (step env predict).state e
  | .abortRequest rid => (abortRequest env rid).state e

/-- An engine with no requests. -/
def start (cfg : SchedConfig) (kvCfg : KvConfig) (kv : ℕ → β) : ContinuousBatchingEngine β :=
  ContinuousBatchingEngine.new (Scheduler.new cfg (PagedKVCache.new kvCfg kv))

/-- The result of a step, whether it returned or raised. -/
theorem step_cases (env : Env ρ) (predict : Option (String → List ℕ → ℚ))
    {e : ContinuousBatchingEngine β} (h : Consistent e) :
    (∃ out, Halted env predict e out (runOp env e (.step predict))) ∨
      ∃ out s₁ tokens outputs e₁, Accepted env predict e out s₁ tokens outputs e₁ ∧
        Closing e₁ (runOp env e (.step predict)) ∧
        (runOp env e (.step predict)).scheduler = (Scheduler.updateAfterStep
          (completedSeqIds outputs) (newDecodeSeqIds outputs)).state e₁.scheduler :=
  inv_of_wp (I := fun e' => (∃ out, Halted env predict e out e') ∨
    ∃ out s₁ tokens outputs e₁, Accepted env predict e out s₁ tokens outputs e₁ ∧
      Closing e₁ e' ∧ e'.scheduler = (Scheduler.updateAfterStep (completedSeqIds outputs)
        (newDecodeSeqIds outputs)).state e₁.scheduler) (wp_step env predict h)

/-- **What a step leaves**: the calls of one batch, and objects whose tokens have only been
appended. -/
theorem step_trace (env : Env ρ) (predict : Option (String → List ℕ → ℚ))
    {e e' : ContinuousBatchingEngine β} (h : Consistent e) (he : e' = runOp env e (.step predict)) :
    ∃ out s₁, (Scheduler.schedule predict).run e.scheduler = (s₁, .ok out) ∧
      Scheduled predict e.scheduler out s₁ ∧ e'.nextSeqId = e.nextSeqId ∧
      (e'.calls = e.calls ∨ e'.calls = (executeBatch env e.calls (batchOf s₁ out)).1) ∧
      ∀ i, (e'.scheduler.store i).promptTokenIds = (s₁.store i).promptTokenIds ∧
        (e'.scheduler.store i).samplingParams = (s₁.store i).samplingParams ∧
        (∃ ts, (e'.scheduler.store i).outputTokenIds = (s₁.store i).outputTokenIds ++ ts) ∧
        ((e'.scheduler.store i).status = .waiting →
          StatusOnly (s₁.store i) (e'.scheduler.store i)) := by
  subst he
  rcases step_cases env predict h with ⟨out, h0⟩ | ⟨out, s₁, tokens, outputs, e₁, hacc, hclose, -⟩
  · exact ⟨out, _, h0.ran, h0.scheduled, h0.maps.nextSeqId, h0.calls,
      fun i => ⟨rfl, rfl, ⟨[], (List.append_nil _).symm⟩, fun _ => .refl _⟩⟩
  · obtain ⟨logits, last, hexec, -, -⟩ := hacc.sampled
    refine ⟨out, s₁, hacc.ran, hacc.scheduled, hclose.maps.nextSeqId.trans hacc.maps.nextSeqId,
      Or.inr (by rw [hclose.calls, hexec]), fun i => ?_⟩
    have hstore := hclose.store i
    by_cases hi : i ∈ batchIds out
    · obtain ⟨t, -, hl⟩ := hacc.lives.each i hi
      have hdata : e₁.scheduler.store i = ((life s₁ i).appended t).data := congrArg Life.data hl
      rw [hdata] at hstore
      refine ⟨by rw [hstore.1]; rfl, by rw [hstore.1]; rfl, ⟨[t],
        by rw [hstore.1]; rfl⟩, fun hw => ?_⟩
      have hw' : (s₁.store i).status = .waiting := hstore.2 hw
      rcases (batch_spec hacc.scheduled).2 i hi with h1 | h1 | h1 <;> rw [hw'] at h1 <;> cases h1
    · have hdata : e₁.scheduler.store i = s₁.store i := congrArg Life.data (hacc.lives.other i hi)
      rw [hdata] at hstore
      exact ⟨by rw [hstore.1], by rw [hstore.1], ⟨[],
        by rw [hstore.1, List.append_nil]⟩, fun _ => hstore⟩

theorem add_cases (requestId : String) (prompt : List ℕ) (params : SamplingParams) (n : ℕ)
    (onToken : Option Callback) {e : ContinuousBatchingEngine β} (h : Consistent e) (env : Env ρ) :
    runOp env e (.addRequest requestId prompt params n onToken) = e ∨
      Consistent (runOp env e (.addRequest requestId prompt params n onToken)) ∧
        Added prompt params n e (runOp env e (.addRequest requestId prompt params n onToken)) :=
  inv_of_wp (I := fun e' => e' = e ∨ Consistent e' ∧ Added prompt params n e e')
    (wp_mono (EngineInv.wp_addRequest requestId prompt params n onToken h) (fun _ _ h0 => Or.inr h0)
      fun _ _ h0 => Or.inl h0.1)

theorem abort_cases (requestId : String) {e : ContinuousBatchingEngine β} (h : Consistent e)
    (env : Env ρ) : Aborted e (runOp env e (.abortRequest requestId)) :=
  inv_of_wp (I := Aborted e) (EngineInv.wp_abortRequest env requestId h)

/-- **Every operation** keeps the invariant of the engine. -/
theorem consistent_runOp (env : Env ρ) {e : ContinuousBatchingEngine β}
    (h : Consistent e) (o : Op) :
    Consistent (runOp env e o) := by
  cases o with
  | addRequest rid prompt params n onToken =>
    rcases add_cases rid prompt params n onToken h env with h0 | h0
    · rw [h0]; exact h
    · exact h0.1
  | step predict =>
    rcases step_cases env predict h with ⟨out, h0⟩ | ⟨out, s₁, tokens, outputs, e₁, -, h0, -⟩
    · exact h0.consistent
    · exact h0.consistent
  | abortRequest rid => exact (abort_cases rid h env).consistent

end MoeInfinity.Serving.EngineStep
