import MoeInfinity.Serving.Alone
import MoeInfinity.Serving.Streams

/-! # Other requests do not reach the tokens of a sequence

With temperature 0 and a model that computes row by row, the next token of a sequence is a function
of its prompt and its outputs so far (`nextToken`): its row is the prompt in its prefill step, and
its last token afterwards. So two engines that run the same request, with whatever other requests,
limits and preemptions, produce the same text, and the one that finished it has the longer one. -/

namespace MoeInfinity.Serving.Solo

open MoeInfinity.Python MoeInfinity.Lib.Imperative MoeInfinity.Lib.Runs
open MoeInfinity.Serving.Sequence MoeInfinity.Serving.KvCache MoeInfinity.Serving.KvCacheSpec
open MoeInfinity.Serving.Schedule MoeInfinity.Serving.Lifecycle MoeInfinity.Serving.ScheduleSpec
open MoeInfinity.Serving.ScheduleInv MoeInfinity.Serving.ScheduleCall
  MoeInfinity.Serving.ScheduleOps
open MoeInfinity.Serving.Batch MoeInfinity.Serving.ModelRunner MoeInfinity.Serving.Engine
open MoeInfinity.Serving.Engine.ContinuousBatchingEngine MoeInfinity.Serving.EngineInv
open MoeInfinity.Serving.EngineStep MoeInfinity.Serving.Progress MoeInfinity.Serving.Rowwise
open MoeInfinity.Serving.Greedy MoeInfinity.Serving.Delivery MoeInfinity.Serving.Streams

variable {β ρ : Type}

/-! ### Texts that follow a function -/

section Texts

variable {α : Type} {next : List α → Option α}

/-- Every element of the text is the one that `next` gives after those before it. -/
def Follows (next : List α → Option α) (xs : List α) : Prop :=
  ∀ k t, xs[k]? = some t → next (xs.take k) = some t

theorem follows_nil (next : List α → Option α) : Follows next [] := by
  intro k t h
  cases h

theorem Follows.snoc {xs : List α} {t : α} (h : Follows next xs) (ht : next xs = some t) :
    Follows next (xs ++ [t]) := by
  intro k t' hk
  rcases Nat.lt_trichotomy k xs.length with hlt | heq | hgt
  · rw [List.getElem?_append_left hlt] at hk
    rw [List.take_append_of_le_length (by omega)]
    exact h k t' hk
  · subst heq
    rw [List.getElem?_concat_length] at hk
    rw [List.take_left, ht, hk]
  · rw [List.getElem?_eq_none (by simp; omega)] at hk
    cases hk

/-- Of two texts that follow the same function the shorter is a prefix of the longer. -/
theorem Follows.isPrefix {xs ys : List α} (hx : Follows next xs) (hy : Follows next ys)
    (hlen : xs.length ≤ ys.length) : xs <+: ys := by
  have htake : ∀ n ≤ xs.length, xs.take n = ys.take n := by
    intro n
    induction n with
    | zero => exact fun _ => rfl
    | succ n ih =>
      intro hn
      have hxn : n < xs.length := by omega
      have hyn : n < ys.length := by omega
      have h1 := hx n xs[n] (List.getElem?_eq_getElem hxn)
      have h2 := hy n ys[n] (List.getElem?_eq_getElem hyn)
      have ih := ih (by omega)
      rw [ih, h2] at h1
      rw [List.take_succ_eq_append_getElem hxn, List.take_succ_eq_append_getElem hyn, ih,
        Option.some.inj h1]
  have hall := htake xs.length (le_refl _)
  rw [List.take_length] at hall
  rw [hall]
  exact List.take_prefix _ _

/-- The text has not stopped before its end. -/
def Unstopped (stops : List α → Prop) (xs : List α) : Prop :=
  ∀ k, 0 < k → k < xs.length → ¬ stops (xs.take k)

theorem Unstopped.snoc {stops : List α → Prop} {xs : List α} {t : α} (h : Unstopped stops xs)
    (hx : xs ≠ [] → ¬ stops xs) : Unstopped stops (xs ++ [t]) := by
  intro k hpos hlt
  rw [List.length_append, List.length_singleton] at hlt
  rw [List.take_append_of_le_length (by omega)]
  rcases Nat.lt_or_eq_of_le (Nat.le_of_lt_succ hlt) with hlt | rfl
  · exact h k hpos hlt
  · rw [List.take_length]
    exact hx (List.ne_nil_of_length_pos hpos)

/-- A text that has not stopped before is a prefix of one that has. -/
theorem Follows.isPrefix_of_stops {stops : List α → Prop} {xs ys : List α} (hx : Follows next xs)
    (hy : Follows next ys) (hu : Unstopped stops xs) (hne : ys ≠ []) (hs : stops ys) :
    xs <+: ys := by
  by_cases hlen : xs.length ≤ ys.length
  · exact hx.isPrefix hy hlen
  · exfalso
    have hpre := hy.isPrefix hx (by omega)
    refine hu ys.length (List.length_pos_of_ne_nil hne) (by omega) ?_
    rw [← List.prefix_iff_eq_take.mp hpre]
    exact hs

end Texts

/-! ### Leaving the waiting queue -/

section Waiting

open Scheduler

variable {i : ℕ}

/-- Sequence `i` waits. -/
def Waits (i : ℕ) (s : Scheduler β) : Prop := (s.store i).status = .waiting

theorem waits_onKv {α : Type} {s : Scheduler β} (h : Waits i s)
    (m : Prog PyError (PagedKVCache β) α) :
    wp (onKv m) (fun _ => Waits i) (fun _ => Waits i) s :=
  wp_zoom.mpr (wp_of_forall (fun _ _ => h) fun _ _ => h)

theorem waits_setStatus {s : Scheduler β} (h : Waits i s) {j : ℕ} (hj : j ≠ i)
    (st : SequenceStatus) :
    wp (setStatus j st) (fun _ => Waits i) (fun _ => Waits i) s := by
  simp only [setStatus, wp_bind, wp_current, wp_update]
  cases (s.store j).setStatus st with
  | error err => exact h
  | ok d =>
    rw [wp_ofExcept_ok]
    show (Function.update s.store j d i).status = .waiting
    rw [Function.update_of_ne hj.symm]
    exact h

theorem waits_preemptSequences : ∀ (ids : List ℕ) {s : Scheduler β}, Waits i s →
    wp (preemptSequences ids) (fun _ => Waits i) (fun _ => Waits i) s
  | [], _, h => h
  | j :: ids, s, h => by
    simp only [preemptSequences, wp_bind, wp_current, wp_ite, wp_attempt, wp_pure]
    refine ⟨fun hst => ?_, fun _ => waits_preemptSequences ids h⟩
    have hj : j ≠ i := by
      rintro rfl
      rcases hst with h0 | h0 <;> rw [show (s.store j).status = .waiting from h] at h0 <;> cases h0
    have hrest : ∀ s' : Scheduler β, Waits i s' → wp (onKv (PagedKVCache.freeGpuBlocks j))
        (fun _ t => wp (setStatus j .swapped) (fun _ t => wp (preemptSequences ids)
          (fun _ => Waits i) (fun _ => Waits i) t) (fun _ => Waits i) t) (fun _ => Waits i) s' := by
      intro s' hs'
      refine wp_mono (waits_onKv hs' _) (fun _ t ht => ?_) fun _ _ ht => ht
      exact wp_mono (waits_setStatus ht hj _) (fun _ t ht => waits_preemptSequences ids ht)
        fun _ _ ht => ht
    refine wp_mono (waits_onKv h _) (fun _ t ht => hrest t ht) fun err t ht => ?_
    cases err <;> first | exact hrest t ht | exact ht

theorem waits_preemptLoop : ∀ (gs : List SequenceGroup) {s : Scheduler β}, Waits i s →
    wp (preemptLoop gs) (fun _ => Waits i) (fun _ => Waits i) s
  | [], _, h => h
  | g :: gs, s, h => by
    simp only [preemptLoop, wp_bind, wp_update, wp_ite, wp_pure]
    refine wp_mono (waits_preemptSequences g.sequenceIds (s := { s with running := gs }) h)
      (fun ids t ht => ⟨fun _ => ht, fun _ => waits_preemptLoop gs ht⟩) fun _ _ ht => ht

theorem waits_makeRoom {s : Scheduler β} (h : Waits i s) (required : ℕ) (out : SchedulerOutput) :
    wp (makeRoom required out) (fun r s' => Waits i s' ∧ r.2.prefillSeqIds = out.prefillSeqIds)
      (fun _ _ => True) s := by
  refine wp_mono (wp_and (?_ : wp _ (fun _ => Waits i) (fun _ => Waits i) s)
    (wp_makeRoom_prefill required out s)) (fun _ _ h0 => h0) fun _ _ _ => trivial
  simp only [makeRoom, preemptOldestRunningGroup, wp_bind, wp_current, wp_ite, wp_pure]
  exact ⟨fun _ => wp_mono (waits_preemptLoop s.running h) (fun _ _ ht => ⟨fun _ => ht, fun _ => ht⟩)
    fun _ _ ht => ht, fun _ => h⟩

theorem waits_admitSequences : ∀ (ds : List SequenceData) {s : Scheduler β}, Waits i s →
    i ∉ ds.map (·.seqId) → wp (forEach admitSequence ds) (fun _ => Waits i) (fun _ => Waits i) s
  | [], _, h, _ => h
  | d :: ds, s, h, hi => by
    rw [List.map_cons, List.mem_cons, not_or] at hi
    simp only [forEach, admitSequence, wp_bind]
    refine wp_mono (waits_onKv h _) (fun _ t ht => ?_) fun _ _ ht => ht
    exact wp_mono (waits_setStatus ht (Ne.symm hi.1) _)
      (fun _ t ht => waits_admitSequences ds ht hi.2) fun _ _ ht => ht

/-- Admission takes a sequence from the waiting queue only to list it for prefill. -/
theorem wp_admitWaiting_listed :
    ∀ (ws : List SequenceGroup) (seqs tokens : ℕ) (out : SchedulerOutput) (s : Scheduler β),
      Waits i s ∨ i ∈ out.prefillSeqIds →
    wp (admitWaiting ws seqs tokens out) (fun r s' => Waits i s' ∨ i ∈ r.2.2.prefillSeqIds)
      (fun _ _ => True) s
  | [], _, _, _, _, h => h
  | g :: rest, seqs, tokens, out, s, h => by
    simp only [admitWaiting, wp_bind, wp_current, wp_ite, wp_update, wp_pure]
    refine ⟨fun _ => wp_admitWaiting_listed rest seqs tokens out _ h,
      fun _ => ⟨fun _ => h, fun _ => ⟨fun _ => h, fun _ => ?_⟩⟩⟩
    have hroom :
        wp (makeRoom (((s.withStatus g .waiting).map s.store).map s.requiredBlocks).sum out)
          (fun r s' => Waits i s' ∧ r.2.prefillSeqIds = out.prefillSeqIds ∨ i ∈ r.2.prefillSeqIds)
        (fun _ _ => True) s := by
      rcases h with h | h
      · exact wp_mono (waits_makeRoom h _ out) (fun _ _ h0 => Or.inl h0) fun _ _ h0 => h0
      · refine wp_mono (wp_makeRoom_prefill _ out s) (fun r _ h0 => Or.inr ?_) fun _ _ h0 => h0
        rw [h0]
        exact h
    refine wp_mono hroom ?_ fun _ _ h0 => h0
    rintro ⟨room, out'⟩ s₁ h₁
    refine ⟨fun _ => h₁.imp_left And.left, fun _ => ?_⟩
    have henter : wp (forEach admitSequence ((s.withStatus g .waiting).map s.store))
        (fun _ s₂ => Waits i s₂ ∨
          i ∈ out'.prefillSeqIds ++ ((s.withStatus g .waiting).map s.store).map (·.seqId))
        (fun _ _ => True) { s₁ with waiting := rest, running := s₁.running ++ [g] } := by
      by_cases hi : i ∈ ((s.withStatus g .waiting).map s.store).map (·.seqId)
      · exact wp_of_forall (fun _ _ => Or.inr (List.mem_append_right _ hi)) fun _ _ => trivial
      · rcases h₁ with ⟨h₁, -⟩ | h₁
        · exact wp_mono (waits_admitSequences _ h₁ hi) (fun _ _ h₂ => Or.inl h₂)
            fun _ _ _ => trivial
        · exact wp_of_forall (fun _ _ => Or.inr (List.mem_append_left _ h₁)) fun _ _ => trivial
    exact wp_mono henter (fun _ s₂ h₂ => wp_admitWaiting_listed rest _ _ _ s₂ h₂) fun _ _ h0 => h0

/-- **`schedule`** takes a sequence from the waiting queue only to list it for prefill. -/
theorem wp_schedule_listed (predict : Option (String → List ℕ → ℚ)) {s : Scheduler β} (h : Inv s)
    (hi : Waits i s) :
    wp (schedule predict) (fun out s' => Waits i s' ∨ i ∈ out.prefillSeqIds)
      (fun _ _ => True) s := by
  simp only [schedule, wp_bind, wp_current, wp_update, wp_pure]
  refine wp_mono (wp_recoverSwappedGroups h) ?_ fun _ _ h0 => h0.elim
  intro _ s₁ hrec
  have h₁ : Waits i s₁ := by
    rcases hrec with ⟨-, rfl⟩ | ⟨-, hrec⟩
    · exact hi
    · rcases hrec.lives i with h0 | ⟨hst, -⟩
      · show (life s₁ i).data.status = .waiting
        rw [h0]
        exact hi
      · exact absurd (hi.symm.trans hst) (by decide)
  have h₂ : Waits i (sortWaiting predict s₁) := by
    obtain ⟨W, -, heq⟩ := sortWaiting_eq predict s₁
    rw [heq]
    exact h₁
  refine wp_mono (wp_admitWaiting_listed _ 0 0 {} _ (Or.inl h₂)) ?_ fun _ _ h0 => h0
  rintro ⟨seqs, tokens, out⟩ s' h0
  obtain ⟨-, -, -, -, hpre, -⟩ := selectDecode_spec s' s'.runningIds seqs tokens out
  rw [hpre]
  exact h0

end Waiting

/-! ### One sequence -/

/-- The row that the model gets for the next token, after the outputs `outs`. -/
def inputRow (prompt outs : List ℕ) : List (ℕ × ℕ) :=
  if outs = [] then prompt.zip (List.range' 0 prompt.length)
  else ((prompt ++ outs).drop ((prompt ++ outs).length - 1)).zip
    (List.range' (prompt.length + outs.length)
      ((prompt ++ outs).drop ((prompt ++ outs).length - 1)).length)

/-- The greedy choice from the last logits of this row. -/
def nextToken (L : RowModel ρ) (argmax : ρ → ℕ) (prompt outs : List ℕ) : Option ℕ :=
  (L.logits (inputRow prompt outs)).getLast?.map argmax

/-- The outputs meet the finish condition with their last token. -/
def Stops (env : Env ρ) (params : SamplingParams) (outs : List ℕ) : Prop :=
  (getFinishReason env
    { seqId := 0, promptTokenIds := [], samplingParams := params, outputTokenIds := outs }
      (outs.getLast?.getD 0)).isSome = true

theorem stops_iff {env : Env ρ} {d : SequenceData} {outs : List ℕ} {t : ℕ}
    (h : d.outputTokenIds = outs ++ [t]) :
    Stops env d.samplingParams d.outputTokenIds ↔ (getFinishReason env d t).isSome = true := by
  unfold Stops getFinishReason
  rw [h, List.getLast?_concat]
  rfl

/-- A sequence between two operations of a run: what its tokens and its status say. -/
structure Told (env : Env ρ) (L : RowModel ρ) (d : SequenceData) : Prop where
  blank : d.status = .waiting → d.outputTokenIds = [] ∧ d.numComputedTokens = 0
  begun : d.Live → d.status ≠ .waiting → d.outputTokenIds ≠ []
  computed : d.outputTokenIds ≠ [] →
    d.numComputedTokens = d.promptTokenIds.length + d.outputTokenIds.length
  text : d.samplingParams.temperature = 0 →
    Follows (nextToken L env.argmax d.promptTokenIds) d.outputTokenIds
  unstopped : Unstopped (Stops env d.samplingParams) d.outputTokenIds
  going : d.Live → d.outputTokenIds ≠ [] → ¬ Stops env d.samplingParams d.outputTokenIds
  finished : d.status = .finished → d.outputTokenIds ≠ [] ∧
    Stops env d.samplingParams d.outputTokenIds

variable {env : Env ρ} {L : RowModel ρ}

theorem told_new {d : SequenceData} (hout : d.outputTokenIds = []) (hcomp : d.numComputedTokens = 0)
    (hst : d.status = .waiting) : Told env L d := by
  refine ⟨fun _ => ⟨hout, hcomp⟩, fun _ h0 => absurd hst h0, fun h0 => absurd hout h0,
    fun _ => ?_, ?_, fun _ h0 => absurd hout h0, fun h0 => absurd (hst.symm.trans h0) (by decide)⟩
  · rw [hout]
    exact follows_nil _
  · rw [hout]
    intro k _ hlt
    exact absurd hlt (Nat.not_lt_zero k)

/-- A change of the status that starts nothing. -/
theorem Told.congr {d d' : SequenceData} (h : Told env L d) (hs : SameEnd d d')
    (hw : d'.Live → d'.status ≠ .waiting → d.status ≠ .waiting) : Told env L d' := by
  have hd := hs.only.1
  refine ⟨fun h0 => ?_, fun hl h0 => ?_, fun h0 => ?_, fun h0 => ?_, ?_, fun hl h0 => ?_,
    fun h0 => ?_⟩
  · rw [hd]
    exact h.blank (hs.only.2 h0)
  · rw [hd]
    exact h.begun (hs.live hl) (hw hl h0)
  · rw [hd] at h0 ⊢
    exact h.computed h0
  · rw [hd] at h0 ⊢
    exact h.text h0
  · rw [hd]
    exact h.unstopped
  · rw [hd] at h0 ⊢
    exact h.going (hs.live hl) h0
  · rw [hd]
    exact h.finished (hs.finished.mp h0)

theorem Advanced.status_ne_waiting {k : ℕ} {l l' : Life β} (h : Advanced env k l l')
    (hl : l.data.status ≠ .waiting) : l'.data.status ≠ .waiting := by
  cases h with
  | ended t hr =>
    intro (h0 : finalStatus .finished l.data = .waiting)
    rcases finalStatus_final l.data with h1 | h1 <;> rw [h0] at h1 <;> cases h1
  | grown t _ hr hg =>
    obtain ⟨n, new, -, -, rfl⟩ := hg
    intro h0
    cases h0
  | parked t hr hst => exact hl

theorem Advanced.computed {k : ℕ} {l l' : Life β} (h : Advanced env k l l') :
    l'.data.numComputedTokens = l'.data.promptTokenIds.length + l'.data.outputTokenIds.length := by
  cases h with
  | ended t hr => rfl
  | grown t _ hr hg =>
    obtain ⟨n, new, -, -, rfl⟩ := hg
    rfl
  | parked t hr hst => rfl

/-- A sequence of the batch with its new token. -/
theorem Told.advanced {d : SequenceData} {k t : ℕ} {l l' : Life β} (h : Told env L d)
    (hs : SameEnd d l.data) (htable : HasTable l.data.status) (hadv : Advanced env k l l')
    (ht : l'.data.outputTokenIds = l.data.outputTokenIds ++ [t])
    (hnext : d.samplingParams.temperature = 0 →
      nextToken L env.argmax d.promptTokenIds d.outputTokenIds = some t) : Told env L l'.data := by
  have hprompt : l'.data.promptTokenIds = d.promptTokenIds := by
    rw [hadv.data.1, hs.only.1]
  have hparams : l'.data.samplingParams = d.samplingParams := by
    rw [hadv.data.2, hs.only.1]
  have hlive := htable.live
  have hfin := finished_iff_reason hadv hlive ht
  rw [← stops_iff ht] at hfin
  have ht' : l'.data.outputTokenIds = d.outputTokenIds ++ [t] := by rw [ht, hs.outputs]
  have hne : l'.data.outputTokenIds ≠ [] := by
    rw [ht']
    simp
  have hwait : l'.data.status ≠ .waiting := by
    refine Advanced.status_ne_waiting hadv fun h0 => ?_
    rw [h0] at htable
    rcases htable with h1 | h1 | h1 <;> cases h1
  refine ⟨fun h0 => absurd h0 hwait, fun _ _ => hne, fun _ => Advanced.computed hadv,
    fun h0 => ?_, ?_, fun hl _ h0 => hl.1 (hfin.mpr h0), fun h0 => ⟨hne, hfin.mp h0⟩⟩
  · rw [hparams] at h0
    rw [hprompt, ht']
    exact (h.text h0).snoc (hnext h0)
  · rw [hparams, ht']
    exact h.unstopped.snoc fun h0 => h.going (hs.live hlive) h0

/-! ### Runs -/

/-- The invariant of the runs in which no call raises. -/
structure AllTold (env : Env ρ) (L : RowModel ρ) (e : ContinuousBatchingEngine β) : Prop where
  consistent : Consistent e
  told : ∀ i, Told env L (e.scheduler.store i)

theorem allTold_start (cfg : SchedConfig) (kvCfg : KvConfig) (kv : ℕ → β) :
    AllTold env L (start cfg kvCfg kv) :=
  ⟨consistent_new cfg kvCfg kv, fun _ => told_new rfl rfl rfl⟩

section Step

variable {predict : Option (String → List ℕ → ℚ)} {e e' : ContinuousBatchingEngine β}
  {out : SchedulerOutput} {s₁ : Scheduler β} {outputs : List RequestOutput} {i : ℕ}

/-- A waiting sequence that `schedule` has taken is listed for prefill, and not for decode. -/
theorem listed_of_left (h : Inv e.scheduler)
    (hran : (Scheduler.schedule predict).run e.scheduler = (s₁, .ok out))
    (hw : (e.scheduler.store i).status = .waiting) (hne : (s₁.store i).status ≠ .waiting) :
    i ∈ out.prefillSeqIds :=
  (wp_ok (wp_schedule_listed predict h hw) hran).resolve_left hne

/-- The row of a sequence in the batch is the one that its tokens say. -/
theorem row_of_told (h : AllTold env L e) (hs : Stepped env predict e out s₁ outputs e')
    {r : BatchRow} (hr : r ∈ (batchOf s₁ out).rows) :
    rowTokens r = inputRow (e.scheduler.store r.seqId).promptTokenIds
        (e.scheduler.store r.seqId).outputTokenIds ∧
      r.samplingParams = (e.scheduler.store r.seqId).samplingParams := by
  have honly := statusOnly_scheduled hs.scheduled
  rcases List.mem_append.mp hr with hr | hr
  · obtain ⟨i, hi, rfl⟩ := List.mem_map.mp hr
    obtain ⟨hout, hcomp⟩ := (h.told i).blank (hs.scheduled.entered i hi)
    constructor
    · show ((s₁.store i).promptTokenIds.drop (s₁.store i).numComputedTokens).zip
        (List.range' (s₁.store i).numComputedTokens
          ((s₁.store i).promptTokenIds.drop (s₁.store i).numComputedTokens).length) =
        inputRow (e.scheduler.store i).promptTokenIds (e.scheduler.store i).outputTokenIds
      rw [(honly i).1, inputRow, if_pos hout]
      simp only [hcomp, List.drop_zero]
    · show (s₁.store i).samplingParams = (e.scheduler.store i).samplingParams
      rw [(honly i).1]
  · obtain ⟨i, hi, rfl⟩ := List.mem_map.mp hr
    have hdec := hs.scheduled.decode i hi
    have hne : (e.scheduler.store i).outputTokenIds ≠ [] := by
      refine (h.told i).begun ?_ fun hw => ?_
      · refine ((keeps_of_ran h.consistent.inv hs.ran).live i).mp ?_
        exact HasTable.live (Or.inr (Or.inl hdec))
      · -- a sequence that waited before would be listed for prefill
        have hpre := listed_of_left h.consistent.inv hs.ran hw (by rw [hdec]; decide)
        have hnd := (batch_spec hs.scheduled).1
        exact (List.nodup_append'.mp hnd).2.2 hpre hi
    have hcomp := (h.told i).computed hne
    constructor
    · show ((s₁.store i).totalTokenIds.drop ((s₁.store i).totalTokenIds.length - 1)).zip
        (List.range' (s₁.store i).numComputedTokens
          ((s₁.store i).totalTokenIds.drop ((s₁.store i).totalTokenIds.length - 1)).length) =
        inputRow (e.scheduler.store i).promptTokenIds (e.scheduler.store i).outputTokenIds
      unfold SequenceData.totalTokenIds
      rw [(honly i).1, inputRow, if_neg hne]
      simp only [hcomp]
    · show (s₁.store i).samplingParams = (e.scheduler.store i).samplingParams
      rw [(honly i).1]

/-- **A step that returned** gives the sequences of the batch the tokens that follow. -/
theorem AllTold.stepped (h : AllTold env L e) (hL : RowLocal env L)
    (hpaged : env.usePagedContext = false) (hs : Stepped env predict e out s₁ outputs e') :
    AllTold env L e' := by
  have hinv := h.consistent.inv
  have hsame := sameEnd_scheduled hinv hs.ran hs.scheduled
  refine ⟨hs.consistent, fun i => ?_⟩
  rcases hs.lives i with ⟨hno, hl⟩ | ⟨hi, hadv⟩
  · rw [show e'.scheduler.store i = s₁.store i from congrArg Life.data hl]
    refine (h.told i).congr (hsame i) fun _ hne hw => hno ?_
    exact List.mem_append_left _ (listed_of_left hinv hs.ran hw hne)
  · obtain ⟨tokens, t, hsampled, hmem, ht⟩ := hs.tokens i hi
    refine (h.told i).advanced (l := life s₁ i) (hsame i) ((batch_spec hs.scheduled).2 i hi) hadv ht
      fun htemp => ?_
    rw [← seqIds_batchOf s₁ out] at hmem
    obtain ⟨r, hr, rfl, row, hlast, hrow⟩ := sampled_row hL hpaged hsampled hmem
    obtain ⟨htokens, hparams⟩ := row_of_told h hs hr
    unfold nextToken
    unfold Rowwise.rowLogits at hlast
    rw [← htokens, hlast, Option.map_some]
    unfold sampleRow at hrow
    rw [hparams, if_pos htemp] at hrow
    rw [Except.ok.inj hrow]

end Step

/-- **One operation** that returns keeps the invariant. -/
theorem AllTold.runOp {e : ContinuousBatchingEngine β} (h : AllTold env L e) (hL : RowLocal env L)
    (hpaged : env.usePagedContext = false) {o : Op} (hok : OpReturns env e o) :
    AllTold env L (runOp env e o) := by
  cases o with
  | step predict =>
    obtain ⟨outputs, out, s₁, hs⟩ := post_of_isOk (wp_step_returned env predict h.consistent) hok
    exact h.stepped hL hpaged hs
  | addRequest rid prompt params n onToken =>
    rcases add_cases rid prompt params n onToken h.consistent env with h0 | ⟨hc, h0⟩
    · rw [h0]; exact h
    · refine ⟨hc, fun i => ?_⟩
      by_cases hi : e.nextSeqId ≤ i ∧ i < e.nextSeqId + n
      · rw [h0.new i hi.1 hi.2]
        exact told_new rfl rfl rfl
      · rw [h0.other i hi]
        exact h.told i
  | abortRequest rid =>
    obtain ⟨hc, -, -, -, hlives⟩ := abort_cases rid h.consistent env
    refine ⟨hc, fun i => (h.told i).congr (sameEnd_cancelled (hlives i)) fun hl hne hw => hne ?_⟩
    rcases hlives i with h0 | h0
    · rw [← hw]
      exact congrArg (fun l : Life β => l.data.status) h0
    · exfalso
      rcases (ended_spec h.consistent.inv (Or.inr rfl) h0).2.2 with h1 | h1
      · exact hl.1 h1
      · exact hl.2 h1

theorem AllTold.exec (hL : RowLocal env L) (hpaged : env.usePagedContext = false)
    {e : ContinuousBatchingEngine β} (h : AllTold env L e) (ops : List Op)
    (hok : Along (EngineStep.runOp env) (OpReturns env) e ops) :
    AllTold env L (exec (EngineStep.runOp env) e ops) :=
  inv_exec (fun _ _ hs hg => hs.runOp hL hpaged hg) ops e h hok

/-- A run of steps keeps the prompts and the parameters. -/
theorem kept_steps (env : Env ρ) : ∀ (predicts : List (Option (String → List ℕ → ℚ)))
    {e : ContinuousBatchingEngine β}, Consistent e → ∀ i,
    ((exec (EngineStep.runOp env) e (Alone.steps predicts)).scheduler.store i).promptTokenIds =
        (e.scheduler.store i).promptTokenIds ∧
      ((exec (EngineStep.runOp env) e (Alone.steps predicts)).scheduler.store i).samplingParams =
        (e.scheduler.store i).samplingParams
  | [], _, _, _ => ⟨rfl, rfl⟩
  | predict :: predicts, e, h, i => by
    obtain ⟨h1, h2⟩ := kept_steps env predicts (consistent_runOp env h (.step predict)) i
    obtain ⟨out, s₁, -, hs, -, -, hkept⟩ := step_trace env predict h rfl
    obtain ⟨h3, h4, -, -⟩ := hkept i
    have honly := (statusOnly_scheduled hs i).1
    refine ⟨h1.trans (h3.trans ?_), h2.trans (h4.trans ?_)⟩
    · rw [honly]
    · rw [honly]

/-- Two sequences of the same request, wherever they run, have comparable texts, and the text of one
that has finished is not the shorter one. -/
theorem Told.comparable {d d' : SequenceData} (h : Told env L d) (h' : Told env L d')
    (hprompt : d'.promptTokenIds = d.promptTokenIds)
    (hparams : d'.samplingParams = d.samplingParams) (htemp : d.samplingParams.temperature = 0) :
    (d.outputTokenIds <+: d'.outputTokenIds ∨ d'.outputTokenIds <+: d.outputTokenIds) ∧
      (d'.status = .finished → d.outputTokenIds <+: d'.outputTokenIds) := by
  have htext := h.text htemp
  have htext' := h'.text (by rw [hparams]; exact htemp)
  rw [hprompt] at htext'
  refine ⟨?_, fun hfin => ?_⟩
  · rcases Nat.le_total d.outputTokenIds.length d'.outputTokenIds.length with hle | hle
    · exact Or.inl (htext.isPrefix htext' hle)
    · exact Or.inr (htext'.isPrefix htext hle)
  · obtain ⟨hne, hstops⟩ := h'.finished hfin
    rw [hparams] at hstops
    exact htext.isPrefix_of_stops htext' h.unstopped hne hstops

/-- The run of a fresh engine with one request only. -/
def alone (rid : String) (prompt : List ℕ) (params : SamplingParams) (n : ℕ)
    (onToken : Option Callback) (predicts : List (Option (String → List ℕ → ℚ))) : List Op :=
  .addRequest rid prompt params n onToken :: Alone.steps predicts

/-- **A sequence produces what it produces alone**: in every run in which no call raises, the
outputs of a sequence with temperature 0 and those of the same request alone in a fresh engine are
prefixes of one another, and when the lone request has finished, those of the run are the prefix. -/
theorem outputs_as_alone (env : Env ρ) (L : RowModel ρ) (hL : RowLocal env L)
    (hpaged : env.usePagedContext = false) (cfg : SchedConfig) (kvCfg : KvConfig) (kv : ℕ → β)
    (ops : List Op) (hok : Along (runOp env) (OpReturns env) (start cfg kvCfg kv) ops) (i : ℕ)
    (prompt : List ℕ) (params : SamplingParams)
    (hprompt : ((exec (runOp env) (start cfg kvCfg kv) ops).scheduler.store i).promptTokenIds =
      prompt)
    (hparams : ((exec (runOp env) (start cfg kvCfg kv) ops).scheduler.store i).samplingParams =
    params)
    (htemp : params.temperature = 0) (cfg' : SchedConfig) (kvCfg' : KvConfig) (kv' : ℕ → β)
    (rid : String) (n : ℕ) (onToken : Option Callback)
    (predicts : List (Option (String → List ℕ → ℚ)))
    (halone : Along (runOp env) (OpReturns env) (start cfg' kvCfg' kv')
      (alone rid prompt params n onToken predicts)) (j : ℕ) (hj : j < n) :
    (((exec (runOp env) (start cfg kvCfg kv) ops).scheduler.store i).outputTokenIds <+:
        ((exec (runOp env) (start cfg' kvCfg' kv')
          (alone rid prompt params n onToken predicts)).scheduler.store j).outputTokenIds ∨
      ((exec (runOp env) (start cfg' kvCfg' kv')
          (alone rid prompt params n onToken predicts)).scheduler.store j).outputTokenIds <+:
        ((exec (runOp env) (start cfg kvCfg kv) ops).scheduler.store i).outputTokenIds) ∧
      (((exec (runOp env) (start cfg' kvCfg' kv')
          (alone rid prompt params n onToken predicts)).scheduler.store j).status = .finished →
        ((exec (runOp env) (start cfg kvCfg kv) ops).scheduler.store i).outputTokenIds <+:
          ((exec (runOp env) (start cfg' kvCfg' kv')
            (alone rid prompt params n onToken predicts)).scheduler.store j).outputTokenIds) := by
  have htold := ((allTold_start cfg kvCfg kv).exec hL hpaged ops hok).told i
  have htold' := ((allTold_start cfg' kvCfg' kv').exec hL hpaged _ halone).told j
  -- the lone sequence has the prompt and the parameters of the request
  obtain ⟨-, hcons, hadd⟩ := post_of_isOk (EngineInv.wp_addRequest rid prompt params n onToken
    (consistent_new cfg' kvCfg' kv')) halone.1
  have hkept := kept_steps env predicts hcons j
  rw [hadd.new j (Nat.zero_le j) (lt_of_lt_of_le hj (Nat.le_add_left _ _))] at hkept
  exact htold.comparable htold' (hkept.1.trans hprompt.symm) (hkept.2.trans hparams.symm)
    (by rw [hparams]; exact htemp)

/-- Two requests of which the second makes the first give up its block. -/
def crowded : List Op :=
  [.addRequest "a" [1, 2] { temperature := 0, maxTokens := 3 } 1 none, .step none,
    .addRequest "b" [4] { temperature := 0, maxTokens := 2 } 1 none, .step none,
    .step none, .step none]

theorem outputs_as_alone_crowded :
    Along (runOp (hfEnv sumModel id)) (OpReturns (hfEnv sumModel id))
        (start ⟨8, 64, by decide, by decide⟩ ⟨1, 4, by decide, by decide⟩ fun b => b) crowded ∧
      ((exec (runOp (hfEnv sumModel id)) (start ⟨8, 64, by decide, by decide⟩
        ⟨1, 4, by decide, by decide⟩ fun b =>
          b) crowded).scheduler.store 0).outputTokenIds = [3, 3] ∧
      ((exec (runOp (hfEnv sumModel id)) (start ⟨8, 64, by decide, by decide⟩
        ⟨1, 4, by decide, by decide⟩ fun b => b) crowded).scheduler.store 0).outputTokenIds <+:
      ((exec (runOp (hfEnv sumModel id)) (start ⟨8, 64, by decide, by decide⟩
        ⟨4, 4, by decide, by decide⟩ fun b =>
          b) (alone "a" [1, 2] { temperature := 0, maxTokens := 3 } 1
          none [none, none, none])).scheduler.store 0).outputTokenIds :=
  ⟨by decide, by decide, (outputs_as_alone (hfEnv sumModel id) sumModel.rowModel
    (rowLocal_of_followsHf (followsHf_hfEnv sumModel id)) rfl ⟨8, 64, by decide, by decide⟩
    ⟨1, 4, by decide, by decide⟩ (fun b => b) crowded (by decide) 0 [1, 2]
    { temperature := 0, maxTokens := 3 } (by decide) (by decide) rfl ⟨8, 64, by decide, by decide⟩
    ⟨4, 4, by decide, by decide⟩ (fun b => b) "a" 1 none [none, none, none] (by decide) 0
    (by decide)).2
    (by decide)⟩

end MoeInfinity.Serving.Solo
