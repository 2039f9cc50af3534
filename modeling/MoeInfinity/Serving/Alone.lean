import MoeInfinity.Serving.Pending

/-! # A request alone in the engine

A request of `n` sequences that is alone in the engine is admitted by the first call of `schedule`
if the batch, the token budget and the pool have room for its prompts (`Admits`). From then on its
sequences go in step: after `k` steps each of them has ended or has `k` outputs and the blocks for
them (`Lone`). So the blocks that it needs at most are those of `n` sequences with all outputs but
the last one, and the pool has to be that large (`runsAlone_iff`). -/

namespace MoeInfinity.Serving.Alone

open MoeInfinity.Python MoeInfinity.Lib.Imperative MoeInfinity.Lib.Runs
open MoeInfinity.Serving.Sequence MoeInfinity.Serving.KvCache MoeInfinity.Serving.KvCacheSpec
open MoeInfinity.Serving.Schedule MoeInfinity.Serving.Schedule.Scheduler
open MoeInfinity.Serving.Lifecycle MoeInfinity.Serving.ScheduleSpec MoeInfinity.Serving.ScheduleInv
open MoeInfinity.Serving.ScheduleCall MoeInfinity.Serving.ScheduleOps
  MoeInfinity.Serving.ModelRunner
open MoeInfinity.Serving.Engine MoeInfinity.Serving.EngineInv MoeInfinity.Serving.EngineStep
open MoeInfinity.Serving.Pool MoeInfinity.Serving.Queues MoeInfinity.Serving.Occupancy
open MoeInfinity.Serving.Progress MoeInfinity.Serving.Pending MoeInfinity.Serving.Callbacks

variable {β ρ : Type} {g : SequenceGroup} {prompt : List ℕ} {params : SamplingParams} {k : ℕ}

/-! ### States with one request -/

/-- A running sequence with `k` outputs, and with the blocks for its prompt of `p` tokens and
them. -/
structure At (size p k : ℕ) (l : Life β) : Prop where
  active : Active l.data.status
  outputs : l.data.outputTokenIds.length = k
  tokens : l.share.tokens = some (p + k)
  rows : l.share.rows.length = ceilDiv (p + k) size

/-- There is no other request, and this one neither waits nor is swapped out. -/
structure Only (g : SequenceGroup) (prompt : List ℕ) (params : SamplingParams) (s : Scheduler β) :
    Prop where
  waiting : s.waiting = []
  swapped : s.swapped = []
  running : s.running = [] ∨ s.running = [g]
  data : ∀ i ∈ g.sequenceIds,
    (s.store i).promptTokenIds = prompt ∧ (s.store i).samplingParams = params
  outside : ∀ i ∉ g.sequenceIds, (life s i).share.rows = []

/-- Sequence `i` of the request runs, with `k` outputs. -/
structure Runs (g : SequenceGroup) (prompt : List ℕ) (k : ℕ) (s : Scheduler β) (i : ℕ) : Prop where
  group : g ∈ s.running
  request : g ∈ s.requestMap
  stage : At s.kvCache.blockSize prompt.length k (life s i)

/-- Between two steps: every sequence has ended, or it is to decode and has fewer outputs than asked
for. -/
structure Lone (g : SequenceGroup) (prompt : List ℕ) (params : SamplingParams) (k : ℕ)
    (s : Scheduler β) : Prop where
  only : Only g prompt params s
  fate : ∀ i ∈ g.sequenceIds, (s.store i).status = .finished ∨
    (s.store i).status = .decode ∧ Runs g prompt k s i ∧ (k : ℤ) < params.maxTokens

/-- After `schedule`: the batch is made of the sequences that have not ended. -/
structure Batched (g : SequenceGroup) (prompt : List ℕ) (params : SamplingParams) (k : ℕ)
    (out : SchedulerOutput) (s : Scheduler β) : Prop where
  only : Only g prompt params s
  fate : ∀ i ∈ g.sequenceIds, (s.store i).status = .finished ∨ i ∈ batchIds out
  batch : ∀ i ∈ batchIds out, i ∈ g.sequenceIds ∧ Runs g prompt k s i
  fresh : ∀ i ∈ out.prefillSeqIds, (s.store i).numComputedTokens = 0

/-- The request has been added, and waits. -/
structure Entering (g : SequenceGroup) (prompt : List ℕ) (params : SamplingParams)
    (s : Scheduler β) :
    Prop where
  inv : Inv s
  waiting : s.waiting = [g]
  running : s.running = []
  swapped : s.swapped = []
  request : g ∈ s.requestMap
  inhabited : g.sequenceIds ≠ []
  new : ∀ i ∈ g.sequenceIds,
    s.store i = { seqId := i, promptTokenIds := prompt, samplingParams := params }
  outside : ∀ i ∉ g.sequenceIds, (life s i).share.rows = []

/-! ### `schedule` -/

theorem sortWaiting_of_le {s : Scheduler β} (h : s.waiting.length ≤ 1)
    (predict : Option (String → List ℕ → ℚ)) : sortWaiting predict s = s := by
  unfold sortWaiting
  cases predict with
  | none => rfl
  | some f =>
    simp only
    rw [if_neg (by omega)]

/-- Without swapped groups, `schedule` starts with the admission. -/
theorem wp_schedule_of_unswapped {s : Scheduler β} (hs : s.swapped = []) (hw : s.waiting.length ≤ 1)
    {predict : Option (String → List ℕ → ℚ)} {Q : SchedulerOutput → Scheduler β → Prop}
    (h : wp (admitWaiting s.waiting 0 0 {})
      (fun r s' => Q (selectDecode s' s'.runningIds r.1 r.2.1 r.2.2) s') (fun _ _ => False) s) :
    wp (schedule predict) Q (fun _ _ => False) s := by
  simp only [schedule, recoverSwappedGroups, hs, forEach, wp_bind, wp_current, wp_ite,
    wp_pure, wp_update, sortWaiting_of_le hw]
  exact ⟨fun _ => h, fun _ => h⟩

/-- With room for all, every sequence to decode is selected. -/
theorem selectDecode_all (s : Scheduler β) : ∀ (ids : List ℕ) (seqs tokens : ℕ)
    (out : SchedulerOutput), seqs + ids.length ≤ s.cfg.maxBatchSize →
    tokens + ids.length ≤ s.cfg.maxTokensPerStep →
    (selectDecode s ids seqs tokens out).decodeSeqIds =
      out.decodeSeqIds ++ ids.filter fun i => (s.store i).status = .decode
  | [], _, _, out, _, _ => (List.append_nil _).symm
  | i :: ids, seqs, tokens, out, hseqs, htokens => by
    rw [List.length_cons] at hseqs htokens
    unfold selectDecode
    split_ifs with h1 h2 h3
    · rw [selectDecode_all s ids seqs tokens out (by omega) (by omega),
        List.filter_cons_of_neg (by simpa using h1)]
    · omega
    · omega
    · rw [selectDecode_all s ids _ _ _ (by omega) (by omega),
        List.filter_cons_of_pos (by simpa using h1), List.append_assoc]
      rfl

/-- **A call of `schedule`** between two steps selects what has not ended. -/
theorem Lone.wp_schedule {s : Scheduler β} (h : Lone g prompt params k s)
    (hbatch : g.sequenceIds.length ≤ s.cfg.maxBatchSize)
    (htokens : g.sequenceIds.length ≤ s.cfg.maxTokensPerStep)
    (predict : Option (String → List ℕ → ℚ)) :
    wp (schedule predict) (fun out s' => Batched g prompt params k out s')
      (fun _ _ => False) s := by
  refine wp_schedule_of_unswapped h.only.swapped (by rw [h.only.waiting]; exact Nat.zero_le 1) ?_
  rw [h.only.waiting, admitWaiting, wp_pure]
  obtain ⟨-, -, -, -, hpre, -⟩ := selectDecode_spec s s.runningIds 0 0 {}
  have hids : batchIds (selectDecode s s.runningIds 0 0 {}) =
      s.runningIds.filter fun i => (s.store i).status = .decode := by
    unfold batchIds
    rw [hpre, selectDecode_all s s.runningIds 0 0 {}]
    · rfl
    all_goals
      unfold runningIds
      rcases h.only.running with h0 | h0
      · rw [h0]; exact Nat.zero_le _
      · rw [h0, List.flatMap_singleton, Nat.zero_add]
        assumption
  refine ⟨h.only, fun i hi => ?_, fun i hi => ?_, fun i hi => ?_⟩
  · refine (h.fate i hi).imp_right fun hfate => ?_
    obtain ⟨hst, hruns, -⟩ := hfate
    rw [hids, List.mem_filter]
    exact ⟨List.mem_flatMap.mpr ⟨g, hruns.group, hi⟩, by simpa using hst⟩
  · rw [hids, List.mem_filter] at hi
    obtain ⟨hi, hst⟩ := hi
    have hst : (s.store i).status = .decode := by simpa using hst
    have hig : i ∈ g.sequenceIds := by
      unfold runningIds at hi
      rcases h.only.running with h0 | h0 <;> rw [h0] at hi
      · exact absurd hi List.not_mem_nil
      · simpa using hi
    refine ⟨hig, ?_⟩
    rcases h.fate i hig with h0 | h0
    · rw [hst] at h0
      cases h0
    · exact h0.2.1
  · rw [hpre] at hi
    exact absurd hi List.not_mem_nil

/-- The batch, the budget and the pool have room for the prompts of `n` sequences. -/
def Admits (s : Scheduler β) (n p : ℕ) : Prop :=
  n ≤ s.cfg.maxBatchSize ∧ n * p ≤ s.cfg.maxTokensPerStep ∧
    n * ceilDiv p s.kvCache.blockSize ≤ (sizes s.kvCache).numBlocks

theorem sum_map_const {ids : List ℕ} {f : ℕ → ℕ} {c : ℕ} (h : ∀ i ∈ ids, f i = c) :
    (ids.map f).sum = ids.length * c := by
  rw [List.map_congr_left h, List.map_const', List.sum_replicate_nat]

section Entering

variable {s : Scheduler β} (h : Entering g prompt params s)
include h

theorem Entering.nodup : g.sequenceIds.Nodup := h.inv.group_nodup h.request

theorem Entering.status {i : ℕ} (hi : i ∈ g.sequenceIds) : (s.store i).status = .waiting := by
  rw [h.new i hi]

theorem Entering.withStatus_waiting : s.withStatus g .waiting = g.sequenceIds :=
  List.filter_eq_self.mpr fun _ hi => decide_eq_true (h.status hi)

theorem Entering.free : s.numFreeBlocks = (sizes s.kvCache).numBlocks := by
  refine free_add_blocksOf h.inv List.nodup_nil fun i _ => ?_
  by_cases hi : i ∈ g.sequenceIds
  · refine (h.inv.ok i).rows ((h.inv.ok i).tokens_none ?_)
    change ¬ HasTable (s.store i).status
    rw [h.status hi]
    decide
  · exact h.outside i hi

/-- The sequences have been admitted. -/
theorem Entering.admitted {s' : Scheduler β} (hE : Each (fun _ => Admitted s.kvCache.blockSize)
    g.sequenceIds { s with waiting := [], running := [g] } s') :
    Only g prompt params s' ∧ ∀ i ∈ g.sequenceIds, (s'.store i).status = .prefill ∧
      (s'.store i).numComputedTokens = 0 ∧ Runs g prompt 0 s' i := by
  have hrun : s'.running = [g] := hE.same.running
  have hlife : ∀ i ∈ g.sequenceIds, ∃ rows : List β,
      rows.length = ceilDiv prompt.length s.kvCache.blockSize ∧
      life s' i = (life s i).admitted rows := by
    intro i hi
    obtain ⟨rows, hrows, hl⟩ := hE.each i hi
    have hrows : rows.length = ceilDiv (s.store i).promptLength s.kvCache.blockSize := hrows
    rw [h.new i hi] at hrows
    exact ⟨rows, hrows, hl⟩
  have hstore : ∀ i ∈ g.sequenceIds, s'.store i = { s.store i with status := .prefill } := by
    intro i hi
    obtain ⟨rows, -, hl⟩ := hlife i hi
    exact congrArg Life.data hl
  refine ⟨⟨hE.same.waiting, hE.same.swapped.trans h.swapped, Or.inr hrun, fun i hi => ?_,
    fun i hi => ?_⟩,
    fun i hi => ⟨by rw [hstore i hi], by rw [hstore i hi, h.new i hi], ⟨?_, ?_, ?_⟩⟩⟩
  · rw [hstore i hi, h.new i hi]
    exact ⟨rfl, rfl⟩
  · rw [hE.other i hi]
    exact h.outside i hi
  · rw [hrun]
    exact List.mem_singleton_self g
  · rw [hE.same.requestMap]
    exact h.request
  · obtain ⟨rows, hrows, hl⟩ := hlife i hi
    have hsize : s'.kvCache.blockSize = s.kvCache.blockSize := hE.same.blockSize
    rw [hl, hsize]
    refine ⟨Or.inl rfl, ?_, ?_, hrows⟩
    · change (s.store i).outputTokenIds.length = 0
      rw [h.new i hi]
      rfl
    · change some (s.store i).promptLength = _
      rw [h.new i hi]
      rfl

/-- **The first call of `schedule`** admits the request if there is room for it. -/
theorem Entering.wp_schedule (predict : Option (String → List ℕ → ℚ)) :
    wp (schedule predict) (fun out s' =>
      (Admits s g.sequenceIds.length prompt.length ∧ out.prefillSeqIds = g.sequenceIds ∧
        Batched g prompt params 0 out s') ∨
      (¬ Admits s g.sequenceIds.length prompt.length ∧ out.prefillSeqIds = []))
      (fun _ _ => False) s := by
  refine wp_schedule_of_unswapped h.swapped (by rw [h.waiting]; exact le_rfl) ?_
  -- nothing is admitted when a limit is exceeded
  have hnone : ∀ (seqs tokens : ℕ),
      (selectDecode s s.runningIds seqs tokens {}).prefillSeqIds = [] := by
    intro seqs tokens
    obtain ⟨-, -, -, -, hpre, -⟩ := selectDecode_spec s s.runningIds seqs tokens {}
    exact hpre
  have hmap : (g.sequenceIds.map s.store).map (·.seqId) = g.sequenceIds := by
    rw [List.map_map]
    exact (List.map_congr_left fun i _ => h.inv.seqId i).trans (List.map_id _)
  have htokens : ((g.sequenceIds.map s.store).map numPrefillTokens).sum =
      g.sequenceIds.length * prompt.length := by
    rw [List.map_map]
    exact sum_map_const fun i hi => by
      change numPrefillTokens (s.store i) = _
      rw [h.new i hi]
      rfl
  have hblocks : ((g.sequenceIds.map s.store).map s.requiredBlocks).sum =
      g.sequenceIds.length * ceilDiv prompt.length s.kvCache.blockSize := by
    rw [List.map_map]
    exact sum_map_const fun i hi => by
      change s.requiredBlocks (s.store i) = _
      rw [requiredBlocks_eq, h.new i hi]
      rfl
  simp only [h.waiting, admitWaiting, h.withStatus_waiting, htokens, hblocks, List.length_map,
    List.map_eq_nil_iff, h.inhabited, wp_bind, wp_current, wp_ite, wp_pure, false_implies,
    not_false_eq_true, true_implies, true_and, Nat.zero_add]
  refine ⟨fun hlt => Or.inr ⟨fun h0 => absurd h0.1 (not_le.mpr hlt), hnone _ _⟩, fun hbatch =>
    ⟨fun hlt => Or.inr ⟨fun h0 => absurd h0.2.1 (not_le.mpr hlt), hnone _ _⟩, fun hbudget => ?_⟩⟩
  simp only [makeRoom, preemptOldestRunningGroup, preemptLoop, h.running, h.free,
    wp_bind, wp_current, wp_ite, wp_pure, wp_update, true_implies, not_true_eq_false,
    false_implies, and_true,
    Bool.true_eq_false, not_false_eq_true, true_and]
  refine ⟨fun hlt => Or.inr ⟨fun h0 => absurd h0.2.2 (not_le.mpr hlt), hnone _ _⟩, fun hroom => ?_⟩
  refine wp_mono (wp_admitSequences g.sequenceIds { s with waiting := [], running := [g] }
    h.nodup h.inv.wf (fun i hi => ⟨h.inv.ok i, h.status hi, h.inv.seqId i⟩) ?_) ?_ fun _ _ h0 => h0
  · change (g.sequenceIds.map fun i => s.requiredBlocks (s.store i)).sum ≤ s.numFreeBlocks
    rw [List.map_map] at hblocks
    rw [h.free]
    exact hblocks.trans_le (not_lt.mp hroom)
  · intro _ s' hE
    obtain ⟨honly, hruns⟩ := h.admitted hE
    refine Or.inl ⟨⟨not_lt.mp hbatch, not_lt.mp hbudget, not_lt.mp hroom⟩, ?_⟩
    rw [hmap, List.nil_append]
    obtain ⟨l, hl, hdec, hdecode, hprefill, -⟩ := selectDecode_spec s' s'.runningIds
      g.sequenceIds.length (g.sequenceIds.length * prompt.length)
      { prefillSeqIds := g.sequenceIds, numPrefillTokens := 0 + g.sequenceIds.length * prompt.length }
    have hnil : l = [] := by
      refine List.eq_nil_iff_forall_not_mem.mpr fun i hi => ?_
      have hmem := hl.subset hi
      unfold runningIds at hmem
      rw [hE.same.running, List.flatMap_singleton] at hmem
      have hst := (hruns i hmem).1
      rw [hdec i hi] at hst
      cases hst
    rw [hnil] at hdecode
    refine ⟨hprefill, honly, fun i hi => Or.inr ?_, fun i hi => ?_, fun i hi => ?_⟩
    · unfold batchIds
      rw [hprefill]
      exact List.mem_append_left _ hi
    · unfold batchIds at hi
      rw [hprefill, hdecode, List.append_nil, List.append_nil] at hi
      exact ⟨hi, (hruns i hi).2.2⟩
    · rw [hprefill] at hi
      exact (hruns i hi).2.1

end Entering

/-! ### The end of a step -/

/-- A running sequence that grows has one more output, and the blocks for it. -/
theorem At.grown {size p t : ℕ} {l l' : Life β} (h : At size p k l) (hsize : 0 < size)
    (hg : Grown size (l.appended t) l') : l'.data.status = .decode ∧ At size p (k + 1) l' := by
  obtain ⟨n, new, hn, hnew, rfl⟩ := hg
  have hn : l.share.tokens = some n := hn
  rw [h.tokens] at hn
  have hn : p + k = n := Option.some.inj hn
  subst hn
  refine ⟨rfl, Or.inr rfl, ?_, rfl, ?_⟩
  · change (l.data.outputTokenIds ++ [t]).length = k + 1
    rw [List.length_append, h.outputs, List.length_singleton]
  · change (l.share.rows ++ new).length = ceilDiv (p + (k + 1)) size
    rw [List.length_append, h.rows, hnew, ← Nat.add_assoc, ceilDiv_succ hsize]

open ContinuousBatchingEngine in
/-- A sequence with `k` outputs meets its finish condition. -/
def MetFinish (env : Env ρ) (params : SamplingParams) (k : ℕ) : Prop :=
  ∃ d t, d.outputTokenIds.length = k ∧ d.samplingParams = params ∧
    (getFinishReason env d t).isSome = true

open ContinuousBatchingEngine in
/-- **A step that returns**: the sequences of the batch have ended, or have one more output. -/
theorem Batched.close {env : Env ρ} {predict : Option (String → List ℕ → ℚ)}
    {e e₁ : ContinuousBatchingEngine β} {out : SchedulerOutput} {s₁ s' : Scheduler β}
    {tokens : List ℕ} {outputs : List RequestOutput} (h : Batched g prompt params k out s₁)
    (hacc : Accepted env predict e out s₁ tokens outputs e₁)
    (hrep : ∀ o ∈ outputs, Reported env e₁.scheduler o)
    (hupd : ∃ s₂ s₃, Each (Updated e₁.scheduler (completedSeqIds outputs))
        (fromkeys (newDecodeSeqIds outputs)) e₁.scheduler s₂ ∧
      Each (Closed s₂) (fromkeys (completedSeqIds outputs)) s₂ s₃ ∧
      s' = pruneFinishedAndCancelledRequests s₃) :
    Lone g prompt params (k + 1) s' ∧ ∀ i ∈ batchIds out, (s'.store i).status = .finished →
      MetFinish env params (k + 1) := by
  obtain ⟨s₂, s₃, hE, hE₂, rfl⟩ := hupd
  have hlife := step_life hacc hrep hE hE₂
  have hsame := (hacc.lives.same.trans hE.same).trans hE₂.same
  have hp := prunes_prune s₃
  set s' := pruneFinishedAndCancelledRequests s₃ with hs'
  have hwait : s'.waiting = [] := by
    change s₃.waiting.filter _ = []
    rw [hsame.waiting, h.only.waiting]
    rfl
  have hswap : s'.swapped = [] := by
    change s₃.swapped.filter _ = []
    rw [hsame.swapped, h.only.swapped]
    rfl
  have hrun : s'.running = [] ∨ s'.running = [g] := by
    have hsub : s'.running.Sublist [g] := by
      refine (List.filter_sublist (l := s₃.running)).trans ?_
      rw [hsame.running]
      rcases h.only.running with h0 | h0
      · rw [h0]; exact List.nil_sublist _
      · rw [h0]
    exact List.sublist_singleton.mp hsub
  have hstep : ∀ i, i ∉ batchIds out ∧ life s' i = life s₁ i ∨
      i ∈ batchIds out ∧ Advanced env s₁.kvCache.blockSize (life s₁ i) (life s' i) := by
    intro i
    rw [life_prune]
    exact hlife i
  have hsize : s'.kvCache.blockSize = s₁.kvCache.blockSize :=
    (shrinks_prune s₃).blockSize.trans hsame.blockSize
  refine ⟨⟨⟨hwait, hswap, hrun, fun i hi => ?_, fun i hi => ?_⟩, fun i hi => ?_⟩,
    fun i hb hfin => ?_⟩
  · rcases hstep i with ⟨-, h0⟩ | ⟨-, h0⟩
    · rw [show s'.store i = s₁.store i from congrArg Life.data h0]
      exact h.only.data i hi
    · obtain ⟨h1, h2⟩ := h0.data
      exact ⟨h1.trans (h.only.data i hi).1, h2.trans (h.only.data i hi).2⟩
  · rcases hstep i with ⟨-, h0⟩ | ⟨hb, -⟩
    · rw [h0]
      exact h.only.outside i hi
    · exact absurd (h.batch i hb).1 hi
  · rcases hstep i with ⟨hb, h0⟩ | ⟨hb, h0⟩
    · left
      rw [show s'.store i = s₁.store i from congrArg Life.data h0]
      exact (h.fate i hi).resolve_right hb
    · have hruns := (h.batch i hb).2
      generalize hl' : life s' i = l' at h0
      have hdata : s'.store i = l'.data := congrArg Life.data hl'
      cases h0 with
      | ended t hr =>
        left
        rw [hdata]
        have hlive : (s₁.store i).Live := hruns.stage.active.hasTable.live
        exact if_pos hlive
      | grown t _ hr hg =>
        right
        obtain ⟨hst, hat⟩ := hruns.stage.grown s₁.kvCache.blockAllocator.cfg.blockSize_pos hg
        have hact : s'.hasActive g = true := by
          refine hasActive_iff.mpr ⟨i, hi, HasTable.live ?_⟩
          rw [hdata, hst]
          decide
        have hreq : g ∈ s₃.requestMap := by rw [hsame.requestMap]; exact hruns.request
        have hq : g ∈ queuedGroups s' := by
          refine hp.queued g ?_ hreq hact
          unfold queuedGroups
          rw [hsame.running]
          exact List.mem_append_left _ (List.mem_append_right _ hruns.group)
        refine ⟨by rw [hdata]; exact hst, ⟨?_, ?_, by rw [hl', hsize]; exact hat⟩, ?_⟩
        · unfold queuedGroups at hq
          rw [hwait, hswap, List.nil_append, List.append_nil] at hq
          exact hq
        · rw [hp.requestMap]
          exact List.mem_filter.mpr ⟨hreq, hact⟩
        · have hshort := short_of_reason hr
          unfold Short at hshort
          have hparams : (s₁.store i).samplingParams = params := (h.only.data i hi).2
          have hlen : (s₁.store i).outputTokenIds.length = k := hruns.stage.outputs
          have hshort : (((s₁.store i).outputTokenIds ++ [t]).length : ℤ) <
            (s₁.store i).samplingParams.maxTokens := hshort
          rw [List.length_append, hlen, hparams] at hshort
          exact hshort
      | parked t hr hst => exact absurd hruns.stage.active hst
  · obtain ⟨hi, hruns⟩ := h.batch i hb
    have hadv := ((hstep i).resolve_left fun h0 => h0.1 hb).2
    generalize hl' : life s' i = l' at hadv
    rw [show s'.store i = l'.data from congrArg Life.data hl'] at hfin
    cases hadv with
    | ended t hr =>
      refine ⟨((life s₁ i).appended t).data, t, ?_, (h.only.data i hi).2, hr⟩
      change ((life s₁ i).data.outputTokenIds ++ [t]).length = k + 1
      rw [List.length_append, hruns.stage.outputs]
      rfl
    | grown t _ hr hg =>
      rw [(hruns.stage.grown s₁.kvCache.blockAllocator.cfg.blockSize_pos hg).1] at hfin
      cases hfin
    | parked t hr hst => exact absurd hruns.stage.active hst

/-! ### The pool suffices -/

theorem sum_map_le {ids : List ℕ} {f : ℕ → ℕ} {c : ℕ} (h : ∀ i ∈ ids, f i ≤ c) :
    (ids.map f).sum ≤ ids.length * c := by
  have hle := List.sum_le_sum h
  rwa [sum_map_const (f := fun _ => c) fun _ _ => rfl] at hle

open ContinuousBatchingEngine in
/-- If the pool has the blocks of all sequences with all outputs but the last one, the sequences of
a batch find the blocks they need to grow. -/
theorem Batched.growth_fits {env : Env ρ} {predict : Option (String → List ℕ → ℚ)}
    {e e₁ : ContinuousBatchingEngine β} {out : SchedulerOutput} {s₁ : Scheduler β}
    {tokens : List ℕ} {outputs : List RequestOutput} (h : Batched g prompt params k out s₁)
    (hacc : Accepted env predict e out s₁ tokens outputs e₁)
    (hrep : ∀ o ∈ outputs, Reported env e₁.scheduler o) (hnd : g.sequenceIds.Nodup)
    (hroom : g.sequenceIds.length * ceilDiv (prompt.length + params.maxTokens.toNat - 1)
      s₁.kvCache.blockSize ≤ (sizes e₁.scheduler.kvCache).numBlocks) :
    growthNeed e₁.scheduler (completedSeqIds outputs) (newDecodeSeqIds outputs) ≤
      e₁.scheduler.numFreeBlocks := by
  set new := fromkeys (newDecodeSeqIds outputs) with hnew
  have hsize : e₁.scheduler.kvCache.blockSize = s₁.kvCache.blockSize := hacc.lives.same.blockSize
  have hinv := hacc.consistent.inv
  have hlife : ∀ i, (life e₁.scheduler i).share = (life s₁ i).share := by
    intro i
    by_cases hb : i ∈ batchIds out
    · obtain ⟨t, -, hl⟩ := hacc.lives.each i hb
      rw [hl]
      rfl
    · rw [hacc.lives.other i hb]
  have hfree := free_add_blocksOf hinv hnd fun i hi => by
    rw [hlife i]
    exact h.only.outside i hi
  have hused : blocksOf e₁.scheduler g.sequenceIds ≤
      g.sequenceIds.length * ceilDiv (prompt.length + k) s₁.kvCache.blockSize := by
    refine sum_map_le fun i hi => ?_
    rw [hlife i]
    rcases h.fate i hi with h0 | h0
    · have hok := hacc.scheduled.inv.ok i
      rw [hok.rows (hok.tokens_none ?_)]
      · exact Nat.zero_le _
      · change ¬ HasTable (s₁.store i).status
        rw [h0]
        decide
    · exact (h.batch i h0).2.stage.rows.le
  have hbatch : ∀ i ∈ new, i ∈ batchIds out := fun i hi =>
    (Selection.mem_batch_iff hacc.outputs i).mpr (Or.inr (mem_fromkeys.mp hi))
  have hcount : new.length ≤ g.sequenceIds.length :=
    ((nodup_fromkeys _).subperm fun i hi => (h.batch i (hbatch i hi)).1).length_le
  have hneed : growthNeed e₁.scheduler (completedSeqIds outputs) (newDecodeSeqIds outputs) ≤
      new.length * if (prompt.length + k) % s₁.kvCache.blockSize = 0 then 1 else 0 := by
    refine sum_map_le fun i hi => ?_
    have htok : (life e₁.scheduler i).share.tokens = some (prompt.length + k) := by
      rw [hlife i]
      exact (h.batch i (hbatch i hi)).2.stage.tokens
    unfold growthOf
    rw [htok, hsize]
    split_ifs with h1 h2 h2
    · exact le_rfl
    · exact absurd h1.2 h2
    · exact Nat.zero_le _
    · exact le_rfl
  by_cases hnil : new = []
  · rw [hnil, List.length_nil, Nat.zero_mul] at hneed
    omega
  · obtain ⟨i, hi⟩ := List.exists_mem_of_ne_nil new hnil
    obtain ⟨o, ho, rfl⟩ := List.mem_map.mp (mem_fromkeys.mp hi)
    obtain ⟨ho, hfin⟩ := List.mem_filter.mp ho
    have hreason := (hrep o ho).finished
    rw [show o.finished = false by simpa using hfin] at hreason
    have hshort := short_of_reason hreason.symm
    have hb := hbatch o.seqId hi
    obtain ⟨t, -, hl⟩ := hacc.lives.each o.seqId hb
    have hdata : e₁.scheduler.store o.seqId = ((life s₁ o.seqId).appended t).data :=
      congrArg Life.data hl
    have hlen : ((life s₁ o.seqId).appended t).data.outputTokenIds.length = k + 1 := by
      change ((life s₁ o.seqId).data.outputTokenIds ++ [t]).length = k + 1
      rw [List.length_append, (h.batch _ hb).2.stage.outputs]
      rfl
    have hparams : ((life s₁ o.seqId).appended t).data.samplingParams = params :=
      (h.only.data _ (h.batch _ hb).1).2
    unfold Short at hshort
    rw [hdata, hlen, hparams] at hshort
    have hmono : ceilDiv (prompt.length + k + 1) s₁.kvCache.blockSize ≤
        ceilDiv (prompt.length + params.maxTokens.toNat - 1) s₁.kvCache.blockSize :=
      ceilDiv_mono _ (by omega)
    have hpos : 0 < s₁.kvCache.blockSize := s₁.kvCache.blockAllocator.cfg.blockSize_pos
    rw [ceilDiv_succ hpos] at hmono
    have hall := (Nat.mul_le_mul_left g.sequenceIds.length hmono).trans hroom
    rw [Nat.mul_add] at hall
    have hgrow := hneed.trans (Nat.mul_le_mul_right _ hcount)
    omega

/-! ### Steps -/

/-- The pool has the blocks of `n` sequences with all outputs but the last one. -/
def PoolFits (kvCfg : KvConfig) (prompt : List ℕ) (params : SamplingParams) (n : ℕ) : Prop :=
  n * ceilDiv (prompt.length + params.maxTokens.toNat - 1) kvCfg.blockSize ≤ kvCfg.numBlocks

/-- No sequence is left when `schedule` selects nothing. -/
theorem Batched.lone_of_nil {out : SchedulerOutput} {s : Scheduler β}
    (h : Batched g prompt params k out s) (hnil : batchIds out = []) (k' : ℕ) :
    Lone g prompt params k' s := by
  refine ⟨h.only, fun i hi => (h.fate i hi).imp_right fun h0 => ?_⟩
  rw [hnil] at h0
  exact absurd h0 List.not_mem_nil

open ContinuousBatchingEngine in
/-- **A step of a lone request**: before its announcements it raises only if the model does or the
pool is too small. -/
theorem wp_advance_alone (env : Env ρ) {predict : Option (String → List ℕ → ℚ)}
    {e : ContinuousBatchingEngine β} (hcon : Consistent e)
    (hsched : wp (schedule predict) (fun out s₁ => Batched g prompt params k out s₁)
      (fun _ _ => False) e.scheduler) (hnd : g.sequenceIds.Nodup) :
    wp (advance env predict) (fun _ e' => Lone g prompt params (k + 1) e'.scheduler ∧
        ∀ i ∈ g.sequenceIds, (e.scheduler.store i).Live →
          (e'.scheduler.store i).status = .finished → MetFinish env params (k + 1))
      (fun _ _ => ((stepTokens env predict).run e).2.isOk = true →
        ¬ PoolFits (sizes e.scheduler.kvCache) prompt params g.sequenceIds.length) e := by
  rw [advance, wp_bind]
  refine wp_mono (wp_and (wp_and (wp_and (wp_stepTokens env predict hcon)
    (wp_stepTokens_reported env predict e)) ((leaves_stepTokens env predict).wp e))
    (wp_isOk (stepTokens env predict) e)) ?_ ?_
  · rintro r e₁ ⟨⟨⟨htokens, hrep⟩, hlimits⟩, -⟩
    have hlimits : limits e₁.scheduler = limits e.scheduler := hlimits
    have hstays : ∀ {out s₁}, (schedule predict).run e.scheduler = (s₁, .ok out) →
    ∀ i ∈ g.sequenceIds,
        (e.scheduler.store i).Live → i ∈ batchIds out := by
      intro out s₁ hrun i hi hl
      have hl₁ := ((wp_ok (wp_schedule_keeps predict hcon.inv) hrun).2.1.live i).mpr hl
      exact ((wp_ok hsched hrun).fate i hi).resolve_left hl₁.1
    cases r with
    | none =>
      obtain ⟨out, hrun, hpre, hdec⟩ := hrep
      have hnil : batchIds out = [] := List.append_eq_nil_iff.mpr ⟨hpre, hdec⟩
      rw [wp_pure]
      refine ⟨(wp_ok hsched hrun).lone_of_nil hnil (k + 1), fun i hi hl => ?_⟩
      have hb := hstays hrun i hi hl
      rw [hnil] at hb
      exact absurd hb List.not_mem_nil
    | some outputs =>
      obtain ⟨out, s₁, tokens, hacc⟩ := htokens
      have hb := wp_ok hsched hacc.ran
      have hrep := hrep (by rw [hacc.outputs]; exact hacc.nodup)
      simp only [wp_bind, wp_onScheduler, wp_pure]
      refine wp_mono (wp_updateAfterStep (completedSeqIds outputs) (newDecodeSeqIds outputs)
        hacc.consistent.inv) ?_ ?_
      · intro _ s' hupd
        obtain ⟨hlone, hfin⟩ := hb.close hacc hrep hupd
        exact ⟨hlone, fun i hi hl => hfin i (hstays hacc.ran i hi hl)⟩
      · rintro _ s' (⟨hlt, -⟩ | ⟨s₂, hE, ⟨i, hi, -, hst⟩, -⟩) - hroom
        · refine absurd (hb.growth_fits hacc hrep hnd ?_) (not_le.mpr hlt)
          rw [show sizes e₁.scheduler.kvCache = sizes e.scheduler.kvCache
            from congrArg Prod.snd hlimits, hacc.scheduled.blockSize]
          exact hroom
        · have hbi := (Selection.mem_batch_iff hacc.outputs i).mpr (Or.inl hi)
          obtain ⟨t, -, hl⟩ := hacc.lives.each i hbi
          have hdata : s₂.store i = ((life s₁ i).appended t).data :=
            congrArg Life.data ((life_of_completed hE hi).trans hl)
          rw [hdata] at hst
          have hst : (s₁.store i).status = .waiting := hst
          have hact : Active (s₁.store i).status := (hb.batch i hbi).2.stage.active
          rw [hst] at hact
          exact absurd hact (by decide)
  · rintro _ e₁ ⟨-, hno⟩ hok
    rw [hno] at hok
    cases hok

/-! ### A model that always returns -/

/-- A model whose logits are all `x`; it never ends a sequence. -/
def quiet (x : ρ) : Env ρ where
  pagedClasses := false
  hasBackend := false
  runnerBlockSize := 1
  runnerBlockSize_pos := Nat.one_pos
  forward := fun _ inputs => .ok (.rank3 (inputs.inputIds.map fun row => row.map fun _ => x))
  argmax := fun _ => 0
  draw := fun _ _ _ => 0
  eosTokenId := none
  decodeTokens := fun _ => none

section Quiet

open MoeInfinity.Serving.Batch

variable (x : ρ)

theorem length_padded {b : BatchMetadata} {r : BatchRow} (hr : r ∈ b.rows) :
    (padded (maxSeqLen b) r.tokens).length = maxSeqLen b := by
  have hle := le_maxSeqLen hr
  unfold padded
  rw [List.length_append, List.length_replicate]
  omega

theorem maskedRows_quiet (w : ℕ) : ∀ rows : List BatchRow,
    maskedRows rows (rows.map fun r => (padded w r.tokens).map fun _ => x) =
      rows.flatMap fun r => List.replicate r.tokens.length x
  | [] => rfl
  | r :: rows => by
    rw [List.map_cons, maskedRows, maskedRows_quiet w rows, List.flatMap_cons]
    congr 1
    unfold padded
    rw [List.map_const', List.take_replicate, List.length_append]
    congr 1
    omega

theorem execute_quiet (calls : List Call) (b : BatchMetadata) :
    ∃ calls', execute (quiet x) calls b =
      (calls', .ok (b.rows.flatMap fun r => List.replicate r.tokens.length x)) := by
  have hlen : (b.rows.flatMap fun r => List.replicate r.tokens.length x).length =
      b.totalTokens := by
    unfold BatchMetadata.totalTokens BatchMetadata.inputTokenIds
    rw [List.length_flatMap, List.length_flatMap]
    exact congrArg List.sum (List.map_congr_left fun r _ => List.length_replicate)
  unfold execute
  split_ifs with hzero
  · refine ⟨calls, ?_⟩
    rw [List.eq_nil_of_length_eq_zero (hlen.trans hzero)]
  · refine ⟨calls ++ [⟨b, prepareInputs b none⟩], ?_⟩
    have hpack :
        packLogits b (.rank3 ((prepareInputs b none).inputIds.map fun row => row.map fun _ => x)) =
          .ok (b.rows.flatMap fun r => List.replicate r.tokens.length x) := by
      simp only [packLogits, prepareInputs, List.map_map]
      refine (if_pos ⟨List.length_map _, fun l hl => ?_⟩).trans
        (congrArg Except.ok (maskedRows_quiet x (maxSeqLen b) b.rows))
      obtain ⟨r, hr, rfl⟩ := List.mem_map.mp hl
      exact (List.length_map _).trans (length_padded hr)
    change (_, (packLogits b _ >>= _)) = _
    rw [hpack]
    change (_, (if _ ≠ _ then _ else _)) = _
    rw [if_neg (not_not.mpr hlen)]
    rfl

theorem extractLast_quiet : ∀ rows : List BatchRow, (∀ r ∈ rows, r.tokens ≠ []) →
    extractLastTokenLogits rows (rows.flatMap fun r => List.replicate r.tokens.length x) =
      .ok (rows.map fun _ => x)
  | [], _ => rfl
  | r :: rows, h => by
    have hpos : 0 < r.tokens.length := List.length_pos_of_ne_nil (h r List.mem_cons_self)
    rw [extractLastTokenLogits, if_neg (by omega), List.flatMap_cons,
      List.getElem?_append_left (by rw [List.length_replicate]; omega),
      List.getElem?_replicate_of_lt (by omega), List.drop_left' List.length_replicate,
      extractLast_quiet rows fun r' hr' => h r' (List.mem_cons_of_mem r hr')]
    rfl

theorem sample_quiet (calls : List Call) : ∀ rows : List BatchRow,
    (∀ r ∈ rows, 0 ≤ r.samplingParams.temperature) →
    ∃ tokens, sample (quiet x) calls (rows.map fun _ => x) (rows.map (·.samplingParams)) =
      .ok tokens
  | [], _ => ⟨[], rfl⟩
  | r :: rows, h => by
    obtain ⟨tokens, ht⟩ := sample_quiet calls rows fun r' hr' => h r' (List.mem_cons_of_mem r hr')
    have hrow : sampleRow (quiet x) calls x r.samplingParams = .ok 0 := by
      unfold sampleRow
      split_ifs with h1 h2
      · rfl
      · exact absurd h2 (Rat.not_lt.mpr (h r List.mem_cons_self))
      · rfl
    refine ⟨0 :: tokens, ?_⟩
    rw [List.map_cons, List.map_cons, sample, hrow, ht]
    rfl

/-- The model has tokens for every batch without empty rows. -/
theorem sampled_quiet (calls : List Call) {b : BatchMetadata}
    (htokens : ∀ r ∈ b.rows, r.tokens ≠ [])
    (htemp : ∀ r ∈ b.rows, 0 ≤ r.samplingParams.temperature) :
    ∃ calls' tokens, Sampled (quiet x) calls b calls' tokens := by
  obtain ⟨calls', hexec⟩ := execute_quiet x calls b
  obtain ⟨tokens, ht⟩ := sample_quiet x calls' b.rows htemp
  exact ⟨calls', tokens, _, _, hexec, extractLast_quiet x b.rows htokens, ht⟩

end Quiet

/-! ### Runs -/

/-- The steps of a run, with the scores that the manager gives in each of them. -/
def steps (predicts : List (Option (String → List ℕ → ℚ))) : List Op := predicts.map Op.step

open ContinuousBatchingEngine in
/-- The model and the sampler return in the step. -/
def ModelReturns (env : Env ρ) (e : ContinuousBatchingEngine β) : Op → Prop
  | .step predict => ((stepTokens env predict).run e).2.isOk = true
  | _ => True

/-- The step grows the blocks of its sequences, so that it raises in a callback or the eviction hook
at most. -/
def Advances (env : Env ρ) (e : ContinuousBatchingEngine β) : Op → Prop
  | .step predict => ((advance env predict).run e).2.isOk = true
  | _ => True

/-- The request that has been added runs to completion: the first call of `schedule` admits all its
sequences, a step grows their blocks unless the model raises, and after `maxTokens` steps all
sequences have finished. -/
structure RunsAlone (env : Env ρ) (e : ContinuousBatchingEngine β) (ids : List ℕ) (maxTokens : ℕ) :
    Prop where
  admitted : ∀ predict, wp (schedule predict) (fun out _ => out.prefillSeqIds = ids)
    (fun _ _ => False) e.scheduler
  grows : ∀ predicts, Along (runOp env) (ModelReturns env) e (steps predicts) →
    Along (runOp env) (Advances env) e (steps predicts)
  completes : ∀ predicts, Along (runOp env) (ModelReturns env) e (steps predicts) →
    predicts.length = maxTokens →
    ∀ i ∈ ids, ((exec (runOp env) e (steps predicts)).scheduler.store i).status = .finished

/-- The limits of the engine have room for the request. -/
def Room (cfg : SchedConfig) (kvCfg : KvConfig) (prompt : List ℕ)
    (params : SamplingParams) (n : ℕ) :
    Prop :=
  n ≤ cfg.maxBatchSize ∧ n * prompt.length ≤ cfg.maxTokensPerStep ∧ PoolFits kvCfg prompt params n

/-- The request after `k` steps. -/
structure Stage (g : SequenceGroup) (prompt : List ℕ) (params : SamplingParams) (k : ℕ)
    (e : ContinuousBatchingEngine β) : Prop where
  consistent : Consistent e
  sched : k = 0 ∧ Entering g prompt params e.scheduler ∨ Lone g prompt params k e.scheduler

section Stage

variable {e : ContinuousBatchingEngine β}

theorem Stage.batched (h : Stage g prompt params k e) (hp : prompt ≠ [])
    (hadm : Admits e.scheduler g.sequenceIds.length prompt.length)
    (predict : Option (String → List ℕ → ℚ)) :
    wp (schedule predict) (fun out s' => Batched g prompt params k out s') (fun _ _ => False)
      e.scheduler := by
  rcases h.sched with ⟨rfl, hent⟩ | hlone
  · refine wp_mono (hent.wp_schedule predict) ?_ fun _ _ h0 => h0
    rintro out s' (⟨-, -, hb⟩ | ⟨hno, -⟩)
    · exact hb
    · exact absurd hadm hno
  · refine hlone.wp_schedule hadm.1 (le_trans ?_ hadm.2.1) predict
    exact Nat.le_mul_of_pos_right _ (List.length_pos_of_ne_nil hp)

/-- **A step** leads to the next stage, also where a callback or the eviction hook raises. -/
theorem Stage.next (h : Stage g prompt params k e) (hp : prompt ≠ []) (hnd : g.sequenceIds.Nodup)
    (hadm : Admits e.scheduler g.sequenceIds.length prompt.length) {env : Env ρ}
    {predict : Option (String → List ℕ → ℚ)} (hok : Advances env e (.step predict)) :
    Stage g prompt params (k + 1) (runOp env e (.step predict)) ∧
      ∀ i ∈ g.sequenceIds, (e.scheduler.store i).Live →
        ((runOp env e (.step predict)).scheduler.store i).status = .finished →
        MetFinish env params (k + 1) := by
  have hadvance := wp_mono (wp_advance_alone env h.consistent (h.batched hp hadm predict) hnd)
    (fun _ _ h0 => h0) fun _ _ _ => trivial
  obtain ⟨hlone, hfin⟩ := step_of_advance (by
    rintro e₁ n _ ⟨C, c, d, v, rfl⟩ h₁
    exact h₁) hadvance hok
  exact ⟨⟨consistent_runOp env h.consistent (.step predict), Or.inr hlone⟩, hfin⟩

/-- **A step grows the blocks** if the model returns and the pool is large enough. -/
theorem Stage.advances (h : Stage g prompt params k e) (hp : prompt ≠ [])
    (hnd : g.sequenceIds.Nodup) (hadm : Admits e.scheduler g.sequenceIds.length prompt.length)
    (hpool : PoolFits (sizes e.scheduler.kvCache) prompt params g.sequenceIds.length) {env : Env ρ}
    {predict : Option (String → List ℕ → ℚ)} (hok : ModelReturns env e (.step predict)) :
    Advances env e (.step predict) :=
  isOk_of_wp (wp_mono (wp_advance_alone env h.consistent (h.batched hp hadm predict) hnd)
    (fun _ _ h0 => h0) fun _ _ h0 => h0 hok hpool)

end Stage

theorem limits_runOp (env : Env ρ) (e : ContinuousBatchingEngine β) (o : Op) :
    limits (runOp env e o).scheduler = limits e.scheduler := by
  cases o with
  | addRequest rid prompt params n onToken => exact leaves_engineAdd rid prompt params n onToken e
  | step predict => exact leaves_engineStep env predict e
  | abortRequest rid => exact leaves_engineAbort env rid e

theorem Admits.congr {s s' : Scheduler β} {n p : ℕ} (h : Admits s n p) (hl : limits s' = limits s) :
    Admits s' n p := by
  have hcfg : s'.cfg = s.cfg := congrArg Prod.fst hl
  have hsizes : s'.kvCache.blockAllocator.cfg = s.kvCache.blockAllocator.cfg := congrArg Prod.snd hl
  unfold Admits sizes PagedKVCache.blockSize at h ⊢
  rw [hcfg, hsizes]
  exact h

/-- **Runs of the request** with a large enough pool. -/
theorem Stage.run (env : Env ρ) (hp : prompt ≠ []) (hnd : g.sequenceIds.Nodup) :
    ∀ (predicts : List (Option (String → List ℕ → ℚ))) (k : ℕ) (e : ContinuousBatchingEngine β),
    Stage g prompt params k e → Admits e.scheduler g.sequenceIds.length prompt.length →
    PoolFits (sizes e.scheduler.kvCache) prompt params g.sequenceIds.length →
    Along (runOp env) (ModelReturns env) e (steps predicts) →
    Along (runOp env) (Advances env) e (steps predicts) ∧
      Stage g prompt params (k + predicts.length) (exec (runOp env) e (steps predicts))
  | [], _, _, h, _, _, _ => ⟨trivial, h⟩
  | predict :: predicts, k, e, h, hadm, hpool, hmodel => by
    have hok := h.advances hp hnd hadm hpool hmodel.1
    have hl := limits_runOp env e (.step predict)
    obtain ⟨halong, hstage⟩ := Stage.run env hp hnd predicts (k + 1) _ (h.next hp hnd hadm hok).1
      (hadm.congr hl) (by
        rw [show sizes (runOp env e (.step predict)).scheduler.kvCache =
          sizes e.scheduler.kvCache from
          congrArg Prod.snd hl]
        exact hpool) hmodel.2
    refine ⟨⟨hok, halong⟩, ?_⟩
    rw [List.length_cons, Nat.add_comm predicts.length, ← Nat.add_assoc]
    exact hstage

/-! ### The pool has to suffice -/

theorem Batched.blocks_le {out : SchedulerOutput} {s : Scheduler β}
    (h : Batched g prompt params k out s) (hinv : Inv s) (hnd : g.sequenceIds.Nodup)
    (hall : ∀ i ∈ g.sequenceIds, i ∈ batchIds out) :
    g.sequenceIds.length * ceilDiv (prompt.length + k) s.kvCache.blockSize ≤
      (sizes s.kvCache).numBlocks := by
  have hfree := free_add_blocksOf hinv hnd h.only.outside
  have hused : blocksOf s g.sequenceIds =
      g.sequenceIds.length * ceilDiv (prompt.length + k) s.kvCache.blockSize :=
    sum_map_const fun i hi => (h.batch i (hall i hi)).2.stage.rows
  omega

open ContinuousBatchingEngine in
theorem not_metFinish_quiet (x : ρ) (h : (k : ℤ) < params.maxTokens) :
    ¬ MetFinish (quiet x) params k := by
  rintro ⟨d, t, hlen, hparams, hr⟩
  unfold getFinishReason at hr
  rw [hlen, hparams] at hr
  split_ifs at hr with h1 h2 h3
  · cases h1
  · omega
  · cases hr
  · cases hr

open MoeInfinity.Serving.Batch in
/-- The rows of a batch of the request have tokens. -/
theorem Batched.rows {out : SchedulerOutput} {s : Scheduler β} (h : Batched g prompt params k out s)
    (hp : prompt ≠ []) :
    ∀ r ∈ (batchOf s out).rows, r.tokens ≠ [] ∧ r.samplingParams = params := by
  intro r hr
  have hlen := List.length_pos_of_ne_nil hp
  rcases List.mem_append.mp hr with hr | hr
  · obtain ⟨i, hi, rfl⟩ := List.mem_map.mp hr
    obtain ⟨hprompt, hparams⟩ := h.only.data i (h.batch i (List.mem_append_left _ hi)).1
    refine ⟨?_, hparams⟩
    change (s.store i).promptTokenIds.drop (s.store i).numComputedTokens ≠ []
    rw [h.fresh i hi, hprompt, List.drop_zero]
    exact hp
  · obtain ⟨i, hi, rfl⟩ := List.mem_map.mp hr
    obtain ⟨hprompt, hparams⟩ := h.only.data i (h.batch i (List.mem_append_right _ hi)).1
    refine ⟨fun h0 => ?_, hparams⟩
    have hnil := congrArg List.length h0
    change ((s.store i).totalTokenIds.drop ((s.store i).totalTokenIds.length - 1)).length =
      0 at hnil
    rw [List.length_drop] at hnil
    unfold SequenceData.totalTokenIds at hnil
    rw [List.length_append, hprompt] at hnil
    omega

open MoeInfinity.Serving.Batch in
theorem Stage.quiet_returns (x : ρ) {e : ContinuousBatchingEngine β} (h : Stage g prompt params k e)
    (hp : prompt ≠ []) (htemp : 0 ≤ params.temperature)
    (hadm : Admits e.scheduler g.sequenceIds.length prompt.length)
    (predict : Option (String → List ℕ → ℚ)) : ModelReturns (quiet x) e (.step predict) := by
  refine isOk_of_wp (wp_mono (wp_stepTokens (quiet x) predict h.consistent) (fun _ _ h0 => h0) ?_)
  rintro _ e' ⟨out, hhalt, hne, hbarren⟩
  have hrows := (wp_ok (h.batched hp hadm predict) hhalt.ran).rows hp
  rcases hbarren with hzero | hno
  · obtain ⟨i, hi⟩ := List.exists_mem_of_ne_nil _ hne
    rw [← seqIds_batchOf e'.scheduler out] at hi
    obtain ⟨r, hr, -⟩ := List.mem_map.mp hi
    have hnil : (batchOf e'.scheduler out).rows.flatMap (·.tokens) = [] :=
      List.eq_nil_of_length_eq_zero hzero
    exact (hrows r hr).1 (List.flatMap_eq_nil_iff.mp hnil r hr)
  · obtain ⟨calls, tokens, hs⟩ := sampled_quiet x e.calls (fun r hr => (hrows r hr).1)
        fun r hr => by
      rw [(hrows r hr).2]
      exact htemp
    exact hno calls tokens hs

/-- **With the model that never ends a sequence**, all sequences go on until the last output. -/
theorem Stage.quiet_run (x : ρ) {e : ContinuousBatchingEngine β} (h : Stage g prompt params 0 e)
    (hp : prompt ≠ []) (hnd : g.sequenceIds.Nodup) (htemp : 0 ≤ params.temperature)
    (hadm : Admits e.scheduler g.sequenceIds.length prompt.length)
    (hlive : ∀ i ∈ g.sequenceIds, (e.scheduler.store i).Live)
    (hgrows : ∀ predicts, Along (runOp (quiet x)) (ModelReturns (quiet x)) e (steps predicts) →
      Along (runOp (quiet x)) (Advances (quiet x)) e (steps predicts)) :
    ∀ k : ℕ, (k : ℤ) < params.maxTokens →
      Along (runOp (quiet x)) (ModelReturns (quiet x)) e (steps (List.replicate k none)) ∧
      Stage g prompt params k (exec (runOp (quiet x)) e (steps (List.replicate k none))) ∧
      (∀ i ∈ g.sequenceIds,
        ((exec (runOp (quiet x)) e (steps (List.replicate k none))).scheduler.store i).Live) ∧
      limits (exec (runOp (quiet x)) e (steps (List.replicate k none))).scheduler =
        limits e.scheduler
  | 0, _ => ⟨trivial, h, hlive, rfl⟩
  | k + 1, hk => by
    obtain ⟨hmodel, hstage, hl, hlimits⟩ :=
      Stage.quiet_run x h hp hnd htemp hadm hlive hgrows k (by omega)
    have hadm' := hadm.congr hlimits
    have hsplit : steps (List.replicate (k + 1) none) = steps (List.replicate k none) ++
        [.step none] := by
      unfold steps
      rw [List.replicate_succ', List.map_append]
      rfl
    have hmodel' : Along (runOp (quiet x)) (ModelReturns (quiet x)) e
        (steps (List.replicate (k + 1) none)) := by
      rw [hsplit, along_append]
      exact ⟨hmodel, hstage.quiet_returns x hp htemp hadm' none, trivial⟩
    have hstep := hgrows _ hmodel'
    rw [hsplit, along_append] at hstep
    obtain ⟨hnext, hfin⟩ := hstage.next hp hnd hadm' hstep.2.1
    refine ⟨hmodel', ?_⟩
    rw [hsplit, exec_append, exec_cons, exec_nil]
    refine ⟨hnext, fun i hi => ?_, (limits_runOp _ _ _).trans hlimits⟩
    rcases hnext.sched with ⟨h0, -⟩ | hlone
    · omega
    · rcases hlone.fate i hi with h0 | ⟨h0, -, -⟩
      · exact absurd (hfin i hi (hl i hi) h0) (not_metFinish_quiet x hk)
      · refine HasTable.live ?_
        rw [h0]
        decide

theorem Room.admits {s : Scheduler β} {n : ℕ} (h : Room s.cfg (sizes s.kvCache) prompt params n)
    (hmax : 1 ≤ params.maxTokens) : Admits s n prompt.length := by
  refine ⟨h.1, h.2.1, le_trans (Nat.mul_le_mul_left n ?_) h.2.2⟩
  exact ceilDiv_mono _ (by omega)

/-- **When a lone request runs to completion**: for every model, exactly if the limits have room for
it. -/
theorem runsAlone_iff [Nonempty ρ] {e : ContinuousBatchingEngine β} (hcon : Consistent e)
    (hent : Entering g prompt params e.scheduler) (hp : prompt ≠ [])
    (htemp : 0 ≤ params.temperature) (hmax : 1 ≤ params.maxTokens) :
    (∀ env : Env ρ, RunsAlone env e g.sequenceIds params.maxTokens.toNat) ↔
      Room e.scheduler.cfg (sizes e.scheduler.kvCache) prompt params g.sequenceIds.length := by
  have hstage : Stage g prompt params 0 e := ⟨hcon, Or.inl ⟨rfl, hent⟩⟩
  constructor
  · intro h
    obtain ⟨x⟩ := ‹Nonempty ρ›
    have hruns := h (quiet x)
    have hadm : Admits e.scheduler g.sequenceIds.length prompt.length := by
      obtain ⟨s', out, hrun, hids⟩ := exists_of_wp (hruns.admitted none)
      rcases wp_ok (hent.wp_schedule none) hrun with ⟨hadm, -, -⟩ | ⟨-, hnil⟩
      · exact hadm
      · exact absurd (hids.symm.trans hnil) hent.inhabited
    obtain ⟨-, hlast, hlive, hlimits⟩ := hstage.quiet_run x hp hent.nodup htemp hadm
      (fun i hi => by rw [hent.new i hi]; exact ⟨nofun, nofun⟩) hruns.grows
      (params.maxTokens.toNat - 1) (by omega)
    set e' := exec (runOp (quiet x)) e (steps (List.replicate (params.maxTokens.toNat - 1) none))
    obtain ⟨s₁, out, hrun, hb⟩ := exists_of_wp (hlast.batched hp (hadm.congr hlimits) none)
    obtain ⟨hinv, hkeeps, -, -⟩ := wp_ok (wp_schedule_keeps none hlast.consistent.inv) hrun
    have hsizes : sizes s₁.kvCache = sizes e.scheduler.kvCache := by
      have hl := leaves_schedule none e'.scheduler
      rw [Prog.state, hrun] at hl
      exact congrArg Prod.snd (hl.trans hlimits)
    have hblocks := hb.blocks_le hinv hent.nodup fun i hi =>
      (hb.fate i hi).resolve_left ((hkeeps.live i).mpr (hlive i hi)).1
    refine ⟨hadm.1, hadm.2.1, ?_⟩
    unfold PoolFits
    rw [← hsizes, show prompt.length + params.maxTokens.toNat - 1 =
      prompt.length + (params.maxTokens.toNat - 1) by omega]
    exact hblocks
  · intro hroom env
    have hadm := hroom.admits hmax
    refine ⟨fun predict => wp_mono (hent.wp_schedule predict) ?_ fun _ _ h0 => h0,
      fun predicts hmodel => (hstage.run env hp hent.nodup predicts 0 e hadm hroom.2.2 hmodel).1,
      fun predicts hmodel hlen i hi => ?_⟩
    · rintro out s' (⟨-, hids, -⟩ | ⟨hno, -⟩)
      · exact hids
      · exact absurd hadm hno
    · have hend := (hstage.run env hp hent.nodup predicts 0 e hadm hroom.2.2 hmodel).2
      rcases hend.sched with ⟨h0, -⟩ | hlone
      · omega
      · rcases hlone.fate i hi with h0 | ⟨-, -, h0⟩
        · exact h0
        · omega

/-! ### A request in an idle engine -/

/-- An engine without requests owns no blocks. -/
theorem rows_of_idle {e : ContinuousBatchingEngine β} (h : Consistent e)
    (hidle : e.scheduler.requestMap = []) (i : ℕ) : (life e.scheduler i).share.rows = [] := by
  refine (h.inv.ok i).rows ((h.inv.ok i).tokens_none fun hst => ?_)
  obtain ⟨g, hg, -⟩ := h.grouped i (h.inv.registered i hst)
  rw [hidle] at hg
  exact absurd hg List.not_mem_nil

open ContinuousBatchingEngine in
/-- **`add_request` in an idle engine**: the request waits, and nothing else is there. -/
theorem entering_of_idle {e : ContinuousBatchingEngine β} (h : Consistent e)
    (hidle : e.scheduler.requestMap = []) {rid : String} (hfresh : e.requestToSeqIds rid = none)
    (prompt : List ℕ) (params : SamplingParams) {n : ℕ} (hn : n ≠ 0) (onToken : Option Callback) :
    ∃ g, g.sequenceIds.length = n ∧
      ((addRequest rid prompt params n onToken).state e).requestToSeqIds rid = some g.sequenceIds ∧
      Consistent ((addRequest rid prompt params n onToken).state e) ∧
      limits ((addRequest rid prompt params n onToken).state e).scheduler = limits e.scheduler ∧
      Entering g prompt params ((addRequest rid prompt params n onToken).state e).scheduler := by
  have hwp : wp (addRequest rid prompt params n onToken) (fun _ e' => Consistent e' ∧
      Added prompt params n e e' ∧ e'.requestToSeqIds = Function.update e.requestToSeqIds rid
        (some ((newSequences e.nextSeqId n prompt params).map (·.seqId))) ∧
      ∃ t, Registering e.scheduler (newSequences e.nextSeqId n prompt params) t ∧
        e'.scheduler = { t with
          requestMap :=
            t.requestMap ++ [⟨rid, (newSequences e.nextSeqId n prompt params).map (·.seqId)⟩]
          waiting :=
            t.waiting ++ [⟨rid, (newSequences e.nextSeqId n prompt params).map (·.seqId)⟩] })
      (fun _ _ => False) e := by
    refine wp_mono (wp_and (EngineInv.wp_addRequest rid prompt params n onToken h)
      (wp_addRequest_registers rid prompt params n onToken h.inv)) ?_ ?_
    · rintro _ e' ⟨⟨hcon, hadd⟩, -, hmap, -, t, hreg, heq⟩
      exact ⟨hcon, hadd, hmap, t, hreg, heq⟩
    · rintro _ e' ⟨⟨-, h0 | h0⟩, -⟩
      · rw [hfresh] at h0
        cases h0
      · exact hn h0
  obtain ⟨-, hcon, hadd, hmap, t, hreg, heq⟩ := post_of_isOk hwp (isOk_of_wp hwp)
  set e' := (addRequest rid prompt params n onToken).state e
  have hqueues : queuedGroups e.scheduler = [] := by
    refine List.eq_nil_iff_forall_not_mem.mpr fun g hg => ?_
    have hmem := h.inv.queued g hg
    rw [hidle] at hmem
    exact absurd hmem List.not_mem_nil
  have hnil : t.waiting ++ t.running ++ t.swapped = [] := hreg.queues.trans hqueues
  obtain ⟨hnil, hswapped⟩ := List.append_eq_nil_iff.mp hnil
  obtain ⟨hwaiting, hrunning⟩ := List.append_eq_nil_iff.mp hnil
  refine ⟨⟨rid, (newSequences e.nextSeqId n prompt params).map (·.seqId)⟩, ?_, ?_, hcon,
    leaves_engineAdd rid prompt params n onToken e, ⟨hcon.inv, ?_, ?_, ?_, ?_, ?_, fun i hi => ?_,
      fun i hi => ?_⟩⟩
  · simp only [newSequences, List.length_map, List.length_range]
  · rw [hmap, Function.update_self]
  · rw [heq]
    change t.waiting ++ _ = _
    rw [hwaiting, List.nil_append]
  · rw [heq]; exact hrunning
  · rw [heq]; exact hswapped
  · rw [heq]
    exact List.mem_append_right _ (List.mem_singleton_self _)
  · exact fun h0 => newSequences_ne_nil _ hn _ _ (List.map_eq_nil_iff.mp h0)
  · exact hadd.new i (seqId_newSequences.mp hi).1 (seqId_newSequences.mp hi).2
  · change (share e'.scheduler.kvCache i).rows = []
    rw [hadd.share i]
    exact rows_of_idle h hidle i

end MoeInfinity.Serving.Alone
