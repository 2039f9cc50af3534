import Mathlib.Data.List.GetD
import MoeInfinity.Serving.EngineStep

/-! # What the model is fed

The calls of the model are read back token by token: `fed calls i` lists the tokens of sequence `i`
with the position and the slot with which each was fed. They should be the tokens of the sequence in
order, the `k`-th one at position `k` and in slot `k` of the sequence's block table.

A decode step feeds the last token at position `num_computed_tokens`, which `append_output_token`
has already moved past it, so no decode step is right (`decode_at_wrong_position`). In runs without
decode steps the model is fed as it should be (`feedsInOrder_of_prefillOnly`). -/

namespace MoeInfinity.Serving.Feeding

open MoeInfinity.Python MoeInfinity.Lib.Imperative MoeInfinity.Lib.Runs
open MoeInfinity.Serving.Sequence MoeInfinity.Serving.KvCache MoeInfinity.Serving.KvCacheSpec
open MoeInfinity.Serving.Schedule MoeInfinity.Serving.Lifecycle MoeInfinity.Serving.ScheduleSpec
open MoeInfinity.Serving.ScheduleInv MoeInfinity.Serving.ScheduleCall
  MoeInfinity.Serving.ScheduleOps
open MoeInfinity.Serving.Batch MoeInfinity.Serving.ModelRunner MoeInfinity.Serving.Engine
open MoeInfinity.Serving.EngineInv MoeInfinity.Serving.EngineStep

variable {β ρ : Type}

/-! ### Reading the calls back -/

/-- A token as the model gets it. -/
structure Feed where
  token : ℕ
  position : ℕ
  slot : Option ℕ
deriving DecidableEq, Repr

/-- The slots of the tokens of a call, in packed order. -/
def slotsOf (c : Call) : List (Option ℕ) :=
  match c.inputs.metadata with
  | none => c.batch.inputTokenIds.map fun _ => none
  | some m => m.slotMapping.map some

/-- The first `n` entries of a row of the inputs; the rest is padding. -/
def rowFeeds (n : ℕ) (ids ps : List ℕ) (slots : List (Option ℕ)) : List Feed :=
  (List.range n).map fun j => ⟨ids.getD j 0, ps.getD j 0, slots.getD j none⟩

/-- What the rows of a call feed for the sequence `i`. -/
def packedFeeds : List BatchRow → List (List ℕ) → List (List ℕ) → List (Option ℕ) → ℕ → List Feed
  | r :: rows, ids :: inputIds, ps :: positionIds, slots, i =>
    (if r.seqId = i then rowFeeds r.tokens.length ids ps slots else []) ++
      packedFeeds rows inputIds positionIds (slots.drop r.tokens.length) i
  | _, _, _, _, _ => []

/-- What a call feeds for the sequence `i`. -/
def feedsOf (c : Call) (i : ℕ) : List Feed :=
  packedFeeds c.batch.rows c.inputs.inputIds c.inputs.positionIds (slotsOf c) i

/-- All that has been fed for the sequence `i`, in order. -/
def fed (calls : List Call) (i : ℕ) : List Feed := calls.flatMap (feedsOf · i)

/-- The slot of the token at index `k` of the sequence `i`, by the cache. -/
def slotAt (c : PagedKVCache β) (i k : ℕ) : Option ℕ :=
  (owned c i)[k / c.blockSize]?.map fun b => b * c.blockSize + k % c.blockSize

/-! ### The property and the condition -/

/-- After a step, the `k`-th token fed for a sequence is its `k`-th token, at position `k`; what the
step has fed went to the slots that the cache gives, and the slot mapping could be built. -/
def FeedsInOrder (env : Env ρ) (e : ContinuousBatchingEngine β) : Op → Prop
  | .step predict =>
    let s₁ := ((Scheduler.schedule predict).run e.scheduler).1
    let e' := runOp env e (.step predict)
    (∀ i k f, (fed e'.calls i)[k]? = some f →
      (e'.scheduler.store i).totalTokenIds[k]? = some f.token ∧ f.position = k ∧
        ((fed e.calls i).length ≤ k → env.usePagedContext = true →
          ∃ slot, f.slot = some slot ∧ slotAt s₁.kvCache i k = some slot)) ∧
    (env.usePagedContext = true → ∀ out b,
      ((Scheduler.schedule predict).run e.scheduler).2 = .ok out →
      fromSchedulerOutput out e.sequences s₁.store s₁.kvCache = .ok b →
      ∃ slots, buildSlotMapping b env.runnerBlockSize = .ok slots)
  | _ => True

/-- The condition on the result of `schedule`: it selects nothing for decode; and for a paged model
it selects nothing for prefill that it has preempted, and runner and cache agree on the block
size. -/
def PrefillOutput (env : Env ρ) (e : ContinuousBatchingEngine β) :
    Except PyError SchedulerOutput → Prop
  | .ok out => out.decodeSeqIds = [] ∧ (env.usePagedContext = true →
      (∀ i ∈ out.prefillSeqIds, i ∉ out.preemptedSeqIds) ∧
        env.runnerBlockSize = e.scheduler.kvCache.blockSize)
  | .error _ => True

instance (env : Env ρ) (e : ContinuousBatchingEngine β) :
    ∀ r : Except PyError SchedulerOutput, Decidable (PrefillOutput env e r)
  | .ok _ => inferInstanceAs (Decidable (_ ∧ _))
  | .error _ => isTrue trivial

/-- Every step of the run meets the condition. -/
def PrefillOnly (env : Env ρ) (e : ContinuousBatchingEngine β) : Op → Prop
  | .step predict => PrefillOutput env e ((Scheduler.schedule predict).run e.scheduler).2
  | _ => True

instance (env : Env ρ) (e : ContinuousBatchingEngine β) : ∀ o : Op, Decidable (PrefillOnly env e o)
  | .step predict =>
    inferInstanceAs
      (Decidable (PrefillOutput env e ((Scheduler.schedule predict).run e.scheduler).2))
  | .addRequest _ _ _ _ _ => isTrue trivial
  | .abortRequest _ => isTrue trivial

/-! ### What one call feeds -/

theorem getD_padded {w j : ℕ} {xs : List ℕ} (h : j < xs.length) :
    (padded w xs).getD j 0 = xs.getD j 0 := by
  unfold padded
  rw [List.getD_append _ _ _ _ h]

/-- The feeds of a row with the slots `slots`. -/
def feedsOfRow (r : BatchRow) (slots : List (Option ℕ)) : List Feed :=
  (List.range r.tokens.length).map fun j =>
    ⟨r.tokens.getD j 0, r.contextLength + j, slots.getD j none⟩

theorem rowFeeds_padded (r : BatchRow) (w : ℕ) (slots rest : List (Option ℕ))
    (hslots : slots.length = r.tokens.length) :
    rowFeeds r.tokens.length (padded w r.tokens) (padded w (positions r)) (slots ++ rest) =
      feedsOfRow r slots := by
  unfold rowFeeds feedsOfRow
  refine List.map_congr_left fun j hj => ?_
  have hj : j < r.tokens.length := List.mem_range.mp hj
  have hpos : (positions r).length = r.tokens.length := List.length_range'
  have hget : (positions r).getD j 0 = r.contextLength + j := by
    rw [List.getD_eq_getElem _ _ (by omega)]
    simp [positions]
  rw [getD_padded hj, getD_padded (by omega), hget, List.getD_append _ _ _ _ (by omega)]

theorem packedFeeds_eq (w : ℕ) (slots : BatchRow → List (Option ℕ)) (i : ℕ) :
    ∀ rows : List BatchRow, (∀ r ∈ rows, (slots r).length = r.tokens.length) →
    packedFeeds rows (rows.map fun r => padded w r.tokens)
      (rows.map fun r => padded w (positions r)) (rows.flatMap slots) i =
      rows.flatMap fun r => if r.seqId = i then feedsOfRow r (slots r) else []
  | [], _ => rfl
  | r :: rows, h => by
    have hr := h r List.mem_cons_self
    rw [List.map_cons, List.map_cons, List.flatMap_cons, List.flatMap_cons, packedFeeds,
      rowFeeds_padded r w _ _ hr, List.drop_append_of_le_length (by omega),
      List.drop_eq_nil_of_le (by omega), List.nil_append,
      packedFeeds_eq w slots i rows fun r' hr' => h r' (List.mem_cons_of_mem r hr')]

/-- In a batch of different sequences, the feeds of one sequence are those of its row. -/
theorem flatMap_rows {row : ℕ → BatchRow} (hrow : ∀ i, (row i).seqId = i)
    (feeds : BatchRow → List Feed) (i : ℕ) : ∀ ids : List ℕ, ids.Nodup →
    ((ids.map row).flatMap fun r => if r.seqId = i then feeds r else []) =
      if i ∈ ids then feeds (row i) else []
  | [], _ => rfl
  | j :: ids, hnd => by
    obtain ⟨hj, hnd⟩ := List.nodup_cons.mp hnd
    rw [List.map_cons, List.flatMap_cons, hrow, flatMap_rows hrow feeds i ids hnd]
    by_cases hij : j = i
    · subst hij
      rw [if_pos rfl, if_neg hj, if_pos List.mem_cons_self, List.append_nil]
    · rw [if_neg hij, List.nil_append]
      have hiff : i ∈ j :: ids ↔ i ∈ ids := by
        rw [List.mem_cons]
        exact or_iff_right fun h0 => hij h0.symm
      simp only [hiff]

/-- The slots that the runner computes for a row. -/
def runnerSlots (k : ℕ) (r : BatchRow) : List ℕ :=
  (positions r).map fun p => r.blockTable.getD (p / k) 0 * k + p % k

theorem slotOf_eq {k : ℕ} {table : List ℕ} {p : ℕ} (h : p / k < table.length) :
    slotOf k table p = .ok (table.getD (p / k) 0 * k + p % k) := by
  unfold slotOf
  rw [List.getElem?_eq_getElem h, List.getD_eq_getElem _ _ h]

/-- The slot mapping is built if every table is long enough. -/
theorem buildSlotMapping_eq {b : BatchMetadata} {k : ℕ}
    (h : ∀ r ∈ b.rows, ∀ p ∈ positions r, p / k < r.blockTable.length) :
    buildSlotMapping b k = .ok (b.rows.flatMap (runnerSlots k)) := by
  have hrows : (b.rows.mapM fun r => (positions r).mapM (slotOf k r.blockTable)) =
      .ok (b.rows.map (runnerSlots k)) :=
    mapM_ok fun r hr => mapM_ok fun p hp => slotOf_eq (h r hr p hp)
  unfold buildSlotMapping
  rw [hrows, List.flatMap_def]
  rfl

theorem length_runnerSlots (k : ℕ) (r : BatchRow) : (runnerSlots k r).length = r.tokens.length := by
  rw [runnerSlots, List.length_map]
  exact List.length_range'

/-- The slots that go with a row. -/
def rowSlots (env : Env ρ) (r : BatchRow) : List (Option ℕ) :=
  if env.usePagedContext then (runnerSlots env.runnerBlockSize r).map some
  else r.tokens.map fun _ => none

theorem length_rowSlots (env : Env ρ) (r : BatchRow) :
    (rowSlots env r).length = r.tokens.length := by
  unfold rowSlots
  split_ifs
  · rw [List.length_map, length_runnerSlots]
  · exact List.length_map _

/-- The inputs of a call for a batch whose tables are long enough. -/
theorem callInputs_eq {env : Env ρ} {b : BatchMetadata} (h : env.usePagedContext = true →
    ∀ r ∈ b.rows, ∀ p ∈ positions r, p / env.runnerBlockSize < r.blockTable.length) :
    ∃ m, callInputs env b = .ok (prepareInputs b m) ∧
      slotsOf ⟨b, prepareInputs b m⟩ = b.rows.flatMap (rowSlots env) := by
  unfold callInputs rowSlots
  by_cases hpaged : env.usePagedContext = true
  · simp only [hpaged, if_true]
    have hslots := buildSlotMapping_eq (h hpaged)
    unfold buildRuntimeAttentionMetadata
    rw [hslots]
    refine ⟨_, rfl, ?_⟩
    show (b.rows.flatMap (runnerSlots env.runnerBlockSize)).map some = _
    rw [List.map_flatMap]
  · simp only [hpaged]
    refine ⟨none, rfl, ?_⟩
    show b.inputTokenIds.map (fun _ => none) = _
    rw [BatchMetadata.inputTokenIds, List.map_flatMap]
    rfl

/-- What the call for a batch of different sequences feeds for one of them. -/
theorem feedsOf_prepared {env : Env ρ} {row : ℕ → BatchRow} (hrow : ∀ i, (row i).seqId = i)
    {ids : List ℕ} (hnd : ids.Nodup) {m : Option AttentionMetadata}
    (hslots : slotsOf ⟨⟨ids.map row⟩, prepareInputs ⟨ids.map row⟩ m⟩ =
      (ids.map row).flatMap (rowSlots env)) (i : ℕ) :
    feedsOf ⟨⟨ids.map row⟩, prepareInputs ⟨ids.map row⟩ m⟩ i =
      if i ∈ ids then feedsOfRow (row i) (rowSlots env (row i)) else [] := by
  unfold feedsOf
  rw [hslots]
  show packedFeeds (ids.map row) ((ids.map row).map fun r => padded _ r.tokens)
    ((ids.map row).map fun r => padded _ (positions r)) _ i = _
  rw [packedFeeds_eq _ (rowSlots env) i _ fun r _ => length_rowSlots env r]
  exact flatMap_rows hrow (fun r => feedsOfRow r (rowSlots env r)) i ids hnd

/-! ### The invariant -/

/-- What has been fed so far is in order, and nothing has been fed for a sequence that waits. -/
structure InOrder (e : ContinuousBatchingEngine β) : Prop where
  consistent : Consistent e
  unseen : ∀ i, e.nextSeqId ≤ i → fed e.calls i = []
  unfed : ∀ i, (e.scheduler.store i).status = .waiting →
    fed e.calls i = [] ∧ (e.scheduler.store i).numComputedTokens = 0
  inOrder : ∀ i k (f : Feed), (fed e.calls i)[k]? = some f →
    (e.scheduler.store i).totalTokenIds[k]? = some f.token ∧ f.position = k

theorem inOrder_start (cfg : SchedConfig) (kvCfg : KvConfig) (kv : ℕ → β) :
    InOrder (start cfg kvCfg kv) := by
  refine ⟨consistent_new cfg kvCfg kv, fun _ _ => rfl, fun _ _ => ⟨rfl, rfl⟩, fun i k f h => ?_⟩
  cases h

theorem fed_snoc (calls : List Call) (c : Call) (i : ℕ) :
    fed (calls ++ [c]) i = fed calls i ++ feedsOf c i := by
  unfold fed
  rw [List.flatMap_append, List.flatMap_singleton]

/-- The one call for a batch without decode rows. -/
theorem executeBatch_prefill (env : Env ρ) (calls : List Call) {s₁ : Scheduler β}
    {out : SchedulerOutput} (hdec : out.decodeSeqIds = []) (htab : env.usePagedContext = true →
      ∀ r ∈ (batchOf s₁ out).rows, ∀ p ∈ positions r, p / env.runnerBlockSize <
        r.blockTable.length) :
    (executeBatch env calls (batchOf s₁ out)).1 = calls ∨
      ∃ m, (executeBatch env calls (batchOf s₁ out)).1 =
          calls ++ [⟨batchOf s₁ out, prepareInputs (batchOf s₁ out) m⟩] ∧
        slotsOf ⟨batchOf s₁ out, prepareInputs (batchOf s₁ out) m⟩ =
          (batchOf s₁ out).rows.flatMap (rowSlots env) := by
  have hno : (batchOf s₁ out).rows.any (!·.isPrefill) = false := by
    unfold batchOf
    rw [hdec, List.map_nil, List.append_nil, List.any_map, List.any_eq_false]
    intro i hi
    exact Bool.false_ne_true
  have hexec : executeBatch env calls (batchOf s₁ out) = execute env calls (batchOf s₁ out) := by
    unfold executeBatch
    simp only [hno, Bool.and_false, Bool.not_false, Bool.or_true, if_true]
  obtain ⟨m, hm, hslots⟩ := callInputs_eq htab
  rw [hexec]
  unfold execute
  split_ifs with hzero
  · exact Or.inl rfl
  · rw [hm]
    exact Or.inr ⟨m, rfl, hslots⟩

theorem getElem?_feedsOfRow {r : BatchRow} {slots : List (Option ℕ)} {k : ℕ} {f : Feed}
    (h : (feedsOfRow r slots)[k]? = some f) :
    k < r.tokens.length ∧ f = ⟨r.tokens.getD k 0, r.contextLength + k, slots.getD k none⟩ := by
  unfold feedsOfRow at h
  rw [List.getElem?_map] at h
  by_cases hk : k < r.tokens.length
  · rw [List.getElem?_range hk] at h
    exact ⟨hk, (Option.some.inj h).symm⟩
  · rw [List.getElem?_eq_none (by simpa using hk)] at h
    cases h

/-- The slots of a row whose table covers its tokens are those of the cache. -/
theorem slot_of_row {env : Env ρ} {c : PagedKVCache β} {r : BatchRow} {i k : ℕ}
    (hpaged : env.usePagedContext = true) (hk : env.runnerBlockSize = c.blockSize)
    (hctx : r.contextLength = 0) (htable : r.blockTable = owned c i) (hlt : k < r.tokens.length)
    (hcover : k / c.blockSize < (owned c i).length) :
    ∃ slot, (rowSlots env r).getD k none = some slot ∧ slotAt c i k = some slot := by
  refine ⟨(owned c i).getD (k / c.blockSize) 0 * c.blockSize + k % c.blockSize, ?_, ?_⟩
  · unfold rowSlots runnerSlots positions
    rw [if_pos hpaged, hk, hctx, htable, List.getD_eq_getElem _ _ (by simpa using hlt)]
    simp
  · unfold slotAt
    rw [List.getElem?_eq_getElem hcover, List.getD_eq_getElem _ _ hcover]
    rfl

theorem getElem?_append_of_some {xs ys : List ℕ} {k t : ℕ} (h : xs[k]? = some t) :
    (xs ++ ys)[k]? = some t := by
  have hk : k < xs.length := (List.getElem?_eq_some_iff.mp h).1
  rw [List.getElem?_append_left hk]
  exact h

theorem totalTokenIds_append {d d' : SequenceData} {ts : List ℕ}
    (hp : d'.promptTokenIds = d.promptTokenIds) (ho : d'.outputTokenIds = d.outputTokenIds ++ ts) :
    d'.totalTokenIds = d.totalTokenIds ++ ts := by
  unfold SequenceData.totalTokenIds
  rw [hp, ho, List.append_assoc]

section Entered

variable {env : Env ρ} {e : ContinuousBatchingEngine β} {s₁ : Scheduler β} {out : SchedulerOutput}
  {predict : Option (String → List ℕ → ℚ)}

/-- The row of a sequence that is prefilled is its whole prompt. -/
theorem InOrder.row (h : InOrder e) (hs : Scheduled predict e.scheduler out s₁) {i : ℕ}
    (hi : i ∈ out.prefillSeqIds) :
    (prefillRowOf s₁ i).tokens = (s₁.store i).promptTokenIds ∧
      (prefillRowOf s₁ i).contextLength = 0 := by
  have hzero : (s₁.store i).numComputedTokens = 0 := by
    rw [(statusOnly_scheduled hs i).1]
    exact (h.unfed i (hs.entered i hi)).2
  refine ⟨?_, hzero⟩
  show (s₁.store i).promptTokenIds.drop (s₁.store i).numComputedTokens = _
  rw [hzero, List.drop_zero]

/-- The table of a sequence that is prefilled and not preempted covers its prompt. -/
theorem covers_prompt (hs : Scheduled predict e.scheduler out s₁) {i : ℕ}
    (hi : i ∈ out.prefillSeqIds) (hkept : i ∉ out.preemptedSeqIds) {k : ℕ}
    (hk : k < (s₁.store i).promptTokenIds.length) :
    k / s₁.kvCache.blockSize < (owned s₁.kvCache i).length := by
  have hst : (s₁.store i).status = .prefill := (hs.prefill i hi).resolve_right hkept
  have hprompt : (e.scheduler.store i).promptLength = (s₁.store i).promptTokenIds.length := by
    rw [(statusOnly_scheduled hs i).1]
    rfl
  have hpos : 0 < e.scheduler.kvCache.blockSize :=
    e.scheduler.kvCache.blockAllocator.cfg.blockSize_pos
  rw [hs.entered_blocks hi hst, hprompt, hs.blockSize]
  unfold ceilDiv
  rw [Nat.div_lt_iff_lt_mul hpos]
  have hdiv := Nat.lt_div_mul_add (a := (s₁.store i).promptTokenIds.length +
    e.scheduler.kvCache.blockSize - 1) hpos
  omega

theorem rows_of_prefill (s₁ : Scheduler β) (hdec : out.decodeSeqIds = []) :
    batchOf s₁ out = ⟨out.prefillSeqIds.map (prefillRowOf s₁)⟩ := by
  unfold batchOf
  rw [hdec, List.map_nil, List.append_nil]

/-- The slot mapping of the batch of a step that meets the condition can be built. -/
theorem InOrder.tables_cover (h : InOrder e) (hs : Scheduled predict e.scheduler out s₁)
    (hg : PrefillOutput env e (.ok out)) (hp : env.usePagedContext = true) :
    ∀ r ∈ (batchOf s₁ out).rows, ∀ p ∈ positions r,
      p / env.runnerBlockSize < r.blockTable.length := by
  obtain ⟨hdec, hpaged⟩ := hg
  obtain ⟨hkept, hsize⟩ := hpaged hp
  rw [rows_of_prefill s₁ hdec]
  intro r hr p hmem
  obtain ⟨i, hi, rfl⟩ := List.mem_map.mp hr
  obtain ⟨htok, hctx⟩ := h.row hs hi
  unfold positions at hmem
  rw [htok, hctx, List.mem_range'_1] at hmem
  rw [hsize, ← hs.blockSize]
  exact covers_prompt hs hi (hkept i hi) (by omega)

/-- What a step that meets the condition feeds. -/
theorem InOrder.fed_batch (h : InOrder e) (hs : Scheduled predict e.scheduler out s₁)
    (hg : PrefillOutput env e (.ok out)) {calls : List Call}
    (hcalls : calls = e.calls ∨ calls = (executeBatch env e.calls (batchOf s₁ out)).1) (i : ℕ) :
    fed calls i = fed e.calls i ∨ (i ∈ out.prefillSeqIds ∧
      fed calls i = feedsOfRow (prefillRowOf s₁ i) (rowSlots env (prefillRowOf s₁ i))) := by
  rcases hcalls with rfl | rfl
  · exact Or.inl rfl
  · rcases executeBatch_prefill env e.calls hg.1 (h.tables_cover hs hg)
      with hexec | ⟨m, hexec, hslots⟩
    · rw [hexec]
      exact Or.inl rfl
    · rw [rows_of_prefill s₁ hg.1] at hexec hslots ⊢
      rw [hexec, fed_snoc, feedsOf_prepared (fun _ => rfl) hs.prefill_nodup hslots]
      by_cases hi : i ∈ out.prefillSeqIds
      · rw [if_pos hi, (h.unfed i (hs.entered i hi)).1, List.nil_append]
        exact Or.inr ⟨hi, rfl⟩
      · rw [if_neg hi, List.append_nil]
        exact Or.inl rfl

/-- Old and new feeds are in order, and the new ones go to the slots of the cache. -/
theorem InOrder.order_batch (h : InOrder e) (hs : Scheduled predict e.scheduler out s₁)
    (hg : PrefillOutput env e (.ok out)) {calls : List Call}
    (hcalls : calls = e.calls ∨ calls = (executeBatch env e.calls (batchOf s₁ out)).1) {i k : ℕ}
    {f : Feed} (hf : (fed calls i)[k]? = some f) :
    (s₁.store i).totalTokenIds[k]? = some f.token ∧ f.position = k ∧
      ((fed e.calls i).length ≤ k → env.usePagedContext = true →
        ∃ slot, f.slot = some slot ∧ slotAt s₁.kvCache i k = some slot) := by
  rcases h.fed_batch hs hg hcalls i with hsame | ⟨hi, hmore⟩
  · rw [hsame] at hf
    obtain ⟨h1, h2⟩ := h.inOrder i k f hf
    refine ⟨?_, h2, fun hle => ?_⟩
    · rw [(statusOnly_scheduled hs i).1]
      exact h1
    · have := (List.getElem?_eq_some_iff.mp hf).1
      omega
  · rw [hmore] at hf
    obtain ⟨htok, hctx⟩ := h.row hs hi
    obtain ⟨hlt, rfl⟩ := getElem?_feedsOfRow hf
    have hprompt : k < (s₁.store i).promptTokenIds.length := by rw [← htok]; exact hlt
    refine ⟨?_, by rw [hctx]; exact Nat.zero_add k, fun _ hp => ?_⟩
    · unfold SequenceData.totalTokenIds
      rw [List.getElem?_append_left hprompt, List.getElem?_eq_getElem hprompt, htok,
        List.getD_eq_getElem _ _ hprompt]
    · obtain ⟨hkept, hsize⟩ := hg.2 hp
      refine slot_of_row hp ?_ hctx rfl hlt (covers_prompt hs hi (hkept i hi) hprompt)
      rw [hsize, hs.blockSize]

end Entered

/-- **A step without decode** feeds in order, and everything fed stays in order. -/
theorem InOrder.step {env : Env ρ} {e : ContinuousBatchingEngine β} (h : InOrder e)
    {predict : Option (String → List ℕ → ℚ)} (hg : PrefillOnly env e (.step predict)) :
    InOrder (runOp env e (.step predict)) ∧ FeedsInOrder env e (.step predict) := by
  set e' := runOp env e (.step predict) with he'
  have hcons := consistent_runOp env h.consistent (.step predict)
  obtain ⟨out, s₁, hran, hs, hnext, hcalls, hstore⟩ := step_trace env predict h.consistent he'
  have hg : PrefillOutput env e ((Scheduler.schedule predict).run e.scheduler).2 := hg
  rw [hran] at hg
  have htable : ∀ i ∈ out.prefillSeqIds, HasTable (s₁.store i).status := fun i hi =>
    (batch_spec hs).2 i (List.mem_append_left _ hi)
  have horder : ∀ i k f, (fed e'.calls i)[k]? = some f →
      (e'.scheduler.store i).totalTokenIds[k]? = some f.token ∧ f.position = k ∧
        ((fed e.calls i).length ≤ k → env.usePagedContext = true →
          ∃ slot, f.slot = some slot ∧ slotAt s₁.kvCache i k = some slot) := by
    intro i k f hf
    obtain ⟨h1, h2, h3⟩ := h.order_batch hs hg hcalls hf
    obtain ⟨hp, -, ⟨ts, ho⟩, -⟩ := hstore i
    refine ⟨?_, h2, h3⟩
    rw [totalTokenIds_append hp ho]
    exact getElem?_append_of_some h1
  refine ⟨⟨hcons, fun i hi => ?_, fun i hw => ?_, fun i k f hf => ?_⟩, ?_⟩
  · rw [hnext] at hi
    rcases h.fed_batch hs hg hcalls i with hsame | ⟨hmem, -⟩
    · rw [hsame]; exact h.unseen i hi
    · have hreg := hs.inv.registered i (htable i hmem)
      rw [hs.sequenceMap] at hreg
      have := h.consistent.used i hreg
      omega
  · obtain ⟨-, -, -, hquiet⟩ := hstore i
    have hq := hquiet hw
    have hw₁ := hq.2 hw
    obtain ⟨hnone, hcomp⟩ := h.unfed i ((statusOnly_scheduled hs i).2 hw₁)
    constructor
    · rcases h.fed_batch hs hg hcalls i with hsame | ⟨hmem, -⟩
      · rw [hsame]; exact hnone
      · rcases htable i hmem with h1 | h1 | h1 <;> rw [hw₁] at h1 <;> cases h1
    · rw [hq.1, (statusOnly_scheduled hs i).1]
      exact hcomp
  · obtain ⟨h1, h2, -⟩ := horder i k f hf
    exact ⟨h1, h2⟩
  · have hs₁ : ((Scheduler.schedule predict).run e.scheduler).1 = s₁ := by rw [hran]
    show _ ∧ _
    rw [hs₁]
    refine ⟨horder, fun hp out' b hout hb => ?_⟩
    rw [hran] at hout
    have hout : out = out' := Except.ok.inj hout
    subst hout
    rw [batch_built h.consistent hs] at hb
    rw [← Except.ok.inj hb]
    exact ⟨_, buildSlotMapping_eq (h.tables_cover hs hg hp)⟩

/-! ### Runs -/

theorem InOrder.of_statusOnly {e e' : ContinuousBatchingEngine β} (h : InOrder e)
    (hcons : Consistent e') (hcalls : e'.calls = e.calls) (hnext : e'.nextSeqId = e.nextSeqId)
    (hstore : ∀ i, StatusOnly (e.scheduler.store i) (e'.scheduler.store i)) : InOrder e' := by
  refine ⟨hcons, fun i hi => ?_, fun i hw => ?_, fun i k f hf => ?_⟩
  · rw [hcalls]
    exact h.unseen i (by rw [← hnext]; exact hi)
  · rw [hcalls, (hstore i).1]
    exact h.unfed i ((hstore i).2 hw)
  · rw [hcalls] at hf
    rw [(hstore i).1]
    exact h.inOrder i k f hf

/-- **One operation** of a run without decode steps keeps the invariant. -/
theorem InOrder.runOp {env : Env ρ} {e : ContinuousBatchingEngine β} (h : InOrder e) {o : Op}
    (hg : PrefillOnly env e o) : InOrder (runOp env e o) := by
  cases o with
  | step predict => exact (h.step hg).1
  | addRequest rid prompt params n onToken =>
    rcases add_cases rid prompt params n onToken h.consistent env with h0 | ⟨hcons, h0⟩
    · rw [h0]; exact h
    · refine ⟨hcons, fun i hi => ?_, fun i hw => ?_, fun i k f hf => ?_⟩
      · rw [h0.nextSeqId] at hi
        rw [h0.calls]
        exact h.unseen i (by omega)
      · rw [h0.calls]
        by_cases hi : e.nextSeqId ≤ i ∧ i < e.nextSeqId + n
        · rw [h0.new i hi.1 hi.2]
          exact ⟨h.unseen i hi.1, rfl⟩
        · rw [h0.other i hi] at hw ⊢
          exact h.unfed i hw
      · rw [h0.calls] at hf
        by_cases hi : e.nextSeqId ≤ i ∧ i < e.nextSeqId + n
        · rw [h.unseen i hi.1] at hf
          cases hf
        · rw [h0.other i hi]
          exact h.inOrder i k f hf
  | abortRequest rid =>
    obtain ⟨hcons, hcalls, hnext, -, hlives⟩ := abort_cases rid h.consistent env
    exact h.of_statusOnly hcons hcalls hnext fun i => statusOnly_cancelled (hlives i)

/-- **The model is fed in order** in every run in which no step decodes, and in which a paged model
gets no preempted sequence and the runner's block size is that of the cache. -/
theorem feedsInOrder_of_prefillOnly (env : Env ρ) (cfg : SchedConfig)
    (kvCfg : KvConfig) (kv : ℕ → β) (ops : List Op)
    (h : Along (runOp env) (PrefillOnly env) (start cfg kvCfg kv) ops) :
    Along (runOp env) (FeedsInOrder env) (start cfg kvCfg kv) ops := by
  refine along_of_inv (I := InOrder) (fun _ _ hs hg => hs.runOp hg) (fun e o hs hg => ?_) ops _
    (inOrder_start cfg kvCfg kv) h
  cases o with
  | step predict => exact (hs.step hg).2
  | addRequest rid prompt params n onToken => exact trivial
  | abortRequest rid => exact trivial

/-! ### Both cases at a small pool -/

theorem four_slots : 0 < 4 := by decide

theorem eight_sequences : 0 < 8 := by decide

theorem sixtyFour_tokens : 0 < 64 := by decide

/-- A paged model whose logits are the tokens themselves. -/
def pagedRepeat : Env ℕ where
  pagedClasses := true
  hasBackend := true
  runnerBlockSize := 2
  runnerBlockSize_pos := Nat.two_pos
  forward := fun _ inputs => .ok (.rank3 inputs.inputIds)
  argmax := id
  draw := fun _ row _ => row
  eosTokenId := none
  decodeTokens := fun _ => none

/-- An engine with four blocks of two slots. -/
def fourBlocks : ContinuousBatchingEngine ℕ :=
  start ⟨8, 64, eight_sequences, sixtyFour_tokens⟩ ⟨4, 2, four_slots, Nat.two_pos⟩ fun b => b

/-- Requests that end with their prefill step. -/
def oneTokenEach : List Op :=
  [.addRequest "a" [1, 2, 3] { temperature := 0, maxTokens := 1 } 1 none,
    .addRequest "b" [4, 5] { temperature := 0, maxTokens := 1 } 1 none, .step none]

theorem feedsInOrder_oneTokenEach :
    Along (runOp pagedRepeat) (PrefillOnly pagedRepeat) fourBlocks oneTokenEach ∧
      Along (runOp pagedRepeat) (FeedsInOrder pagedRepeat) fourBlocks oneTokenEach ∧
      fed (exec (runOp pagedRepeat) fourBlocks oneTokenEach).calls 1 =
        [⟨4, 0, some 4⟩, ⟨5, 1, some 5⟩] :=
  ⟨by decide, feedsInOrder_of_prefillOnly _ _ _ _ _ (by decide), by decide⟩

/-- A request that decodes once. -/
def oneDecode : List Op :=
  [.addRequest "a" [1, 2] { temperature := 0, maxTokens := 3 } 1 none, .step none]

/-- The first decode step feeds the output, the token at index `2`, at position `3`. -/
theorem decode_at_wrong_position : ¬ ∀ (env : Env ℕ) (cfg : SchedConfig) (kvCfg : KvConfig)
    (kv : ℕ → ℕ) (ops : List Op),
    Along (runOp env) (FeedsInOrder env) (start cfg kvCfg kv) ops := by
  intro h
  have hrun := h pagedRepeat ⟨8, 64, by decide, by decide⟩ ⟨4, 2, by decide, by decide⟩ (fun b => b)
    (oneDecode ++ [.step none])
  have hlast : FeedsInOrder pagedRepeat (exec (runOp pagedRepeat) fourBlocks oneDecode)
    (.step none) := hrun.2.2.1
  have hfed : (fed (runOp pagedRepeat (exec (runOp pagedRepeat) fourBlocks oneDecode)
    (.step none)).calls 0)[2]? = some ⟨2, 3, some 3⟩ := by decide
  have hpos := (hlast.1 0 2 _ hfed).2.1
  cases hpos

end MoeInfinity.Serving.Feeding
