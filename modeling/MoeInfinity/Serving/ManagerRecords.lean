import MoeInfinity.Serving.Delivery

/-! # What the ContextPilot manager knows about the blocks

`allocate_sequence` and `free_sequence` tell the installed `ContextPilotKVManager` which blocks a
sequence has got and given back; growth by `append_tokens`, `free_gpu_blocks` and `swap_in` change
block tables without telling it. The record is the block table exactly as long as these three change
no table: no step preempts a sequence that has blocks, and no growth takes a block (`Quiet`). -/

namespace MoeInfinity.Serving.ManagerRecords

open MoeInfinity.Python MoeInfinity.Lib.Imperative MoeInfinity.Lib.Runs
open MoeInfinity.Serving.Sequence MoeInfinity.Serving.KvCache MoeInfinity.Serving.KvCacheSpec
open MoeInfinity.Serving.Schedule MoeInfinity.Serving.Schedule.Scheduler
open MoeInfinity.Serving.Lifecycle MoeInfinity.Serving.ScheduleSpec
open MoeInfinity.Serving.ScheduleInv MoeInfinity.Serving.ScheduleCall
  MoeInfinity.Serving.ScheduleOps
open MoeInfinity.Serving.Batch MoeInfinity.Serving.ModelRunner MoeInfinity.Serving.Engine
open MoeInfinity.Serving.Engine.ContinuousBatchingEngine MoeInfinity.Serving.EngineInv
open MoeInfinity.Serving.EngineStep MoeInfinity.Serving.Selection MoeInfinity.Serving.Delivery
open MoeInfinity.Serving.Callbacks

variable {β ρ : Type}

/-! ### The property and the condition -/

/-- An engine with no requests and a manager that has recorded nothing. -/
def managed (cfg : SchedConfig) (kvCfg : KvConfig) (kv : ℕ → β) : ContinuousBatchingEngine β :=
  ContinuousBatchingEngine.new (Scheduler.new cfg (PagedKVCache.new kvCfg kv).setCpKvManager)

/-- A manager is installed, and it has recorded the blocks of every sequence: those of its table,
and none for a sequence without a table. -/
def RecordsTables (c : PagedKVCache β) : Prop :=
  ∃ m, c.cpKvManager = some m ∧ ∀ i, m i = owned c i

/-- `schedule` preempts only sequences with an empty prompt. -/
def PreemptsEmpty (predict : Option (String → List ℕ → ℚ)) (s : Scheduler β) : Prop :=
  match (schedule predict).run s with
  | (_, .ok out) => ∀ i ∈ out.preemptedSeqIds, (s.store i).promptTokenIds = []
  | _ => True

/-- When `update_after_step` is called, no sequence that grows needs a block, or there is no free
one. -/
def GrowthTakesNone (env : Env ρ) (predict : Option (String → List ℕ → ℚ))
    (e : ContinuousBatchingEngine β) : Prop :=
  match (stepTokens env predict).run e with
  | (e₁, .ok (some outputs)) => growthNeed e₁.scheduler (completedSeqIds outputs)
      (newDecodeSeqIds outputs) = 0 ∨ e₁.scheduler.numFreeBlocks = 0
  | _ => True

/-- The condition on a step, in the state before it. -/
def Quiet (env : Env ρ) (e : ContinuousBatchingEngine β) : Op → Prop
  | .step predict => PreemptsEmpty predict e.scheduler ∧ GrowthTakesNone env predict e
  | _ => True

instance (predict : Option (String → List ℕ → ℚ)) (s : Scheduler β) :
    Decidable (PreemptsEmpty predict s) := by
  unfold PreemptsEmpty
  split <;> infer_instance

instance (env : Env ρ) (predict : Option (String → List ℕ → ℚ)) (e : ContinuousBatchingEngine β) :
    Decidable (GrowthTakesNone env predict e) := by
  unfold GrowthTakesNone
  rcases (stepTokens env predict).run e with ⟨e₁, _ | _ | outputs⟩
  all_goals
    dsimp only
    infer_instance

instance (env : Env ρ) (e : ContinuousBatchingEngine β) : ∀ o : Op, Decidable (Quiet env e o)
  | .step _ => inferInstanceAs (Decidable (_ ∧ _))
  | .addRequest _ _ _ _ _ => isTrue trivial
  | .abortRequest _ => isTrue trivial

/-! ### The operations of the cache -/

/-- The record is right, there is no CPU copy, and sequences with an empty prompt have no blocks;
`P` are the prompts. -/
structure Synced (P : ℕ → List ℕ) (c : PagedKVCache β) : Prop where
  records : RecordsTables c
  copies : ∀ i, c.swappedCpuBuffers i = none
  empty : ∀ i, P i = [] → owned c i = []

section Cache

variable {P : ℕ → List ℕ} {c c' : PagedKVCache β} {i : ℕ}

/-- Only the record, the tables and the copies count, and a table may change its token count. -/
theorem Synced.congr (h : Synced P c) (hm : c'.cpKvManager = c.cpKvManager)
    (ho : ∀ j, owned c' j = owned c j) (hb : ∀ j, c'.swappedCpuBuffers j = none) : Synced P c' := by
  obtain ⟨m, hrec, hown⟩ := h.records
  refine ⟨⟨m, hm.trans hrec, fun j => (hown j).trans (ho j).symm⟩, hb, fun j hj => ?_⟩
  rw [ho j]
  exact h.empty j hj

theorem owned_setTable (c : PagedKVCache β) (i : ℕ) (t : Option BlockTable) (j : ℕ) :
    owned (c.setTable i t) j = if j = i then tableBlocks t else owned c j := by
  unfold owned PagedKVCache.setTable
  by_cases hj : j = i
  · subst hj
    simp
  · simp [hj]

/-- The blocks of an unfinished table, for a prompt of `n` tokens. -/
theorem wp_appendTokensLoop_empty (n : ℕ) (a : BlockAllocator) :
    wp (BlockTable.appendTokensLoop n {}) (fun t _ => n = 0 → t.blockIds = [])
      (fun _ _ => True) a := by
  by_cases hn : n = 0
  · subst hn
    exact fun _ => rfl
  · exact wp_of_forall (fun _ _ h0 => absurd h0 hn) fun _ _ => trivial

/-- **Admission** tells the manager the new table. -/
theorem wp_allocate_synced (h : Synced P c) {n : ℕ} (hn : P i = [] → n = 0) :
    wp (PagedKVCache.allocateSequence i n) (fun _ c' => Synced P c')
      (fun _ c' => Synced P c') c := by
  simp only [PagedKVCache.allocateSequence, PagedKVCache.onAllocator, wp_bind, wp_current, wp_ite,
    wp_raise, wp_zoom, wp_update]
  refine ⟨fun _ => h,
    fun _ => wp_mono (wp_appendTokensLoop_empty n c.blockAllocator) (fun t a ht => ?_) fun _ a _ =>
      h.congr rfl (fun _ => rfl) h.copies⟩
  obtain ⟨m, hrec, hown⟩ := h.records
  have ho : ∀ j, owned (PagedKVCache.notifyBlocksAllocated i t.blockIds
      (PagedKVCache.setTable i (some t) { c with blockAllocator := a })) j =
      if j = i then t.blockIds else owned c j := fun j => owned_setTable _ i (some t) j
  refine ⟨⟨Function.update m i t.blockIds, ?_, fun j => ?_⟩, h.copies, fun j hj => ?_⟩
  · simp [PagedKVCache.notifyBlocksAllocated, PagedKVCache.setTable, hrec]
  · rw [ho j, Function.update_apply, hown j]
  · rw [ho j]
    split_ifs with hji
    · subst hji
      exact ht (hn hj)
    · exact h.empty j hj

/-- **Growth** that takes no block. -/
theorem wp_append_synced (h : Synced P c)
    (hno : c.blockAllocator.numFreeBlocks = 0 ∨
      ∀ t, c.sequenceTables i = some t → t.numTokens % c.blockSize ≠ 0) :
    wp (PagedKVCache.appendTokens i 1) (fun _ c' => Synced P c') (fun _ c' => Synced P c') c := by
  cases ht : c.sequenceTables i with
  | none =>
    simp only [PagedKVCache.appendTokens, PagedKVCache.requireSequence, wp_bind, wp_current,
      ht, wp_raise]
    exact h
  | some t =>
    have hset : ∀ a, Synced P (PagedKVCache.setTable i (some ⟨t.blockIds, t.numTokens + 1⟩)
        { c with blockAllocator := a }) := by
      intro a
      refine h.congr rfl (fun j => ?_) h.copies
      rw [owned_setTable]
      split_ifs with hji
      · subst hji
        simp [owned, ht]
      · rfl
    simp only [PagedKVCache.appendTokens, PagedKVCache.requireSequence, PagedKVCache.onAllocator,
      BlockTable.appendToken, wp_bind, wp_current, ht, wp_pure, wp_zoom, wp_ite, wp_update]
    refine ⟨fun h0 => ?_, fun _ => ?_⟩
    · have hfree : c.blockAllocator.numFreeBlocks = 0 := hno.resolve_right fun h1 => h1 t ht h0
      simp only [BlockAllocator.allocate, wp_bind, wp_current, wp_ite, wp_pure, wp_raise, hfree]
      exact ⟨fun h1 => absurd h1 one_ne_zero,
        fun _ =>
          ⟨fun _ => h.congr rfl (fun _ => rfl) h.copies, fun h1 => absurd Nat.zero_lt_one h1⟩⟩
    · simp only [PagedKVCache.setTable, Function.update_self, wp_pure]
      exact hset c.blockAllocator

theorem filter_self (l : List ℕ) : l.filter (· ∉ l) = [] := by
  simp [List.filter_eq_nil_iff]

/-- **The end of a sequence**: the manager drops the blocks of the table. -/
theorem keeps_freeSequence (i : ℕ) :
    Keeps (Synced P) (PagedKVCache.freeSequence i : Prog PyError (PagedKVCache β) Unit) := by
  intro c h
  rw [PagedKVCache.freeSequence, wp_bind, wp_current]
  cases ht : c.sequenceTables i with
  | none => exact h
  | some t =>
    obtain ⟨m, hrec, hown⟩ := h.records
    have hi : owned c i = t.blockIds := by simp [owned, ht]
    have hfreed :
        Synced P
          (PagedKVCache.notifyBlocksFreed i t.blockIds (PagedKVCache.setTable i none c)) := by
      have ho : ∀ j,
          owned (PagedKVCache.notifyBlocksFreed i t.blockIds (PagedKVCache.setTable i none c)) j =
            if j = i then [] else owned c j := fun j => owned_setTable c i none j
      refine ⟨⟨Function.update m i ((m i).filter (· ∉ t.blockIds)), ?_, fun j => ?_⟩, h.copies,
        fun j hj => ?_⟩
      · simp [PagedKVCache.notifyBlocksFreed, PagedKVCache.setTable, hrec]
      · rw [ho j, Function.update_apply, hown i, hi, filter_self, hown j]
      · rw [ho j]
        split_ifs
        · rfl
        · exact h.empty j hj
    have hrelease : Keeps (Synced P)
        (PagedKVCache.release t : Prog PyError (PagedKVCache β) Unit) := by
      refine keeps_ite (fun c h => ?_) (keeps_pure ())
      rw [PagedKVCache.onAllocator, wp_zoom]
      exact wp_of_forall (fun _ a => h.congr rfl (fun _ => rfl) h.copies)
        fun _ a => h.congr rfl (fun _ => rfl) h.copies
    simp only [wp_bind, wp_update]
    refine wp_mono (hrelease _ hfreed) (fun _ c' h' => ?_) fun _ _ h0 => h0
    refine h'.congr rfl (fun _ => rfl) fun j => ?_
    unfold PagedKVCache.dropSwapped
    simp only [Function.update_apply]
    split_ifs
    · rfl
    · exact h'.copies j

/-- **Preemption** of a sequence without blocks copies nothing. -/
theorem wp_swapOut_synced (h : Synced P c) (hi : P i = []) :
    wp (PagedKVCache.swapOut i) (fun _ c' => Synced P c') (fun _ c' => Synced P c') c := by
  have hown := h.empty i hi
  simp only [PagedKVCache.swapOut, PagedKVCache.requireSequence, wp_bind, wp_current]
  cases ht : c.sequenceTables i with
  | none => exact h
  | some t =>
    have hnil : t.blockIds = [] := by simpa [owned, ht] using hown
    simp only [wp_pure, wp_ite, wp_update]
    refine ⟨fun _ => h, fun _ => h.congr rfl (fun _ => rfl) fun j => ?_⟩
    simp only [PagedKVCache.saveBlocks, hnil, ne_eq, not_true_eq_false, if_false]
    exact h.copies j

theorem wp_freeGpuBlocks_synced (h : Synced P c) (hi : P i = []) :
    wp (PagedKVCache.freeGpuBlocks i) (fun _ c' => Synced P c') (fun _ c' => Synced P c') c := by
  have hown := h.empty i hi
  rw [PagedKVCache.freeGpuBlocks, wp_bind, wp_current]
  cases ht : c.sequenceTables i with
  | none => exact h
  | some t =>
    have hnil : t.blockIds = [] := by simpa [owned, ht] using hown
    simp only [wp_ite, wp_pure, hnil]
    exact ⟨fun h0 => absurd rfl h0, fun _ => h⟩

/-- **Recovery** without a copy takes no blocks. -/
theorem keeps_swapIn (i : ℕ) :
    Keeps (Synced P) (PagedKVCache.swapIn i : Prog PyError (PagedKVCache β) Unit) := by
  intro c h
  simp only [PagedKVCache.swapIn, PagedKVCache.requireSequence, wp_bind, wp_current]
  cases ht : c.sequenceTables i with
  | none => exact h
  | some t =>
    simp only [wp_pure, wp_ite, wp_update, wp_bind, h.copies i]
    refine ⟨fun _ => h, fun _ => h.congr rfl (fun _ => rfl) fun j => ?_⟩
    simp only [PagedKVCache.popSaved, Function.update_apply]
    split_ifs
    · rfl
    · exact h.copies j

end Cache

/-! ### The scheduler's loops -/

/-- The cache is synced with its manager; the prompts of the objects are `P`. -/
structure Tracked (P : ℕ → List ℕ) (s : Scheduler β) : Prop where
  seqId : ∀ i, (s.store i).seqId = i
  prompt : ∀ i, (s.store i).promptTokenIds = P i
  synced : Synced P s.kvCache

section Loops

variable {P : ℕ → List ℕ} {s : Scheduler β} {i : ℕ}

theorem Tracked.withKv (h : Tracked P s) {c : PagedKVCache β} (hc : Synced P c) :
    Tracked P { s with kvCache := c } := ⟨h.seqId, h.prompt, hc⟩

theorem Tracked.setObject (h : Tracked P s) {d : SequenceData} (hid : d.seqId = i)
    (hp : d.promptTokenIds = P i) : Tracked P { s with store := Function.update s.store i d } := by
  refine ⟨fun j => ?_, fun j => ?_, h.synced⟩
  · by_cases hj : j = i
    · subst hj
      simpa using hid
    · simpa [hj] using h.seqId j
  · by_cases hj : j = i
    · subst hj
      simpa using hp
    · simpa [hj] using h.prompt j

theorem setStatus_kept {d d' : SequenceData} {st : SequenceStatus} (h : d.setStatus st = .ok d') :
    d' = { d with status := st } := by
  obtain ⟨-, -, h⟩ := ok_of_bind h
  exact (Except.ok.inj h).symm

theorem keeps_setStatus (i : ℕ) (st : SequenceStatus) :
    Keeps (Tracked P) (Scheduler.setStatus i st : Prog PyError (Scheduler β) Unit) := by
  intro s h
  simp only [Scheduler.setStatus, wp_bind, wp_current]
  cases hd : (s.store i).setStatus st with
  | error e => exact h
  | ok d =>
    rw [wp_ofExcept_ok, wp_update, setStatus_kept hd]
    exact h.setObject (h.seqId i) (h.prompt i)

theorem keeps_onKv {α : Type} {m : Prog PyError (PagedKVCache β) α} (hm : Keeps (Synced P) m) :
    Keeps (Tracked P) (onKv m) := by
  intro s h
  rw [wp_onKv]
  exact wp_mono (hm _ h.synced) (fun _ _ hc => h.withKv hc) fun _ _ hc => h.withKv hc

/-- What is left of `Tracked` when sequences with blocks are preempted: nothing is promised then. -/
def Unless (P : ℕ → List ℕ) (preempted : List ℕ) (s : Scheduler β) : Prop :=
  (∀ i ∈ preempted, P i = []) → Tracked P s

theorem wp_preemptSequences_tracked : ∀ (ids : List ℕ) {s : Scheduler β}, Tracked P s →
    wp (preemptSequences ids) (fun r s' => Unless P r s') (fun _ _ => True) s
  | [], _, h => fun _ => h
  | i :: ids, s, h => by
    simp only [preemptSequences, wp_bind, wp_current, wp_ite, wp_pure]
    refine ⟨fun _ => ?_, fun _ => wp_preemptSequences_tracked ids h⟩
    by_cases hi : P i = []
    · have hout : Keeps (Tracked P)
          (attempt (onKv (PagedKVCache.swapOut i)) ignoreKeyError :
            Prog PyError (Scheduler β) Unit) := by
        refine keeps_attempt (keeps_onKv fun c hc => wp_swapOut_synced hc hi) fun e => ?_
        cases e
        all_goals first | exact keeps_pure () | exact keeps_raise _
      refine wp_mono (hout s h) (fun _ s₁ h₁ => ?_) fun _ _ _ => trivial
      refine wp_mono (keeps_onKv (fun c hc => wp_freeGpuBlocks_synced hc hi) s₁ h₁)
        (fun _ s₂ h₂ => ?_) fun _ _ _ => trivial
      refine wp_mono (keeps_setStatus i .swapped s₂ h₂) (fun _ s₃ h₃ => ?_) fun _ _ _ => trivial
      refine wp_mono (wp_preemptSequences_tracked ids h₃) (fun r s' h' hall => ?_) fun _ _ h0 => h0
      exact h' fun j hj => hall j (List.mem_cons_of_mem i hj)
    · -- a sequence with a prompt is preempted: nothing is promised
      refine wp_of_forall (fun _ _ => wp_of_forall (fun _ _ => wp_of_forall (fun _ _ => wp_of_forall
        (fun r s' hall => absurd (hall i List.mem_cons_self) hi) fun _ _ => trivial)
        fun _ _ => trivial)
        fun _ _ => trivial) fun _ _ => trivial

theorem wp_preemptLoop_tracked : ∀ (groups : List SequenceGroup) {s : Scheduler β}, Tracked P s →
    wp (preemptLoop groups) (fun r s' => Unless P r s') (fun _ _ => True) s
  | [], _, h => fun _ => h
  | g :: rest, s, h => by
    simp only [preemptLoop, wp_bind, wp_update, wp_ite, wp_pure]
    refine wp_mono (wp_preemptSequences_tracked g.sequenceIds
      (s := { s with running := rest }) ⟨h.seqId, h.prompt, h.synced⟩) (fun r s' h' => ?_)
      fun _ _ h0 => h0
    refine ⟨fun _ hall => ?_, fun hnil => ?_⟩
    · obtain ⟨h1, h2, h3⟩ := h' hall
      exact ⟨h1, h2, h3⟩
    · refine wp_preemptLoop_tracked rest (h' fun i hi => ?_)
      rw [not_not.mp hnil] at hi
      cases hi

theorem wp_makeRoom_tracked (required : ℕ) (output : SchedulerOutput)
    (h : Unless P output.preemptedSeqIds s) :
    wp (makeRoom required output)
      (fun r s' => output.preemptedSeqIds ⊆ r.2.preemptedSeqIds ∧ Unless P r.2.preemptedSeqIds s')
      (fun _ _ => True) s := by
  simp only [makeRoom, preemptOldestRunningGroup, wp_bind, wp_current, wp_ite, wp_pure]
  refine ⟨fun _ => ?_, fun _ => ⟨List.Subset.refl _, h⟩⟩
  by_cases hall : ∀ i ∈ output.preemptedSeqIds, P i = []
  · refine wp_mono (wp_preemptLoop_tracked s.running (h hall)) (fun r s' h' => ?_) fun _ _ h0 => h0
    refine ⟨fun hnil => ⟨List.Subset.refl _, fun _ => h' fun i hi => ?_⟩,
      fun _ => ⟨List.subset_append_left _ _, fun hpre => h' fun i hi => ?_⟩⟩
    · rw [hnil] at hi
      cases hi
    · exact hpre i (List.mem_append_right _ hi)
  · refine wp_of_forall (fun r s' => ⟨fun _ => ⟨List.Subset.refl _, fun h0 => absurd h0 hall⟩,
      fun _ => ⟨List.subset_append_left _ _, fun h0 => ?_⟩⟩) fun _ _ => trivial
    exact absurd (fun i hi => h0 i (List.mem_append_left _ hi)) hall

theorem keeps_admitSequences :
    ∀ (ds : List SequenceData), (∀ d ∈ ds, d.promptTokenIds = P d.seqId) → Keeps (Tracked P)
      (forEach admitSequence ds : Prog PyError (Scheduler β) Unit)
  | [], _ => keeps_pure ()
  | d :: ds, hds => by
    refine keeps_bind
      (keeps_bind (keeps_onKv fun c hc => ?_) fun _ => keeps_setStatus d.seqId .prefill) fun _ =>
      keeps_admitSequences ds fun d' hd' => hds d' (List.mem_cons_of_mem d hd')
    refine wp_allocate_synced hc fun h0 => ?_
    unfold SequenceData.promptLength
    rw [hds d List.mem_cons_self, h0]
    rfl

theorem wp_admitWaiting_tracked : ∀ (groups : List SequenceGroup) (seqs tokens : ℕ)
    (output : SchedulerOutput) {s : Scheduler β}, Unless P output.preemptedSeqIds s →
    wp (admitWaiting groups seqs tokens output) (fun r s' => Unless P r.2.2.preemptedSeqIds s')
      (fun _ _ => True) s
  | [], _, _, _, _, h => h
  | g :: rest, seqs, tokens, output, s, h => by
    simp only [admitWaiting, wp_bind, wp_current, wp_ite, wp_pure, wp_update]
    refine ⟨fun _ => wp_admitWaiting_tracked rest seqs tokens output fun hall => ?_,
      fun _ => ⟨fun _ => h, fun _ => ⟨fun _ => h, fun _ => ?_⟩⟩⟩
    · obtain ⟨h1, h2, h3⟩ := h hall
      exact ⟨h1, h2, h3⟩
    · refine wp_mono (wp_makeRoom_tracked _ output h) ?_ fun _ _ h0 => h0
      rintro ⟨room, output'⟩ s₁ ⟨hsub, h₁⟩
      refine ⟨fun _ => h₁, fun _ => ?_⟩
      by_cases hall : ∀ i ∈ output'.preemptedSeqIds, P i = []
      · obtain ⟨hid, hprompt, -⟩ := h fun i hi => hall i (hsub hi)
        have hds : ∀ d ∈ (s.withStatus g .waiting).map s.store, d.promptTokenIds = P d.seqId := by
          intro d hd
          obtain ⟨i, -, rfl⟩ := List.mem_map.mp hd
          rw [hid, hprompt]
        obtain ⟨h1, h2, h3⟩ := h₁ hall
        refine wp_mono (keeps_admitSequences _ hds
          { s₁ with waiting := rest, running := s₁.running ++ [g] } ⟨h1, h2, h3⟩)
            (fun _ s₂ h₂ => ?_)
          fun _ _ _ => trivial
        exact wp_admitWaiting_tracked rest _ _ _ fun _ => h₂
      · exact wp_of_forall (fun _ s₂ => wp_admitWaiting_tracked rest _ _ _ fun h0 => absurd h0 hall)
          fun _ _ => trivial

theorem keeps_swapInAll : ∀ ids : List ℕ,
    Keeps (Tracked P) (swapInAll ids : Prog PyError (Scheduler β) Bool)
  | [] => keeps_pure true
  | i :: ids => by
    refine keeps_bind
      (keeps_attempt (keeps_bind (keeps_onKv (keeps_swapIn i)) fun _ => keeps_pure true) fun _ =>
        keeps_pure false) fun recovered => ?_
    exact keeps_ite (keeps_swapInAll ids) (keeps_pure false)

/-- Queues and maps do not count. -/
theorem keeps_requeue {f : Scheduler β → Scheduler β} (hkv : ∀ s, (f s).kvCache = s.kvCache)
    (hstore : ∀ s, (f s).store = s.store) :
    Keeps (Tracked P) (update f : Prog PyError (Scheduler β) Unit) := by
  intro s h
  refine ⟨?_, ?_, ?_⟩
  · rw [hstore]
    exact h.seqId
  · rw [hstore]
    exact h.prompt
  · rw [hkv]
    exact h.synced

theorem keeps_recoverSwappedGroups (groups : List SequenceGroup) :
    Keeps (Tracked P) (recoverSwappedGroups groups : Prog PyError (Scheduler β) Unit) := by
  refine keeps_bind keeps_current fun s =>
    keeps_ite (keeps_pure ()) (keeps_forEach (fun g => ?_) groups)
  refine keeps_bind keeps_current fun s => keeps_ite (keeps_pure ()) (keeps_ite ?_ ?_)
  · exact keeps_requeue (fun _ => rfl) fun _ => rfl
  · refine keeps_bind (keeps_swapInAll _) fun recovered => keeps_ite (keeps_pure ()) ?_
    exact keeps_bind (keeps_forEach (fun i => keeps_setStatus i .decode) _) fun _ =>
      keeps_requeue (fun _ => rfl) fun _ => rfl

/-- **`schedule`** keeps the record right, unless it preempts a sequence with a prompt. -/
theorem wp_schedule_tracked (predict : Option (String → List ℕ → ℚ)) (h : Tracked P s) :
    wp (schedule predict) (fun out s' => Unless P out.preemptedSeqIds s') (fun _ _ => True) s := by
  simp only [schedule, wp_bind, wp_current, wp_update, wp_pure]
  refine wp_mono (keeps_recoverSwappedGroups s.swapped s h) (fun _ s₁ h₁ => ?_) fun _ _ _ => trivial
  have h₂ : Tracked P (sortWaiting predict s₁) := by
    obtain ⟨W, -, heq⟩ := sortWaiting_eq predict s₁
    rw [heq]
    exact ⟨h₁.seqId, h₁.prompt, h₁.synced⟩
  refine wp_mono (wp_admitWaiting_tracked _ 0 0 {} fun _ => h₂) ?_ fun _ _ h0 => h0
  rintro ⟨seqs, tokens, out⟩ s' h'
  obtain ⟨-, -, -, -, -, hpre⟩ := selectDecode_spec s' s'.runningIds seqs tokens out
  rw [hpre]
  exact h'

/-! ### After a step -/

theorem tracked_prune (h : Tracked P s) : Tracked P (pruneFinishedAndCancelledRequests s) := by
  obtain ⟨hkv, hstore, -⟩ := foldl_drop_eq (s.requestMap.filter fun g => !s.hasActive g) s
  refine ⟨fun i => ?_, fun i => ?_, ?_⟩
  · exact (congrArg (fun f => (f i).seqId) hstore).trans (h.seqId i)
  · exact (congrArg (fun f => (f i).promptTokenIds) hstore).trans (h.prompt i)
  · have hc := h.synced
    rw [← hkv] at hc
    exact hc

/-- The end of a sequence, with a change of its status if it is live. -/
theorem keeps_end (i : ℕ) (st : SequenceStatus) (p : Prop) [Decidable p] :
    Keeps (Tracked P) (do
      if p then Scheduler.setStatus i st else pure ()
      onKv (PagedKVCache.freeSequence i) : Prog PyError (Scheduler β) Unit) :=
  keeps_ite (keeps_bind (keeps_setStatus i st) fun _ => keeps_onKv (keeps_freeSequence i))
    (keeps_onKv (keeps_freeSequence i))

theorem keeps_finishSequence (i : ℕ) :
    Keeps (Tracked P) (finishSequence i : Prog PyError (Scheduler β) Unit) :=
  keeps_bind keeps_current fun _ => keeps_ite (keeps_pure ()) (keeps_end i .finished _)

theorem keeps_cancelSequence (i : ℕ) :
    Keeps (Tracked P) (cancelSequence i : Prog PyError (Scheduler β) Unit) :=
  keeps_bind keeps_current fun _ => keeps_end i .cancelled _

/-- One iteration of the growth, for a sequence that needs no block. -/
theorem wp_growSequence_tracked {completed : List ℕ} (h : Tracked P s)
    (hno : s.numFreeBlocks = 0 ∨ growthOf s completed i = 0) :
    wp (growSequence completed i) (fun _ => Tracked P) (fun _ => Tracked P) s := by
  simp only [growSequence, wp_bind, wp_current, wp_ite, wp_pure]
  refine ⟨fun _ => h, fun hin => ?_⟩
  obtain ⟨hreg, hcomp⟩ := not_or.mp hin
  have hreg : i ∈ s.sequenceMap := not_not.mp hreg
  have happend : ∀ s₁ : Scheduler β, Tracked P s₁ → s₁.kvCache = s.kvCache →
      Active (s.store i).status →
      wp (attempt (onKv (PagedKVCache.appendTokens i 1)) ignoreKeyError) (fun _ => Tracked P)
        (fun _ => Tracked P) s₁ := by
    intro s₁ h₁ hkv hact
    rw [wp_attempt, wp_onKv]
    refine wp_mono (wp_append_synced h₁.synced ?_) (fun _ _ hc => h₁.withKv hc) fun e c hc => ?_
    · rw [hkv]
      refine hno.imp (fun h0 => h0) fun h0 t ht hmod => ?_
      have h1 : growthOf s completed i = 1 := by
        refine if_pos ⟨⟨hreg, hcomp, hact⟩, ?_⟩
        show ((s.kvCache.sequenceTables i).map (·.numTokens)).getD 0 % s.kvCache.blockSize = 0
        rw [ht]
        exact hmod
      omega
    · cases e
      all_goals exact h₁.withKv hc
  refine ⟨fun hpre => ?_, fun hnot => ⟨fun hdec => happend s h rfl (Or.inr hdec), fun _ => h⟩⟩
  simp only [Scheduler.setStatus, wp_bind, wp_current]
  cases hd : (s.store i).setStatus .decode with
  | error e => exact h
  | ok d =>
    have h₁ : Tracked P { s with store := Function.update s.store i d } := by
      rw [setStatus_kept hd]
      exact h.setObject (h.seqId i) (h.prompt i)
    rw [wp_ofExcept_ok, wp_update]
    exact ⟨fun _ => happend _ h₁ rfl (Or.inl hpre), fun _ => h₁⟩

/-- What the growth loop still has before it. -/
structure Growing (P : ℕ → List ℕ) (completed rest : List ℕ) (s : Scheduler β) : Prop where
  tracked : Tracked P s
  wf : Wf s.kvCache
  nodup : rest.Nodup
  ok : ∀ i ∈ rest, (life s i).Ok
  none : s.numFreeBlocks = 0 ∨ ∀ i ∈ rest, growthOf s completed i = 0

theorem wp_growing_step {completed rest : List ℕ} (h : Growing P completed (i :: rest) s) :
    wp (growSequence completed i) (fun _ => Growing P completed rest) (fun _ => Tracked P) s := by
  have hoki := h.ok i List.mem_cons_self
  obtain ⟨hi, hnd⟩ := List.nodup_cons.mp h.nodup
  have htracked : wp (growSequence completed i) (fun _ => Tracked P) (fun _ => Tracked P) s :=
    wp_growSequence_tracked h.tracked (h.none.imp_right fun h0 => h0 i List.mem_cons_self)
  refine wp_mono (wp_and htracked (wp_growSequence h.wf hoki)) ?_ fun _ _ h0 => h0.1
  rintro _ s' ⟨h', hE⟩
  have hsame : ∀ j ∈ rest, life s' j = life s j := fun j hj =>
    hE.other j fun h0 => hi (List.mem_singleton.mp h0 ▸ hj)
  refine ⟨h', hE.wf, hnd, fun j hj => ?_, ?_⟩
  · rw [hsame j hj]
    exact h.ok j (List.mem_cons_of_mem i hj)
  · rcases h.none with h0 | h0
    · left
      have hfree := hE.free
      have hlen := (hE.each i (by simp)).length
      simp only [blocksOf_cons, hlen, h0] at hfree
      have h1 : ∀ t : Scheduler β, blocksOf t [] = 0 := fun _ => rfl
      rw [h1, h1] at hfree
      omega
    · right
      intro j hj
      rw [growthOf_congr hE.same (hsame j hj)]
      exact h0 j (List.mem_cons_of_mem i hj)

/-- **`update_after_step`**, when its growth takes no block. -/
theorem wp_updateAfterStep_tracked {completed newDecode : List ℕ} (h : Tracked P s) (hinv : Inv s)
    (hno : growthNeed s completed newDecode = 0 ∨ s.numFreeBlocks = 0) :
    wp (updateAfterStep completed newDecode) (fun _ => Tracked P) (fun _ => Tracked P) s := by
  simp only [updateAfterStep, wp_bind, wp_update]
  have hstart : Growing P completed (fromkeys newDecode) s := by
    refine ⟨h, hinv.wf, nodup_fromkeys _, fun i _ => hinv.ok i, ?_⟩
    refine hno.symm.imp_right fun h0 i hi => ?_
    exact List.sum_eq_zero_iff.mp h0 _ (List.mem_map_of_mem hi)
  refine wp_mono (wp_forEach (Growing P completed) (fun i rest t ht => wp_growing_step ht)
    (fromkeys newDecode) s hstart) (fun _ s₁ h₁ => ?_) fun _ _ h0 => h0
  refine wp_mono (keeps_forEach keeps_finishSequence (fromkeys completed) s₁ h₁.tracked)
    (fun _ s₂ h₂ => tracked_prune h₂) fun _ _ h0 => h0

theorem keeps_abortRequest (rid : String) :
    Keeps (Tracked P) (Scheduler.abortRequest rid : Prog PyError (Scheduler β) Unit) := by
  refine keeps_bind keeps_current fun s => ?_
  cases s.requestMap.find? (·.requestId = rid) with
  | none => exact keeps_pure ()
  | some g =>
    refine keeps_bind (keeps_forEach keeps_cancelSequence g.sequenceIds) fun _ => ?_
    refine keeps_bind (keeps_requeue (fun _ => rfl) fun _ => rfl) fun _ => ?_
    exact keeps_bind (keeps_requeue (fun _ => rfl) fun _ => rfl) fun _ => keeps_update
      fun _ => tracked_prune

theorem keeps_appendOutput (i t : ℕ) :
    Keeps (Tracked P) (Scheduler.appendOutput i t : Prog PyError (Scheduler β) Unit) := by
  intro s h
  simp only [Scheduler.appendOutput, SequenceData.appendOutputToken, wp_bind, wp_current]
  split_ifs with hst
  · exact h
  · exact h.setObject (h.seqId i) (h.prompt i)

end Loops

/-! ### The engine -/

section Steps

variable {P : ℕ → List ℕ} {e : ContinuousBatchingEngine β}

/-- `Tracked`, for the scheduler of an engine. -/
def TrackedBy (P : ℕ → List ℕ) (e : ContinuousBatchingEngine β) : Prop := Tracked P e.scheduler

theorem keeps_onScheduler {α : Type} {m : Prog PyError (Scheduler β) α} (hm : Keeps (Tracked P) m) :
    Keeps (TrackedBy P) (onScheduler m) := by
  intro e h
  rw [wp_onScheduler]
  exact wp_mono (hm _ h) (fun _ _ h0 => h0) fun _ _ h0 => h0

/-- An update that leaves the scheduler alone. -/
theorem keeps_bookkeeping {f : ContinuousBatchingEngine β → ContinuousBatchingEngine β}
    (hf : ∀ e, (f e).scheduler = e.scheduler) :
    Keeps (TrackedBy P) (update f : Prog PyError (ContinuousBatchingEngine β) Unit) := by
  refine keeps_update fun e h => ?_
  unfold TrackedBy
  rw [hf]
  exact h

theorem keeps_ofExcept {α : Type} {I : ContinuousBatchingEngine β → Prop} (x : Except PyError α) :
    Keeps I (ofExcept x : Prog PyError (ContinuousBatchingEngine β) α) := by
  cases x with
  | ok a => exact keeps_pure a
  | error err => exact keeps_raise err

theorem keeps_recordOutput (rid : String) (i t : ℕ) :
    Keeps (TrackedBy P)
      (recordOutput rid i t : Prog PyError (ContinuousBatchingEngine β) Unit) := by
  refine keeps_bind keeps_current fun e => ?_
  cases e.requestOutputs rid with
  | none => exact keeps_raise _
  | some outputs =>
    cases hi : outputs i with
    | none => simp only [hi]; exact keeps_raise _
    | some tokens => simp only [hi]; exact keeps_bookkeeping fun _ => rfl

theorem keeps_acceptTokens (env : Env ρ) : ∀ pairs : List (ℕ × ℕ),
    Keeps (TrackedBy P) (acceptTokens env pairs : Prog PyError (ContinuousBatchingEngine β) _)
  | [] => keeps_pure []
  | (i, t) :: pairs => by
    refine keeps_bind ?_ fun _ => keeps_bind (keeps_acceptTokens env pairs) fun _ => keeps_pure _
    refine keeps_bind keeps_current fun e => keeps_ite (keeps_raise _) ?_
    cases e.sequenceToRequestId i with
    | none => exact keeps_raise _
    | some rid =>
      refine keeps_bind (keeps_onScheduler (keeps_appendOutput i t)) fun _ => ?_
      refine keeps_bind (keeps_recordOutput rid i t) fun _ => ?_
      exact keeps_bind (keeps_bookkeeping fun _ => rfl) fun _ =>
        keeps_bind keeps_current fun _ => keeps_pure _

theorem keeps_forwardAndSample (env : Env ρ) (b : BatchMetadata) :
    Keeps (TrackedBy P) (forwardAndSample env b : Prog PyError (ContinuousBatchingEngine β) _) := by
  refine keeps_bind keeps_current fun e => keeps_bind (keeps_bookkeeping fun _ => rfl) fun _ => ?_
  refine keeps_bind (keeps_ofExcept _) fun _ => keeps_bind (keeps_ofExcept _) fun _ => ?_
  exact keeps_bind keeps_current fun _ => keeps_ofExcept _

/-- **The tokens of a step**: behind `schedule` no block table changes. -/
theorem wp_stepTokens_tracked (env : Env ρ) {predict : Option (String → List ℕ → ℚ)}
    (hinv : Inv e.scheduler) (h : TrackedBy P e) (hpre : PreemptsEmpty predict e.scheduler) :
    wp (stepTokens env predict) (fun _ => TrackedBy P) (fun _ => TrackedBy P) e := by
  obtain ⟨out, s₁, hran, -⟩ := schedule_run predict hinv
  have hun := wp_ok (wp_schedule_tracked predict h) hran
  unfold PreemptsEmpty at hpre
  rw [hran] at hpre
  have h₁ : TrackedBy P { e with scheduler := s₁ } := hun fun i hi => by
    rw [← h.prompt i]
    exact hpre i hi
  simp only [stepTokens, wp_bind, wp_onScheduler]
  refine wp_of_eq hran ?_
  have hrest : Keeps (TrackedBy P) (do
      let e ← current
      let b ← ofExcept (fromSchedulerOutput out e.sequences e.scheduler.store e.scheduler.kvCache)
      if b.totalTokens = 0 then
        raise (.runtimeError "scheduler produced an empty batch; empty prompts are not supported")
      else
        let tokens ← forwardAndSample env b
        let outputs ← acceptTokens env (b.seqIds.zip tokens)
        return some outputs : Prog PyError (ContinuousBatchingEngine β)
          (Option (List RequestOutput))) := by
    refine keeps_bind keeps_current fun e => keeps_bind (keeps_ofExcept _) fun b => ?_
    refine keeps_ite (keeps_raise _) (keeps_bind (keeps_forwardAndSample env b) fun tokens => ?_)
    exact keeps_bind (keeps_acceptTokens env _) fun _ => keeps_pure _
  exact keeps_ite (keeps_pure none) hrest _ h₁

theorem wp_step_tracked (env : Env ρ) {predict : Option (String → List ℕ → ℚ)}
    (hcons : Consistent e) (h : TrackedBy P e) (hpre : PreemptsEmpty predict e.scheduler)
    (hgrow : GrowthTakesNone env predict e) :
    wp (step env predict) (fun _ => TrackedBy P) (fun _ => TrackedBy P) e := by
  have htracked := wp_stepTokens_tracked env hcons.inv h hpre
  have htokens := wp_stepTokens env predict hcons
  rw [step, wp_bind]
  cases hrun : (stepTokens env predict).run e with
  | mk e₁ r =>
    cases r with
    | error err => exact wp_of_error hrun (wp_error (R := fun _ => TrackedBy P) htracked hrun)
    | ok r =>
      refine wp_of_eq hrun ?_
      have h₁ := wp_ok htracked hrun
      cases r with
      | none => exact h₁
      | some outputs =>
        obtain ⟨out, s₁, tokens, hacc⟩ := wp_ok htokens hrun
        unfold GrowthTakesNone at hgrow
        rw [hrun] at hgrow
        simp only [wp_bind, wp_onScheduler, wp_update, wp_pure]
        exact wp_mono (wp_updateAfterStep_tracked h₁ hacc.consistent.inv hgrow)
          (fun _ _ h0 => wp_announce_scheduler (I := Tracked P) env outputs h0) fun _ _ h0 => h0

theorem keeps_engineAbort (env : Env ρ) (rid : String) :
    Keeps (TrackedBy P)
      (abortRequest env rid : Prog PyError (ContinuousBatchingEngine β) Unit) := by
  refine keeps_bind keeps_current fun e => keeps_bind (keeps_onScheduler (keeps_abortRequest rid))
    fun _ => ?_
  refine keeps_bind (keeps_bookkeeping fun _ => rfl) fun _ => keeps_ite (keeps_pure ()) ?_
  refine keeps_bind (keeps_bind keeps_current fun _ => ?_) fun _ => keeps_bookkeeping fun _ => rfl
  exact keeps_bind (keeps_bookkeeping fun _ => rfl) fun _ => keeps_ofExcept _

theorem leaves_kvCache_addRequest (rid : String) (prompt : List ℕ) (params : SamplingParams) (n : ℕ)
    (onToken : Option Callback) : Leaves (fun e : ContinuousBatchingEngine β => e.scheduler.kvCache)
      (addRequest rid prompt params n onToken) := by
  have hreg : ∀ d : SequenceData, Leaves Scheduler.kvCache
      (registerSequence d : Prog PyError (Scheduler β) Unit) := by
    intro d
    refine leaves_bind leaves_current fun s => leaves_ite (leaves_raise _) ?_
    exact leaves_ite (leaves_bind (leaves_ofExcept _) fun _ => leaves_update fun _ => rfl)
      (leaves_update fun _ => rfl)
  refine leaves_bind leaves_current fun e =>
    leaves_ite (leaves_raise _) (leaves_ite (leaves_raise _) ?_)
  refine leaves_bind (leaves_update fun _ => rfl) fun _ => leaves_zoom fun s t ht => ?_
  subst ht
  exact (leaves_bind leaves_current fun s => leaves_ite (leaves_raise _) (leaves_bind
    (leaves_forEach hreg _) fun _ => leaves_update fun _ => rfl) :
      Leaves Scheduler.kvCache (Scheduler.addRequest rid _)) _

end Steps

/-! ### Runs -/

/-- The invariant of the quiet runs. -/
structure Followed (e : ContinuousBatchingEngine β) : Prop where
  consistent : Consistent e
  tracked : ∃ P, TrackedBy P e

theorem followed_managed (cfg : SchedConfig) (kvCfg : KvConfig) (kv : ℕ → β) :
    Followed (managed cfg kvCfg kv) := by
  have h := consistent_new cfg kvCfg kv
  refine ⟨⟨{ h.inv with wf := h.inv.wf.congr rfl rfl }, h.grouped, h.used, h.known,
    h.owner, h.lists, h.bound⟩, fun _ => [], fun _ => rfl, fun _ => rfl, ⟨_, rfl, fun _ => rfl⟩,
    fun _ => rfl, fun _ _ => rfl⟩

/-- The sequences of a new request have no blocks yet. -/
theorem owned_new {e : ContinuousBatchingEngine β} (h : Consistent e) {i : ℕ}
    (hi : e.nextSeqId ≤ i) :
    owned e.scheduler.kvCache i = [] := by
  have hno : ¬ HasTable (e.scheduler.store i).status := fun h0 =>
    absurd (h.used i (h.inv.registered i h0)) (by omega)
  have hnone := (h.inv.ok i).tokens_none hno
  rw [owned, share_tokens_eq_none.mp hnone]
  rfl

/-- **One operation** of a quiet run. -/
theorem Followed.runOp {env : Env ρ} {e : ContinuousBatchingEngine β} (h : Followed e) {o : Op}
    (hq : Quiet env e o) : Followed (EngineStep.runOp env e o) := by
  refine ⟨consistent_runOp env h.consistent o, ?_⟩
  obtain ⟨P, hP⟩ := h.tracked
  cases o with
  | step predict => exact ⟨P, inv_of_wp (wp_step_tracked env h.consistent hP hq.1 hq.2)⟩
  | abortRequest rid => exact ⟨P, inv_of_wp (keeps_engineAbort env rid e hP)⟩
  | addRequest rid prompt params n onToken =>
    rcases add_cases rid prompt params n onToken h.consistent env with h0 | ⟨hc, h0⟩
    · exact ⟨P, by rw [h0]; exact hP⟩
    · have hkv :
        (EngineStep.runOp env e (.addRequest rid prompt params n onToken)).scheduler.kvCache =
          e.scheduler.kvCache := leaves_kvCache_addRequest rid prompt params n onToken e
      refine ⟨fun i =>
        ((EngineStep.runOp env e (.addRequest rid prompt params n onToken)).scheduler.store
        i).promptTokenIds, hc.inv.seqId, fun _ => rfl, ?_, ?_, fun i hi => ?_⟩
      · rw [hkv]
        exact hP.synced.records
      · rw [hkv]
        exact hP.synced.copies
      · rw [hkv]
        by_cases hnew : e.nextSeqId ≤ i ∧ i < e.nextSeqId + n
        · exact owned_new h.consistent hnew.1
        · rw [h0.other i hnew, hP.prompt i] at hi
          exact hP.synced.empty i hi

/-- **The manager's record is the block table** in every state of a run of an engine with a manager,
as long as no step preempts a sequence with a prompt and no growth takes a block. -/
theorem records_of_quiet (env : Env ρ) (cfg : SchedConfig) (kvCfg : KvConfig) (kv : ℕ → β)
    (ops : List Op) (h : Along (runOp env) (Quiet env) (managed cfg kvCfg kv) ops) :
    RecordsTables (exec (runOp env) (managed cfg kvCfg kv) ops).scheduler.kvCache := by
  obtain ⟨P, hP⟩ := (inv_exec (I := Followed) (fun _ _ hs hg => hs.runOp hg) ops _
    (followed_managed cfg kvCfg kv) h).tracked
  exact hP.synced.records

/-- A request whose tokens fit in its blocks, and one that is aborted. -/
def fittingRequests : List Op :=
  [.addRequest "a" [1, 2] { temperature := 0, maxTokens := 2 } 1 none, .step none,
    .addRequest "b" [1, 2, 3, 4, 5] { temperature := 0, maxTokens := 4 } 1 none, .step none]

theorem records_fittingRequests :
    Along (runOp repeatLast) (Quiet repeatLast) (managed ⟨8, 64, by decide, by decide⟩
        ⟨4, 4, by decide, by decide⟩ fun b => b) (fittingRequests ++ [.abortRequest "b"]) ∧
      ((exec (runOp repeatLast) (managed ⟨8, 64, by decide, by decide⟩
        ⟨4, 4, by decide, by decide⟩ fun b => b) fittingRequests).scheduler.kvCache.cpKvManager.map
          fun m => (m 0, m 1)) = some ([], [1, 2]) ∧
      RecordsTables (exec (runOp repeatLast) (managed ⟨8, 64, by decide, by decide⟩
        ⟨4, 4, by decide, by decide⟩ fun b => b)
          (fittingRequests ++ [.abortRequest "b"])).scheduler.kvCache :=
  ⟨by decide, by decide, records_of_quiet repeatLast _ _ _ _ (by decide)⟩

/-- The prompt fills a block, so the first output takes a second one, which the manager never hears
of. -/
theorem unrecorded_growth : ¬ ∀ (env : Env ℕ) (cfg : SchedConfig) (kvCfg : KvConfig) (kv : ℕ → ℕ)
    (ops : List Op),
    RecordsTables (exec (runOp env) (managed cfg kvCfg kv) ops).scheduler.kvCache := by
  intro h
  obtain ⟨m, hm, hown⟩ := h repeatLast ⟨8, 64, by decide, by decide⟩ ⟨4, 4, by decide, by decide⟩
    (fun b => b)
    [.addRequest "a" [1, 2, 3, 4] { temperature := 0, maxTokens := 3 } 1 none, .step none]
  have hrec := congrArg (Option.map fun f => f 0) hm
  rw [Option.map_some, hown 0] at hrec
  revert hrec
  decide

end MoeInfinity.Serving.ManagerRecords
