import MoeInfinity.Serving.Callbacks

/-! # The sizes of the pool never change

No operation of the allocator, the cache, the scheduler or the engine writes the number of blocks or
the block size. -/

namespace MoeInfinity.Serving.Pool

open MoeInfinity.Python MoeInfinity.Lib.Imperative
open MoeInfinity.Serving.Sequence MoeInfinity.Serving.KvCache MoeInfinity.Serving.Schedule
open MoeInfinity.Serving.ModelRunner MoeInfinity.Serving.Engine MoeInfinity.Serving.Callbacks

variable {β ρ : Type}

/-! ### The allocator -/

theorem leaves_heappop : Leaves BlockAllocator.cfg BlockAllocator.heappop := by
  refine leaves_bind leaves_current fun a => ?_
  cases a.freeBlockHeap with
  | nil => exact leaves_raise _
  | cons b rest => exact leaves_bind (leaves_update fun _ => rfl) fun _ => leaves_pure _

theorem leaves_setRemove (b : ℕ) : Leaves BlockAllocator.cfg (BlockAllocator.setRemove b) :=
  leaves_bind leaves_current fun _ => leaves_ite (leaves_update fun _ => rfl) (leaves_raise _)

theorem leaves_allocateLoop : ∀ n, Leaves BlockAllocator.cfg (BlockAllocator.allocateLoop n)
  | 0 => leaves_pure _
  | n + 1 => leaves_bind leaves_heappop fun b => leaves_bind (leaves_setRemove b) fun _ =>
      leaves_bind (leaves_allocateLoop n) fun _ => leaves_pure _

theorem leaves_allocate (n : ℕ) : Leaves BlockAllocator.cfg (BlockAllocator.allocate n) :=
  leaves_bind leaves_current fun _ => leaves_ite (leaves_pure _)
    (leaves_ite (leaves_raise _) (leaves_allocateLoop n))

theorem leaves_freeOne (b : ℕ) : Leaves BlockAllocator.cfg (BlockAllocator.freeOne b) :=
  leaves_bind leaves_current fun _ => leaves_ite (leaves_raise _)
    (leaves_ite (leaves_raise _) (leaves_update fun _ => rfl))

theorem leaves_free (bs : List ℕ) : Leaves BlockAllocator.cfg (BlockAllocator.free bs) :=
  leaves_forEach leaves_freeOne bs

theorem leaves_appendToken (t : BlockTable) : Leaves BlockAllocator.cfg t.appendToken :=
  leaves_bind leaves_current fun _ => leaves_ite
    (leaves_bind (leaves_allocate 1) fun _ => leaves_pure _) (leaves_pure _)

theorem leaves_appendTokensLoop : ∀ (n : ℕ) (t : BlockTable),
    Leaves BlockAllocator.cfg (BlockTable.appendTokensLoop n t)
  | 0, _ => leaves_pure _
  | n + 1, t => leaves_bind (leaves_appendToken t) fun t' => leaves_appendTokensLoop n t'

/-! ### The cache -/

/-- The sizes of the cache. -/
def sizes (c : PagedKVCache β) : KvConfig := c.blockAllocator.cfg

theorem leaves_onAllocator {α : Type} {m : Prog PyError BlockAllocator α}
    (h : Leaves BlockAllocator.cfg m) : Leaves (sizes (β := β)) (PagedKVCache.onAllocator m) :=
  leaves_zoom fun c t ht => by
    rw [ht]
    exact h c.blockAllocator

theorem leaves_requireSequence (i : ℕ) :
    Leaves (sizes (β := β)) (PagedKVCache.requireSequence i) := by
  refine leaves_bind leaves_current fun c => ?_
  cases c.sequenceTables i with
  | none => exact leaves_raise _
  | some t => exact leaves_pure _

theorem leaves_allocateSequence (i n : ℕ) :
    Leaves (sizes (β := β)) (PagedKVCache.allocateSequence i n) :=
  leaves_bind leaves_current fun _ => leaves_ite (leaves_raise _)
    (leaves_bind (leaves_onAllocator (leaves_appendTokensLoop n {})) fun _ =>
      leaves_bind (leaves_update fun _ => rfl) fun _ => leaves_update fun _ => rfl)

theorem leaves_appendTokens (i : ℕ) : ∀ n, Leaves (sizes (β := β)) (PagedKVCache.appendTokens i n)
  | 0 => leaves_bind (leaves_requireSequence i) fun _ => leaves_pure _
  | n + 1 => leaves_bind (leaves_requireSequence i) fun t =>
      leaves_bind (leaves_onAllocator (leaves_appendToken t)) fun _ =>
        leaves_bind (leaves_update fun _ => rfl) fun _ => leaves_appendTokens i n

theorem leaves_freeSequence (i : ℕ) : Leaves (sizes (β := β)) (PagedKVCache.freeSequence i) := by
  refine leaves_bind leaves_current fun c => ?_
  cases c.sequenceTables i with
  | none => exact leaves_pure _
  | some t =>
    exact leaves_bind (leaves_update fun _ => rfl) fun _ =>
      leaves_bind (leaves_update fun _ => rfl) fun _ =>
        leaves_bind (leaves_ite (leaves_onAllocator (leaves_free _)) (leaves_pure _)) fun _ =>
          leaves_update fun _ => rfl

theorem leaves_freeGpuBlocks (i : ℕ) : Leaves (sizes (β := β)) (PagedKVCache.freeGpuBlocks i) := by
  refine leaves_bind leaves_current fun c => ?_
  cases c.sequenceTables i with
  | none => exact leaves_pure _
  | some t =>
    exact leaves_ite (leaves_bind (leaves_onAllocator (leaves_free _)) fun _ =>
      leaves_update fun _ => rfl) (leaves_pure _)

theorem leaves_swapOut (i : ℕ) : Leaves (sizes (β := β)) (PagedKVCache.swapOut i) :=
  leaves_bind (leaves_requireSequence i) fun _ => leaves_bind leaves_current fun _ =>
    leaves_ite (leaves_pure _) (leaves_update fun _ => rfl)

theorem leaves_writeBlocks (bs : List ℕ) (rows : List β) :
    Leaves sizes (PagedKVCache.writeBlocks bs rows) := by
  unfold PagedKVCache.writeBlocks
  split
  · exact leaves_update fun _ => rfl
  · exact leaves_ite (leaves_update fun _ => rfl) (leaves_raise _)

theorem leaves_swapIn (i : ℕ) : Leaves (sizes (β := β)) (PagedKVCache.swapIn i) := by
  refine leaves_bind (leaves_requireSequence i) fun t => leaves_bind leaves_current fun c =>
    leaves_ite (leaves_pure _) (leaves_bind (leaves_update fun _ => rfl) fun _ => ?_)
  have hlast : Leaves (ε := PyError) (sizes (β := β)) (update fun c : PagedKVCache β =>
    { c with swappedOutSequences := c.swappedOutSequences.erase i }) := leaves_update fun _ => rfl
  cases c.swappedCpuBuffers i with
  | none => exact hlast
  | some buf =>
    exact leaves_ite (leaves_bind (leaves_onAllocator (leaves_allocate _)) fun bs =>
      leaves_bind (leaves_update fun _ => rfl) fun _ =>
        leaves_ite (leaves_bind (leaves_writeBlocks bs buf) fun _ => hlast) hlast)
      (leaves_bind (leaves_writeBlocks _ buf) fun _ => hlast)

/-! ### The scheduler -/

/-- The limits of a scheduler and the sizes of its cache. -/
def limits (s : Scheduler β) : SchedConfig × KvConfig := (s.cfg, sizes s.kvCache)

theorem leaves_onKv {α : Type} {m : Prog PyError (PagedKVCache β) α} (h : Leaves sizes m) :
    Leaves limits (Scheduler.onKv m) :=
  leaves_zoom fun s t ht => by
    rw [ht]
    exact congrArg (Prod.mk s.cfg) (h s.kvCache)

theorem leaves_setStatus (i : ℕ) (st : SequenceStatus) :
    Leaves (limits (β := β)) (Scheduler.setStatus i st) :=
  leaves_bind leaves_current fun _ => leaves_bind (leaves_ofExcept _) fun _ =>
    leaves_update fun _ => rfl

theorem leaves_appendOutput (i t : ℕ) : Leaves (limits (β := β)) (Scheduler.appendOutput i t) :=
  leaves_bind leaves_current fun _ => leaves_bind (leaves_ofExcept _) fun _ =>
    leaves_update fun _ => rfl

theorem leaves_registerSequence (d : SequenceData) :
    Leaves (limits (β := β)) (Scheduler.registerSequence d) :=
  leaves_bind leaves_current fun _ => leaves_ite (leaves_raise _)
    (leaves_ite (leaves_bind (leaves_ofExcept _) fun _ => leaves_update fun _ => rfl)
      (leaves_update fun _ => rfl))

theorem leaves_addRequest (rid : String) (seqs : List SequenceData) :
    Leaves (limits (β := β)) (Scheduler.addRequest rid seqs) :=
  leaves_bind leaves_current fun _ => leaves_ite (leaves_raise _)
    (leaves_bind (leaves_forEach leaves_registerSequence seqs) fun _ => leaves_update fun _ => rfl)

theorem leaves_preemptSequences : ∀ is, Leaves (limits (β := β)) (Scheduler.preemptSequences is)
  | [] => leaves_pure _
  | i :: is => leaves_bind leaves_current fun _ => leaves_ite
      (leaves_bind (leaves_attempt (leaves_onKv (leaves_swapOut i)) fun e => by
          cases e <;> first | exact leaves_pure _ | exact leaves_raise _) fun _ =>
        leaves_bind (leaves_onKv (leaves_freeGpuBlocks i)) fun _ =>
          leaves_bind (leaves_setStatus i _) fun _ =>
            leaves_bind (leaves_preemptSequences is) fun _ => leaves_pure _)
      (leaves_preemptSequences is)

theorem leaves_preemptLoop : ∀ gs, Leaves (limits (β := β)) (Scheduler.preemptLoop gs)
  | [] => leaves_pure _
  | g :: rest => leaves_bind (leaves_update fun _ => rfl) fun _ =>
      leaves_bind (leaves_preemptSequences g.sequenceIds) fun _ =>
        leaves_ite (leaves_bind (leaves_update fun _ => rfl) fun _ => leaves_pure _)
          (leaves_preemptLoop rest)

theorem leaves_swapInAll : ∀ is, Leaves (limits (β := β)) (Scheduler.swapInAll is)
  | [] => leaves_pure _
  | i :: is => leaves_bind (leaves_attempt
      (leaves_bind (leaves_onKv (leaves_swapIn i)) fun _ => leaves_pure _) fun _ => leaves_pure _)
      fun _ => leaves_ite (leaves_swapInAll is) (leaves_pure _)

theorem leaves_recoverGroup (g : SequenceGroup) :
    Leaves (limits (β := β)) (Scheduler.recoverGroup g) :=
  leaves_bind leaves_current fun _ => leaves_ite (leaves_pure _) (leaves_ite
    (leaves_update fun _ => rfl)
    (leaves_bind (leaves_swapInAll _) fun _ => leaves_ite (leaves_pure _)
      (leaves_bind (leaves_forEach (fun i => leaves_setStatus i _) _) fun _ =>
        leaves_update fun _ => rfl)))

theorem leaves_recoverSwappedGroups (gs : List SequenceGroup) :
    Leaves (limits (β := β)) (Scheduler.recoverSwappedGroups gs) :=
  leaves_bind leaves_current fun _ => leaves_ite (leaves_pure _)
    (leaves_forEach leaves_recoverGroup gs)

theorem leaves_makeRoom (n : ℕ) (out : SchedulerOutput) :
    Leaves (limits (β := β)) (Scheduler.makeRoom n out) :=
  leaves_bind leaves_current fun _ => leaves_ite
    (leaves_bind (leaves_bind leaves_current fun s => leaves_preemptLoop s.running) fun _ =>
      leaves_ite (leaves_pure _) (leaves_bind leaves_current fun _ => leaves_pure _))
    (leaves_pure _)

theorem leaves_admitSequence (d : SequenceData) :
    Leaves (limits (β := β)) (Scheduler.admitSequence d) :=
  leaves_bind (leaves_onKv (leaves_allocateSequence _ _)) fun _ => leaves_setStatus _ _

theorem leaves_admitWaiting : ∀ (ws : List SequenceGroup) (seqs tokens : ℕ) (out : SchedulerOutput),
    Leaves (limits (β := β)) (Scheduler.admitWaiting ws seqs tokens out)
  | [], _, _, _ => leaves_pure _
  | _ :: rest, seqs, tokens, out => leaves_bind leaves_current fun _ => leaves_ite
      (leaves_bind (leaves_update fun _ => rfl) fun _ => leaves_admitWaiting rest seqs tokens out)
      (leaves_ite (leaves_pure _) (leaves_ite (leaves_pure _)
        (leaves_bind (leaves_makeRoom _ out) fun _ => leaves_ite (leaves_pure _)
          (leaves_bind (leaves_update fun _ => rfl) fun _ =>
            leaves_bind (leaves_forEach leaves_admitSequence _) fun _ =>
              leaves_admitWaiting rest _ _ _))))

theorem limits_sortWaiting (predict : Option (String → List ℕ → ℚ)) (s : Scheduler β) :
    limits (Scheduler.sortWaiting predict s) = limits s := by
  unfold Scheduler.sortWaiting
  cases predict with
  | none => rfl
  | some f =>
    simp only
    split_ifs
    · rfl
    · rfl

theorem leaves_schedule (predict : Option (String → List ℕ → ℚ)) :
    Leaves (limits (β := β)) (Scheduler.schedule predict) :=
  leaves_bind leaves_current fun s => leaves_bind (leaves_recoverSwappedGroups s.swapped) fun _ =>
    leaves_bind (leaves_update (limits_sortWaiting predict)) fun _ =>
      leaves_bind leaves_current fun _ => leaves_bind (leaves_admitWaiting _ 0 0 {}) fun _ =>
        leaves_bind leaves_current fun _ => leaves_pure _

theorem leaves_growSequence (completed : List ℕ) (i : ℕ) :
    Leaves (limits (β := β)) (Scheduler.growSequence completed i) := by
  have hgrow : ∀ e : PyError, Leaves (limits (β := β)) (Scheduler.ignoreKeyError e) := by
    intro e
    cases e <;> first | exact leaves_pure _ | exact leaves_raise _
  have hrest := leaves_bind (leaves_current (f := limits (β := β))) fun s => leaves_ite
    (p := (s.store i).status = .decode)
    (leaves_attempt (leaves_onKv (leaves_appendTokens i 1)) hgrow) (leaves_pure ())
  exact leaves_bind leaves_current fun _ => leaves_ite (leaves_pure _)
    (leaves_ite (leaves_bind (leaves_setStatus i _) fun _ => hrest) hrest)

theorem leaves_finishSequence (i : ℕ) : Leaves (limits (β := β)) (Scheduler.finishSequence i) :=
  leaves_bind leaves_current fun _ => leaves_ite (leaves_pure _)
    (leaves_ite (leaves_bind (leaves_setStatus i _) fun _ => leaves_onKv (leaves_freeSequence i))
      (leaves_onKv (leaves_freeSequence i)))

theorem leaves_cancelSequence (i : ℕ) : Leaves (limits (β := β)) (Scheduler.cancelSequence i) :=
  leaves_bind leaves_current fun _ =>
    leaves_ite (leaves_bind (leaves_setStatus i _) fun _ => leaves_onKv (leaves_freeSequence i))
      (leaves_onKv (leaves_freeSequence i))

theorem limits_foldl_drop : ∀ (gs : List SequenceGroup) (s : Scheduler β),
    limits (gs.foldl (fun s g => Scheduler.dropRequestMetadata g s) s) = limits s
  | [], _ => rfl
  | g :: gs, s => limits_foldl_drop gs (Scheduler.dropRequestMetadata g s)

theorem limits_prune (s : Scheduler β) :
    limits (Scheduler.pruneFinishedAndCancelledRequests s) = limits s :=
  limits_foldl_drop _ s

theorem leaves_updateAfterStep (completed newDecode : List ℕ) :
    Leaves (limits (β := β)) (Scheduler.updateAfterStep completed newDecode) :=
  leaves_bind (leaves_forEach (leaves_growSequence completed) _) fun _ =>
    leaves_bind (leaves_forEach leaves_finishSequence _) fun _ => leaves_update limits_prune

theorem leaves_abortRequest (rid : String) :
    Leaves (limits (β := β)) (Scheduler.abortRequest rid) := by
  refine leaves_bind leaves_current fun s => ?_
  cases s.requestMap.find? (·.requestId = rid) with
  | none => exact leaves_pure _
  | some g =>
    exact leaves_bind (leaves_forEach leaves_cancelSequence g.sequenceIds) fun _ =>
      leaves_bind (leaves_update fun _ => rfl) fun _ =>
        leaves_bind (leaves_update fun _ => rfl) fun _ => leaves_update limits_prune

/-! ### The engine -/

/-- The limits of the scheduler of an engine. -/
def engineLimits (e : ContinuousBatchingEngine β) : SchedConfig × KvConfig := limits e.scheduler

theorem leaves_onScheduler {α : Type} {m : Prog PyError (Scheduler β) α} (h : Leaves limits m) :
    Leaves engineLimits (ContinuousBatchingEngine.onScheduler m) :=
  leaves_zoom fun e t ht => by
    rw [ht]
    exact h e.scheduler

theorem leaves_engineAdd (rid : String) (prompt : List ℕ) (params : SamplingParams) (n : ℕ)
    (onToken : Option Callback) :
    Leaves (engineLimits (β := β))
      (ContinuousBatchingEngine.addRequest rid prompt params n onToken) :=
  leaves_bind leaves_current fun _ => leaves_ite (leaves_raise _) (leaves_ite (leaves_raise _)
    (leaves_bind (leaves_update fun _ => rfl) fun _ =>
      leaves_onScheduler (leaves_addRequest rid _)))

theorem unheard_engineLimits : Unheard (engineLimits (β := β)) := fun _ _ _ _ _ => rfl

theorem leaves_engineAbort (env : Env ρ) (rid : String) :
    Leaves (engineLimits (β := β)) (ContinuousBatchingEngine.abortRequest env rid) :=
  leaves_bind leaves_current fun _ => leaves_bind (leaves_onScheduler (leaves_abortRequest rid))
    fun _ => leaves_bind (leaves_popCallbacks unheard_engineLimits rid) fun _ =>
      leaves_ite (leaves_pure _)
        (leaves_bind (leaves_notifyEviction unheard_engineLimits env .aborted rid) fun _ =>
          leaves_update fun _ => rfl)

section Step

variable {γ : Type} {f : ContinuousBatchingEngine β → γ}

/-- `f` does not depend on what a step changes before `update_after_step`, apart from the
scheduler. -/
structure Unstepped (f : ContinuousBatchingEngine β → γ) : Prop where
  outputs : ∀ e o, f { e with requestOutputs := o } = f e
  generated : ∀ e n, f { e with totalGeneratedTokens := n } = f e
  calls : ∀ e c, f { e with calls := c } = f e

theorem leaves_recordOutput (h : Unstepped f) (rid : String) (i t : ℕ) :
    Leaves f (ContinuousBatchingEngine.recordOutput rid i t) := by
  refine leaves_bind leaves_current fun e => ?_
  cases e.requestOutputs rid with
  | none => exact leaves_raise _
  | some outputs =>
    simp only
    cases outputs i with
    | none => exact leaves_raise _
    | some tokens => exact leaves_update fun e => h.outputs e _

theorem leaves_acceptToken (h : Unstepped f)
    (happend : ∀ i t, Leaves f (ContinuousBatchingEngine.onScheduler (Scheduler.appendOutput i t)))
    (env : Env ρ) (i t : ℕ) : Leaves f (ContinuousBatchingEngine.acceptToken env i t) := by
  refine leaves_bind leaves_current fun e => leaves_ite (leaves_raise _) ?_
  cases e.sequenceToRequestId i with
  | none => exact leaves_raise _
  | some rid =>
    exact leaves_bind (happend i t) fun _ => leaves_bind (leaves_recordOutput h rid i t) fun _ =>
      leaves_bind (leaves_update fun e => h.generated e _) fun _ =>
        leaves_bind leaves_current fun _ => leaves_pure _

theorem leaves_acceptTokens (h : Unstepped f)
    (happend : ∀ i t, Leaves f (ContinuousBatchingEngine.onScheduler (Scheduler.appendOutput i t)))
    (env : Env ρ) : ∀ pairs, Leaves f (ContinuousBatchingEngine.acceptTokens env pairs)
  | [] => leaves_pure _
  | (i, t) :: rest => leaves_bind (leaves_acceptToken h happend env i t) fun _ =>
      leaves_bind (leaves_acceptTokens h happend env rest) fun _ => leaves_pure _

theorem leaves_forwardAndSample (h : ∀ e c, f { e with calls := c } = f e) (env : Env ρ)
    (b : Batch.BatchMetadata) : Leaves f (ContinuousBatchingEngine.forwardAndSample env b) :=
  leaves_bind leaves_current fun _ => leaves_bind (leaves_update fun e => h e _) fun _ =>
    leaves_bind (leaves_ofExcept _) fun _ => leaves_bind (leaves_ofExcept _) fun _ =>
      leaves_bind leaves_current fun _ => leaves_ofExcept _

/-- A step leaves what its methods of the scheduler leave, before `update_after_step`. -/
theorem leaves_stepTokens_of (h : Unstepped f) (env : Env ρ)
    (predict : Option (String → List ℕ → ℚ))
    (hschedule : Leaves f (ContinuousBatchingEngine.onScheduler (Scheduler.schedule predict)))
    (happend : ∀ i t,
      Leaves f (ContinuousBatchingEngine.onScheduler (Scheduler.appendOutput i t))) :
    Leaves f (ContinuousBatchingEngine.stepTokens env predict) :=
  leaves_bind hschedule fun _ => leaves_ite (leaves_pure _)
    (leaves_bind leaves_current fun _ => leaves_bind (leaves_ofExcept _) fun _ =>
      leaves_ite (leaves_raise _) (leaves_bind (leaves_forwardAndSample h.calls env _) fun _ =>
        leaves_bind (leaves_acceptTokens h happend env _) fun _ => leaves_pure _))

end Step

theorem leaves_stepTokens (env : Env ρ) (predict : Option (String → List ℕ → ℚ)) :
    Leaves (engineLimits (β := β)) (ContinuousBatchingEngine.stepTokens env predict) :=
  leaves_stepTokens_of ⟨fun _ _ => rfl, fun _ _ => rfl, fun _ _ => rfl⟩ env predict
    (leaves_onScheduler (leaves_schedule predict)) fun i t =>
    leaves_onScheduler (leaves_appendOutput i t)

theorem leaves_engineStep (env : Env ρ) (predict : Option (String → List ℕ → ℚ)) :
    Leaves (engineLimits (β := β)) (ContinuousBatchingEngine.step env predict) := by
  refine leaves_bind (leaves_stepTokens env predict) fun r => ?_
  cases r with
  | none => exact leaves_pure _
  | some outputs =>
    exact leaves_bind (leaves_onScheduler (leaves_updateAfterStep _ _)) fun _ =>
      leaves_bind (leaves_update fun _ => rfl) fun _ =>
        leaves_bind (leaves_announce unheard_engineLimits env outputs) fun _ => leaves_pure _

/-- The callbacks, and what they and the eviction hook were told. -/
def hearing (e : ContinuousBatchingEngine β) :
    (String → List Callback) × List RequestOutput × List (EvictionEvent × String) :=
  (e.callbacks, e.delivered, e.evictions)

/-- Nothing is told before `update_after_step`. -/
theorem leaves_stepTokens_hearing (env : Env ρ) (predict : Option (String → List ℕ → ℚ)) :
    Leaves (hearing (β := β)) (ContinuousBatchingEngine.stepTokens env predict) :=
  leaves_stepTokens_of ⟨fun _ _ => rfl, fun _ _ => rfl, fun _ _ => rfl⟩ env predict
    (leaves_zoom fun _ _ _ => rfl) fun _ _ => leaves_zoom fun _ _ _ => rfl

end MoeInfinity.Serving.Pool
