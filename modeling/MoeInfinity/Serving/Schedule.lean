import MoeInfinity.Serving.KvCache
import MoeInfinity.Serving.Sequence

/-! # The serving scheduler (`serving/scheduler.py`)

Groups move between three queues. `schedule` first tries to bring the swapped groups back, then
admits waiting groups in order, preempting the oldest running group when the blocks do not suffice,
and last selects the running sequences that decode. The sequence objects are kept in `store`, by id.

The `ContextPilot` manager that may reorder the waiting queue is an argument of `schedule`: its
scores depend on its own state. -/

namespace MoeInfinity.Serving.Schedule

open MoeInfinity.Python MoeInfinity.Lib.Imperative
open MoeInfinity.Serving.Sequence MoeInfinity.Serving.KvCache

/-! ### State -/

/-- The limits of a scheduler; `__init__` refuses limits that are not positive. -/
structure SchedConfig where
  maxBatchSize : ℕ
  maxTokensPerStep : ℕ
  maxBatchSize_pos : 0 < maxBatchSize
  maxTokensPerStep_pos : 0 < maxTokensPerStep

structure Scheduler (β : Type) where
  cfg : SchedConfig
  kvCache : PagedKVCache β
  waiting : List SequenceGroup
  running : List SequenceGroup
  swapped : List SequenceGroup
  sequenceMap : Finset ℕ
  requestMap : List SequenceGroup
  store : ℕ → SequenceData

/-- The result of `schedule`. -/
structure SchedulerOutput where
  prefillSeqIds : List ℕ := []
  decodeSeqIds : List ℕ := []
  preemptedSeqIds : List ℕ := []
  numPrefillTokens : ℕ := 0
  numDecodeTokens : ℕ := 0
deriving DecidableEq, Repr

namespace Scheduler

variable {β : Type}

def new (cfg : SchedConfig) (kvCache : PagedKVCache β) : Scheduler β :=
  ⟨cfg, kvCache, [], [], [], ∅, [], SequenceData.blank⟩

def numFreeBlocks (s : Scheduler β) : ℕ := s.kvCache.blockAllocator.numFreeBlocks

/-- Run a method of the KV cache. -/
def onKv {α : Type} (m : Prog PyError (PagedKVCache β) α) : Prog PyError (Scheduler β) α :=
  zoom kvCache (fun c s => { s with kvCache := c }) m

def setStatus (seqId : ℕ) (status : SequenceStatus) : Prog PyError (Scheduler β) Unit := do
  let s ← current
  let d ← ofExcept ((s.store seqId).setStatus status)
  update fun s => { s with store := Function.update s.store seqId d }

/-- `sequence.append_output_token`, on an object of the store. -/
def appendOutput (seqId tokenId : ℕ) : Prog PyError (Scheduler β) Unit := do
  let s ← current
  let d ← ofExcept ((s.store seqId).appendOutputToken tokenId)
  update fun s => { s with store := Function.update s.store seqId d }

/-! ### Adding a request -/

/-- The body of the loop of `add_request`. -/
def registerSequence (d : SequenceData) : Prog PyError (Scheduler β) Unit := do
  let s ← current
  if d.seqId ∈ s.sequenceMap then
    raise (.valueError s!"sequence id {d.seqId} already exists")
  else
    let d' ← if d.status ≠ .waiting then ofExcept (d.setStatus .waiting) else pure d
    update fun s => { s with
      store := Function.update s.store d.seqId d'
      sequenceMap := insert d.seqId s.sequenceMap }

def addRequest (requestId : String) (sequences : List SequenceData) :
    Prog PyError (Scheduler β) Unit := do
  let s ← current
  if requestId ∈ s.requestMap.map (·.requestId) then
    raise (.valueError s!"request_id '{requestId}' already exists")
  else
    forEach registerSequence sequences
    update fun s =>
      let group : SequenceGroup := ⟨requestId, sequences.map (·.seqId)⟩
      { s with requestMap := s.requestMap ++ [group], waiting := s.waiting ++ [group] }

/-! ### Helpers of `schedule` -/

def requiredBlocks (s : Scheduler β) (d : SequenceData) : ℕ :=
  if d.promptLength = 0 then 0 else ceilDiv d.promptLength s.kvCache.blockSize

def numPrefillTokens (d : SequenceData) : ℕ := d.promptLength - d.numComputedTokens

def groupTokenIds (s : Scheduler β) (g : SequenceGroup) : List ℕ :=
  g.sequenceIds.flatMap fun i => (s.store i).promptTokenIds

/-- The sequences of a group that have the given status. -/
def withStatus (s : Scheduler β) (g : SequenceGroup) (status : SequenceStatus) : List ℕ :=
  g.sequenceIds.filter fun i => (s.store i).status = status

/-- The loop over one group in `_preempt_oldest_running_group`; the ids preempted are the result. -/
def preemptSequences : List ℕ → Prog PyError (Scheduler β) (List ℕ)
  | [] => pure []
  | i :: is => do
    let s ← current
    if (s.store i).status = .prefill ∨ (s.store i).status = .decode then
      attempt (onKv (PagedKVCache.swapOut i)) fun
        | .keyError _ => pure ()
        | e => raise e
      onKv (PagedKVCache.freeGpuBlocks i)
      setStatus i .swapped
      let rest ← preemptSequences is
      return i :: rest
    else preemptSequences is

/-- The `while` loop of `_preempt_oldest_running_group`, over the running queue. -/
def preemptLoop : List SequenceGroup → Prog PyError (Scheduler β) (List ℕ)
  | [] => pure []
  | g :: rest => do
    update fun s => { s with running := rest }
    let preempted ← preemptSequences g.sequenceIds
    if preempted ≠ [] then
      update fun s => { s with swapped := s.swapped ++ [g] }
      return preempted
    else preemptLoop rest

def preemptOldestRunningGroup : Prog PyError (Scheduler β) (List ℕ) := do
  let s ← current
  preemptLoop s.running

/-- The `swap_in` loop of `_recover_swapped_groups`: `false` if a `swap_in` raised. -/
def swapInAll : List ℕ → Prog PyError (Scheduler β) Bool
  | [] => pure true
  | i :: is => do
    let recovered ← attempt (do
      onKv (PagedKVCache.swapIn i)
      return true) fun _ => pure false
    if recovered then swapInAll is else return false

/-- One iteration of `_recover_swapped_groups`. -/
def recoverGroup (g : SequenceGroup) : Prog PyError (Scheduler β) Unit := do
  let s ← current
  if g ∉ s.swapped then pure ()
  else
    let swappedSequences := s.withStatus g .swapped
    if swappedSequences = [] then
      update fun s => { s with swapped := s.swapped.erase g }
    else
      let recovered ← swapInAll swappedSequences
      if recovered = false then pure ()
      else
        forEach (fun i => setStatus i .decode) swappedSequences
        update fun s => { s with swapped := s.swapped.erase g, running := g :: s.running }

def recoverSwappedGroups (swappedGroups : List SequenceGroup) :
    Prog PyError (Scheduler β) Unit := do
  let s ← current
  if s.numFreeBlocks = 0 then pure ()
  else forEach recoverGroup swappedGroups

/-- The waiting queue in the order of the manager's scores, highest first; ties keep their order. -/
def sortWaiting (predict : Option (String → List ℕ → ℚ)) (s : Scheduler β) : Scheduler β :=
  match predict with
  | none => s
  | some f =>
    if 1 < s.waiting.length then
      { s with
        waiting := s.waiting.insertionSort fun g₁ g₂ =>
          f g₂.requestId (s.groupTokenIds g₂) ≤ f g₁.requestId (s.groupTokenIds g₁) }
    else s

/-- Free blocks for a group: whether it fits now, and the output with the ids preempted. -/
def makeRoom (required : ℕ) (output : SchedulerOutput) :
    Prog PyError (Scheduler β) (Bool × SchedulerOutput) := do
  let s ← current
  if s.numFreeBlocks < required then
    let preempted ← preemptOldestRunningGroup
    if preempted = [] then return (false, output)
    else
      let s ← current
      return (decide (required ≤ s.numFreeBlocks),
        { output with preemptedSeqIds := output.preemptedSeqIds ++ preempted })
  else return (true, output)

/-- One iteration of the admission of a group's sequences. -/
def admitSequence (d : SequenceData) : Prog PyError (Scheduler β) Unit := do
  onKv (PagedKVCache.allocateSequence d.seqId d.promptLength)
  setStatus d.seqId .prefill

/-- The `while` loop of `schedule` over the waiting queue, with the numbers of sequences and tokens
scheduled so far. -/
def admitWaiting : List SequenceGroup → ℕ → ℕ → SchedulerOutput →
    Prog PyError (Scheduler β) (ℕ × ℕ × SchedulerOutput)
  | [], seqs, tokens, output => pure (seqs, tokens, output)
  | g :: rest, seqs, tokens, output => do
    let s ← current
    let nextSeqs := (s.withStatus g .waiting).map s.store
    if nextSeqs = [] then
      update fun s => { s with waiting := rest }
      admitWaiting rest seqs tokens output
    else
      let prefillTokens := (nextSeqs.map numPrefillTokens).sum
      if s.cfg.maxBatchSize < seqs + nextSeqs.length then return (seqs, tokens, output)
      else if s.cfg.maxTokensPerStep < tokens + prefillTokens then return (seqs, tokens, output)
      else
        let (room, output) ← makeRoom (nextSeqs.map s.requiredBlocks).sum output
        if room = false then return (seqs, tokens, output)
        else
          update fun s => { s with waiting := rest, running := s.running ++ [g] }
          forEach admitSequence nextSeqs
          admitWaiting rest (seqs + nextSeqs.length) (tokens + prefillTokens) { output with
            prefillSeqIds := output.prefillSeqIds ++ nextSeqs.map (·.seqId)
            numPrefillTokens := output.numPrefillTokens + prefillTokens }

/-- The last loop of `schedule`, over the sequences of the running queue. -/
def selectDecode (s : Scheduler β) : List ℕ → ℕ → ℕ → SchedulerOutput → SchedulerOutput
  | [], _, _, output => output
  | i :: is, seqs, tokens, output =>
    if (s.store i).status ≠ .decode then selectDecode s is seqs tokens output
    else if s.cfg.maxBatchSize ≤ seqs then output
    else if s.cfg.maxTokensPerStep ≤ tokens then output
    else selectDecode s is (seqs + 1) (tokens + 1) { output with
      decodeSeqIds := output.decodeSeqIds ++ [i]
      numDecodeTokens := output.numDecodeTokens + 1 }

/-- The ids of the running queue, in order. -/
def runningIds (s : Scheduler β) : List ℕ := s.running.flatMap (·.sequenceIds)

def schedule (predict : Option (String → List ℕ → ℚ)) :
    Prog PyError (Scheduler β) SchedulerOutput := do
  let s ← current
  recoverSwappedGroups s.swapped
  update (sortWaiting predict)
  let s ← current
  let (seqs, tokens, output) ← admitWaiting s.waiting 0 0 {}
  let s ← current
  return selectDecode s s.runningIds seqs tokens output

/-! ### After a step -/

/-- One iteration of the first loop of `update_after_step`. -/
def growSequence (completed : List ℕ) (i : ℕ) : Prog PyError (Scheduler β) Unit := do
  let s ← current
  if i ∉ s.sequenceMap ∨ i ∈ completed then pure ()
  else
    if (s.store i).status = .prefill then setStatus i .decode else pure ()
    let s ← current
    if (s.store i).status = .decode then
      attempt (onKv (PagedKVCache.appendTokens i 1)) fun
        | .keyError _ => pure ()
        | e => raise e
    else pure ()

/-- `except KeyError: pass`, around `swap_out` and `append_tokens`. -/
def ignoreKeyError : PyError → Prog PyError (Scheduler β) Unit
  | .keyError _ => pure ()
  | e => raise e

/-- One iteration of the second loop of `update_after_step`. -/
def finishSequence (i : ℕ) : Prog PyError (Scheduler β) Unit := do
  let s ← current
  if i ∉ s.sequenceMap then pure ()
  else
    if (s.store i).Live then setStatus i .finished else pure ()
    onKv (PagedKVCache.freeSequence i)

def dropRequestMetadata (g : SequenceGroup) (s : Scheduler β) : Scheduler β :=
  { s with
    requestMap := s.requestMap.filter (·.requestId ≠ g.requestId)
    sequenceMap := s.sequenceMap \ g.sequenceIds.toFinset }

/-- A group with a sequence that is neither finished nor cancelled. -/
def hasActive (s : Scheduler β) (g : SequenceGroup) : Bool :=
  g.sequenceIds.any fun i => (s.store i).Live

def pruneFinishedAndCancelledRequests (s : Scheduler β) : Scheduler β :=
  let active := s.requestMap.filter s.hasActive
  let finished := s.requestMap.filter fun g => !s.hasActive g
  let kept (g : SequenceGroup) : Bool := g.requestId ∈ active.map (·.requestId)
  { finished.foldl (fun s g => dropRequestMetadata g s) s with
    requestMap := active
    waiting := s.waiting.filter kept
    running := s.running.filter kept
    swapped := s.swapped.filter kept }

def updateAfterStep (completedSeqIds newDecodeSeqIds : List ℕ) :
    Prog PyError (Scheduler β) Unit := do
  forEach (growSequence completedSeqIds) (fromkeys newDecodeSeqIds)
  forEach finishSequence (fromkeys completedSeqIds)
  update pruneFinishedAndCancelledRequests

/-! ### Aborting a request -/

/-- One iteration of the loop of `abort_request`. -/
def cancelSequence (i : ℕ) : Prog PyError (Scheduler β) Unit := do
  let s ← current
  if (s.store i).Live then setStatus i .cancelled else pure ()
  onKv (PagedKVCache.freeSequence i)

def abortRequest (requestId : String) : Prog PyError (Scheduler β) Unit := do
  let s ← current
  match s.requestMap.find? (·.requestId = requestId) with
  | none => pure ()
  | some g =>
    forEach cancelSequence g.sequenceIds
    update fun s => { s with
      waiting := s.waiting.filter (·.requestId ≠ requestId)
      running := s.running.filter (·.requestId ≠ requestId)
      swapped := s.swapped.filter (·.requestId ≠ requestId) }
    update (dropRequestMetadata g)
    update pruneFinishedAndCancelledRequests

end Scheduler

end MoeInfinity.Serving.Schedule
