import Mathlib.Data.List.Sort
import Mathlib.Data.Rat.Defs
import MoeInfinity.Engine.Transfer
import MoeInfinity.Memory.KvManager

/-! # The engine scheduler (`engine/scheduler.py`, `engine/types.py`)

Requests move between a waiting, a running and a swapped queue. `schedule` first admits waiting
requests, taking cached prefix blocks and preempting running requests when no GPU block is left,
then tries to bring back the requests that were swapped when it was called. A preempted request
keeps a copy in CPU blocks; without one it is flagged in `swapNeedsReprefill` and starts again.

A request object is known by its `request_id`; the queues hold its value. What a call of `schedule`
asks of the `ContextPilot` manager (scores for the waiting requests) is an argument.

`issued` and `moves` are history variables, read by no operation: `issued` lists what the scheduler
has had the KV cache manager do, one entry for the calls that belong together, and `moves` the
requests that were swapped out and in with their contents. -/

namespace MoeInfinity.Engine.Schedule

open MoeInfinity.Python MoeInfinity.Lib.Imperative
open MoeInfinity.Memory.Blocks MoeInfinity.Memory.KvManager
open MoeInfinity.Engine.Transfer

/-! ### Requests -/

inductive SequenceStatus where
  | waiting
  | running
  | swapped
  | finishedStopped
  | finishedLength
deriving DecidableEq, Repr

/-- A status as the error messages show it. -/
def SequenceStatus.show : SequenceStatus → String
  | .waiting => "SequenceStatus.WAITING"
  | .running => "SequenceStatus.RUNNING"
  | .swapped => "SequenceStatus.SWAPPED"
  | .finishedStopped => "SequenceStatus.FINISHED_STOPPED"
  | .finishedLength => "SequenceStatus.FINISHED_LENGTH"

structure Request where
  requestId : String
  promptTokenIds : List ℕ
  status : SequenceStatus := .waiting
deriving DecidableEq, Repr

def allowedTransitions : SequenceStatus → List SequenceStatus
  | .waiting => [.running, .finishedStopped]
  | .running => [.swapped, .finishedStopped, .finishedLength]
  | .swapped => [.waiting, .finishedStopped]
  | .finishedStopped => []
  | .finishedLength => []

def Request.transitionTo (r : Request) (newStatus : SequenceStatus) : Except PyError Request :=
  if newStatus ∉ allowedTransitions r.status then
    .error (.valueError s!"Invalid transition: {r.status.show} -> {newStatus.show}")
  else .ok { r with status := newStatus }

/-! ### Allocation with the prefix cache -/

section Prefix

variable (hashBlockTokens : ℤ → List ℕ → ℤ)

/-- The tokens of block `i` of a prompt. -/
def tokenSlice (prompt : List ℕ) (blockSize i : ℕ) : List ℕ :=
  (prompt.drop (i * blockSize)).take blockSize

/-- The lookup loop of `_allocate_with_prefix_cache` from block `i` on, for `n` more blocks. -/
def matchPrefix (prompt : List ℕ) (blockSize : ℕ) :
    ℕ → ℕ → ℤ → List ℕ → Prog PyError KVCacheManager (List ℕ)
  | 0, _, _, cachedBlocks => pure cachedBlocks
  | n + 1, i, parentHash, cachedBlocks => do
    let blockHash := hashBlockTokens parentHash (tokenSlice prompt blockSize i)
    let block ← KVCacheManager.getCachedGpuBlock blockHash
    match block with
    | none => return cachedBlocks
    | some b => matchPrefix prompt blockSize n (i + 1) blockHash (cachedBlocks ++ [b])

/-- The allocation loop; when the pool runs out, all blocks go back. -/
def allocateNew (cachedBlocks : List ℕ) :
    ℕ → List ℕ → Prog PyError KVCacheManager (Option (List ℕ))
  | 0, newBlocks => pure (some newBlocks)
  | n + 1, newBlocks => do
    let block ← KVCacheManager.allocateGpuBlock
    match block with
    | none =>
      forEach KVCacheManager.releaseGpuBlock cachedBlocks
      forEach KVCacheManager.releaseGpuBlock newBlocks
      return none
    | some b => allocateNew cachedBlocks n (newBlocks ++ [b])

/-- What `_allocate_with_prefix_cache` has the manager do. -/
def allocateBlocks (requestId : String) (prompt : List ℕ) :
    Prog PyError KVCacheManager (Bool × ℕ) := do
  let k ← current
  if k.blockSize = 0 then
    raise (.zeroDivisionError "integer division or modulo by zero")
  else
    let cachedBlocks ← matchPrefix hashBlockTokens prompt k.blockSize
      (prompt.length / k.blockSize) 0 0 []
    let numCachedTokens := cachedBlocks.length * k.blockSize
    let remainingTokens := prompt.length - numCachedTokens
    let remainingBlocksNeeded :=
      if 0 < remainingTokens then ceilDiv remainingTokens k.blockSize else 0
    let newBlocks ← allocateNew cachedBlocks remainingBlocksNeeded []
    match newBlocks with
    | none => return (false, 0)
    | some newBlocks =>
      update (KVCacheManager.setBlockTable requestId (cachedBlocks ++ newBlocks))
      return (true, numCachedTokens)

/-- The loop of `_register_completed_blocks_in_cache` over the blocks of the table. -/
def registerBlocks (prompt : List ℕ) (blockSize : ℕ) : ℕ → ℕ → ℤ → List ℕ → KVCacheManager →
    KVCacheManager
  | 0, _, _, _, k => k
  | _ + 1, _, _, [], k => k
  | n + 1, i, parentHash, b :: bs, k =>
    let blockHash := hashBlockTokens parentHash (tokenSlice prompt blockSize i)
    if b ∈ k.gpuAllocatedBlocks then
      registerBlocks prompt blockSize n (i + 1) blockHash bs (k.cacheGpuBlock b blockHash)
    else k

def registerCompletedBlocksInCache (requestId : String) (prompt : List ℕ) :
    Prog PyError KVCacheManager Unit := do
  let k ← current
  if k.blockSize = 0 then
    raise (.zeroDivisionError "integer division or modulo by zero")
  else
    update (registerBlocks hashBlockTokens prompt k.blockSize (prompt.length / k.blockSize) 0 0
      (k.getBlockTable requestId))

/-- `_compute_prompt_block_hashes` from block `i` on, for `n` more blocks. -/
def promptBlockHashes (prompt : List ℕ) (blockSize : ℕ) : ℕ → ℕ → ℤ → List ℤ
  | 0, _, _ => []
  | n + 1, i, parentHash =>
    let blockHash := hashBlockTokens parentHash (tokenSlice prompt blockSize i)
    blockHash :: promptBlockHashes prompt blockSize n (i + 1) blockHash

end Prefix

/-! ### What the manager is asked to do -/

/-- A swap-out as a whole: `commit_swap_out` follows unless `prepare_swap_out` found no blocks. -/
def swapOut (requestId : String) : Prog PyError KVCacheManager Unit := do
  let pairs ← KVCacheManager.prepareSwapOut requestId
  if pairs = [] then pure () else KVCacheManager.commitSwapOut requestId pairs

/-- A swap-in as a whole: `commit_swap_in` follows unless `prepare_swap_in` found no blocks. -/
def swapIn (requestId : String) (origGpuIds : List ℕ) : Prog PyError KVCacheManager Unit := do
  let pairs ← KVCacheManager.prepareSwapIn requestId origGpuIds
  if pairs = [] then pure () else KVCacheManager.commitSwapIn requestId origGpuIds pairs

/-- What the scheduler has the manager do. -/
inductive KvOp where
  | allocate (requestId : String) (prompt : List ℕ)
  | register (requestId : String) (prompt : List ℕ)
  | freeSequence (requestId : String)
  | swapOut (requestId : String)
  | swapIn (requestId : String) (origGpuIds : List ℕ)
deriving DecidableEq, Repr

/-- The effect on the manager. -/
def kvStep (hashBlockTokens : ℤ → List ℕ → ℤ) (k : KVCacheManager) : KvOp → KVCacheManager
  | .allocate rid prompt => (allocateBlocks hashBlockTokens rid prompt).state k
  | .register rid prompt => (registerCompletedBlocksInCache hashBlockTokens rid prompt).state k
  | .freeSequence rid => (KVCacheManager.freeSequence rid).state k
  | .swapOut rid => (swapOut rid).state k
  | .swapIn rid ids => (swapIn rid ids).state k

/-! ### State -/

/-- What a scheduler is built with. -/
structure Env (τ : Type) where
  hashBlockTokens : ℤ → List ℕ → ℤ
  transferScheduler : Option (TransferScheduler τ)
  maxNumSeqs : ℕ := 256
  maxNumBatchedTokens : ℕ := 4096

/-- A request was left swapped without a flag, or moved back to running. -/
structure Move (τ : Type) where
  requestId : String
  swapIn : Bool
  /-- The GPU blocks it had before a swap-out, or has after a swap-in. -/
  gpuIds : List ℕ
  /-- The recorded GPU ids, the free GPU blocks and the state of the transfer scheduler when the
  call began. -/
  origGpuIds : List ℕ
  freeGpu : List ℕ
  before : τ
  /-- The block tables and the state of the transfer scheduler when the request was moved. -/
  tables : String → Option (List ℕ)
  after : τ

structure Scheduler (τ : Type) where
  kvMgr : KVCacheManager
  transfer : τ
  waiting : List Request
  running : List Request
  swapped : List Request
  swappedGpuIds : String → Option (List ℕ)
  swapNeedsReprefill : Finset String
  seqGeneratedTokens : String → Option ℕ
  cpRequestBlockHashes : String → Option (List ℤ)
  issued : List KvOp
  moves : List (Move τ)

/-- The result of `schedule`; requests by their ids. -/
structure SchedulerOutput where
  scheduledSeqs : List String := []
  preemptedSeqs : List String := []
  swappedInSeqs : List String := []
  numBatchedTokens : ℕ := 0
deriving DecidableEq, Repr

namespace Scheduler

variable {τ : Type}

def new (kvMgr : KVCacheManager) (transfer : τ) : Scheduler τ :=
  ⟨kvMgr, transfer, [], [], [], fun _ => none, ∅, fun _ => none, fun _ => none, [], []⟩

/-- Run a method of the manager. -/
def onKv {α : Type} (m : Prog PyError KVCacheManager α) : Prog PyError (Scheduler τ) α :=
  zoom kvMgr (fun k s => { s with kvMgr := k }) m

/-- Run a method of the transfer scheduler. -/
def onTransfer {α : Type} (f : τ → α × τ) : Prog PyError (Scheduler τ) α := do
  let s ← current
  update fun s => { s with transfer := (f s.transfer).2 }
  return (f s.transfer).1

def issue (op : KvOp) (s : Scheduler τ) : Scheduler τ := { s with issued := s.issued ++ [op] }

/-- The request has been moved since `s₀`, unless it is flagged to start again. -/
def noteMove (requestId : String) (swapIn : Bool) (gpuIds : List ℕ) (s₀ s : Scheduler τ) :
    Scheduler τ :=
  if requestId ∈ s.swapNeedsReprefill then s
  else { s with moves := s.moves ++ [⟨requestId, swapIn, gpuIds,
    (s₀.swappedGpuIds requestId).getD [], s₀.kvMgr.gpuPool.freeQueue, s₀.transfer,
    s.kvMgr.seqToGpuBlocks, s.transfer⟩] }

def addRequest (request : Request) (s : Scheduler τ) : Scheduler τ :=
  { s with waiting := s.waiting ++ [request] }

/-- `_notify_cp_blocks_freed`. -/
def dropBlockHashes (requestId : String) (s : Scheduler τ) : Scheduler τ :=
  { s with cpRequestBlockHashes := Function.update s.cpRequestBlockHashes requestId none }

def freeSequence (requestId : String) : Prog PyError (Scheduler τ) Unit := do
  update (issue (.freeSequence requestId))
  onKv (KVCacheManager.freeSequence requestId)

def setSwappedGpuIds (requestId : String) (ids : Option (List ℕ)) (s : Scheduler τ) : Scheduler τ :=
  { s with swappedGpuIds := Function.update s.swappedGpuIds requestId ids }

def flag (requestId : String) (s : Scheduler τ) : Scheduler τ :=
  { s with swapNeedsReprefill := insert requestId s.swapNeedsReprefill }

def unflag (requestId : String) (s : Scheduler τ) : Scheduler τ :=
  { s with swapNeedsReprefill := s.swapNeedsReprefill.erase requestId }

variable (env : Env τ)

def allocateWithPrefixCache (req : Request) : Prog PyError (Scheduler τ) (Bool × ℕ) := do
  update (issue (.allocate req.requestId req.promptTokenIds))
  let (allocated, numCachedTokens) ←
    onKv (allocateBlocks env.hashBlockTokens req.requestId req.promptTokenIds)
  if allocated then
    update fun s => { s with
      cpRequestBlockHashes := Function.update s.cpRequestBlockHashes req.requestId
        (some (promptBlockHashes env.hashBlockTokens req.promptTokenIds s.kvMgr.blockSize
          (req.promptTokenIds.length / s.kvMgr.blockSize) 0 0)) }
    return (true, numCachedTokens)
  else return (false, 0)

/-! ### Preemption -/

def swapOutTransfer (requestId : String) (origGpuIds : List ℕ) : TransferRequest where
  transferId := "swap_out_" ++ requestId
  transferType := .kvSwapOut
  priority := .high
  sourceDevice := "cuda:0"
  targetDevice := "cpu"
  blockIds := origGpuIds

def swapInTransfer (requestId : String) (cpuIds : List ℕ) : TransferRequest where
  transferId := "swap_in_" ++ requestId
  transferType := .kvSwapIn
  priority := .normal
  sourceDevice := "cpu"
  targetDevice := "cuda:0"
  blockIds := cpuIds

/-- `transition_to(SWAPPED)`, and the request joins the swapped queue. -/
def toSwapped (victim : Request) : Prog PyError (Scheduler τ) Unit := do
  let victim ← ofExcept (victim.transitionTo .swapped)
  update fun s => { s with swapped := s.swapped ++ [victim] }

/-- The commit of a swap-out, after the transfer if there is a transfer scheduler. -/
def transferOut (requestId : String) (pairs : List (ℕ × ℕ)) : Prog PyError (Scheduler τ) Unit :=
  match env.transferScheduler with
  | none => onKv (KVCacheManager.commitSwapOut requestId pairs)
  | some ts => do
    let transferId ← onTransfer (ts.enqueue (swapOutTransfer requestId (pairs.map (·.1))))
    let completed ← onTransfer (ts.wait transferId)
    if completed then onKv (KVCacheManager.commitSwapOut requestId pairs)
    else
      let _ ← onTransfer (ts.cancel transferId)
      onKv (KVCacheManager.commitSwapOut requestId pairs)
      update (dropBlockHashes requestId)
      freeSequence requestId
      update (setSwappedGpuIds requestId none)
      update (flag requestId)

def preemptWithTransfer (victim : Request) : Prog PyError (Scheduler τ) Unit := do
  let s ← current
  update (issue (.swapOut victim.requestId))
  let pairs ← onKv (KVCacheManager.prepareSwapOut victim.requestId)
  if pairs = [] then
    update (dropBlockHashes victim.requestId)
    freeSequence victim.requestId
    toSwapped victim
    update (flag victim.requestId)
  else
    update (setSwappedGpuIds victim.requestId (some (pairs.map (·.1))))
    transferOut env victim.requestId pairs
    toSwapped victim
    update (noteMove victim.requestId false (pairs.map (·.1)) s)

/-! ### Coming back -/

/-- `transition_to(WAITING)`, and the request is the next to be admitted. -/
def toWaiting (req : Request) : Prog PyError (Scheduler τ) Unit := do
  let req ← ofExcept (req.transitionTo .waiting)
  update fun s => { s with waiting := req :: s.waiting }

/-- `transition_to(WAITING)`, `transition_to(RUNNING)`, and the request joins the running queue. -/
def toRunning (req : Request) : Prog PyError (Scheduler τ) Unit := do
  let req ← ofExcept (req.transitionTo .waiting)
  let req ← ofExcept (req.transitionTo .running)
  update fun s => { s with running := s.running ++ [req] }

/-- The commit of a swap-in, after the transfer if there is a transfer scheduler. -/
def transferIn (req : Request) (origGpuIds : List ℕ) (pairs : List (ℕ × ℕ)) :
    Prog PyError (Scheduler τ) Unit :=
  match env.transferScheduler with
  | none => do
    onKv (KVCacheManager.commitSwapIn req.requestId origGpuIds pairs)
    update (setSwappedGpuIds req.requestId none)
    toRunning req
  | some ts => do
    let transferId ← onTransfer (ts.enqueue (swapInTransfer req.requestId (pairs.map (·.1))))
    let completed ← onTransfer (ts.wait transferId)
    if completed then
      onKv (KVCacheManager.commitSwapIn req.requestId origGpuIds pairs)
      update (setSwappedGpuIds req.requestId none)
      toRunning req
    else
      let _ ← onTransfer (ts.cancel transferId)
      onKv (KVCacheManager.commitSwapIn req.requestId origGpuIds pairs)
      update (dropBlockHashes req.requestId)
      freeSequence req.requestId
      update (setSwappedGpuIds req.requestId none)
      update (flag req.requestId)
      toWaiting req

def swapInRequest (req : Request) : Prog PyError (Scheduler τ) Bool := do
  let s ← current
  if req.requestId ∈ s.swapNeedsReprefill then
    update (unflag req.requestId)
    toWaiting req
    return true
  else
    let origGpuIds := (s.swappedGpuIds req.requestId).getD []
    update (issue (.swapIn req.requestId origGpuIds))
    let pairs ← onKv (KVCacheManager.prepareSwapIn req.requestId origGpuIds)
    if pairs = [] then return false
    else
      transferIn env req origGpuIds pairs
      update (noteMove req.requestId true (pairs.map (·.2)) s)
      return true

/-! ### Scheduling -/

/-- The waiting queue in the order of the manager's scores, highest first; ties keep their order. -/
def sortWaiting (predict : Option (String → List ℕ → ℚ)) (s : Scheduler τ) : Scheduler τ :=
  match predict with
  | none => s
  | some f =>
    if 1 < s.waiting.length then
      { s with
        waiting := s.waiting.insertionSort fun r₁ r₂ =>
          f r₂.requestId r₂.promptTokenIds ≤ f r₁.requestId r₁.promptTokenIds }
    else s

/-- `while not allocated and self._running`: preempt the oldest running request and try again. At
most `n` requests are running. -/
def preemptLoop (req : Request) : ℕ → Bool × ℕ → List String →
    Prog PyError (Scheduler τ) ((Bool × ℕ) × List String)
  | 0, r, preempted => pure (r, preempted)
  | n + 1, r, preempted => do
    let s ← current
    if r.1 then return (r, preempted)
    else match s.running with
      | [] => return (r, preempted)
      | victim :: rest =>
        update fun s => { s with running := rest }
        preemptWithTransfer env victim
        let r ← allocateWithPrefixCache env req
        preemptLoop req n r (preempted ++ [victim.requestId])

/-- The local variables of the admission loop. -/
structure Round where
  newRunning : List Request := []
  preempted : List String := []
  numTokens : ℕ := 0

/-- `while self._waiting`; at most `n` requests are waiting. -/
def admissionLoop : ℕ → Round → Prog PyError (Scheduler τ) Round
  | 0, round => pure round
  | n + 1, round => do
    let s ← current
    match s.waiting with
    | [] => return round
    | req :: rest =>
      if env.maxNumSeqs ≤ s.running.length + round.newRunning.length then return round
      else
        update fun s => { s with waiting := rest }
        let r ← allocateWithPrefixCache env req
        let (r, preempted) ← preemptLoop env req s.running.length r round.preempted
        if r.1 = false then
          update fun s => { s with waiting := req :: s.waiting }
          return { round with preempted := preempted }
        else
          let uncachedPromptTokens := req.promptTokenIds.length - r.2
          if env.maxNumBatchedTokens < round.numTokens + uncachedPromptTokens then
            update (dropBlockHashes req.requestId)
            freeSequence req.requestId
            update fun s => { s with waiting := req :: s.waiting }
            return { round with preempted := preempted }
          else
            let req ← ofExcept (req.transitionTo .running)
            update fun s => { s with
              seqGeneratedTokens := Function.update s.seqGeneratedTokens req.requestId (some 0) }
            admissionLoop n ⟨round.newRunning ++ [req], preempted,
              round.numTokens + uncachedPromptTokens⟩

/-- The loop over the requests that were swapped when `schedule` was called. -/
def swapInLoop : List Request → List String → Prog PyError (Scheduler τ) (List String)
  | [], swappedIn => pure swappedIn
  | req :: reqs, swappedIn => do
    let s ← current
    if env.maxNumSeqs ≤ s.running.length then
      update fun s => { s with swapped := s.swapped ++ [req] }
      swapInLoop reqs swappedIn
    else
      let returned ← swapInRequest env req
      if returned then swapInLoop reqs (swappedIn ++ [req.requestId])
      else
        update fun s => { s with swapped := s.swapped ++ [req] }
        swapInLoop reqs swappedIn

/-- The loop over the running requests that are not in `scheduledIds`; `scheduled` grows. -/
def decodeLoop (scheduledIds : List String) : List Request → List String → ℕ →
    Prog PyError (Scheduler τ) (List String × ℕ)
  | [], scheduled, numTokens => pure (scheduled, numTokens)
  | req :: reqs, scheduled, numTokens =>
    if req.requestId ∈ scheduledIds then decodeLoop scheduledIds reqs scheduled numTokens
    else if env.maxNumBatchedTokens < numTokens + 1 then pure (scheduled, numTokens)
    else do
      update fun s => { s with
        seqGeneratedTokens := Function.update s.seqGeneratedTokens req.requestId
          (some ((s.seqGeneratedTokens req.requestId).getD 0 + 1)) }
      decodeLoop scheduledIds reqs (scheduled ++ [req.requestId]) (numTokens + 1)

def schedule (predict : Option (String → List ℕ → ℚ)) :
    Prog PyError (Scheduler τ) SchedulerOutput := do
  let s ← current
  let previouslySwapped := s.swapped
  update fun s => { s with swapped := [] }
  update (sortWaiting predict)
  let round ← admissionLoop env s.waiting.length {}
  update fun s => { s with running := s.running ++ round.newRunning }
  let swappedIn ← swapInLoop env previouslySwapped []
  let s ← current
  let admitted := round.newRunning.map (·.requestId)
  let (scheduled, numTokens) ← decodeLoop env admitted s.running admitted round.numTokens
  return ⟨scheduled, round.preempted, swappedIn, numTokens⟩

/-! ### Finishing -/

/-- The queues without the requests of the given id. -/
def withoutRequest (requestId : String) (s : Scheduler τ) : Scheduler τ :=
  { s with
    waiting := s.waiting.filter (·.requestId ≠ requestId)
    running := s.running.filter (·.requestId ≠ requestId)
    swapped := s.swapped.filter (·.requestId ≠ requestId) }

def finishRequest (requestId : String) : Prog PyError (Scheduler τ) Unit := do
  let s ← current
  match (s.waiting ++ s.running ++ s.swapped).find? (·.requestId = requestId) with
  | none => pure ()
  | some request =>
    if s.kvMgr.getBlockTable requestId ≠ [] then
      update (issue (.register request.requestId request.promptTokenIds))
      onKv (registerCompletedBlocksInCache env.hashBlockTokens request.requestId
        request.promptTokenIds)
    else pure ()
  update (withoutRequest requestId)
  update (setSwappedGpuIds requestId none)
  update (unflag requestId)
  update fun s =>
    { s with seqGeneratedTokens := Function.update s.seqGeneratedTokens requestId none }
  update (dropBlockHashes requestId)
  freeSequence requestId

def abortRequest (requestId : String) : Prog PyError (Scheduler τ) Unit :=
  finishRequest env requestId

end Scheduler

end MoeInfinity.Engine.Schedule
