import Mathlib.Data.Finset.Basic
import Mathlib.Logic.Function.Basic
import MoeInfinity.Engine.Transfer

/-! # The transfer scheduler (`engine/unified_transfer_scheduler.py`)

Callers put transfers into a heap and get an event per transfer id; one worker thread takes them out
in the order of priority and arrival, and runs the handler of their type. Every section under the
lock is one step, and so are the start and the end of a handler.

A transfer is known by the value of `_seq_counter` that its `enqueue` has drawn, and so is its
event. What the handlers work on is a state `δ` of its own; `handle` is their effect when they
return.

`lives` is a history variable: it records what has happened to each transfer and is read by no
operation. -/

namespace MoeInfinity.Engine.Unified

open MoeInfinity.Python MoeInfinity.Engine.Transfer

/-! ### State -/

/-- The `status` of a `TransferResult`. -/
inductive TransferStatus where
  | completed
  | failed
  | cancelled
deriving DecidableEq, Repr

/-- The entry of a transfer in the heap. -/
structure Entry where
  seq : ℕ
  request : TransferRequest
deriving DecidableEq, Repr

namespace Entry

def id (e : Entry) : String := e.request.transferId

def priority (e : Entry) : ℕ := e.request.priority.value

/-- The order of the tuples in the heap. -/
def Le (e e' : Entry) : Prop :=
  e.priority < e'.priority ∨ (e.priority = e'.priority ∧ e.seq ≤ e'.seq)

instance : DecidableRel Le := fun e e' =>
  inferInstanceAs
    (Decidable (e.priority < e'.priority ∨ (e.priority = e'.priority ∧ e.seq ≤ e'.seq)))

end Entry

/-- Where the worker thread is: between two transfers, about to test `_cancelled`, about to call the
handler, in the handler, or about to store the result. -/
inductive Worker where
  | idle
  | popped (e : Entry)
  | submitted (e : Entry)
  | handling (e : Entry)
  | finished (e : Entry) (status : TransferStatus)
deriving DecidableEq, Repr

/-- What has happened to a transfer. -/
structure Life where
  transferId : String
  /-- A handler was registered for its type when it was enqueued. -/
  hasHandler : Bool := false
  started : ℕ := 0
  finished : ℕ := 0
  /-- The worker has taken it out and discarded it. -/
  dropped : Bool := false
  /-- `cancel` was called before its event was set. -/
  cancelledPending : Bool := false
  /-- `cancel` was called while it was in the queue. -/
  cancelledQueued : Bool := false
  /-- The status the worker has stored for it. -/
  status : Option TransferStatus := none
deriving DecidableEq, Repr

structure UnifiedTransferScheduler (δ : Type) where
  queue : List Entry
  seqCounter : ℕ
  pending : String → Option ℕ
  eventsSet : Finset ℕ
  results : String → Option TransferStatus
  cancelled : Finset String
  handlers : Finset TransferType
  metrics : TransferType → ℕ × ℕ
  worker : Worker
  device : δ
  lives : ℕ → Life

namespace UnifiedTransferScheduler

variable {δ : Type}

def new (device : δ) : UnifiedTransferScheduler δ :=
  ⟨[], 0, fun _ => none, ∅, fun _ => none, ∅, ∅, fun _ => (0, 0), .idle, device,
    fun _ => { transferId := "" }⟩

def setLife (n : ℕ) (l : Life) (u : UnifiedTransferScheduler δ) : UnifiedTransferScheduler δ :=
  { u with lives := Function.update u.lives n l }

/-! ### Callers -/

def registerHandler (t : TransferType) (u : UnifiedTransferScheduler δ) :
    UnifiedTransferScheduler δ :=
  { u with handlers := insert t u.handlers }

/-- `request.transfer_id or str(uuid.uuid4())`. -/
def transferIdOf (request : TransferRequest) (uuid : String) : String :=
  if request.transferId = "" then uuid else request.transferId

def enqueue (request : TransferRequest) (uuid : String) (u : UnifiedTransferScheduler δ) :
    UnifiedTransferScheduler δ :=
  let transferId := transferIdOf request uuid
  let n := u.seqCounter + 1
  setLife n { transferId := transferId, hasHandler := request.transferType ∈ u.handlers }
    { u with
      pending := Function.update u.pending transferId (some n)
      seqCounter := n
      queue := heappush Entry.Le u.queue ⟨n, { request with transferId := transferId }⟩ }

def cancel (transferId : String) (u : UnifiedTransferScheduler δ) :
    Bool × UnifiedTransferScheduler δ :=
  match u.pending transferId with
  | none => (false, u)
  | some n => (true, setLife n { u.lives n with
        cancelledPending := true
        cancelledQueued := n ∈ u.queue.map (·.seq) }
      { u with
        cancelled := insert transferId u.cancelled
        pending := Function.update u.pending transferId none
        results := Function.update u.results transferId (some .cancelled)
        eventsSet := insert n u.eventsSet })

/-! ### The worker -/

/-- The last section of `_run_request`. -/
def record (e : Entry) (status : TransferStatus) (u : UnifiedTransferScheduler δ) :
    UnifiedTransferScheduler δ :=
  setLife e.seq { u.lives e.seq with status := some status }
    { u with
      results := Function.update u.results e.id (some status)
      metrics := Function.update u.metrics e.request.transferType
        ((u.metrics e.request.transferType).1 + 1,
          (u.metrics e.request.transferType).2 + e.request.blockIds.length)
      pending := Function.update u.pending e.id none
      eventsSet := match u.pending e.id with
        | none => u.eventsSet
        | some n => insert n u.eventsSet
      worker := .idle }

/-- The steps of the worker thread. -/
inductive WorkerStep where
  | pop
  | check
  | start
  | finish (raises : Bool)
  | record
deriving DecidableEq, Repr

variable (handle : TransferRequest → δ → δ)

/-- A step that the worker cannot take where it is leaves everything as it is. -/
def workerStep (u : UnifiedTransferScheduler δ) : WorkerStep → UnifiedTransferScheduler δ
  | .pop => match u.worker, u.queue with
    | .idle, e :: rest => { u with queue := rest, worker := .popped e }
    | _, _ => u
  | .check => match u.worker with
    | .popped e =>
      if e.id ∈ u.cancelled then
        setLife e.seq { u.lives e.seq with dropped := true }
          { u with cancelled := u.cancelled.erase e.id, worker := .idle }
      else { u with worker := .submitted e }
    | _ => u
  | .start => match u.worker with
    | .submitted e =>
      if e.request.transferType ∈ u.handlers then
        setLife e.seq { u.lives e.seq with started := (u.lives e.seq).started + 1 }
          { u with worker := .handling e }
      else { u with worker := .finished e .completed }
    | _ => u
  | .finish raises => match u.worker with
    | .handling e =>
      setLife e.seq { u.lives e.seq with finished := (u.lives e.seq).finished + 1 }
        (if raises then { u with worker := .finished e .failed }
        else { u with worker := .finished e .completed, device := handle e.request u.device })
    | _ => u
  | .record => match u.worker with
    | .finished e status => record e status u
    | _ => u

end UnifiedTransferScheduler

open UnifiedTransferScheduler

/-- The steps of callers and worker. -/
inductive Op where
  | registerHandler (t : TransferType)
  | enqueue (request : TransferRequest) (uuid : String)
  | cancel (transferId : String)
  | worker (w : WorkerStep)
deriving DecidableEq, Repr

def step {δ : Type} (handle : TransferRequest → δ → δ) (u : UnifiedTransferScheduler δ) :
    Op → UnifiedTransferScheduler δ
  | .registerHandler t => u.registerHandler t
  | .enqueue request uuid => u.enqueue request uuid
  | .cancel transferId => (u.cancel transferId).2
  | .worker w => workerStep handle u w

end MoeInfinity.Engine.Unified
