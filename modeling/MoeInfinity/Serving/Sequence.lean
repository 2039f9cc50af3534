import Mathlib.Data.Rat.Defs
import MoeInfinity.Python

/-! # Sequences and their groups (`serving/sequence.py`)

A `SequenceData` object is known by its `seq_id`; the groups of the scheduler's queues refer to
their sequences by id, and the objects live in the scheduler's store. -/

namespace MoeInfinity.Serving.Sequence

open MoeInfinity.Python

inductive SequenceStatus where
  | waiting
  | prefill
  | decode
  | finished
  | swapped
  | cancelled
deriving DecidableEq, Repr

/-- The `value` of a status, as the error messages show it. -/
def SequenceStatus.value : SequenceStatus → String
  | .waiting => "waiting"
  | .prefill => "prefill"
  | .decode => "decode"
  | .finished => "finished"
  | .swapped => "swapped"
  | .cancelled => "cancelled"

/-- The sampling parameters that the engine and the sampler read. -/
structure SamplingParams where
  temperature : ℚ := 1
  topK : ℤ := -1
  topP : ℚ := 1
  logprobs : ℤ := 0
  maxTokens : ℤ := 256
  stop : List String := []
deriving DecidableEq, Repr

structure SequenceData where
  seqId : ℕ
  promptTokenIds : List ℕ
  samplingParams : SamplingParams
  outputTokenIds : List ℕ := []
  status : SequenceStatus := .waiting
  numComputedTokens : ℕ := 0
deriving DecidableEq, Repr

/-- The statuses that `_validate_transition` lets a status change to. -/
def allowedTransitions : SequenceStatus → List SequenceStatus
  | .waiting => [.prefill, .swapped, .cancelled]
  | .prefill => [.decode, .finished, .swapped, .cancelled]
  | .decode => [.finished, .swapped, .cancelled]
  | .swapped => [.waiting, .prefill, .decode, .finished, .cancelled]
  | .finished => []
  | .cancelled => []

namespace SequenceData

def validateTransition (d : SequenceData) (newStatus : SequenceStatus) : Except PyError Unit :=
  if d.status = newStatus then .ok ()
  else if newStatus ∈ allowedTransitions d.status then .ok ()
  else .error (.valueError
    s!"invalid transition from {d.status.value} to {newStatus.value}")

def setStatus (d : SequenceData) (newStatus : SequenceStatus) : Except PyError SequenceData := do
  d.validateTransition newStatus
  return { d with status := newStatus }

/-- The new token counts as computed at once: `num_computed_tokens` is the number of all tokens. -/
def appendOutputToken (d : SequenceData) (tokenId : ℕ) : Except PyError SequenceData :=
  if d.status = .finished ∨ d.status = .cancelled then
    .error (.runtimeError
      s!"cannot append output token to sequence in state {d.status.value}")
  else .ok { d with
    outputTokenIds := d.outputTokenIds ++ [tokenId]
    numComputedTokens := d.promptTokenIds.length + (d.outputTokenIds ++ [tokenId]).length }

def promptLength (d : SequenceData) : ℕ := d.promptTokenIds.length

def totalTokenIds (d : SequenceData) : List ℕ := d.promptTokenIds ++ d.outputTokenIds

/-- Neither finished nor cancelled. -/
def Live (d : SequenceData) : Prop := d.status ≠ .finished ∧ d.status ≠ .cancelled

instance (d : SequenceData) : Decidable d.Live := inferInstanceAs (Decidable (_ ∧ _))

/-- An object with the given id that no operation has touched. -/
def blank (seqId : ℕ) : SequenceData := ⟨seqId, [], {}, [], .waiting, 0⟩

theorem setStatus_eq {d : SequenceData} {st : SequenceStatus}
    (h : st ∈ allowedTransitions d.status) :
    d.setStatus st = .ok { d with status := st } := by
  unfold setStatus validateTransition
  split_ifs <;> rfl

theorem appendOutputToken_eq {d : SequenceData} (h : d.Live) (tokenId : ℕ) :
    d.appendOutputToken tokenId = .ok { d with
      outputTokenIds := d.outputTokenIds ++ [tokenId]
      numComputedTokens := d.promptTokenIds.length + (d.outputTokenIds ++ [tokenId]).length } := by
  unfold appendOutputToken
  rw [if_neg (by rintro (h' | h'); exacts [h.1 h', h.2 h'])]

end SequenceData

/-- A request: its sequences share the prompt and are scheduled together. -/
structure SequenceGroup where
  requestId : String
  sequenceIds : List ℕ
deriving DecidableEq, Repr

end MoeInfinity.Serving.Sequence
