import MoeInfinity.Python

/-! # Transfers (`engine/transfer_types.py`)

What the scheduler and the coordinators hand to a transfer scheduler, and the interface of one: a
service with a state of its own. -/

namespace MoeInfinity.Engine.Transfer

inductive TransferType where
  | expertFetch
  | expertEvict
  | kvSwapIn
  | kvSwapOut
deriving DecidableEq, Repr

inductive TransferPriority where
  | urgent
  | high
  | normal
  | low
  | background
deriving DecidableEq, Repr

def TransferPriority.value : TransferPriority → ℕ
  | .urgent => 0
  | .high => 5
  | .normal => 10
  | .low => 15
  | .background => 19

structure TransferRequest where
  transferId : String
  transferType : TransferType
  priority : TransferPriority
  sourceDevice : String
  targetDevice : String
  tensorId : Option String := none
  blockIds : List ℕ := []
deriving DecidableEq, Repr

/-- The methods of a `TransferScheduler` that the engine scheduler calls, over its state `τ`. What
other threads do during a call is part of the call. -/
structure TransferScheduler (τ : Type) where
  enqueue : TransferRequest → τ → String × τ
  cancel : String → τ → Bool × τ
  wait : String → τ → Bool × τ

end MoeInfinity.Engine.Transfer
