import Mathlib.Data.List.Sort
import MoeInfinity.Lib.Imperative

/-! # What the sources use of the Python runtime

Exceptions carry their message. A `heapq` list is kept sorted, so that `heappop` takes its head: the
model does not distinguish two arrangements of one heap. -/

namespace MoeInfinity.Python

open MoeInfinity.Lib.Imperative

/-- The exceptions the modelled code raises. -/
inductive PyError where
  | valueError (msg : String)
  | keyError (msg : String)
  | indexError (msg : String)
  | runtimeError (msg : String)
  | zeroDivisionError (msg : String)
deriving DecidableEq, Repr

/-- `heapq.heappush`, for heaps ordered by `r`. -/
def heappush {α : Type*} (r : α → α → Prop) [DecidableRel r] (heap : List α) (x : α) : List α :=
  heap.orderedInsert r x

/-- `list(dict.fromkeys(xs))`: the elements at their first occurrence. -/
def fromkeys {α : Type*} [DecidableEq α] : List α → List α
  | [] => []
  | x :: xs => x :: (fromkeys xs).filter (· ≠ x)

theorem mem_fromkeys {α : Type*} [DecidableEq α] {a : α} :
    ∀ {xs : List α}, a ∈ fromkeys xs ↔ a ∈ xs
  | [] => by simp [fromkeys]
  | x :: xs => by
    by_cases h : a = x <;> simp [fromkeys, h, mem_fromkeys]

/-- `math.ceil(n / k)`. -/
def ceilDiv (n k : ℕ) : ℕ := (n + k - 1) / k

end MoeInfinity.Python
