import Mathlib.Algebra.Ring.Nat
import Mathlib.Data.List.Basic
import Mathlib.Tactic.Basic

/-! # Fixed-width words in byte streams

A writer is a function to lists of bytes, a reader takes its bytes from the front of a stream and
fails when there are too few. `Reads m bs a` says that the reader finds `a` behind the bytes `bs`
and consumes just these; it composes along `>>=`, so a reader that mirrors a writer field by field
reads what that writer wrote. Words lie with their low bytes first. -/

namespace MoeInfinity.Lib.ByteStream

variable {α β : Type}

/-! ### Bytes of a number -/

/-- The `k` low bytes of a number, the lowest first. -/
def bytesOf : ℕ → ℕ → List UInt8
  | 0, _ => []
  | k + 1, n => UInt8.ofNat n :: bytesOf k (n / 256)

def natOf : List UInt8 → ℕ
  | [] => 0
  | b :: bs => b.toNat + 256 * natOf bs

@[simp] theorem length_bytesOf (k n : ℕ) : (bytesOf k n).length = k := by
  induction k generalizing n with
  | zero => rfl
  | succ k ih => simp [bytesOf, ih]

theorem natOf_bytesOf {k n : ℕ} (h : n < 256 ^ k) : natOf (bytesOf k n) = n := by
  induction k generalizing n with
  | zero =>
    have : n = 0 := by simpa using h
    simp [bytesOf, natOf, this]
  | succ k ih =>
    have hk : n / 256 < 256 ^ k := by
      rw [Nat.div_lt_iff_lt_mul (by decide), ← Nat.pow_succ]
      exact h
    simp only [bytesOf, natOf, ih hk, UInt8.toNat_ofNat']
    omega

/-! ### Readers -/

/-- Reads from the front of a stream; `none` when the stream ends too early. -/
abbrev Reader (α : Type) := StateT (List UInt8) Option α

/-- The next `k` bytes. -/
def take (k : ℕ) : Reader (List UInt8) := fun bs =>
  if k ≤ bs.length then some (bs.take k, bs.drop k) else none

/-- The reader finds `a` behind the bytes `bs`, and consumes these. -/
def Reads (m : Reader α) (bs : List UInt8) (a : α) : Prop :=
  ∀ rest, m.run (bs ++ rest) = some (a, rest)

theorem reads_pure (a : α) : Reads (pure a) [] a := fun _ => rfl

theorem reads_bind {m : Reader α} {k : α → Reader β} {bs bs' : List UInt8} {a : α} {b : β}
    (hm : Reads m bs a) (hk : Reads (k a) bs' b) : Reads (m >>= k) (bs ++ bs') b := by
  intro rest
  rw [List.append_assoc, StateT.run_bind, hm]
  exact hk rest

theorem reads_map {m : Reader α} {f : α → β} {bs : List UInt8} {a : α} (hm : Reads m bs a) :
    Reads (f <$> m) bs (f a) := by
  intro rest
  rw [StateT.run_map, hm]
  rfl

theorem reads_take (bs : List UInt8) : Reads (take bs.length) bs bs := by
  intro rest
  have hle : bs.length ≤ (bs ++ rest).length := by simp
  show (if bs.length ≤ (bs ++ rest).length then
    some ((bs ++ rest).take bs.length, (bs ++ rest).drop bs.length) else none) = some (bs, rest)
  rw [if_pos hle, List.take_left, List.drop_left]

/-! ### Words -/

/-- A type whose values lie in memory as words of a fixed width. -/
structure Word (α : Type) where
  width : ℕ
  toNat : α → ℕ
  ofNat : ℕ → α
  toNat_lt : ∀ a, toNat a < 256 ^ width
  ofNat_toNat : ∀ a, ofNat (toNat a) = a

namespace Word

variable (w : Word α)

def write (a : α) : List UInt8 := bytesOf w.width (w.toNat a)

def read : Reader α := (fun bs => w.ofNat (natOf bs)) <$> take w.width

theorem reads (a : α) : Reads w.read (w.write a) a := by
  have h := reads_map (f := fun bs => w.ofNat (natOf bs)) (reads_take (w.write a))
  rw [show (w.write a).length = w.width from length_bytesOf _ _] at h
  rw [show w.ofNat (natOf (w.write a)) = a from by
    unfold write
    rw [natOf_bytesOf (w.toNat_lt a), w.ofNat_toNat]] at h
  exact h

def uint32 : Word UInt32 :=
  ⟨4, UInt32.toNat, UInt32.ofNat, UInt32.toNat_lt, fun _ => UInt32.ofNat_toNat⟩

def uint64 : Word UInt64 :=
  ⟨8, UInt64.toNat, UInt64.ofNat, UInt64.toNat_lt, fun _ => UInt64.ofNat_toNat⟩

def int64 : Word Int64 where
  width := 8
  toNat a := a.toUInt64.toNat
  ofNat n := (UInt64.ofNat n).toInt64
  toNat_lt a := a.toUInt64.toNat_lt
  ofNat_toNat a := by rw [UInt64.ofNat_toNat]; rfl

def int8 : Word Int8 where
  width := 1
  toNat a := a.toUInt8.toNat
  ofNat n := (UInt8.ofNat n).toInt8
  toNat_lt a := a.toUInt8.toNat_lt
  ofNat_toNat a := by rw [UInt8.ofNat_toNat]; rfl

def bool : Word Bool where
  width := 1
  toNat := Bool.toNat
  ofNat n := decide (n ≠ 0)
  toNat_lt a := by cases a <;> decide
  ofNat_toNat a := by cases a <;> decide

end Word

/-! ### Sequences -/

/-- The reader run `n` times. -/
def readMany (m : Reader α) : ℕ → Reader (List α)
  | 0 => pure []
  | n + 1 => do
    let x ← m
    let xs ← readMany m n
    return x :: xs

theorem reads_readMany {m : Reader α} {write : α → List UInt8} (h : ∀ a, Reads m (write a) a) :
    ∀ xs : List α, Reads (readMany m xs.length) (xs.flatMap write) xs
  | [] => reads_pure []
  | x :: xs => by
    have hrest := reads_bind (k := fun ys => (pure (x :: ys) : Reader (List α)))
      (reads_readMany h xs) (reads_pure (x :: xs))
    rw [List.append_nil] at hrest
    exact reads_bind (h x) hrest

end MoeInfinity.Lib.ByteStream
