import Mathlib.Algebra.BigOperators.Group.Finset.Basic
import Mathlib.Algebra.Order.BigOperators.Group.Finset
import Mathlib.Algebra.Ring.Int.Defs
import Mathlib.Algebra.Ring.Nat
import Mathlib.Data.Fintype.Basic
import MoeInfinity.Lib.Extents
import MoeInfinity.Lib.Runs

/-! # The file reader with worker threads (`core/aio/reader.h`)

`Read` and `ReadAsyncChunked` split a large read into chunks, which the workers take from a queue
and serve in any order; the caller collects the results in the order of the chunks. One call is
modelled, of a reader whose queue is empty and whose workers wait. `ReadAsyncChunked` has returned
when its future has a value. `pread` is taken to read all there is.

* `step`: what the caller or a worker does next, if anything.
* `Serving`: what holds of the requests that have been submitted, whoever has them.
* `step_measure`, `exists_step_of_pending`: a call goes on until all requests are served. -/

namespace MoeInfinity.Core.DirectFileReader

open MoeInfinity.Lib.Extents MoeInfinity.Lib.Runs

/-! ### The reader -/

def kOptimalChunkSize : ℕ := 4 * 1024 * 1024

structure Reader where
  numThreads : ℕ
  bufferAlignment : ℕ
  /-- The contents of the file. -/
  file : List UInt8

/-- The promise is given by the position of its future among the futures of the call. -/
structure Request where
  buffer : ℕ
  offset : ℕ
  size : ℕ
  future : ℕ
deriving DecidableEq

inductive Worker where
  | idle
  | holding (request : Request)
  | served (request : Request) (result : ℤ)

inductive Fn where
  | read
  | readAsyncChunked
deriving DecidableEq

structure Call where
  fn : Fn
  buffer : ℕ
  offset : ℕ
  size : ℕ

/-- Where the caller is; for `ReadAsyncChunked` this is the thread that coordinates. -/
inductive Caller where
  /-- About to read the whole range itself. -/
  | pread
  /-- About to submit the whole range. -/
  | single
  /-- Waiting for the whole range. -/
  | waiting
  | submitting (i remaining currentOffset : ℕ)
  | collecting (i : ℕ) (totalRead : ℤ) (remaining : ℕ)
  | returned (result : ℤ)

structure State (n : ℕ) where
  memory : ℕ → UInt8
  requestQueue : List Request
  workers : Fin n → Worker
  futures : List (Option ℤ)
  caller : Caller

inductive Step (n : ℕ) where
  | call
  | pop (worker : Fin n)
  | pread (worker : Fin n)
  | setValue (worker : Fin n)

def Reader.IsAligned (rd : Reader) (value : ℕ) : Prop := value % rd.bufferAlignment = 0

instance (rd : Reader) (value : ℕ) : Decidable (rd.IsAligned value) :=
  inferInstanceAs (Decidable (_ = _))

/-- The three tests of the functions. -/
def Reader.AllAligned (rd : Reader) (buffer size offset : ℕ) : Prop :=
  rd.IsAligned buffer ∧ rd.IsAligned size ∧ rd.IsAligned offset

instance (rd : Reader) (buffer size offset : ℕ) : Decidable (rd.AllAligned buffer size offset) :=
  inferInstanceAs (Decidable (_ ∧ _ ∧ _))

/-- What `pread` puts into the buffer. -/
def Reader.bytes (rd : Reader) (offset size : ℕ) : List UInt8 := (rd.file.drop offset).take size

/-- What `pread` returns. -/
def Reader.count (rd : Reader) (offset size : ℕ) : ℤ := (rd.bytes offset size).length

/-- The memory after a `pread`. -/
def Reader.fill (rd : Reader) (memory : ℕ → UInt8) (buffer offset size : ℕ) : ℕ → UInt8 :=
  writeAt memory buffer (rd.bytes offset size)

def numChunks (size : ℕ) : ℕ := (size + kOptimalChunkSize - 1) % 2 ^ 64 / kOptimalChunkSize

/-- The test for the end of the file, with which the loop that collects ends. -/
def Fn.AtEnd : Fn → ℕ → ℤ → Prop
  | .read, _, result => result < kOptimalChunkSize
  | .readAsyncChunked, remaining, result => result < min (remaining + result) kOptimalChunkSize

instance : ∀ (fn : Fn) (remaining : ℕ) (result : ℤ), Decidable (fn.AtEnd remaining result)
  | .read, _, _ => inferInstanceAs (Decidable (_ < _))
  | .readAsyncChunked, _, _ => inferInstanceAs (Decidable (_ < _))

section Steps

variable {n : ℕ}

/-- `ReadAsync`: the future is behind those there are. -/
def State.readAsync (rd : Reader) (s : State n) (buffer offset size : ℕ) : State n :=
  if rd.AllAligned buffer size offset then
    { s with
      requestQueue := s.requestQueue ++ [⟨buffer, offset, size, s.futures.length⟩]
      futures := s.futures ++ [none] }
  else { s with futures := s.futures ++ [some (-1)] }

def State.setCaller (s : State n) (caller : Caller) : State n := { s with caller := caller }

def State.start (rd : Reader) (call : Call) (memory : ℕ → UInt8) : State n where
  memory := memory
  requestQueue := []
  workers := fun _ => .idle
  futures := []
  caller :=
    if rd.AllAligned call.buffer call.size call.offset then
      if call.size ≤ kOptimalChunkSize then
        match call.fn with
        | .read => .pread
        | .readAsyncChunked => .single
      else .submitting 0 call.size call.offset
    else .returned (-1)

/-- The next step of the caller; it waits for futures without a value. -/
def State.callStep (rd : Reader) (call : Call) (s : State n) : Option (State n) :=
  match s.caller with
  | .pread =>
    some ({ s with memory := rd.fill s.memory call.buffer call.offset call.size }.setCaller
      (.returned (rd.count call.offset call.size)))
  | .single => some ((s.readAsync rd call.buffer call.offset call.size).setCaller .waiting)
  | .waiting =>
    match s.futures[0]? with
    | some (some result) => some (s.setCaller (.returned result))
    | _ => none
  | .submitting i remaining currentOffset =>
    if i < numChunks call.size then
      let chunkSize := min remaining kOptimalChunkSize
      some ((s.readAsync rd (call.buffer + i * kOptimalChunkSize) currentOffset chunkSize).setCaller
        (.submitting (i + 1) (remaining - chunkSize) ((currentOffset + chunkSize) % 2 ^ 64)))
    else some (s.setCaller (.collecting 0 0 remaining))
  | .collecting i totalRead remaining =>
    if i < s.futures.length then
      match s.futures[i]? with
      | some (some result) =>
        if result < 0 then some (s.setCaller (.returned result))
        else if call.fn.AtEnd remaining result then
          some (s.setCaller (.returned (totalRead + result)))
        else some (s.setCaller (.collecting (i + 1) (totalRead + result) remaining))
      | _ => none
    else some (s.setCaller (.returned totalRead))
  | .returned _ => none

def State.setWorker (s : State n) (w : Fin n) (worker : Worker) : State n :=
  { s with workers := Function.update s.workers w worker }

/-- A worker waits while the queue is empty. -/
def State.pop (s : State n) (w : Fin n) : Option (State n) :=
  match s.workers w, s.requestQueue with
  | .idle, r :: rest => some ({ s with requestQueue := rest }.setWorker w (.holding r))
  | _, _ => none

def State.serve (rd : Reader) (s : State n) (w : Fin n) : Option (State n) :=
  match s.workers w with
  | .holding r =>
    some ({ s with memory := rd.fill s.memory r.buffer r.offset r.size }.setWorker w
      (.served r (rd.count r.offset r.size)))
  | _ => none

def State.setValue (s : State n) (w : Fin n) : Option (State n) :=
  match s.workers w with
  | .served r result =>
    some ({ s with futures := s.futures.set r.future (some result) }.setWorker w .idle)
  | _ => none

/-- One step of one of the threads, if it can go on. -/
def step (rd : Reader) (call : Call) (s : State n) : Step n → Option (State n)
  | .call => s.callStep rd call
  | .pop w => s.pop w
  | .pread w => s.serve rd w
  | .setValue w => s.setValue w

/-! ### What a step does -/

variable {rd : Reader} {call : Call} {s s' : State n} {w : Fin n}

theorem step_call (rd : Reader) (call : Call) (s : State n) :
    step rd call s .call = s.callStep rd call := rfl

theorem pop_eq_some (h : s.pop w = some s') :
    ∃ r rest, s.workers w = .idle ∧ s.requestQueue = r :: rest ∧
      s' = { s with requestQueue := rest }.setWorker w (.holding r) := by
  unfold State.pop at h
  split at h
  · next r rest hw hq => exact ⟨r, rest, hw, hq, (Option.some.inj h).symm⟩
  · cases h

theorem serve_eq_some (h : s.serve rd w = some s') : ∃ r, s.workers w = .holding r ∧
    s' = { s with memory := rd.fill s.memory r.buffer r.offset r.size }.setWorker w
      (.served r (rd.count r.offset r.size)) := by
  unfold State.serve at h
  split at h
  · next r hw => exact ⟨r, hw, (Option.some.inj h).symm⟩
  · cases h

theorem setValue_eq_some (h : s.setValue w = some s') : ∃ r result, s.workers w = .served r result ∧
    s' = { s with futures := s.futures.set r.future (some result) }.setWorker w .idle := by
  unfold State.setValue at h
  split at h
  · next r result hw => exact ⟨r, result, hw, (Option.some.inj h).symm⟩
  · cases h

@[simp] theorem setWorker_memory (worker : Worker) : (s.setWorker w worker).memory = s.memory := rfl

@[simp] theorem setWorker_requestQueue (worker : Worker) :
    (s.setWorker w worker).requestQueue = s.requestQueue := rfl

@[simp] theorem setWorker_futures (worker : Worker) :
    (s.setWorker w worker).futures = s.futures := rfl

@[simp] theorem setWorker_caller (worker : Worker) : (s.setWorker w worker).caller = s.caller := rfl

@[simp] theorem setWorker_workers_self (worker : Worker) :
    (s.setWorker w worker).workers w = worker :=
  Function.update_self ..

theorem setWorker_workers_of_ne {w' : Fin n} (h : w' ≠ w) (worker : Worker) :
    (s.setWorker w worker).workers w' = s.workers w' := Function.update_of_ne h ..

/-- A worker is as before, or it is the one that has changed. -/
theorem workers_setWorker (s : State n) (w w' : Fin n) (worker : Worker) :
    (s.setWorker w worker).workers w' = worker ∨
    (s.setWorker w worker).workers w' = s.workers w' := by
  by_cases h : w' = w
  · exact Or.inl (h ▸ setWorker_workers_self worker)
  · exact Or.inr (setWorker_workers_of_ne h worker)

@[simp] theorem setCaller_memory (caller : Caller) : (s.setCaller caller).memory = s.memory := rfl

@[simp] theorem setCaller_requestQueue (caller : Caller) :
    (s.setCaller caller).requestQueue = s.requestQueue := rfl

@[simp] theorem setCaller_workers (caller : Caller) :
    (s.setCaller caller).workers = s.workers := rfl

@[simp] theorem setCaller_futures (caller : Caller) :
    (s.setCaller caller).futures = s.futures := rfl

@[simp] theorem setCaller_caller (caller : Caller) : (s.setCaller caller).caller = caller := rfl

theorem readAsync_of_aligned {buffer offset size : ℕ} (h : rd.AllAligned buffer size offset) :
    s.readAsync rd buffer offset size = {
      s with
      requestQueue := s.requestQueue ++ [⟨buffer, offset, size, s.futures.length⟩]
      futures := s.futures ++ [none] } := if_pos h

theorem readAsync_of_not_aligned {buffer offset size : ℕ} (h : ¬ rd.AllAligned buffer size offset) :
    s.readAsync rd buffer offset size = { s with futures := s.futures ++ [some (-1)] } := if_neg h

theorem readAsync_cases (rd : Reader) (s : State n) (buffer offset size : ℕ) :
    (s.readAsync rd buffer offset size).workers = s.workers ∧
    (s.readAsync rd buffer offset size).futures.length = s.futures.length + 1 ∧
    (s.readAsync rd buffer offset size).requestQueue.length ≤ s.requestQueue.length + 1 := by
  by_cases h : rd.AllAligned buffer size offset
  · rw [readAsync_of_aligned h]
    simp
  · rw [readAsync_of_not_aligned h]
    simp

/-- A sum over the workers, one of whom changes. -/
theorem sum_setWorker (s s' : State n) (f : Worker → ℕ) {old : Worker} (hs : s'.workers = s.workers)
    (hw : s.workers w = old) (worker : Worker) :
    ∑ w', f ((s'.setWorker w worker).workers w') + f old = ∑ w', f (s.workers w') + f worker := by
  subst hw
  rw [← Finset.add_sum_erase _ _ (Finset.mem_univ w),
    ← Finset.add_sum_erase Finset.univ (fun w' => f (s.workers w')) (Finset.mem_univ w),
    setWorker_workers_self]
  have hrest : ∑ w' ∈ Finset.univ.erase w, f ((s'.setWorker w worker).workers w') =
      ∑ w' ∈ Finset.univ.erase w, f (s.workers w') :=
    Finset.sum_congr rfl fun w' hw' => by
      rw [setWorker_workers_of_ne (Finset.ne_of_mem_erase hw'), hs]
  rw [hrest]
  omega

/-! ### Termination -/

/-- The steps that a request at a worker still takes. -/
def Worker.measure : Worker → ℕ
  | .idle => 0
  | .holding _ => 2
  | .served _ _ => 1

/-- The steps that the caller still takes, and those of the requests it has not submitted. -/
def Caller.measure (chunks futures : ℕ) : Caller → ℕ
  | .pread => 1
  | .single => 5
  | .waiting => 1
  | .submitting i _ _ => 5 * (chunks - i) + futures + 3
  | .collecting i _ _ => futures - i + 2
  | .returned _ => 0

/-- The steps of the requests that are submitted. -/
def State.pendingSteps (s : State n) : ℕ := 3 * s.requestQueue.length + ∑ w, (s.workers w).measure

def State.measure (chunks : ℕ) (s : State n) : ℕ :=
  s.caller.measure chunks s.futures.length + s.pendingSteps

theorem measure_setCaller {chunks : ℕ} {caller : Caller} : (s.setCaller caller).measure chunks =
    caller.measure chunks s.futures.length + s.pendingSteps := rfl

theorem pendingSteps_readAsync (rd : Reader) (s : State n) (buffer offset size : ℕ) :
    (s.readAsync rd buffer offset size).pendingSteps ≤ s.pendingSteps + 3 := by
  obtain ⟨hw, -, hq⟩ := readAsync_cases rd s buffer offset size
  unfold State.pendingSteps
  rw [hw]
  omega

/-- What a step of the caller does to its measure. -/
theorem callStep_measure (h : s.callStep rd call = some s') :
    s'.measure (numChunks call.size) < s.measure (numChunks call.size) := by
  unfold State.callStep at h
  generalize numChunks call.size = chunks at h ⊢
  have hs : s.measure chunks = s.caller.measure chunks s.futures.length + s.pendingSteps := rfl
  cases hc : s.caller with
  | pread =>
    rw [hc] at h hs
    obtain rfl := Option.some.inj h
    rw [hs, measure_setCaller]
    exact Nat.add_lt_add_right Nat.one_pos _
  | single =>
    rw [hc] at h hs
    obtain rfl := Option.some.inj h
    have hpending := pendingSteps_readAsync rd s call.buffer call.offset call.size
    rw [hs, measure_setCaller]
    simp only [Caller.measure]
    omega
  | waiting =>
    rw [hc] at h hs
    simp only at h
    split at h
    · obtain rfl := Option.some.inj h
      rw [hs, measure_setCaller]
      exact Nat.add_lt_add_right Nat.one_pos _
    · cases h
  | submitting i remaining currentOffset =>
    rw [hc] at h hs
    simp only at h
    split at h
    · next hi =>
      obtain rfl := Option.some.inj h
      obtain ⟨-, hf, -⟩ := readAsync_cases rd s (call.buffer + i * kOptimalChunkSize) currentOffset
        (min remaining kOptimalChunkSize)
      have hpending :=
        pendingSteps_readAsync rd s (call.buffer + i * kOptimalChunkSize) currentOffset
          (min remaining kOptimalChunkSize)
      rw [hs, measure_setCaller, hf]
      simp only [Caller.measure]
      omega
    · obtain rfl := Option.some.inj h
      rw [hs, measure_setCaller]
      simp only [Caller.measure]
      omega
  | collecting i totalRead remaining =>
    rw [hc] at h hs
    simp only at h
    have hreturn : ∀ result, (s.setCaller (.returned result)).measure chunks <
        s.measure chunks := fun result => by
      rw [hs, measure_setCaller]
      simp only [Caller.measure]
      omega
    split at h
    · next hi =>
      split at h
      · split at h
        · exact Option.some.inj h ▸ hreturn _
        · split at h
          · exact Option.some.inj h ▸ hreturn _
          · obtain rfl := Option.some.inj h
            rw [hs, measure_setCaller]
            simp only [Caller.measure]
            omega
      · cases h
    · exact Option.some.inj h ▸ hreturn _
  | returned result =>
    rw [hc] at h
    cases h

/-- **Termination**: every step brings the call and its requests to an end. -/
theorem step_measure {o : Step n} (h : step rd call s o = some s') :
    s'.measure (numChunks call.size) < s.measure (numChunks call.size) := by
  cases o with
  | call => exact callStep_measure h
  | pop w =>
    obtain ⟨r, rest, hw, hq, rfl⟩ := pop_eq_some h
    have hsum : _ + 0 =
      _ + 2 := sum_setWorker s { s with requestQueue := rest } Worker.measure rfl hw (.holding r)
    simp only [State.measure, State.pendingSteps, setWorker_caller, setWorker_futures,
      setWorker_requestQueue, hq, List.length_cons]
    omega
  | pread w =>
    obtain ⟨r, hw, rfl⟩ := serve_eq_some h
    have hsum : _ + 2 = _ + 1 := sum_setWorker s
      { s with memory := rd.fill s.memory r.buffer r.offset r.size } Worker.measure rfl hw
      (.served r (rd.count r.offset r.size))
    simp only [State.measure, State.pendingSteps, setWorker_caller, setWorker_futures,
      setWorker_requestQueue]
    omega
  | setValue w =>
    obtain ⟨r, result, hw, rfl⟩ := setValue_eq_some h
    have hsum : _ + 1 = _ + 0 := sum_setWorker s
      { s with futures := s.futures.set r.future (some result) } Worker.measure rfl hw .idle
    simp only [State.measure, State.pendingSteps, setWorker_caller, setWorker_futures,
      setWorker_requestQueue, List.length_set]
    omega

/-! ### Serving -/

/-- The request that a worker has. -/
def Worker.request : Worker → Option Request
  | .idle => none
  | .holding r => some r
  | .served r _ => some r

/-- Whether a worker has the request of a future. -/
def Worker.serves (j : ℕ) : Worker → ℕ
  | .idle => 0
  | .holding r => if r.future = j then 1 else 0
  | .served r _ => if r.future = j then 1 else 0

/-- How many requests there are for a future. -/
def State.pending (s : State n) (j : ℕ) : ℕ :=
  s.requestQueue.countP (fun r : Request => r.future = j) + ∑ w, (s.workers w).serves j

/-- No request is queued or being served. -/
def State.Done (s : State n) : Prop := s.requestQueue = [] ∧ ∀ w, s.workers w = .idle

/-- The requests are numbered, and each reads its part of `whole`. -/
structure Parts (rd : Reader) (whole : ℕ → UInt8) (requests : List Request) : Prop where
  future : ∀ (j : ℕ) (r : Request), requests[j]? = some r → r.future = j
  bytes : ∀ r ∈ requests, ∀ p, Covers r.buffer (rd.bytes r.offset r.size).length p →
    (rd.bytes r.offset r.size)[p - r.buffer]? = some (whole p)

/-- The data of a request has been read. -/
def State.HasRead (s : State n) (r : Request) : Prop :=
  (∃ result, s.futures[r.future]? = some (some result)) ∨ ∃ w result, s.workers w = .served r result

/-- What holds while the requests are served, from the memory `before`. -/
structure Serving (rd : Reader) (before whole : ℕ → UInt8) (requests : List Request)
    (s : State n) : Prop where
  length : s.futures.length = requests.length
  pending : ∀ j, s.pending j = if s.futures[j]? = some none then 1 else 0
  queued : ∀ r ∈ s.requestQueue, requests[r.future]? = some r
  held : ∀ w r, (s.workers w).request = some r → requests[r.future]? = some r
  result : ∀ w r result, s.workers w = .served r result → result = rd.count r.offset r.size
  value : ∀ (j : ℕ) (r : Request) (result : ℤ), requests[j]? = some r →
    s.futures[j]? = some (some result) → result = rd.count r.offset r.size
  unread : ∀ p, s.memory p = before p ∨ s.memory p = whole p
  read : ∀ r ∈ requests, s.HasRead r →
    ∀ p, Covers r.buffer (rd.bytes r.offset r.size).length p → s.memory p = whole p

section Serving

variable {before whole : ℕ → UInt8} {requests : List Request} {r : Request} {j : ℕ}

theorem pending_pos_of_request (h : (s.workers w).request = some r) : 0 < s.pending r.future := by
  have hserves : (s.workers w).serves r.future = 1 := by
    cases hw : s.workers w with
    | idle => rw [hw] at h; cases h
    | holding r' => rw [hw] at h; cases h; exact if_pos rfl
    | served r' result => rw [hw] at h; cases h; exact if_pos rfl
  have hle : (s.workers w).serves r.future ≤ ∑ w', (s.workers w').serves r.future :=
    Finset.single_le_sum (f := fun w' => (s.workers w').serves r.future) (fun _ _ => Nat.zero_le _)
      (Finset.mem_univ w)
  unfold State.pending
  omega

theorem pending_pos_of_mem (h : r ∈ s.requestQueue) : 0 < s.pending r.future :=
  Nat.add_pos_left (List.countP_pos_iff.mpr ⟨r, h, by simp⟩) _

/-- A request that is not served has a future without a value. -/
theorem Serving.future_of_request (h : Serving rd before whole requests s)
    (hw : (s.workers w).request = some r) :
    s.futures[r.future]? = some none := by
  have hpos := pending_pos_of_request hw
  rw [h.pending] at hpos
  by_contra hne
  rw [if_neg hne] at hpos
  exact absurd hpos (Nat.lt_irrefl 0)

theorem Serving.future_of_mem (h : Serving rd before whole requests s) (hq : r ∈ s.requestQueue) :
    s.futures[r.future]? = some none := by
  have hpos := pending_pos_of_mem hq
  rw [h.pending] at hpos
  by_contra hne
  rw [if_neg hne] at hpos
  exact absurd hpos (Nat.lt_irrefl 0)

/-- **A worker takes a request.** -/
theorem Serving.pop (h : Serving rd before whole requests s) (hstep : s.pop w = some s') :
    Serving rd before whole requests s' := by
  obtain ⟨r, rest, hw, hq, rfl⟩ := pop_eq_some hstep
  refine {
    length := h.length, pending := fun j => ?_, queued := fun r' hr' => ?_,
    held := fun w' r' hw' => ?_
    result := fun w' r' result hw' => ?_, value := h.value, unread := h.unread,
    read := fun r' hr' hread => ?_ }
  · have hsum : _ + 0 = _ + (if r.future = j then 1 else 0) := sum_setWorker s
      { s with requestQueue := rest } (Worker.serves j) rfl hw (.holding r)
    have hpending := h.pending j
    unfold State.pending at hpending ⊢
    rw [hq, List.countP_cons] at hpending
    rw [setWorker_requestQueue, setWorker_futures, ← hpending]
    simp only [decide_eq_true_eq]
    omega
  · exact h.queued r' (hq ▸ List.mem_cons_of_mem r hr')
  · rcases workers_setWorker _ w w' _ with he | he <;> rw [he] at hw'
    · cases hw'
      exact h.queued r (hq ▸ List.mem_cons_self)
    · exact h.held w' r' hw'
  · rcases workers_setWorker _ w w' _ with he | he <;> rw [he] at hw'
    · cases hw'
    · exact h.result w' r' result hw'
  · refine h.read r' hr' (hread.imp_right fun ⟨w', result, hw'⟩ => ?_)
    rcases workers_setWorker _ w w' _ with he | he <;> rw [he] at hw'
    · cases hw'
    · exact ⟨w', result, hw'⟩

/-- A part is read into the memory. -/
theorem fill_part (hparts : Parts rd whole requests) (hr : r ∈ requests)
    (memory : ℕ → UInt8) (p : ℕ) :
    rd.fill memory r.buffer r.offset r.size p =
      if Covers r.buffer (rd.bytes r.offset r.size).length p then whole p else memory p := by
  unfold Reader.fill
  split
  · next hcov => rw [writeAt_of_covers hcov, hparts.bytes r hr p hcov, Option.getD_some]
  · next hcov => exact writeAt_of_not_covers hcov

/-- **A worker reads.** -/
theorem Serving.serve (hparts : Parts rd whole requests) (h : Serving rd before whole requests s)
    (hstep : s.serve rd w = some s') : Serving rd before whole requests s' := by
  obtain ⟨r, hw, rfl⟩ := serve_eq_some hstep
  have hr : requests[r.future]? = some r := h.held w r (by rw [hw]; rfl)
  have hmem : r ∈ requests := List.mem_of_getElem? hr
  have hfill := fill_part hparts hmem s.memory
  refine {
    length := h.length, pending := fun j => ?_, queued := h.queued, held := fun w' r' hw' => ?_
    result := fun w' r' result hw' => ?_, value := h.value, unread := fun p => ?_,
    read := fun r' hr' hread p hp => ?_ }
  · have hsum : _ + (if r.future = j then 1 else 0) = _ + (if r.future = j then 1 else 0) :=
      sum_setWorker s { s with memory := rd.fill s.memory r.buffer r.offset r.size }
        (Worker.serves j) rfl hw (.served r (rd.count r.offset r.size))
    have hpending := h.pending j
    unfold State.pending at hpending ⊢
    rw [setWorker_requestQueue, setWorker_futures, ← hpending]
    simp only at hsum ⊢
    omega
  · rcases workers_setWorker _ w w' _ with he | he <;> rw [he] at hw'
    · cases hw'
      exact hr
    · exact h.held w' r' hw'
  · rcases workers_setWorker _ w w' _ with he | he <;> rw [he] at hw'
    · cases hw'
      rfl
    · exact h.result w' r' result hw'
  · simp only [setWorker_memory, hfill p]
    split
    · exact Or.inr rfl
    · exact h.unread p
  · simp only [setWorker_memory, hfill p]
    split
    · rfl
    · next hcov =>
      refine h.read r' hr' (hread.imp_right fun ⟨w', result, hw'⟩ => ?_) p hp
      rcases workers_setWorker _ w w' _ with he | he <;> rw [he] at hw'
      · cases hw'
        exact absurd hp hcov
      · exact ⟨w', result, hw'⟩

/-- **A worker sets the value of a future.** -/
theorem Serving.setValue (hparts : Parts rd whole requests) (h : Serving rd before whole requests s)
    (hstep : s.setValue w = some s') : Serving rd before whole requests s' := by
  obtain ⟨r, result, hw, rfl⟩ := setValue_eq_some hstep
  have hrequest : (s.workers w).request = some r := by rw [hw]; rfl
  have hr : requests[r.future]? = some r := h.held w r hrequest
  have hfuture := h.future_of_request hrequest
  have hlt : r.future < s.futures.length := (List.getElem?_eq_some_iff.mp hfuture).1
  refine {
    length := ?_, pending := fun j => ?_, queued := h.queued, held := fun w' r' hw' => ?_
    result := fun w' r' result' hw' => ?_, value := fun j r' result' hr' hj => ?_,
    unread := h.unread
    read := fun r' hr' hread => ?_ }
  · rw [setWorker_futures, List.length_set]
    exact h.length
  · have hsum : _ + (if r.future = j then 1 else 0) = _ + 0 := sum_setWorker s
      { s with futures := s.futures.set r.future (some result) } (Worker.serves j) rfl hw .idle
    have hpending := h.pending j
    unfold State.pending at hpending ⊢
    rw [setWorker_requestQueue, setWorker_futures]
    by_cases hj : r.future = j
    · subst hj
      rw [hfuture, if_pos rfl] at hpending
      rw [if_pos rfl] at hsum
      rw [List.getElem?_set_self hlt, if_neg (by simp)]
      simp only at hsum ⊢
      omega
    · rw [if_neg hj] at hsum
      rw [List.getElem?_set_ne hj, ← hpending]
      simp only at hsum ⊢
      omega
  · rcases workers_setWorker _ w w' _ with he | he <;> rw [he] at hw'
    · cases hw'
    · exact h.held w' r' hw'
  · rcases workers_setWorker _ w w' _ with he | he <;> rw [he] at hw'
    · cases hw'
    · exact h.result w' r' result' hw'
  · rw [setWorker_futures] at hj
    by_cases hne : r.future = j
    · subst hne
      rw [List.getElem?_set_self hlt] at hj
      cases hj
      obtain rfl := Option.some.inj (hr.symm.trans hr')
      exact h.result w r result hw
    · rw [List.getElem?_set_ne hne] at hj
      exact h.value j r' result' hr' hj
  · refine h.read r' hr' ?_
    rcases hread with ⟨result', hfut⟩ | ⟨w', result', hw'⟩
    · rw [setWorker_futures] at hfut
      by_cases hne : r.future = r'.future
      · -- the request that has been served
        obtain ⟨i, hi⟩ := List.getElem?_of_mem hr'
        have hri : r'.future = i := hparts.future i r' hi
        rw [← hri, ← hne, hr] at hi
        obtain rfl := Option.some.inj hi
        exact Or.inr ⟨w, result, hw⟩
      · rw [List.getElem?_set_ne hne] at hfut
        exact Or.inl ⟨result', hfut⟩
    · rcases workers_setWorker _ w w' _ with he | he <;> rw [he] at hw'
      · cases hw'
      · exact Or.inr ⟨w', result', hw'⟩

theorem Serving.nil (hidle : ∀ w, s.workers w = .idle) (hqueue : s.requestQueue = [])
    (hfutures : s.futures = []) :
    Serving rd s.memory whole [] s where
  length := by rw [hfutures]; rfl
  pending j := by simp [State.pending, hidle, hqueue, hfutures, Worker.serves]
  queued r hr := by rw [hqueue] at hr; cases hr
  held w r hw := by rw [hidle w] at hw; cases hw
  result w r result hw := by rw [hidle w] at hw; cases hw
  value j r result hr := by cases hr
  unread p := Or.inl rfl
  read r hr := by cases hr

theorem Serving.setCaller (h : Serving rd before whole requests s) (caller : Caller) :
    Serving rd before whole requests (s.setCaller caller) :=
  ⟨h.length, h.pending, h.queued, h.held, h.result, h.value, h.unread, h.read⟩

/-- **The caller submits a request.** -/
theorem Serving.submit {buffer offset size : ℕ} (haligned : rd.AllAligned buffer size offset)
    (hparts : Parts rd whole (requests ++ [⟨buffer, offset, size, requests.length⟩]))
    (h : Serving rd before whole requests s) :
    Serving rd before whole (requests ++ [⟨buffer, offset, size, requests.length⟩])
      (s.readAsync rd buffer offset size) := by
  rw [readAsync_of_aligned haligned, h.length]
  have hold : ∀ {j r}, requests[j]? = some r →
      (requests ++ [⟨buffer, offset, size, requests.length⟩])[j]? = some r := fun hj => by
    rw [List.getElem?_append_left (List.getElem?_eq_some_iff.mp hj).1, hj]
  refine {
    length := by simp [h.length], pending := fun j => ?_, queued := fun r hr => ?_
    held := fun w r hw => hold (h.held w r hw), result := h.result,
    value := fun j r result hr hj => ?_
    unread := h.unread, read := fun r hr hread => ?_ }
  · have hpending := h.pending j
    unfold State.pending at hpending ⊢
    simp only [List.countP_append, List.countP_singleton, decide_eq_true_eq]
    by_cases hlt : j < s.futures.length
    · rw [List.getElem?_append_left hlt, ← hpending, if_neg (by rw [← h.length]; omega)]
      omega
    · rw [List.getElem?_eq_none (Nat.le_of_not_lt hlt), if_neg (by simp)] at hpending
      by_cases hj : j = s.futures.length
      · subst hj
        rw [List.getElem?_append_right (Nat.le_refl _), Nat.sub_self, if_pos h.length.symm,
          if_pos (by rfl)]
        omega
      · rw [List.getElem?_append_right (Nat.le_of_not_lt hlt), List.getElem?_eq_none
          (by rw [List.length_singleton]; omega), if_neg (by rw [← h.length]; exact Ne.symm hj),
          if_neg (by simp)]
        omega
  · rcases List.mem_append.mp hr with hr | hr
    · exact hold (h.queued r hr)
    · obtain rfl := List.mem_singleton.mp hr
      rw [List.getElem?_append_right (Nat.le_refl _), Nat.sub_self]
      rfl
  · by_cases hlt : j < s.futures.length
    · rw [List.getElem?_append_left hlt] at hj
      rw [List.getElem?_append_left (h.length ▸ hlt)] at hr
      exact h.value j r result hr hj
    · have hge := Nat.le_of_not_lt hlt
      rw [List.getElem?_append_right hge] at hj
      obtain ⟨hlen, hval⟩ := List.getElem?_eq_some_iff.mp hj
      rw [List.getElem_singleton] at hval
      cases hval
  · have hfuture : ∀ r' ∈ requests, r'.future < s.futures.length := fun r' hr' => by
      obtain ⟨i, hi⟩ := List.getElem?_of_mem hr'
      rw [hparts.future i r' (hold hi), h.length]
      exact (List.getElem?_eq_some_iff.mp hi).1
    rcases List.mem_append.mp hr with hr | hr
    · refine h.read r hr (hread.imp_left fun ⟨result, hfut⟩ => ⟨result, ?_⟩)
      rwa [List.getElem?_append_left (hfuture r hr)] at hfut
    · -- the new request has not been read
      obtain rfl := List.mem_singleton.mp hr
      rcases hread with ⟨result, hfut⟩ | ⟨w, result, hw⟩
      · rw [← h.length, List.getElem?_append_right (Nat.le_refl _), Nat.sub_self] at hfut
        cases hfut
      · have hheld := (List.getElem?_eq_some_iff.mp (h.held w _ (by rw [hw]; rfl))).1
        exact absurd hheld (Nat.lt_irrefl _)

/-- **When all futures have values**, nothing is queued or being served. -/
theorem Serving.done (h : Serving rd before whole requests s)
    (hvalues : ∀ j : ℕ, s.futures[j]? ≠ some none) :
    s.Done := by
  refine ⟨List.eq_nil_iff_forall_not_mem.mpr fun r hr => hvalues _ (h.future_of_mem hr),
    fun w => ?_⟩
  cases hw : s.workers w with
  | idle => rfl
  | holding r => exact absurd (h.future_of_request (w := w) (by rw [hw]; rfl)) (hvalues r.future)
  | served r result =>
    exact absurd (h.future_of_request (w := w) (by rw [hw]; rfl)) (hvalues r.future)

/-- **A worker can go on** while there is a future without a value. -/
theorem Serving.exists_step (h : Serving rd before whole requests s) (hn : 0 < n)
    (hj : s.futures[j]? = some none) : ∃ o s', step rd call s o = some s' := by
  have hpending : 0 < s.pending j := by rw [h.pending, if_pos hj]; exact Nat.one_pos
  by_cases hbusy : ∃ w, s.workers w ≠ .idle
  · obtain ⟨w, hw⟩ := hbusy
    cases hworker : s.workers w with
    | idle => exact absurd hworker hw
    | holding r => exact ⟨.pread w, _, by simp only [step, State.serve, hworker]; rfl⟩
    | served r result => exact ⟨.setValue w, _, by simp only [step, State.setValue, hworker]; rfl⟩
  · have hidle : ∀ w, s.workers w = .idle := fun w => by_contra fun hw => hbusy ⟨w, hw⟩
    cases hq : s.requestQueue with
    | nil => simp [State.pending, hidle, hq, Worker.serves] at hpending
    | cons r rest => exact ⟨.pop ⟨0, hn⟩, _, by simp only [step, State.pop, hidle, hq]; rfl⟩

end Serving

end Steps

end MoeInfinity.Core.DirectFileReader
