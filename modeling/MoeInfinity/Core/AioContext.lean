import MoeInfinity.Core.AioHandle
import MoeInfinity.Lib.Threads

/-! # The threads behind the file handle (`core/aio/archer_prio_aio_handle.cpp`)

`Read` and `Write` hand their callbacks to `AcceptRequest` and block. One thread runs `Schedule`: it
takes a request from one of two queues, deals its callbacks out to the threads of the pool, waits
for all of them and lets the caller go on. A callback bounces its chunk through a buffer of the
pinned pool. Steps are what a thread does under one mutex, one transfer or one copy; a thread waits
by being at a step that is not enabled, so that it may wake up whenever its predicate holds. A
transfer moves all bytes of its chunk: what is read lies within the file.

* `next`: a step of any of the threads.
* `filesAfter_all`, `bufferAfter_all`: what all callbacks of a request do together, in whatever
  order.
* `store_files`, `store_buffer`: what one callback adds. -/

namespace MoeInfinity.Core.AioContext

open Finset MoeInfinity.Lib.Extents MoeInfinity.Lib.Runs MoeInfinity.Lib.Threads
  MoeInfinity.Core.AioHandle

/-! ### Requests -/

inductive Direction where
  | read
  | write
deriving DecidableEq, Repr

/-- The arguments of `Read` or `Write`, with what the caller's buffer holds. -/
structure Call where
  direction : Direction
  filename : String
  numBytes : ℕ
  offset : ℕ
  highPrio : Bool
  buffer : ℕ → UInt8

/-- A request has an identity of its own. -/
structure AioRequest where
  id : ℕ
  call : Call

/-- The callback for a chunk of a request. -/
abbrev Callback := AioRequest × ℕ

/-- `GetDefaultNumIoThreads`, where the hardware has so many threads. -/
def getDefaultNumIoThreads (hardware : ℕ) : ℕ := max (hardware / 4) 4

/-- How many threads the pool has. -/
def ioThreads (num_io_threads : ℤ) (hardware : ℕ) : ℕ :=
  if num_io_threads ≤ 0 then getDefaultNumIoThreads hardware else num_io_threads.toNat

theorem ioThreads_pos (num_io_threads : ℤ) (hardware : ℕ) :
    0 < ioThreads num_io_threads hardware := by
  unfold ioThreads getDefaultNumIoThreads
  split_ifs <;> omega

/-! ### States -/

/-- Where `Schedule` is. -/
inductive Phase where
  | waiting
  | high
  | low
  | enqueuing (r : AioRequest) (k : ℕ)
  | joining (r : AioRequest) (i : ℕ)

/-- Where a thread of the pool is. -/
inductive Worker where
  | waiting
  | acquiring (cb : Callback)
  | moving (cb : Callback) (chunk : ℕ)
  | copying (cb : Callback) (chunk : ℕ)
  | releasing (chunk : ℕ)
  | finishing

/-- `accepted`, `served`, `done` and `returned` are not part of the program: they record which
requests came, which have been completed, which callbacks of the present one have copied their
chunk, and which calls have returned. -/
structure State (n : ℕ) where
  files : Files
  buffer : ℕ → ℕ → UInt8
  pending : ℕ → ℕ
  ioQueueHigh : List AioRequest
  ioQueueLow : List AioRequest
  phase : Phase
  callbacks : Fin n → List Callback
  pendingCallbacks : Fin n → ℕ
  worker : Fin n → Worker
  roundRobin : BitVec 32
  freeList : List ℕ
  chunk : ℕ → ℕ → UInt8
  accepted : List AioRequest
  served : List AioRequest
  done : List Callback
  returned : List ℕ

/-- The state after the constructor: four chunks for each thread. -/
def start (n : ℕ) (files : Files) (chunk : ℕ → ℕ → UInt8) : State n where
  files := files
  buffer := fun _ _ => 0
  pending := fun _ => 0
  ioQueueHigh := []
  ioQueueLow := []
  phase := .waiting
  callbacks := fun _ => []
  pendingCallbacks := fun _ => 0
  worker := fun _ => .waiting
  roundRobin := 0#32
  freeList := List.range (n * 4)
  chunk := chunk
  accepted := []
  served := []
  done := []
  returned := []

/-! ### Steps -/

section Steps

variable (h : ArcherPrioAioHandle) {n : ℕ} (s : State n)

/-- `n_iocbs`. -/
def AioRequest.nIocbs (r : AioRequest) : ℕ := numIocbs h.blockSize r.call.numBytes

/-- The chunk of a callback. -/
def chunkOf (cb : Callback) : Chunk := chunkAt h.blockSize cb.1.call.numBytes cb.2

/-- `AcceptRequest`. -/
def acceptRequest (c : Call) : State n :=
  let r : AioRequest := ⟨s.accepted.length, c⟩
  { s with
    buffer := Function.update s.buffer r.id c.buffer
    pending := Function.update s.pending r.id (r.nIocbs h)
    ioQueueHigh := if c.highPrio then s.ioQueueHigh ++ [r] else s.ioQueueHigh
    ioQueueLow := if c.highPrio then s.ioQueueLow else s.ioQueueLow ++ [r]
    accepted := s.accepted ++ [r] }

/-- `Wait`, after which the call returns. -/
def wait (id : ℕ) : Option (State n) :=
  if id < s.accepted.length ∧ id ∉ s.returned ∧ s.pending id = 0 then
    some { s with returned := s.returned ++ [id] }
  else none

/-- `ArcherAioThreadPool::Enqueue` of the callback for chunk `k`. The counter is an `int`: behind
its last value the index is negative, and what `threads_[idx]` does is not defined. -/
def enqueue (r : AioRequest) (k : ℕ) : Option (State n) :=
  let idx := s.roundRobin.toInt.tmod n
  if hidx : 0 ≤ idx ∧ idx.toNat < n then
    let i : Fin n := ⟨idx.toNat, hidx.2⟩
    some { s with
      callbacks := Function.update s.callbacks i (s.callbacks i ++ [(r, k)])
      pendingCallbacks := Function.update s.pendingCallbacks i (s.pendingCallbacks i + 1)
      roundRobin := s.roundRobin + 1#32
      phase := .enqueuing r (k + 1) }
  else none

/-- `ArcherAioThread::Wait` of thread `i`. -/
def join (r : AioRequest) (i : Fin n) : Option (State n) :=
  if s.pendingCallbacks i = 0 then
    some { s with callbacks := Function.update s.callbacks i [], phase := .joining r (i + 1) }
  else none

/-- The request is complete. -/
def complete (r : AioRequest) : State n :=
  { s with
    pending := Function.update s.pending r.id 0
    phase := .waiting
    served := s.served ++ [r]
    done := [] }

/-- `Schedule`. -/
def schedule : Option (State n) :=
  match s.phase with
  | .waiting =>
    if s.ioQueueHigh.isEmpty && s.ioQueueLow.isEmpty then none else some { s with phase := .high }
  | .high =>
    match s.ioQueueHigh with
    | [] => some { s with phase := .low }
    | r :: rest => some { s with ioQueueHigh := rest, phase := .enqueuing r 0 }
  | .low =>
    match s.ioQueueLow with
    | [] => some { s with phase := .waiting }
    | r :: rest => some { s with ioQueueLow := rest, phase := .enqueuing r 0 }
  | .enqueuing r k =>
    if k < r.nIocbs h then enqueue s r k else some { s with phase := .joining r 0 }
  | .joining r i => if hi : i < n then join s r ⟨i, hi⟩ else some (complete s r)

/-- The first half of a callback: `pread` into the chunk, or the caller's bytes and zeros behind
them. -/
def load (cb : Callback) (stale : ℕ → UInt8) : ℕ → UInt8 :=
  match cb.1.call.direction with
  | .read =>
    writeAt stale 0 (readAt (s.files cb.1.call.filename) (cb.1.call.offset + (chunkOf h cb).shift)
      (chunkOf h cb).byteCount)
  | .write => fillChunk (s.buffer cb.1.id) stale (chunkOf h cb)

/-- The second half: `memcpy` to the caller's buffer, or `pwrite`. -/
def store (cb : Callback) (chunk : ℕ → UInt8) : State n :=
  match cb.1.call.direction with
  | .read => { s with
      buffer := if 0 < (chunkOf h cb).copyCount then
          Function.update s.buffer cb.1.id
            (writeAt (s.buffer cb.1.id) (chunkOf h cb).shift
              (readAt chunk 0 (chunkOf h cb).copyCount))
        else s.buffer }
  | .write => { s with
      files := Function.update s.files cb.1.call.filename
        (writeAt (s.files cb.1.call.filename) (cb.1.call.offset + (chunkOf h cb).shift)
          (readAt chunk 0 (chunkOf h cb).byteCount)) }

/-- `ArcherAioThread::Run` of thread `i`, with `Acquire` and `Release` of the pinned pool. -/
def work (i : Fin n) : Option (State n) :=
  match s.worker i with
  | .waiting =>
    match s.callbacks i with
    | [] => none
    | cb :: rest => some { s with
        callbacks := Function.update s.callbacks i rest
        worker := Function.update s.worker i (.acquiring cb) }
  | .acquiring cb =>
    match s.freeList with
    | [] => none
    | c :: rest =>
      some { s with freeList := rest, worker := Function.update s.worker i (.moving cb c) }
  | .moving cb c => some { s with
      chunk := Function.update s.chunk c (load h s cb (s.chunk c))
      worker := Function.update s.worker i (.copying cb c) }
  | .copying cb c => some { store h s cb (s.chunk c) with
      worker := Function.update s.worker i (.releasing c)
      done := s.done ++ [cb] }
  | .releasing c => some { s with
      freeList := s.freeList ++ [c]
      worker := Function.update s.worker i .finishing }
  | .finishing => some { s with
      pendingCallbacks := Function.update s.pendingCallbacks i (s.pendingCallbacks i - 1)
      worker := Function.update s.worker i .waiting }

end Steps

/-- A step of one of the callers, of the thread that schedules or of one of the pool. -/
inductive Step (n : ℕ) where
  | accept (c : Call)
  | wait (id : ℕ)
  | schedule
  | work (i : Fin n)

def next (h : ArcherPrioAioHandle) {n : ℕ} (s : State n) : Step n → Option (State n)
  | .accept c => some (acceptRequest h s c)
  | .wait id => wait s id
  | .schedule => schedule h s
  | .work i => work h s i

/-! ### What a request does -/

/-- The files after a request. -/
def Call.perform (files : Files) (c : Call) : Files :=
  match c.direction with
  | .read => files
  | .write => Function.update files c.filename fun p =>
      if Covers c.offset (alignUp c.numBytes) p
        then (if p - c.offset < c.numBytes then c.buffer (p - c.offset) else 0)
      else files c.filename p

/-- The caller's buffer after a request. -/
def Call.result (files : Files) (c : Call) : ℕ → UInt8 :=
  match c.direction with
  | .read => fun p => if p < c.numBytes then files c.filename (c.offset + p) else c.buffer p
  | .write => c.buffer

/-- The files after requests one after the other. -/
def serial (files : Files) (rs : List AioRequest) : Files :=
  rs.foldl (fun files r => r.call.perform files) files

section Effects

variable (h : ArcherPrioAioHandle) (files : Files) (r : AioRequest) (done : List Callback)

/-- The files after some of the callbacks of a request. -/
def filesAfter : Files :=
  match r.call.direction with
  | .read => files
  | .write => Function.update files r.call.filename (done.foldl (fun file cb =>
      writeCallback r.call.buffer r.call.offset (fun _ => 0) (chunkOf h cb) file)
        (files r.call.filename))

/-- The caller's buffer after some of the callbacks of its request. -/
def bufferAfter : ℕ → UInt8 :=
  match r.call.direction with
  | .read => done.foldl (fun dst cb =>
      readCallback (files r.call.filename) r.call.offset (fun _ => 0)
        (chunkOf h cb) dst) r.call.buffer
  | .write => r.call.buffer

/-- The bounce buffer has what the callback will copy. -/
def Loaded (cb : Callback) (chunk : ℕ → UInt8) : Prop :=
  match cb.1.call.direction with
  | .read => readAt chunk 0 (chunkOf h cb).copyCount =
      readAt (files cb.1.call.filename) (cb.1.call.offset + (chunkOf h cb).shift)
        (chunkOf h cb).copyCount
  | .write => readAt chunk 0 (chunkOf h cb).byteCount =
      readAt (fillChunk cb.1.call.buffer (fun _ => 0) (chunkOf h cb)) 0 (chunkOf h cb).byteCount

/-- The callbacks of a request. -/
def AioRequest.callbacks : List Callback := (List.range (r.nIocbs h)).map fun k => (r, k)

variable {h files r done}

theorem filesAfter_nil : filesAfter h files r [] = files := by
  unfold filesAfter
  split
  · rfl
  · exact Function.update_eq_self _ _

theorem bufferAfter_nil : bufferAfter h files r [] = r.call.buffer := by
  unfold bufferAfter
  split <;> rfl

/-- An order in which all callbacks have been run. -/
theorem order_of_done (hdone : (done : Multiset Callback) = r.callbacks h) :
    ∃ order : Order (r.nIocbs h), done = order.order.map fun k => (r, k) := by
  have hperm : done.Perm ((List.range (r.nIocbs h)).map fun k => (r, k)) :=
    Multiset.coe_eq_coe.mp hdone
  have hfst : ∀ cb ∈ done, cb = (r, cb.2) := by
    intro cb hcb
    obtain ⟨k, -, rfl⟩ := List.mem_map.mp (hperm.mem_iff.mp hcb)
    rfl
  have hsnd : (done.map Prod.snd).Perm (List.range (r.nIocbs h)) := by
    have hmap := hperm.map Prod.snd
    rwa [List.map_map, show Prod.snd ∘ (fun k => ((r, k) : Callback)) = id from rfl, List.map_id]
      at hmap
  refine ⟨⟨done.map Prod.snd, hsnd⟩, ?_⟩
  rw [List.map_map]
  exact (List.map_id done).symm.trans (List.map_congr_left hfst)

/-- **All callbacks** together do what the request does, in whatever order they were run. -/
theorem filesAfter_all (hdone : (done : Multiset Callback) = r.callbacks h) :
    filesAfter h files r done = r.call.perform files := by
  obtain ⟨order, rfl⟩ := order_of_done hdone
  unfold filesAfter Call.perform
  split
  · rfl
  · rw [List.foldl_map]
    refine congrArg (Function.update files r.call.filename) (funext fun p => ?_)
    have hwrite :=
      @write_apply h r.call.filename r.call.buffer r.call.numBytes r.call.offset order
        (fun _ _ => 0) files p
    unfold ArcherPrioAioHandle.write at hwrite
    dsimp only at hwrite
    rw [Function.update_self] at hwrite
    exact hwrite

theorem bufferAfter_all (hdone : (done : Multiset Callback) = r.callbacks h) :
    bufferAfter h files r done = r.call.result files := by
  obtain ⟨order, rfl⟩ := order_of_done hdone
  unfold bufferAfter Call.result
  split
  · rw [List.foldl_map]
    exact funext fun p =>
      @read_apply h r.call.filename r.call.buffer r.call.numBytes r.call.offset order
      (fun _ _ => 0) files p
  · rfl

theorem chunkOf_copyCount_le {cb : Callback} :
    (chunkOf h cb).copyCount ≤ (chunkOf h cb).byteCount := copyCount_le

theorem readAt_load {mem stale : ℕ → UInt8} {start byteCount copyCount : ℕ}
    (hle : copyCount ≤ byteCount) :
    readAt (writeAt stale 0 (readAt mem start byteCount)) 0 copyCount =
      readAt mem start copyCount := by
  unfold readAt
  refine List.map_congr_left fun k hk => ?_
  have hk := List.mem_range.mp hk
  rw [show (List.range byteCount).map (fun k => mem (start + k)) = readAt mem start byteCount
    from rfl, writeAt_readAt, if_pos ⟨Nat.zero_le _, by omega⟩, Nat.zero_add, Nat.sub_zero]

/-- What the bounce buffer of a write held before does not matter. -/
theorem readAt_fillChunk (src stale stale' : ℕ → UInt8) (cb : Callback) :
    readAt (fillChunk src stale (chunkOf h cb)) 0 (chunkOf h cb).byteCount =
      readAt (fillChunk src stale' (chunkOf h cb)) 0 (chunkOf h cb).byteCount := by
  refine readAt_congr fun k hk => ?_
  rw [Nat.zero_add]
  exact (fillChunk_apply stale copyCount_le hk).trans (fillChunk_apply stale' copyCount_le hk).symm

theorem filesAfter_write (hd : r.call.direction = .write) : filesAfter h files r done =
    Function.update files r.call.filename (done.foldl (fun file cb =>
      writeCallback r.call.buffer r.call.offset (fun _ => 0) (chunkOf h cb) file)
          (files r.call.filename)) := by
  simp only [filesAfter, hd]

theorem filesAfter_read (hd : r.call.direction = .read) : filesAfter h files r done = files := by
  simp only [filesAfter, hd]

theorem bufferAfter_read (hd : r.call.direction = .read) : bufferAfter h files r done =
    done.foldl
      (fun dst cb => readCallback (files r.call.filename) r.call.offset (fun _ => 0)
        (chunkOf h cb) dst) r.call.buffer := by
  simp only [bufferAfter, hd]

theorem bufferAfter_write (hd : r.call.direction = .write) :
    bufferAfter h files r done = r.call.buffer := by
  simp only [bufferAfter, hd]

variable {n : ℕ} {s : State n} {cb : Callback} {k : ℕ} {chunk : ℕ → UInt8}

/-- The first half of a callback loads the bounce buffer. -/
theorem loaded_load (hfiles : cb.1.call.direction = .read → s.files = files)
    (hbuffer : cb.1.call.direction = .write → s.buffer cb.1.id = cb.1.call.buffer)
    (stale : ℕ → UInt8) :
    Loaded h files cb (load h s cb stale) := by
  cases hd : cb.1.call.direction with
  | read =>
    simp only [Loaded, load, hd, hfiles hd]
    exact readAt_load chunkOf_copyCount_le
  | write =>
    simp only [Loaded, load, hd, hbuffer hd]
    exact readAt_fillChunk _ _ _ cb

theorem store_files (hfiles : s.files = filesAfter h files r done)
    (hloaded : Loaded h files (r, k) chunk) :
    (store h s (r, k) chunk).files = filesAfter h files r (done ++ [(r, k)]) := by
  cases hd : r.call.direction with
  | read =>
    rw [filesAfter_read hd] at hfiles ⊢
    simp only [store, hd, hfiles]
  | write =>
    rw [filesAfter_write hd] at hfiles ⊢
    simp only [Loaded, hd] at hloaded
    simp only [store, hd, hfiles, Function.update_self, Function.update_idem,
      List.foldl_append, hloaded]
    rfl

theorem readCallback_of_loaded {file : ℕ → UInt8} {offset : ℕ}
    (hloaded : readAt chunk 0 (chunkOf h cb).copyCount =
      readAt file (offset + (chunkOf h cb).shift) (chunkOf h cb).copyCount) (dst : ℕ → UInt8) :
    readCallback file offset (fun _ => 0) (chunkOf h cb) dst = if 0 < (chunkOf h cb).copyCount then
      writeAt dst (chunkOf h cb).shift (readAt chunk 0 (chunkOf h cb).copyCount) else dst := by
  unfold readCallback
  rw [hloaded, ← readAt_load chunkOf_copyCount_le]

theorem store_buffer (hbuffer : s.buffer r.id = bufferAfter h files r done)
    (hloaded : Loaded h files (r, k) chunk) :
    (store h s (r, k) chunk).buffer r.id = bufferAfter h files r (done ++ [(r, k)]) := by
  cases hd : r.call.direction with
  | read =>
    rw [bufferAfter_read hd] at hbuffer ⊢
    simp only [Loaded, hd] at hloaded
    simp only [store, hd, List.foldl_append, List.foldl_cons, List.foldl_nil, ← hbuffer,
      readCallback_of_loaded hloaded]
    split_ifs
    · exact Function.update_self ..
    · rfl
  | write =>
    rw [bufferAfter_write hd] at hbuffer ⊢
    simp only [store, hd, hbuffer]

theorem store_buffer_of_ne {id : ℕ} (hne : id ≠ cb.1.id) :
    (store h s cb chunk).buffer id = s.buffer id := by
  cases hd : cb.1.call.direction with
  | read =>
    simp only [store, hd]
    split_ifs
    · exact Function.update_of_ne hne _ _
    · rfl
  | write => simp only [store, hd]

end Effects

end MoeInfinity.Core.AioContext
