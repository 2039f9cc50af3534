import MoeInfinity.Core.TensorHandle

/-! # Filling a node's host buffer (`core/model/model_topology.cpp`)

The tensors of a node lie one behind the other in its buffer, each from a multiple of the alignment
on. There are three ways to fill the buffer: `Node::SetDevice` with a GPU as its target reads tensor
by tensor and copies each to the GPU while it reads the next; with the CPU as its target it calls
`SetModuleMemoryFromDisk`, which reads everything at once when the tensors are contiguous in one
file; and `InitializeTopology` copies the tensors out of the image of a whole partition.

Positions in a buffer are counted from its start. `none` is the end of the process: a tensor that is
not in the index, or a position before the start of a file. Sums of sizes are taken not to
overflow. -/

namespace MoeInfinity.Core.NodeBuffer

open MoeInfinity.Lib.Extents
open MoeInfinity.Core.AioHandle MoeInfinity.Core.TensorIndex MoeInfinity.Core.TensorHandle

/-- What a pointer points to. -/
abbrev Buffer := ℕ → UInt8

/-- A tensor over a part of a buffer (`torch::from_blob`). -/
structure View where
  offset : ℕ
  shape : List Int64
  options : TensorOptions
deriving DecidableEq, Repr

/-- The options of a view on the host: `device(torch::kCPU)`. -/
def hostOptions (options : TensorOptions) : TensorOptions :=
  { options with deviceType := 0, deviceIndex := -1 }

/-- The options of a view on a GPU. -/
def cudaOptions (deviceIndex : Int8) (options : TensorOptions) : TensorOptions :=
  { options with deviceType := 1, deviceIndex := deviceIndex, pinnedMemory := false }

/-! ### Reading -/

section Loading

variable (path : OffloadPath) (index : ArcherTensorIndex) (files : Files)

/-- `prio_aio_handle_.Read` to `host + start`; `pread` refuses a negative offset. -/
def readInto (io : Callbacks path) (filename : String) (numBytes : ℕ) (offset : ℤ) (start : ℕ)
    (host : Buffer) : Option Buffer :=
  if 0 < numBytes ∧ offset < 0 then none
  else some (within host start fun dst => (path.prioAioHandle.read filename numBytes offset.toNat
    (io.order numBytes) io.stale files dst).2)

def readTensor (io : Callbacks path) (tensorId : UInt32) (start : ℕ) (host : Buffer) :
    Option Buffer := do
  let m ← index.find tensorId
  readInto path files io (path.getIndexFileName m.fileId) m.size.toNat m.offset.toInt start host

/-- The loop of the per-tensor branch of `SetModuleMemoryFromDisk`; `io k` is the run of its `k`-th
read. -/
def readTensors (io : ℕ → Callbacks path) : List UInt32 → ℕ → Buffer → Option Buffer
  | [], _, host => some host
  | tensorId :: tensorIds, offset, host => do
    let host ← readTensor path index files (io tensorIds.length) tensorId offset host
    let m ← index.find tensorId
    readTensors io tensorIds (offset + alignUp m.size.toNat) host

/-! ### Views -/

/-- The loop that all functions share that set the tensors of the index to views of one buffer. -/
def createViews (f : TensorOptions → TensorOptions) :
    List UInt32 → ℕ → Option (List (UInt32 × View))
  | [], _ => some []
  | tensorId :: tensorIds, paramSize => do
    let m ← index.find tensorId
    let views ← createViews f tensorIds (paramSize + alignUp m.size.toNat)
    return (tensorId, ⟨paramSize, m.shape, f m.options⟩) :: views

def setModuleMemoryFromDisk_Views (tensorIds : List UInt32) : Option (List (UInt32 × View)) :=
  createViews index hostOptions tensorIds 0

def setModuleCudaMemoryFromCPU (deviceIndex : Int8) (tensorIds : List UInt32) :
    Option (List (UInt32 × View)) :=
  createViews index (cudaOptions deviceIndex) tensorIds 0

/-! ### Disk to host -/

/-- A filled buffer, and the views in the order in which they were created. -/
structure Loaded where
  host : Buffer
  views : List (UInt32 × View)

/-- The loop that looks for a gap; the sizes are summed up as far as it gets. -/
def contiguous (fileId : UInt32) : List UInt32 → ℤ → ℕ → Option (Bool × ℕ)
  | [], _, totalAligned => some (true, totalAligned)
  | tensorId :: tensorIds, expectedOffset, totalAligned => do
    let m ← index.find tensorId
    let sz := alignUp m.size.toNat
    if m.fileId ≠ fileId ∨ m.offset.toInt ≠ expectedOffset then return (false, totalAligned)
    else contiguous fileId tensorIds (expectedOffset + sz) (totalAligned + sz)

/-- The buffer of `SetModuleMemoryFromDisk`. -/
def readModule (io : ℕ → Callbacks path) (tensorIds : List UInt32) (host : Buffer) :
    Option Buffer :=
  match tensorIds with
  | [] => some host
  | firstId :: _ => do
    let first ← index.find firstId
    let (contiguous, totalAligned) ← contiguous index first.fileId tensorIds first.offset.toInt 0
    if contiguous ∧ 0 < totalAligned then
      readInto path files (io 0) (path.getIndexFileName first.fileId) totalAligned
        first.offset.toInt 0 host
    else readTensors path index files io tensorIds 0 host

def setModuleMemoryFromDisk (io : ℕ → Callbacks path) (tensorIds : List UInt32) (host : Buffer) :
    Option Loaded := do
  let host ← readModule path index files io tensorIds host
  let views ← createViews index hostOptions tensorIds 0
  return ⟨host, views⟩

/-! ### Disk to GPU -/

/-- A CUDA stream that copies from the host buffer to the device buffer, with the extents of the
copies that it has not executed yet. -/
structure Stream where
  device : Buffer
  pending : List (ℕ × ℕ)

/-- The next `n` copies, with what the host buffer holds by then. -/
def Stream.advance (host : Buffer) (n : ℕ) (s : Stream) : Stream :=
  ⟨(s.pending.take n).foldl (fun device c => writeAt device c.1 (readAt host c.1 c.2)) s.device,
    s.pending.drop n⟩

def Stream.memcpyAsync (start size : ℕ) (s : Stream) : Stream :=
  ⟨s.device, s.pending ++ [(start, size)]⟩

/-- The pipelined loop of `Node::SetDevice`; `progress k` is how far the stream gets in the `k`-th
round. -/
def readPipelined (io : ℕ → Callbacks path) (progress : ℕ → ℕ) :
    List UInt32 → ℕ → Buffer → Stream → Option (Buffer × Stream)
  | [], _, host, stream => some (host, stream.advance host stream.pending.length)
  | tensorId :: tensorIds, paramOffset, host, stream => do
    let host ← readTensor path index files (io tensorIds.length) tensorId paramOffset host
    let m ← index.find tensorId
    let sizeAligned := alignUp m.size.toNat
    let stream :=
      (stream.memcpyAsync paramOffset sizeAligned).advance host (progress tensorIds.length)
    readPipelined io progress tensorIds (paramOffset + sizeAligned) host stream

/-- The pipelined branch of `Node::SetDevice`; then the views move on to the device buffer. -/
def setDeviceFromDisk (io : ℕ → Callbacks path) (progress : ℕ → ℕ) (deviceIndex : Int8)
    (tensorIds : List UInt32) (host device : Buffer) : Option (Loaded × Loaded) := do
  let (host, stream) ← readPipelined path index files io progress tensorIds 0 host ⟨device, []⟩
  let views ← setModuleMemoryFromDisk_Views index tensorIds
  let deviceViews ← setModuleCudaMemoryFromCPU index deviceIndex tensorIds
  return (⟨host, views⟩, ⟨stream.device, deviceViews⟩)

/-! ### Partition to host -/

/-- The image of a partition: `read` is repeated until all of the file is there. -/
def readPartition (fileId : UInt32) : Buffer := files (path.getIndexFileName fileId)

/-- `memcpy` to `host + start` from a position of the image. -/
def copyFromImage (image : Buffer) (offset : ℤ) (size start : ℕ) (host : Buffer) : Option Buffer :=
  if 0 < size ∧ offset < 0 then none
  else some (writeAt host start (readAt image offset.toNat size))

/-- The loop over the tensors of a node of the partition `currentFid`. -/
def copyTensors (io : ℕ → Callbacks path) (currentFid : UInt32) (buf : Buffer) :
    List UInt32 → ℕ → Buffer → Option Buffer
  | [], _, host => some host
  | tensorId :: tensorIds, paramOffset, host => do
    let m ← index.find tensorId
    let host ←
      if m.fileId = currentFid then copyFromImage buf m.offset.toInt m.size.toNat paramOffset host
      else readTensor path index files (io tensorIds.length) tensorId paramOffset host
    copyTensors io currentFid buf tensorIds (paramOffset + alignUp m.size.toNat) host

/-- What `InitializeTopology` does with a sparse node of the partition `currentFid`. -/
def preloadNode (io : ℕ → Callbacks path) (currentFid : UInt32) (tensorIds : List UInt32)
    (host : Buffer) :
    Option Loaded := do
  let host ← copyTensors path index files io currentFid (readPartition path files currentFid)
    tensorIds 0 host
  let views ← setModuleMemoryFromDisk_Views index tensorIds
  return ⟨host, views⟩

end Loading

/-! ### The layout -/

/-- How much room a tensor takes in a buffer. -/
def alignedSize (index : ArcherTensorIndex) (tensorId : UInt32) : ℕ :=
  ((index.find tensorId).map fun m => alignUp m.size.toNat).getD 0

/-- Where the `k`-th tensor is: behind the earlier ones. -/
def offsetOf (index : ArcherTensorIndex) (tensorIds : List UInt32) (k : ℕ) : ℕ :=
  ((tensorIds.take k).map (alignedSize index)).sum

/-- The bytes of a tensor on disk. -/
def storedBytes (path : OffloadPath) (files : Files) (m : TensorStorageMeta) : List UInt8 :=
  readAt (files (path.getIndexFileName m.fileId)) m.offset.toInt.toNat m.size.toNat

/-- All tensors are in the index, and those with bytes have a place in a file. -/
def Readable (index : ArcherTensorIndex) (tensorIds : List UInt32) : Prop :=
  ∀ tensorId ∈ tensorIds, ∃ m, index.find tensorId = some m ∧
    ¬ (0 < m.size.toNat ∧ m.offset.toInt < 0)

/-- Every tensor's bytes are at its offset, from `offset` on. -/
def Holds (path : OffloadPath) (index : ArcherTensorIndex) (files : Files) (tensorIds : List UInt32)
    (offset : ℕ) (host : Buffer) : Prop :=
  ∀ k tensorId m, tensorIds[k]? = some tensorId → index.find tensorId = some m →
    readAt host (offset + offsetOf index tensorIds k) m.size.toNat = storedBytes path files m

/-- The views are those of the tensors at their offsets. -/
def ViewsAt (index : ArcherTensorIndex) (f : TensorOptions → TensorOptions)
    (tensorIds : List UInt32) (views : List (UInt32 × View)) : Prop :=
  views.length = tensorIds.length ∧ ∀ k tensorId m, tensorIds[k]? = some tensorId →
    index.find tensorId = some m →
      views[k]? = some (tensorId, View.mk (offsetOf index tensorIds k) m.shape (f m.options))

section Layout

variable {path : OffloadPath} {index : ArcherTensorIndex} {files : Files} {tensorId : UInt32}
  {tensorIds : List UInt32} {m : TensorStorageMeta} {host buf : Buffer} {offset : ℕ}

theorem alignedSize_of_find (h : index.find tensorId = some m) :
    alignedSize index tensorId = alignUp m.size.toNat := by
  unfold alignedSize
  rw [h]
  rfl

@[simp] theorem offsetOf_zero (index : ArcherTensorIndex) (tensorIds : List UInt32) :
    offsetOf index tensorIds 0 = 0 := rfl

@[simp] theorem offsetOf_cons (index : ArcherTensorIndex) (tensorId : UInt32)
    (tensorIds : List UInt32) (k : ℕ) : offsetOf index (tensorId :: tensorIds) (k + 1) =
      alignedSize index tensorId + offsetOf index tensorIds k := by
  unfold offsetOf
  rw [List.take_succ_cons, List.map_cons, List.sum_cons]

/-- The last position of a tensor is within the total. -/
theorem offsetOf_add_le {k : ℕ} (hk : tensorIds[k]? = some tensorId) :
    offsetOf index tensorIds k + alignedSize index tensorId ≤
      offsetOf index tensorIds tensorIds.length := by
  induction tensorIds generalizing k with
  | nil => simp at hk
  | cons firstId tensorIds ih =>
    rw [List.length_cons, offsetOf_cons]
    cases k with
    | zero =>
      have hfirst : firstId = tensorId := by simpa using hk
      rw [offsetOf_zero, hfirst]
      omega
    | succ k =>
      have h := ih (by simpa using hk)
      rw [offsetOf_cons]
      omega

theorem readable_cons : Readable index (tensorId :: tensorIds) ↔
    (∃ m, index.find tensorId = some m ∧ ¬ (0 < m.size.toNat ∧ m.offset.toInt < 0)) ∧
      Readable index tensorIds := by
  unfold Readable
  rw [List.forall_mem_cons]

/-- The tensors of a filled tail, and a first one in front of them. -/
theorem Holds.cons (hm : index.find tensorId = some m)
    (hfirst : readAt buf offset m.size.toNat = storedBytes path files m)
    (hrest : Holds path index files tensorIds (offset + alignUp m.size.toNat) buf) :
    Holds path index files (tensorId :: tensorIds) offset buf := by
  intro k id m' hk hm'
  cases k with
  | zero =>
    have hid : tensorId = id := by simpa using hk
    rw [← hid, hm] at hm'
    rw [offsetOf_zero, Nat.add_zero, ← Option.some.inj hm']
    exact hfirst
  | succ k =>
    rw [offsetOf_cons, alignedSize_of_find hm, ← Nat.add_assoc]
    exact hrest k id m' (by simpa using hk) hm'

end Layout

/-! ### Tensor by tensor -/

section Placing

variable {path : OffloadPath} {index : ArcherTensorIndex} {files : Files} {tensorId : UInt32}
  {tensorIds : List UInt32} {m : TensorStorageMeta} {host buf : Buffer} {offset start : ℕ}
  {io : ℕ → Callbacks path}

/-- What a read does to the buffer does not depend on how its callbacks run. -/
theorem within_read (run : Callbacks path) (filename : String) (numBytes offset start : ℕ)
    (host : Buffer) :
    within host start (fun dst => (path.prioAioHandle.read filename numBytes offset
      (run.order numBytes) run.stale files dst).2) =
      writeAt host start (readAt (files filename) offset numBytes) := by
  funext p
  rw [writeAt_readAt]
  unfold within
  by_cases hp : start ≤ p
  · rw [if_pos hp]
    refine (read_apply (p - start)).trans ?_
    by_cases hin : p - start < numBytes
    · rw [if_pos hin, if_pos ⟨hp, by omega⟩]
    · rw [if_neg hin, if_neg fun h => by have := h.2; omega, Nat.add_sub_of_le hp]
  · rw [if_neg hp, if_neg fun h => hp h.1]

theorem readInto_eq (run : Callbacks path) (filename : String) (numBytes : ℕ) (place : ℤ) :
    readInto path files run filename numBytes place start host =
      copyFromImage (files filename) place numBytes start host := by
  unfold readInto copyFromImage
  rw [within_read]

theorem readTensor_eq (run : Callbacks path) (hm : index.find tensorId = some m) :
    readTensor path index files run tensorId start host =
      copyFromImage (files (path.getIndexFileName m.fileId)) m.offset.toInt m.size.toNat
        start host := by
  unfold readTensor
  rw [hm]
  exact readInto_eq run _ _ _

theorem readTensor_none (run : Callbacks path) (h : index.find tensorId = none) :
    readTensor path index files run tensorId start host = none := by
  unfold readTensor
  rw [h]
  rfl

/-- One round of the loop. -/
theorem readTensors_cons (hm : index.find tensorId = some m) :
    readTensors path index files io (tensorId :: tensorIds) start host =
      (copyFromImage (files (path.getIndexFileName m.fileId)) m.offset.toInt m.size.toNat
        start host).bind fun host =>
        readTensors path index files io tensorIds (start + alignUp m.size.toNat) host := by
  rw [readTensors, readTensor_eq _ hm, hm]
  rfl

/-- The loop over the image of a partition does what the loop of reads does. -/
theorem copyTensors_eq (currentFid : UInt32) :
    copyTensors path index files io currentFid (readPartition path files currentFid)
      tensorIds start host = readTensors path index files io tensorIds start host := by
  induction tensorIds generalizing start host with
  | nil => rfl
  | cons tensorId tensorIds ih =>
    cases hm : index.find tensorId with
    | none =>
      rw [copyTensors, readTensors, hm, readTensor_none _ hm]
      rfl
    | some m =>
      have hread : readTensor path index files (io tensorIds.length) tensorId start host = _ :=
        readTensor_eq (io tensorIds.length) hm
      rw [copyTensors, hm, readTensors_cons hm, ← hread]
      simp only [Option.bind_eq_bind, Option.bind_some, ih]
      split_ifs with hf
      · rw [hread, hf]
        rfl
      · rfl

/-- The copies to the GPU leave the host buffer alone. -/
theorem readPipelined_host (progress : ℕ → ℕ) (stream : Stream) :
    (readPipelined path index files io progress tensorIds start host stream).map Prod.fst =
      readTensors path index files io tensorIds start host := by
  induction tensorIds generalizing start host stream with
  | nil => rfl
  | cons tensorId tensorIds ih =>
    rw [readPipelined, readTensors]
    cases readTensor path index files (io tensorIds.length) tensorId start host with
    | none => rfl
    | some host =>
      cases index.find tensorId with
      | none => rfl
      | some m => exact ih _

theorem copyFromImage_eq_some
    (h : copyFromImage (files (path.getIndexFileName m.fileId)) m.offset.toInt m.size.toNat start
      host = some buf) :
    ¬ (0 < m.size.toNat ∧ m.offset.toInt < 0) ∧
    buf = writeAt host start (storedBytes path files m) := by
  unfold copyFromImage at h
  split_ifs at h with hneg
  exact ⟨hneg, (Option.some.inj h).symm⟩

/-- **The loop of reads**: if it gets through, every tensor is at its offset, and nothing before the
first one has changed. -/
theorem readTensors_eq_some (h : readTensors path index files io tensorIds start host = some buf) :
    Readable index tensorIds ∧ Holds path index files tensorIds start buf ∧
    ∀ p < start, buf p = host p := by
  induction tensorIds generalizing start host with
  | nil =>
    rw [readTensors, Option.some_inj] at h
    rw [h]
    exact ⟨fun _ hid => absurd hid List.not_mem_nil, fun k id m hk => by simp at hk, fun _ _ => rfl⟩
  | cons tensorId tensorIds ih =>
    cases hm : index.find tensorId with
    | none =>
      rw [readTensors, readTensor_none _ hm] at h
      exact absurd h.symm (Option.some_ne_none buf)
    | some m =>
      rw [readTensors_cons hm] at h
      obtain ⟨host', hhost', hrest⟩ := Option.bind_eq_some_iff.mp h
      obtain ⟨hneg, rfl⟩ := copyFromImage_eq_some hhost'
      obtain ⟨hreadable, hholds, hkeep⟩ := ih hrest
      have hle := le_alignUp m.size.toNat
      have hlen : (storedBytes path files m).length = m.size.toNat := length_readAt _ _ _
      refine ⟨readable_cons.mpr ⟨⟨m, hm, hneg⟩, hreadable⟩, hholds.cons hm ?_, fun p hp => ?_⟩
      · -- the later tensors start behind the room of this one
        have hsame : readAt buf start m.size.toNat =
            readAt (writeAt host start (storedBytes path files m)) start m.size.toNat :=
          readAt_congr fun k hk => hkeep _ (by omega)
        have hself := readAt_writeAt_self host start (storedBytes path files m)
        rw [hlen] at hself
        exact hsame.trans hself
      · rw [hkeep p (by omega)]
        exact writeAt_of_not_covers fun hc => by have := hc.1; omega

theorem readTensors_isSome (h : Readable index tensorIds) :
    (readTensors path index files io tensorIds start host).isSome := by
  induction tensorIds generalizing start host with
  | nil => rfl
  | cons tensorId tensorIds ih =>
    obtain ⟨⟨m, hm, hneg⟩, hrest⟩ := readable_cons.mp h
    rw [readTensors_cons hm]
    unfold copyFromImage
    rw [if_neg hneg]
    exact ih hrest

end Placing

/-! ### All at once -/

section Bulk

variable {path : OffloadPath} {index : ArcherTensorIndex} {files : Files} {tensorId fileId : UInt32}
  {tensorIds : List UInt32} {m : TensorStorageMeta} {host buf : Buffer} {expected : ℤ}
    {total total' : ℕ}
  {io : ℕ → Callbacks path}

/-- **No gap**: every tensor is in the file, and as far behind the first one as it is in the
buffer. -/
theorem contiguous_true
    (h : contiguous index fileId tensorIds expected total = some (true, total')) :
    total' = total + offsetOf index tensorIds tensorIds.length ∧
      ∀ k tensorId, tensorIds[k]? = some tensorId → ∃ m, index.find tensorId = some m ∧
        m.fileId = fileId ∧ m.offset.toInt = expected + offsetOf index tensorIds k := by
  induction tensorIds generalizing expected total with
  | nil =>
    simp only [contiguous, Option.some.injEq, Prod.mk.injEq, true_and] at h
    exact ⟨h.symm, fun k tensorId hk => by simp at hk⟩
  | cons tensorId tensorIds ih =>
    rw [contiguous] at h
    obtain ⟨m, hm, h⟩ := Option.bind_eq_some_iff.mp h
    simp only at h
    split_ifs at h with hgap
    · simp at h
    · obtain ⟨hfile, hoffset⟩ := not_or.mp hgap
      obtain ⟨htotal, hall⟩ := ih h
      have hsize := alignedSize_of_find hm
      refine ⟨?_, fun k id hk => ?_⟩
      · rw [List.length_cons, offsetOf_cons, hsize]
        omega
      · cases k with
        | zero =>
          have hid : tensorId = id := by simpa using hk
          refine ⟨m, hid ▸ hm, not_not.mp hfile, ?_⟩
          rw [offsetOf_zero]
          have := not_not.mp hoffset
          omega
        | succ k =>
          obtain ⟨m', hm', hf', ho'⟩ := hall k id (by simpa using hk)
          refine ⟨m', hm', hf', ?_⟩
          rw [offsetOf_cons, hsize]
          omega

/-- The loop ends, whatever it finds, if all tensors are in the index. -/
theorem contiguous_isSome (h : Readable index tensorIds) :
    (contiguous index fileId tensorIds expected total).isSome := by
  induction tensorIds generalizing expected total with
  | nil => rfl
  | cons tensorId tensorIds ih =>
    obtain ⟨⟨m, hm, -⟩, hrest⟩ := readable_cons.mp h
    rw [contiguous, hm]
    simp only [Option.bind_eq_bind, Option.bind_some]
    split_ifs
    · rfl
    · exact ih hrest

/-- Contiguous tensors with bytes are readable if the first of them is not before the start of the
file. -/
theorem readable_of_contiguous
    (h : contiguous index fileId tensorIds expected 0 = some (true, total)) (htotal : 0 < total) :
    Readable index tensorIds ↔ 0 ≤ expected := by
  obtain ⟨hsum, hall⟩ := contiguous_true h
  constructor
  · intro hreadable
    -- the first tensor with bytes is where the extent starts
    by_contra hneg
    have hzero : ∀ k ≤ tensorIds.length, offsetOf index tensorIds k = 0 := by
      intro k
      induction k with
      | zero => exact fun _ => rfl
      | succ k ih =>
        intro hk
        have hget : tensorIds[k]? = some tensorIds[k] := List.getElem?_eq_getElem hk
        obtain ⟨m, hm, -, hoffset⟩ := hall k _ hget
        obtain ⟨m', hm', hplace⟩ := hreadable _ (List.getElem_mem hk)
        rw [hm] at hm'
        obtain rfl := Option.some.inj hm'
        have hprev := ih (by omega)
        have hempty : m.size.toNat = 0 := by
          by_contra h0
          exact hplace ⟨by omega, by omega⟩
        have hsize : alignedSize index tensorIds[k] = 0 := by
          rw [alignedSize_of_find hm, hempty, alignUp_zero]
        unfold offsetOf at hprev ⊢
        rw [List.take_add_one, hget, Option.toList_some, List.map_append, List.sum_append,
          List.map_singleton, List.sum_singleton, hprev, hsize]
    have hlast := hzero tensorIds.length (Nat.le_refl _)
    omega
  · intro hpos tensorId hid
    obtain ⟨k, hk, hget⟩ := List.mem_iff_getElem.mp hid
    obtain ⟨m, hm, -, hoffset⟩ := hall k tensorId (by rw [List.getElem?_eq_getElem hk, hget])
    exact ⟨m, hm, fun hneg => by have := hneg.2; omega⟩

/-- One read of all contiguous tensors puts each of them where it belongs. -/
theorem holds_of_contiguous (h : contiguous index fileId tensorIds expected 0 = some (true, total))
    (hpos : 0 ≤ expected) : Holds path index files tensorIds 0
      (writeAt host 0 (readAt (files (path.getIndexFileName fileId)) expected.toNat total)) := by
  obtain ⟨hsum, hall⟩ := contiguous_true h
  intro k tensorId m hk hm
  obtain ⟨m', hm', hfile, hoffset⟩ := hall k tensorId hk
  rw [hm] at hm'
  obtain rfl := Option.some.inj hm'
  have hle : _ ≤ offsetOf index tensorIds tensorIds.length := offsetOf_add_le hk
  rw [alignedSize_of_find hm] at hle
  have hsize := le_alignUp m.size.toNat
  unfold storedBytes
  rw [hfile]
  refine List.map_congr_left fun j hj => ?_
  have hj := List.mem_range.mp hj
  rw [writeAt_readAt, if_pos ⟨by omega, by omega⟩]
  congr 1
  omega

end Bulk

/-! ### Views of the tensors -/

section Views

variable {index : ArcherTensorIndex} {f : TensorOptions → TensorOptions} {tensorId : UInt32}
  {tensorIds : List UInt32} {views : List (UInt32 × View)} {paramSize : ℕ}

/-- The loop over the views, from `paramSize` on. -/
theorem createViews_eq_some (h : createViews index f tensorIds paramSize = some views) :
    views.length = tensorIds.length ∧ ∀ k tensorId m, tensorIds[k]? = some tensorId →
      index.find tensorId = some m → views[k]? =
        some (tensorId,
          View.mk (paramSize + offsetOf index tensorIds k) m.shape (f m.options)) := by
  induction tensorIds generalizing paramSize views with
  | nil =>
    rw [createViews, Option.some_inj] at h
    rw [← h]
    exact ⟨rfl, fun k id m hk => by simp at hk⟩
  | cons tensorId tensorIds ih =>
    rw [createViews] at h
    obtain ⟨m, hm, h⟩ := Option.bind_eq_some_iff.mp h
    obtain ⟨later, hlater, h⟩ := Option.bind_eq_some_iff.mp h
    obtain ⟨hlen, hall⟩ := ih hlater
    obtain rfl := Option.some.inj h
    refine ⟨congrArg (· + 1) hlen, fun k id m' hk hm' => ?_⟩
    cases k with
    | zero =>
      have hid : tensorId = id := by simpa using hk
      subst hid
      rw [hm] at hm'
      rw [← Option.some.inj hm']
      rfl
    | succ k =>
      rw [offsetOf_cons, alignedSize_of_find hm, ← Nat.add_assoc]
      exact hall k id m' (by simpa using hk) hm'

theorem createViews_isSome (h : Readable index tensorIds) :
    (createViews index f tensorIds paramSize).isSome := by
  induction tensorIds generalizing paramSize with
  | nil => rfl
  | cons tensorId tensorIds ih =>
    obtain ⟨⟨m, hm, -⟩, hrest⟩ := readable_cons.mp h
    have hsome : (createViews index f tensorIds (paramSize + alignUp m.size.toNat)).isSome :=
      ih hrest
    obtain ⟨later, hlater⟩ := Option.isSome_iff_exists.mp hsome
    rw [createViews, hm]
    simp only [Option.bind_eq_bind, Option.bind_some, hlater]
    rfl

end Views

/-! ### The copies to the GPU -/

section Device

variable {path : OffloadPath} {index : ArcherTensorIndex} {files : Files} {tensorIds : List UInt32}
  {host host' : Buffer} {offset start size n : ℕ} {stream stream' : Stream}
    {io : ℕ → Callbacks path}
  {progress : ℕ → ℕ}

/-- Below `offset` the device buffer has what the host buffer has, or will get it from a copy under
way. -/
structure Follows (host : Buffer) (offset : ℕ) (s : Stream) : Prop where
  inside : ∀ c ∈ s.pending, c.1 + c.2 ≤ offset
  copied : ∀ p < offset, s.device p = host p ∨ ∃ c ∈ s.pending, Covers c.1 c.2 p

theorem advance_device (host : Buffer) (n p : ℕ) (s : Stream) :
    (s.advance host n).device p = host p ∨
      (s.advance host n).device p = s.device p ∧ ∀ c ∈ s.pending.take n, ¬ Covers c.1 c.2 p := by
  have hfold : (s.advance host n).device =
      writeAll s.device ((s.pending.take n).map fun c => (c.1, readAt host c.1 c.2)) := by
    unfold Stream.advance writeAll
    rw [List.foldl_map]
  rw [hfold]
  by_cases hcov : ∃ c ∈ s.pending.take n, Covers c.1 c.2 p
  · obtain ⟨c, hc, hcp⟩ := hcov
    refine Or.inl (writeAll_of_agree (fun q hq hqp => ?_) ⟨_, List.mem_map_of_mem hc, ?_⟩)
    · obtain ⟨d, -, rfl⟩ := List.mem_map.mp hq
      rw [length_readAt] at hqp
      have h1 := hqp.1
      have h2 := hqp.2
      rw [getElem?_readAt (by omega)]
      congr 2
      omega
    · rw [length_readAt]
      exact hcp
  · refine Or.inr ⟨writeAll_of_not_covers fun q hq hqp => hcov ?_,
      fun c hc hcp => hcov ⟨c, hc, hcp⟩⟩
    obtain ⟨c, hc, rfl⟩ := List.mem_map.mp hq
    rw [length_readAt] at hqp
    exact ⟨c, hc, hqp⟩

theorem Follows.advance (h : Follows host offset stream) (n : ℕ) :
    Follows host offset (stream.advance host n) where
  inside := fun c hc => h.inside c (List.mem_of_mem_drop hc)
  copied := fun p hp => by
    rcases advance_device host n p stream with heq | ⟨heq, hdone⟩
    · exact Or.inl heq
    · rw [heq]
      refine (h.copied p hp).imp_right fun ⟨c, hc, hcp⟩ => ⟨c, ?_, hcp⟩
      rw [← List.take_append_drop n stream.pending, List.mem_append] at hc
      exact hc.resolve_left fun h0 => hdone c h0 hcp

theorem Follows.memcpyAsync (h : Follows host offset stream) (size : ℕ) :
    Follows host (offset + size) (stream.memcpyAsync offset size) where
  inside := fun c hc => by
    rcases List.mem_append.mp hc with hc | hc
    · have := h.inside c hc
      omega
    · rw [List.mem_singleton.mp hc]
  copied := fun p hp => by
    by_cases hlt : p < offset
    · exact (h.copied p hlt).imp_right fun ⟨c, hc, hcp⟩ => ⟨c, List.mem_append_left _ hc, hcp⟩
    · exact Or.inr ⟨(offset, size), List.mem_append_right _ (List.mem_singleton_self _),
        by omega, by omega⟩

theorem Follows.congr (h : Follows host offset stream) (heq : ∀ p < offset, host' p = host p) :
    Follows host' offset stream :=
  ⟨h.inside, fun p hp => by rw [heq p hp]; exact h.copied p hp⟩

/-- The pipelined loop leaves the same bytes in both buffers. -/
theorem readPipelined_device
    (h : readPipelined path index files io progress tensorIds start host stream =
      some (host', stream'))
    (hf : Follows host start stream) :
    ∀ p < start + offsetOf index tensorIds tensorIds.length, stream'.device p = host' p := by
  induction tensorIds generalizing start host stream with
  | nil =>
    simp only [readPipelined, Option.some.injEq, Prod.mk.injEq] at h
    obtain ⟨rfl, rfl⟩ := h
    intro p hp
    refine ((hf.advance stream.pending.length).copied p hp).resolve_right ?_
    rintro ⟨c, hc, -⟩
    simp [Stream.advance] at hc
  | cons tensorId tensorIds ih =>
    rw [readPipelined] at h
    obtain ⟨filled, hfilled, h⟩ := Option.bind_eq_some_iff.mp h
    obtain ⟨m, hm, h⟩ := Option.bind_eq_some_iff.mp h
    rw [readTensor_eq _ hm] at hfilled
    obtain ⟨-, rfl⟩ := copyFromImage_eq_some hfilled
    have hkeep : Follows (writeAt host start (storedBytes path files m)) start stream := hf.congr
        fun p hp =>
      writeAt_of_not_covers fun hc => by have := hc.1; omega
    have hnext := ih h ((hkeep.memcpyAsync _).advance _)
    rw [List.length_cons, offsetOf_cons, alignedSize_of_find hm, ← Nat.add_assoc]
    exact hnext

end Device

/-! ### The three ways -/

/-- How a node's host buffer is filled. -/
inductive Way (path : OffloadPath) where
  | pipelined (io : ℕ → Callbacks path) (progress : ℕ → ℕ) (deviceIndex : Int8) (device : Buffer)
  | sequential (io : ℕ → Callbacks path)
  | preloaded (io : ℕ → Callbacks path) (currentFid : UInt32)

def Way.load {path : OffloadPath} (index : ArcherTensorIndex) (files : Files)
    (tensorIds : List UInt32) (host : Buffer) : Way path → Option Loaded
  | .pipelined io progress deviceIndex device =>
    (setDeviceFromDisk path index files io progress deviceIndex tensorIds host device).map Prod.fst
  | .sequential io => setModuleMemoryFromDisk path index files io tensorIds host
  | .preloaded io currentFid => preloadNode path index files io currentFid tensorIds host

section Ways

variable {path : OffloadPath} {index : ArcherTensorIndex} {files : Files} {tensorIds : List UInt32}
  {host buf : Buffer} {io : ℕ → Callbacks path}

/-- What all ways have in common: a buffer that is filled exactly if the tensors are readable. -/
structure Fills (path : OffloadPath) (index : ArcherTensorIndex) (files : Files)
    (tensorIds : List UInt32) (filled : Option Buffer) : Prop where
  isSome_iff : filled.isSome ↔ Readable index tensorIds
  holds : ∀ buf, filled = some buf → Holds path index files tensorIds 0 buf

theorem fills_readTensors :
    Fills path index files tensorIds (readTensors path index files io tensorIds 0 host) where
  isSome_iff := ⟨fun h => by
    obtain ⟨buf, hbuf⟩ := Option.isSome_iff_exists.mp h
    exact (readTensors_eq_some hbuf).1, readTensors_isSome⟩
  holds := fun _ h => (readTensors_eq_some h).2.1

/-- Whether there is a gap or not, the buffer is filled in the same way. -/
theorem fills_readModule :
    Fills path index files tensorIds (readModule path index files io tensorIds host) := by
  cases htensors : tensorIds with
  | nil =>
    show Fills path index files [] (readTensors path index files io [] 0 host)
    exact fills_readTensors
  | cons firstId later =>
    unfold readModule
    simp only
    rw [← htensors]
    have hfirst : firstId ∈ tensorIds := by
      rw [htensors]
      exact List.mem_cons_self
    cases hm : index.find firstId with
    | none =>
      refine ⟨⟨fun h => by simp at h, fun h => ?_⟩, fun buf h => by simp at h⟩
      obtain ⟨m, hm', -⟩ := h firstId hfirst
      rw [hm] at hm'
      simp at hm'
    | some first =>
      simp only [Option.bind_eq_bind, Option.bind_some]
      cases hscan : contiguous index first.fileId tensorIds first.offset.toInt 0 with
      | none =>
        refine ⟨⟨fun h => by simp at h, fun h => ?_⟩, fun buf h => by simp at h⟩
        have hsome : (contiguous index first.fileId tensorIds first.offset.toInt 0).isSome :=
          contiguous_isSome h
        rw [hscan] at hsome
        simp at hsome
      | some scan =>
        obtain ⟨whole, total⟩ := scan
        simp only [Option.bind_some]
        split_ifs with hbulk
        · obtain ⟨rfl, htotal⟩ := hbulk
          rw [readInto_eq]
          unfold copyFromImage
          have hiff := readable_of_contiguous hscan htotal
          split_ifs with hneg
          · exact ⟨⟨fun h => by simp at h, fun h => absurd (hiff.mp h) (by omega)⟩,
              fun buf h => by simp at h⟩
          · have hpos : 0 ≤ first.offset.toInt := by omega
            refine ⟨⟨fun _ => hiff.mpr hpos, fun _ => rfl⟩, fun buf h => ?_⟩
            rw [← Option.some.inj h]
            exact holds_of_contiguous hscan hpos
        · exact fills_readTensors

/-- A filled buffer and the views over it. -/
def withViews (index : ArcherTensorIndex) (tensorIds : List UInt32) (filled : Option Buffer) :
    Option Loaded :=
  filled.bind fun host => (createViews index hostOptions tensorIds 0).map fun views => ⟨host, views⟩

theorem withViews_eq_some {filled : Option Buffer} {loaded : Loaded}
    (h : withViews index tensorIds filled = some loaded) :
    filled = some loaded.host ∧ createViews index hostOptions tensorIds 0 = some loaded.views := by
  obtain ⟨host, hhost, h⟩ := Option.bind_eq_some_iff.mp h
  obtain ⟨views, hviews, rfl⟩ := Option.map_eq_some_iff.mp h
  exact ⟨hhost, hviews⟩

theorem Fills.load {filled : Option Buffer} (h : Fills path index files tensorIds filled) :
    ((withViews index tensorIds filled).isSome ↔ Readable index tensorIds) ∧
      ∀ loaded, withViews index tensorIds filled = some loaded →
        Holds path index files tensorIds 0 loaded.host ∧
          ViewsAt index hostOptions tensorIds loaded.views := by
  refine ⟨⟨fun hsome => ?_, fun hreadable => ?_⟩, fun loaded hloaded => ?_⟩
  · obtain ⟨loaded, hloaded⟩ := Option.isSome_iff_exists.mp hsome
    exact h.isSome_iff.mp (Option.isSome_iff_exists.mpr ⟨_, (withViews_eq_some hloaded).1⟩)
  · obtain ⟨host, hhost⟩ := Option.isSome_iff_exists.mp (h.isSome_iff.mpr hreadable)
    unfold withViews
    rw [hhost, Option.bind_some, Option.isSome_map]
    exact createViews_isSome hreadable
  · obtain ⟨hhost, hviews⟩ := withViews_eq_some hloaded
    obtain ⟨hlen, hall⟩ := createViews_eq_some hviews
    refine ⟨h.holds _ hhost, hlen, fun k tensorId m hk hm => ?_⟩
    rw [hall k tensorId m hk hm, Nat.zero_add]

/-- The views on the GPU are created whenever those on the host are. -/
theorem load_pipelined (progress : ℕ → ℕ) (deviceIndex : Int8) (device : Buffer) :
    (Way.pipelined io progress deviceIndex device).load index files tensorIds host =
      withViews index tensorIds (readTensors path index files io tensorIds 0 host) := by
  show (setDeviceFromDisk path index files io progress deviceIndex tensorIds host device).map
    Prod.fst = _
  unfold setDeviceFromDisk withViews
  rw [← readPipelined_host progress ⟨device, []⟩]
  cases hread : readPipelined path index files io progress tensorIds 0 host ⟨device, []⟩ with
  | none => rfl
  | some filled =>
    have htensors : readTensors path index files io tensorIds 0 host = some filled.1 := by
      rw [← readPipelined_host progress ⟨device, []⟩, hread]
      rfl
    have hsome : (createViews index (cudaOptions deviceIndex) tensorIds 0).isSome :=
      createViews_isSome (readTensors_eq_some htensors).1
    obtain ⟨deviceViews, hdevice⟩ := Option.isSome_iff_exists.mp hsome
    unfold setModuleCudaMemoryFromCPU setModuleMemoryFromDisk_Views
    simp only [Option.bind_eq_bind, Option.bind_some, hdevice]
    cases createViews index hostOptions tensorIds 0 with
    | none => rfl
    | some views => rfl

theorem load_sequential : (Way.sequential io).load index files tensorIds host =
    withViews index tensorIds (readModule path index files io tensorIds host) := by
  unfold Way.load setModuleMemoryFromDisk withViews
  cases createViews index hostOptions tensorIds 0 <;> rfl

theorem load_preloaded (currentFid : UInt32) :
    (Way.preloaded io currentFid).load index files tensorIds host =
    withViews index tensorIds (readTensors path index files io tensorIds 0 host) := by
  rw [← copyTensors_eq currentFid]
  unfold Way.load preloadNode setModuleMemoryFromDisk_Views withViews
  cases createViews index hostOptions tensorIds 0 <;> rfl

/-- **The buffer on the GPU**: however far the copies get while the next tensors are read, in the
end it holds every tensor at its offset, and the views that move there are at these offsets. -/
theorem setDeviceFromDisk_device {progress : ℕ → ℕ} {deviceIndex : Int8} {device : Buffer}
    {onHost onDevice : Loaded}
    (h : setDeviceFromDisk path index files io progress deviceIndex tensorIds host device =
      some (onHost, onDevice)) :
    Holds path index files tensorIds 0 onDevice.host ∧
      ViewsAt index (cudaOptions deviceIndex) tensorIds onDevice.views := by
  obtain ⟨⟨filled, stream⟩, hread, h⟩ := Option.bind_eq_some_iff.mp h
  obtain ⟨views, -, h⟩ := Option.bind_eq_some_iff.mp h
  obtain ⟨deviceViews, hdevice, h⟩ := Option.bind_eq_some_iff.mp h
  cases Option.some.inj h
  have hhost : readTensors path index files io tensorIds 0 host = some filled := by
    rw [← readPipelined_host progress ⟨device, []⟩, hread]
    rfl
  have hsame :=
    readPipelined_device hread
      ⟨fun c hc => absurd hc List.not_mem_nil, fun p hp => absurd hp (Nat.not_lt_zero p)⟩
  obtain ⟨hlen, hall⟩ := createViews_eq_some hdevice
  constructor
  · intro k tensorId m hk hm
    rw [← (readTensors_eq_some hhost).2.1 k tensorId m hk hm]
    -- the bytes of a tensor lie within its aligned size
    refine readAt_congr fun p hp => hsame _ ?_
    have hroom : offsetOf index tensorIds k + alignedSize index tensorId ≤
        offsetOf index tensorIds tensorIds.length := offsetOf_add_le hk
    rw [alignedSize_of_find hm] at hroom
    have hsize := le_alignUp m.size.toNat
    omega
  · refine ⟨hlen, fun k tensorId m hk hm => ?_⟩
    rw [hall k tensorId m hk hm, Nat.zero_add]

/-- **The three ways agree**: each fills the buffer exactly if the tensors are readable, and then
the bytes of every tensor are at the sum of the aligned sizes of the earlier ones, and so is its
view. -/
theorem load_spec (way : Way path) (index : ArcherTensorIndex) (files : Files)
    (tensorIds : List UInt32) (host : Buffer) :
    ((way.load index files tensorIds host).isSome ↔ Readable index tensorIds) ∧
      ∀ loaded, way.load index files tensorIds host = some loaded →
        Holds path index files tensorIds 0 loaded.host ∧
          ViewsAt index hostOptions tensorIds loaded.views := by
  cases way with
  | pipelined io progress deviceIndex device =>
    rw [load_pipelined]
    exact fills_readTensors.load
  | sequential io =>
    rw [load_sequential]
    exact fills_readModule.load
  | preloaded io currentFid =>
    rw [load_preloaded]
    exact fills_readTensors.load

end Ways

end MoeInfinity.Core.NodeBuffer
