import Mathlib.Data.Nat.Basic
import MoeInfinity.Core.AioHandle
import MoeInfinity.Core.TensorIndex
import MoeInfinity.Lib.Runs

/-! # Storing a checkpoint (`core/aio/archer_tensor_handle.cpp`, `runtime/model_offload.py`)

`StoreTensor` appends the bytes of a tensor at the handle's cursor and enters their place in the
index, which `OffloadTensor` then writes to disk. A conversion (`_offload_state_dict`, over all
state dicts) gives the tensors the ids 0, 1, … and offloads those that are not in the index. After
an interruption a new handle reads the index back, and the conversion starts again with the first
tensor; but the cursor of a new handle is at the start of the first partition, whatever the index
says.

Sizes are below `2 ^ 63` bytes (`nbytes` of a tensor is counted in 64 bits), and the sums that the
cursor makes of them are taken not to overflow. -/

namespace MoeInfinity.Core.TensorHandle

open MoeInfinity.Lib.Extents MoeInfinity.Lib.ByteStream MoeInfinity.Lib.Runs
open MoeInfinity.Core.AioHandle MoeInfinity.Core.TensorIndex

/-! ### Tensors and handles -/

/-- A tensor on the host. -/
structure Tensor where
  bytes : List UInt8
  shape : List Int64
  options : TensorOptions
  bytes_lt : bytes.length < 2 ^ 63
  shape_lt : shape.length < 2 ^ 63

def Tensor.nbytes (t : Tensor) : ℕ := t.bytes.length

/-- The memory from `data_ptr` on. -/
def Tensor.data (t : Tensor) : ℕ → UInt8 := fun k => (t.bytes[k]?).getD 0

def kPartitionSize : ℕ := 10 * 1024 * 1024 * 1024

/-- Where the files of an offload path are, and how they are accessed. -/
structure OffloadPath where
  pathPrefix : String
  prioAioHandle : ArcherPrioAioHandle

def OffloadPath.getIndexFileName (path : OffloadPath) (fileId : UInt32) : String :=
  path.pathPrefix ++ "archer_param" ++ "_" ++ toString fileId.toNat

/-- How the callbacks of a write happen to run. -/
structure Callbacks (path : OffloadPath) where
  order : ∀ n, Order (numIocbs path.prioAioHandle.blockSize n)
  stale : ℕ → ℕ → UInt8

/-- The append cursor of an `ArcherTensorHandle`. -/
structure Cursor where
  fileId : UInt32
  fileOffset : ℕ
deriving DecidableEq, Repr

def Cursor.start : Cursor := ⟨0, 0⟩

/-- Where a new tensor goes: a partition that it would exceed is left. -/
def Cursor.place (c : Cursor) (numBytesAligned : ℕ) : Cursor :=
  if kPartitionSize < c.fileOffset + numBytesAligned then ⟨c.fileId + 1, 0⟩ else c

/-- The record of a tensor that is stored at `place`. -/
def recordAt (place : Cursor) (tensorId : UInt32) (buffer : Tensor) : TensorStorageMeta where
  fileId := place.fileId
  offset := Int64.ofNat place.fileOffset
  size := UInt64.ofNat buffer.nbytes
  shape := buffer.shape
  options := buffer.options
  id := tensorId

/-- A process with its index and its handle, and the files that outlive it. -/
structure Store where
  tensorIndex : ArcherTensorIndex
  cursor : Cursor
  files : Files
  indexFile : Option (List UInt8)

namespace Store

variable (path : OffloadPath)

/-- `prio_aio_handle_.Write` of a tensor to its place. -/
def writeTensor (io : Callbacks path) (buffer : Tensor) (m : TensorStorageMeta)
    (files : Files) : Files :=
  (path.prioAioHandle.write (path.getIndexFileName m.fileId) buffer.data m.size.toNat
    m.offset.toInt.toNat (io.order m.size.toNat) io.stale files).2

/-- `none` is the abort of a size that differs from the one in the index. -/
def storeTensor (io : Callbacks path) (tensorId : UInt32) (buffer : Tensor) (s : Store) :
    Option Store :=
  match s.tensorIndex.find tensorId with
  | some m =>
    if m.size ≠ UInt64.ofNat buffer.nbytes then none
    else some { s with files := writeTensor path io buffer m s.files }
  | none =>
    let place := s.cursor.place (alignUp buffer.nbytes)
    let m := recordAt place tensorId buffer
    some { s with
      tensorIndex := s.tensorIndex.insert tensorId m
      cursor := ⟨place.fileId, place.fileOffset + alignUp buffer.nbytes⟩
      files := writeTensor path io buffer m s.files }

def offloadTensor (io : Callbacks path) (tensorId : UInt32) (buffer : Tensor) (s : Store) :
    Option Store :=
  (storeTensor path io tensorId buffer s).map fun s =>
    { s with indexFile := some s.tensorIndex.serialize }

/-- `IsTensorOffloaded`; the id is set in the record that is found. -/
def isTensorOffloaded (tensorId : UInt32) (s : Store) : Bool × Store :=
  ((s.tensorIndex.find tensorId).isSome, { s with
    tensorIndex := s.tensorIndex.relabel fun key m => if key = tensorId then tensorId else m.id })

/-- A new process: the handle starts with the index of the disk, if there is one. The record into
which `Deserialize` reads is `blank`. -/
def reopen (blank : TensorStorageMeta) (s : Store) : Store := { s with
  tensorIndex :=
    match s.indexFile with
    | none => .empty
    | some bytes => (((ArcherTensorIndex.deserialize blank).run bytes).map Prod.fst).getD .empty
  cursor := .start }

end Store

/-! ### Conversions -/

/-- The state dicts of a checkpoint. Ids are 32-bit words, and so is the number of entries in the
index file. -/
structure Checkpoint where
  stateDicts : List (List (String × Tensor))
  count_lt : stateDicts.flatten.length < 2 ^ 32

/-- The tensors in the order in which `_offload_state_dict` gets them. -/
def Checkpoint.params (ckpt : Checkpoint) : List Tensor := ckpt.stateDicts.flatten.map Prod.snd

/-- A conversion under way; `paramId` is the next id. -/
structure Conversion extends Store where
  paramId : ℕ

/-- What happens next: the next tensor, or an interruption and a restart. -/
inductive Op (path : OffloadPath) where
  | next (io : Callbacks path)
  | restart (blank : TensorStorageMeta)

variable {path : OffloadPath}

/-- One iteration of the loop of `_offload_state_dict`, or a restart. -/
def Conversion.runOp (ckpt : Checkpoint) (s : Conversion) : Op path → Conversion
  | .next io =>
    match ckpt.params[s.paramId]? with
    | none => s
    | some buffer =>
      let tensorId := UInt32.ofNat s.paramId
      let checked := s.toStore.isTensorOffloaded tensorId
      if checked.1 then ⟨checked.2, s.paramId + 1⟩
      else
        match checked.2.offloadTensor path io tensorId buffer with
        | none => s
        | some store => ⟨store, s.paramId + 1⟩
  | .restart blank => ⟨s.toStore.reopen blank, 0⟩

/-- An offload path without an index; the files may hold anything. -/
def Conversion.start (files : Files) : Conversion :=
  ⟨⟨.empty, .start, files, none⟩, 0⟩

/-! ### The property and the condition -/

/-- The extents of two tensors have no common position. -/
def Apart (m m' : TensorStorageMeta) : Prop :=
  m.fileId = m'.fileId → ∀ p, Covers m.offset.toInt.toNat (alignUp m.size.toNat) p →
    ¬ Covers m'.offset.toInt.toNat (alignUp m'.size.toNat) p

/-- The extents are disjoint, and when the conversion is through, every tensor of the checkpoint is
in the index with its bytes where the index says. -/
structure Intact (path : OffloadPath) (ckpt : Checkpoint) (s : Conversion) : Prop where
  apart : ∀ key m key' m', s.tensorIndex.find key = some m → s.tensorIndex.find key' = some m' →
    key ≠ key' → Apart m m'
  stored : ckpt.params.length ≤ s.paramId → ∀ k buffer, ckpt.params[k]? = some buffer →
    ∃ m, s.tensorIndex.find (UInt32.ofNat k) = some m ∧ m.size.toNat = buffer.nbytes ∧
      readAt (s.files (path.getIndexFileName m.fileId)) m.offset.toInt.toNat m.size.toNat =
        buffer.bytes

/-- A new tensor with bytes goes to the start of a partition only if the index has no bytes in
it. -/
def StartsFresh (ckpt : Checkpoint) (s : Conversion) : Op path → Prop
  | .next _ =>
    ∀ buffer ∈ ckpt.params[s.paramId]?, s.tensorIndex.find (UInt32.ofNat s.paramId) = none →
      0 < buffer.nbytes → (s.cursor.place (alignUp buffer.nbytes)).fileOffset = 0 →
      ∀ e ∈ s.tensorIndex.entries, e.2.fileId = (s.cursor.place (alignUp buffer.nbytes)).fileId →
        e.2.size = 0
  | .restart _ => True

instance (ckpt : Checkpoint) (s : Conversion) : ∀ op : Op path, Decidable (StartsFresh ckpt s op)
  | .next _ => inferInstanceAs (Decidable (∀ buffer ∈ ckpt.params[s.paramId]?, _))
  | .restart _ => isTrue trivial

/-! ### Files and places -/

section Places

/-- Partitions lie in different files. -/
theorem getIndexFileName_injective {fileId fileId' : UInt32}
    (h : path.getIndexFileName fileId = path.getIndexFileName fileId') : fileId = fileId' := by
  have hchars := congrArg String.toList h
  simp only [OffloadPath.getIndexFileName, String.toList_append, List.append_cancel_left_eq]
    at hchars
  have hdigits : Nat.toDigits 10 fileId.toNat = Nat.toDigits 10 fileId'.toNat := by
    simpa only [Nat.toString_eq_repr, Nat.toList_repr] using hchars
  refine UInt32.toNat_inj.mp ?_
  rw [← Nat.ofDigitChars_ten_toDigits (n := fileId.toNat), hdigits, Nat.ofDigitChars_ten_toDigits]

theorem alignUp_zero : alignUp 0 = 0 := by decide

theorem Apart.symm {m m' : TensorStorageMeta} (h : Apart m m') : Apart m' m :=
  fun hf p hp hp' => h hf.symm p hp' hp

/-- A tensor without bytes has an empty extent. -/
theorem apart_of_size_eq_zero {m m' : TensorStorageMeta} (h : m.size.toNat = 0) : Apart m m' := by
  intro _ p hp
  rw [h, alignUp_zero] at hp
  have h1 := hp.1
  have h2 := hp.2
  omega

theorem Cursor.place_cases (c : Cursor) (numBytesAligned : ℕ) :
    (c.place numBytesAligned = c ∧ c.fileOffset + numBytesAligned ≤ kPartitionSize) ∨
      c.place numBytesAligned = ⟨c.fileId + 1, 0⟩ := by
  unfold Cursor.place
  split_ifs with h
  · exact Or.inr rfl
  · exact Or.inl ⟨rfl, by omega⟩

theorem Cursor.place_le (c : Cursor) (numBytesAligned : ℕ) :
    (c.place numBytesAligned).fileOffset ≤ kPartitionSize := by
  rcases c.place_cases numBytesAligned with ⟨h, hle⟩ | h
  · rw [h]
    omega
  · rw [h]
    exact Nat.zero_le _

theorem recordAt_offset (c : Cursor) (numBytesAligned : ℕ) (tensorId : UInt32) (buffer : Tensor) :
    (recordAt (c.place numBytesAligned) tensorId buffer).offset.toInt.toNat =
      (c.place numBytesAligned).fileOffset := by
  have hle := c.place_le numBytesAligned
  unfold kPartitionSize at hle
  show (Int64.ofNat (c.place numBytesAligned).fileOffset).toInt.toNat = _
  rw [Int64.toInt_ofNat_of_lt (by omega), Int.toNat_natCast]

theorem recordAt_size (c : Cursor) (tensorId : UInt32) (buffer : Tensor) :
    (recordAt c tensorId buffer).size.toNat = buffer.nbytes := by
  have hlt := buffer.bytes_lt
  refine UInt64.toNat_ofNat_of_lt' ?_
  show buffer.bytes.length < 2 ^ 64
  omega

variable {io : Callbacks path} {buffer : Tensor} {m m' : TensorStorageMeta} {files : Files}

/-- A tensor is read back from where it was written. -/
theorem readAt_writeTensor (h : m.size.toNat = buffer.nbytes) :
    readAt (Store.writeTensor path io buffer m files (path.getIndexFileName m.fileId))
      m.offset.toInt.toNat m.size.toNat = buffer.bytes := by
  have hle := le_alignUp m.size.toNat
  refine List.ext_getElem? fun k => ?_
  by_cases hk : k < m.size.toNat
  · rw [getElem?_readAt hk]
    unfold Store.writeTensor
    have hlen : k < buffer.bytes.length := by
      rw [h] at hk
      exact hk
    rw [write_apply, if_pos ⟨by omega, by omega⟩, Nat.add_sub_cancel_left, if_pos hk]
    unfold Tensor.data
    rw [List.getElem?_eq_getElem hlen, Option.getD_some]
  · have hlen : ¬ k < buffer.bytes.length := by
      rw [h] at hk
      exact hk
    rw [List.getElem?_eq_none (by simpa using hk), List.getElem?_eq_none (by simpa using hlen)]

/-- A write does not change the bytes of a tensor whose extent is apart. -/
theorem readAt_writeTensor_of_apart (h : Apart m m') :
    readAt (Store.writeTensor path io buffer m files (path.getIndexFileName m'.fileId))
        m'.offset.toInt.toNat m'.size.toNat =
      readAt (files (path.getIndexFileName m'.fileId)) m'.offset.toInt.toNat m'.size.toNat := by
  have hle := le_alignUp m'.size.toNat
  unfold Store.writeTensor
  by_cases hf : m.fileId = m'.fileId
  · refine readAt_congr fun k hk => ?_
    rw [← hf, write_apply, if_neg fun hc => h hf _ hc ⟨by omega, by omega⟩]
  · refine congrArg (fun f => readAt f m'.offset.toInt.toNat m'.size.toNat) ?_
    exact Function.update_of_ne (fun h0 => hf (getIndexFileName_injective h0).symm) _ _

end Places

/-! ### The invariant -/

/-- A record tells where the bytes of the tensor with this id are. -/
def Placed (path : OffloadPath) (ckpt : Checkpoint) (files : Files) (key : UInt32)
    (m : TensorStorageMeta) :
    Prop :=
  ∃ buffer, ckpt.params[key.toNat]? = some buffer ∧ m.size.toNat = buffer.nbytes ∧
    m.shape.length < 2 ^ 63 ∧
    readAt (files (path.getIndexFileName m.fileId)) m.offset.toInt.toNat m.size.toNat = buffer.bytes

/-- The tensors below `stored` are in the index, and the cursor is behind them in its partition, if
it is not at its start. -/
structure Inv (path : OffloadPath) (ckpt : Checkpoint) (stored : ℕ) (s : Conversion) : Prop where
  size : s.tensorIndex.size = stored
  keys : ∀ key, s.tensorIndex.find key = none ↔ stored ≤ key.toNat
  stored_le : stored ≤ ckpt.params.length
  paramId_le : s.paramId ≤ stored
  indexFile : (s.indexFile = none ∧ stored = 0) ∨ s.indexFile = some s.tensorIndex.serialize
  placed : ∀ key m, s.tensorIndex.find key = some m → Placed path ckpt s.files key m
  apart : ∀ key m key' m', s.tensorIndex.find key = some m → s.tensorIndex.find key' = some m' →
    key ≠ key' → Apart m m'
  behind : 0 < s.cursor.fileOffset → ∀ key m, s.tensorIndex.find key = some m →
    m.fileId = s.cursor.fileId → 0 < m.size.toNat →
    m.offset.toInt.toNat + alignUp m.size.toNat ≤ s.cursor.fileOffset

section Inv

variable {ckpt : Checkpoint} {stored : ℕ} {s : Conversion}

theorem length_params (ckpt : Checkpoint) : ckpt.params.length < 2 ^ 32 := by
  unfold Checkpoint.params
  rw [List.length_map]
  exact ckpt.count_lt

/-- The id of a parameter does not wrap. -/
theorem toNat_id {k : ℕ} {buffer : Tensor} (h : ckpt.params[k]? = some buffer) :
    (UInt32.ofNat k).toNat = k := by
  have hlt : k < ckpt.params.length := (List.getElem?_eq_some_iff.mp h).1
  have hcount := length_params ckpt
  refine UInt32.toNat_ofNat_of_lt' ?_
  show k < 2 ^ 32
  omega

theorem inv_start (files : Files) : Inv path ckpt 0 (Conversion.start files) where
  size := rfl
  keys := fun key => ⟨fun _ => Nat.zero_le _, fun _ => rfl⟩
  stored_le := Nat.zero_le _
  paramId_le := Nat.le_refl 0
  indexFile := Or.inl ⟨rfl, rfl⟩
  placed := fun key m h => by cases h
  apart := fun key m key' m' h => by cases h
  behind := fun h => absurd h (Nat.lt_irrefl 0)

/-- New ids, and perhaps a new handle. -/
theorem Inv.relabel (h : Inv path ckpt stored s) (f : UInt32 → TensorStorageMeta → UInt32)
    {c : Cursor} (hc : c = s.cursor ∨ c = .start) {paramId : ℕ} (hp : paramId ≤ stored) :
    Inv path ckpt stored ⟨⟨s.tensorIndex.relabel f, c, s.files, s.indexFile⟩, paramId⟩ := by
  have hfind : ∀ key m', (s.tensorIndex.relabel f).find key = some m' →
      ∃ m, s.tensorIndex.find key = some m ∧ m' = { m with id := f key m } := by
    intro key m' h'
    rw [ArcherTensorIndex.find_relabel] at h'
    obtain ⟨m, hm, hm'⟩ := Option.map_eq_some_iff.mp h'
    exact ⟨m, hm, hm'.symm⟩
  refine ⟨?_, fun key => ?_, h.stored_le, hp, ?_, fun key m' h' => ?_,
    fun key m₁ key' m₂ h₁ h₂ hne => ?_, ?_⟩
  · rw [ArcherTensorIndex.size_relabel]
    exact h.size
  · rw [ArcherTensorIndex.find_relabel, Option.map_eq_none_iff]
    exact h.keys key
  · rw [ArcherTensorIndex.serialize_relabel]
    exact h.indexFile
  · obtain ⟨m, hm, rfl⟩ := hfind key m' h'
    exact h.placed key m hm
  · obtain ⟨m, hm, rfl⟩ := hfind key m₁ h₁
    obtain ⟨m', hm', rfl⟩ := hfind key' m₂ h₂
    exact h.apart key m key' m' hm hm' hne
  · rcases hc with rfl | rfl
    · intro hpos key m' h'
      obtain ⟨m, hm, rfl⟩ := hfind key m' h'
      exact h.behind hpos key m hm
    · exact fun hpos => absurd hpos (Nat.lt_irrefl 0)

/-- A handle that is reopened finds the index of the handle before it. -/
theorem Inv.reopen (h : Inv path ckpt stored s) (blank : TensorStorageMeta) :
    ∃ f, (s.toStore.reopen blank).tensorIndex = s.tensorIndex.relabel f := by
  have hsize : s.tensorIndex.size < 2 ^ 32 := by
    have := length_params ckpt
    have := h.stored_le
    rw [h.size]
    omega
  have hshape : ∀ e ∈ s.tensorIndex.entries, e.2.shape.length < 2 ^ 63 := by
    rintro ⟨key, m⟩ he
    obtain ⟨_, -, -, hs, -⟩ := h.placed key m (ArcherTensorIndex.mem_entries_iff.mp he)
    exact hs
  refine ⟨fun _ _ => blank.id, ?_⟩
  unfold Store.reopen
  rcases h.indexFile with ⟨hnone, h0⟩ | hsome
  · have hnil : s.tensorIndex.entries = [] := List.length_eq_zero_iff.mp (h.size.trans h0)
    rw [hnone]
    show ArcherTensorIndex.empty = s.tensorIndex.relabel _
    unfold ArcherTensorIndex.empty ArcherTensorIndex.relabel
    simp [hnil]
  · have hread := reads_index hsize hshape blank []
    rw [List.append_nil] at hread
    rw [hsome]
    simp only [hread]
    rfl

/-- The place of the next tensor is apart from all places in the index. -/
theorem Inv.apart_record (h : Inv path ckpt stored s) {buffer : Tensor} (tensorId : UInt32)
    (hfree : 0 < buffer.nbytes → (s.cursor.place (alignUp buffer.nbytes)).fileOffset = 0 →
      ∀ key m, s.tensorIndex.find key = some m →
        m.fileId = (s.cursor.place (alignUp buffer.nbytes)).fileId → m.size.toNat = 0)
    {key : UInt32} {m : TensorStorageMeta} (hm : s.tensorIndex.find key = some m) :
    Apart (recordAt (s.cursor.place (alignUp buffer.nbytes)) tensorId buffer) m := by
  have hoff := recordAt_offset s.cursor (alignUp buffer.nbytes) tensorId buffer
  have hsize := recordAt_size (s.cursor.place (alignUp buffer.nbytes)) tensorId buffer
  rcases Nat.eq_zero_or_pos buffer.nbytes with h0 | hpos
  · exact apart_of_size_eq_zero (hsize.trans h0)
  rcases Nat.eq_zero_or_pos m.size.toNat with h0 | hpos'
  · exact (apart_of_size_eq_zero h0).symm
  intro hf p hp hp'
  have hfile : m.fileId = (s.cursor.place (alignUp buffer.nbytes)).fileId := hf.symm
  rcases Nat.eq_zero_or_pos (s.cursor.place (alignUp buffer.nbytes)).fileOffset with hz | hbehind
  · have := hfree hpos hz key m hm hfile
    omega
  · rcases s.cursor.place_cases (alignUp buffer.nbytes) with ⟨hplace, -⟩ | hplace
    · rw [hplace] at hbehind hfile hoff
      have h1 := h.behind hbehind key m hm hfile hpos'
      have h2 := hp.1
      have h3 := hp'.2
      rw [hplace] at h2
      omega
    · rw [hplace] at hbehind
      exact Nat.lt_irrefl 0 hbehind

/-- **Storing the next tensor** keeps the invariant, if the partition that it starts is free of
bytes. -/
theorem Inv.offload (h : Inv path ckpt stored s) (io : Callbacks path) {buffer : Tensor}
    (hbuf : ckpt.params[s.paramId]? = some buffer)
    (hnone : s.tensorIndex.find (UInt32.ofNat s.paramId) = none)
    (hfree : 0 < buffer.nbytes → (s.cursor.place (alignUp buffer.nbytes)).fileOffset = 0 →
      ∀ key m, s.tensorIndex.find key = some m →
        m.fileId = (s.cursor.place (alignUp buffer.nbytes)).fileId → m.size.toNat = 0) :
    ∃ store, s.toStore.offloadTensor path io (UInt32.ofNat s.paramId) buffer = some store ∧
      Inv path ckpt (stored + 1) ⟨store, s.paramId + 1⟩ := by
  have hlt : s.paramId < ckpt.params.length := (List.getElem?_eq_some_iff.mp hbuf).1
  have hid := toNat_id hbuf
  have hstored : s.paramId = stored := by
    have h1 := (h.keys _).mp hnone
    rw [hid] at h1
    have h2 := h.paramId_le
    omega
  generalize htid : UInt32.ofNat s.paramId = tensorId at hnone hid ⊢
  have happart : ∀ key m, s.tensorIndex.find key = some m →
      Apart (recordAt (s.cursor.place (alignUp buffer.nbytes)) tensorId buffer) m :=
    fun key m hm => h.apart_record tensorId hfree hm
  have hoff := recordAt_offset s.cursor (alignUp buffer.nbytes) tensorId buffer
  have hsize := recordAt_size (s.cursor.place (alignUp buffer.nbytes)) tensorId buffer
  generalize hrec : recordAt (s.cursor.place (alignUp buffer.nbytes)) tensorId buffer = r at *
  have hfile : r.fileId = (s.cursor.place (alignUp buffer.nbytes)).fileId := by rw [← hrec]; rfl
  have hshape : r.shape = buffer.shape := by rw [← hrec]; rfl
  -- what a lookup finds afterwards
  have hfind : ∀ key m, (s.tensorIndex.insert tensorId r).find key = some m →
      (key = tensorId ∧ m = r) ∨ s.tensorIndex.find key = some m := by
    intro key m hm
    rw [ArcherTensorIndex.find_insert] at hm
    split_ifs at hm with hk
    · exact Or.inl ⟨hk.1, (Option.some.inj hm).symm⟩
    · exact Or.inr hm
  refine ⟨⟨s.tensorIndex.insert tensorId r, ⟨(s.cursor.place (alignUp buffer.nbytes)).fileId,
    (s.cursor.place (alignUp buffer.nbytes)).fileOffset + alignUp buffer.nbytes⟩,
    Store.writeTensor path io buffer r s.files,
    some (s.tensorIndex.insert tensorId r).serialize⟩, ?_, ?_⟩
  · unfold Store.offloadTensor Store.storeTensor
    rw [hnone]
    simp only [hrec]
    rfl
  refine ⟨?_, fun key => ?_, by omega, by show s.paramId + 1 ≤ stored + 1; omega, Or.inr rfl,
    fun key m hm => ?_, fun key m key' m' hm hm' hne => ?_, fun hbehind key m hm hf hpos => ?_⟩
  · show (s.tensorIndex.insert tensorId r).size = stored + 1
    rw [ArcherTensorIndex.size_insert hnone, h.size]
  · show (s.tensorIndex.insert tensorId r).find key = none ↔ stored + 1 ≤ key.toNat
    rw [ArcherTensorIndex.find_insert]
    split_ifs with hk
    · have hkey : key.toNat = stored := by rw [hk.1, hid, hstored]
      simp only [false_iff]
      omega
    · rw [h.keys key]
      have hne : key.toNat ≠ stored := fun h0 => hk ⟨UInt32.toNat_inj.mp (by omega), hnone⟩
      omega
  · rcases hfind key m hm with ⟨rfl, rfl⟩ | hm
    · refine ⟨buffer, by rw [hid]; exact hbuf, hsize, ?_, readAt_writeTensor hsize⟩
      rw [hshape]
      exact buffer.shape_lt
    · obtain ⟨buffer', h1, h2, h3, h4⟩ := h.placed key m hm
      exact ⟨buffer', h1, h2, h3, (readAt_writeTensor_of_apart (happart key m hm)).trans h4⟩
  · rcases hfind key m hm with ⟨rfl, rfl⟩ | hold
    · rcases hfind key' m' hm' with ⟨rfl, rfl⟩ | hold'
      · exact absurd rfl hne
      · exact happart key' m' hold'
    · rcases hfind key' m' hm' with ⟨rfl, rfl⟩ | hold'
      · exact (happart key m hold).symm
      · exact h.apart key m key' m' hold hold' hne
  · show m.offset.toInt.toNat + alignUp m.size.toNat ≤
      (s.cursor.place (alignUp buffer.nbytes)).fileOffset + alignUp buffer.nbytes
    have hbehind : 0 <
      (s.cursor.place (alignUp buffer.nbytes)).fileOffset + alignUp buffer.nbytes := hbehind
    have hf : m.fileId = (s.cursor.place (alignUp buffer.nbytes)).fileId := hf
    rcases hfind key m hm with ⟨rfl, rfl⟩ | hold
    · rw [hoff, hsize]
    rcases Nat.eq_zero_or_pos (s.cursor.place (alignUp buffer.nbytes)).fileOffset with hz | hafter
    · have hbytes : 0 < buffer.nbytes := by
        rcases Nat.eq_zero_or_pos buffer.nbytes with h0 | h0
        · have hzero : alignUp buffer.nbytes = 0 := by rw [h0, alignUp_zero]
          omega
        · exact h0
      have := hfree hbytes hz key m hold hf
      omega
    · rcases s.cursor.place_cases (alignUp buffer.nbytes) with ⟨hplace, -⟩ | hplace
      · rw [hplace] at hafter hf ⊢
        have := h.behind hafter key m hold hf hpos
        omega
      · rw [hplace] at hafter
        exact absurd hafter (Nat.lt_irrefl 0)

/-- **One step** of a conversion that starts partitions fresh. -/
theorem Inv.runOp (h : Inv path ckpt stored s) {op : Op path} (hfresh : StartsFresh ckpt s op) :
    ∃ stored', Inv path ckpt stored' (s.runOp ckpt op) := by
  cases op with
  | restart blank =>
    obtain ⟨f, hf⟩ := h.reopen blank
    have hinv := h.relabel f (Or.inr rfl) (Nat.zero_le stored)
    rw [← hf] at hinv
    exact ⟨stored, hinv⟩
  | next io =>
    unfold Conversion.runOp
    cases hbuf : ckpt.params[s.paramId]? with
    | none => exact ⟨stored, h⟩
    | some buffer =>
      unfold StartsFresh at hfresh
      have hmark :=
        h.relabel (fun key m => if key = UInt32.ofNat s.paramId then UInt32.ofNat s.paramId
          else m.id) (Or.inl rfl) h.paramId_le
      have hchecked : (s.toStore.isTensorOffloaded (UInt32.ofNat s.paramId)).1 =
          (s.tensorIndex.find (UInt32.ofNat s.paramId)).isSome := rfl
      simp only
      by_cases hnone : s.tensorIndex.find (UInt32.ofNat s.paramId) = none
      · obtain ⟨store, hoffload, hinv⟩ := hmark.offload io hbuf
          (by rw [ArcherTensorIndex.find_relabel, hnone]; rfl) (by
          intro hpos hz key m' hm' hf
          rw [ArcherTensorIndex.find_relabel] at hm'
          obtain ⟨m, hm, rfl⟩ := Option.map_eq_some_iff.mp hm'
          have h0 :=
            hfresh buffer hbuf hnone hpos hz _ (ArcherTensorIndex.mem_entries_iff.mpr hm) hf
          exact congrArg UInt64.toNat h0)
        refine ⟨stored + 1, ?_⟩
        have hstore : (s.toStore.isTensorOffloaded (UInt32.ofNat s.paramId)).2.offloadTensor path io
            (UInt32.ofNat s.paramId) buffer = some store := hoffload
        rw [if_neg (by simp [hchecked, hnone]), hstore]
        exact hinv
      · -- the tensor is in the index: it is skipped
        have hlt : s.paramId < stored := by
          by_contra hge
          refine hnone ((h.keys _).mpr ?_)
          rw [toNat_id hbuf]
          omega
        refine ⟨stored, ?_⟩
        rw [if_pos (hchecked.trans (Option.isSome_iff_ne_none.mpr hnone))]
        exact { hmark with paramId_le := hlt }

end Inv

/-! ### Runs -/

/-- **A conversion that starts partitions fresh is intact** at every point, whatever interruptions
and restarts there were. -/
theorem intact_of_startsFresh (path : OffloadPath) (ckpt : Checkpoint) (files : Files)
    (ops : List (Op path))
    (h : Along (Conversion.runOp ckpt) (StartsFresh ckpt) (Conversion.start files) ops) :
    Intact path ckpt (exec (Conversion.runOp ckpt) (Conversion.start files) ops) := by
  obtain ⟨stored, hinv⟩ := inv_exec (I := fun s => ∃ stored, Inv path ckpt stored s)
    (fun _ _ ⟨_, hs⟩ hg => hs.runOp hg) ops _ ⟨0, inv_start files⟩ h
  refine ⟨hinv.apart, fun hdone k buffer hk => ?_⟩
  have hlt : k < ckpt.params.length := (List.getElem?_eq_some_iff.mp hk).1
  have hid := toNat_id hk
  have hle := hinv.stored_le
  have hle' : (exec (Conversion.runOp ckpt) (Conversion.start files) ops).paramId ≤ stored :=
    hinv.paramId_le
  obtain ⟨m, hm⟩ := Option.ne_none_iff_exists'.mp fun h0 => by
    have := (hinv.keys (UInt32.ofNat k)).mp h0
    omega
  obtain ⟨buffer', h1, h2, -, h3⟩ := hinv.placed _ m hm
  rw [hid, hk] at h1
  cases h1
  exact ⟨m, hm, h2, h3⟩

/-- A tensor of one byte. -/
def byteTensor (b : UInt8) : Tensor where
  bytes := [b]
  shape := [1]
  options := ⟨0, -1, 0, 0, false, false⟩
  bytes_lt := by show 1 < 2 ^ 63; decide
  shape_lt := by decide

/-- Two state dicts with one tensor each. -/
def twoDicts : Checkpoint := ⟨[[("a", byteTensor 1)], [("b", byteTensor 2)]], by decide⟩

/-- A path with the default block size. -/
def localPath : OffloadPath := ⟨"/tmp/", .new none⟩

/-- The callbacks run in the order of submission, with clean bounce buffers. -/
def inOrder : Callbacks localPath := ⟨fun _ => .submitted _, fun _ _ => 0⟩

/-- A record that nothing has been read into. -/
def blankRecord : TensorStorageMeta := ⟨0, 0, 0, [], ⟨0, 0, 0, 0, false, false⟩, 0⟩

theorem intact_twoDicts :
    Along (Conversion.runOp twoDicts) (StartsFresh twoDicts) (Conversion.start fun _ _ => 0)
        [Op.restart blankRecord, .next inOrder, .next inOrder, .restart blankRecord, .next inOrder,
          .next inOrder] ∧
      Intact localPath twoDicts (exec (Conversion.runOp twoDicts) (Conversion.start fun _ _ => 0)
        [Op.restart blankRecord, .next inOrder, .next inOrder, .restart blankRecord, .next inOrder,
          .next inOrder]) :=
  ⟨by decide, intact_of_startsFresh localPath twoDicts _ _ (by decide)⟩

/-- After an interruption behind the first tensor, the second one is stored over it. -/
theorem overlapping_extents : ¬ ∀ (path : OffloadPath) (ckpt : Checkpoint) (files : Files)
    (ops : List (Op path)),
    Intact path ckpt (exec (Conversion.runOp ckpt) (Conversion.start files) ops) := by
  intro h
  have hrun := (h localPath twoDicts (fun _ _ => 0)
    [.next inOrder, .restart blankRecord, .next inOrder, .next inOrder]).apart 0
    ⟨0, 0, 1, [1], ⟨0, -1, 0, 0, false, false⟩, 0⟩ 1 ⟨0, 0, 1, [1], ⟨0, -1, 0, 0, false, false⟩, 1⟩
    (by decide) (by decide) (by decide)
  exact hrun rfl 0 (by decide) (by decide)

end MoeInfinity.Core.TensorHandle
