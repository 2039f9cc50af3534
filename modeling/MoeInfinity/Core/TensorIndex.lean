import Mathlib.Data.List.Nodup
import MoeInfinity.Lib.ByteStream

/-! # The tensor index (`core/aio/archer_tensor_index.cpp`)

The index maps tensor ids to the places of their bytes on disk. `Serialize` writes the number of
entries and, in the map's iteration order, each key with its record; `Deserialize` reads the same
back. The id in a record is not written: after a reading it is whatever the fresh record held, until
`IsTensorOffloaded` sets it. The scalar type, the device type and the layout are the codes of their
enumerations, which are declared on `int8_t`. A stream that ends too early makes a reader fail. -/

namespace MoeInfinity.Core.TensorIndex

open MoeInfinity.Lib.ByteStream

/-! ### Records -/

structure TensorOptions where
  dtype : Int8
  deviceIndex : Int8
  deviceType : Int8
  layout : Int8
  requiresGrad : Bool
  pinnedMemory : Bool
deriving DecidableEq, Repr

structure TensorStorageMeta where
  fileId : UInt32
  offset : Int64
  size : UInt64
  shape : List Int64
  options : TensorOptions
  id : UInt32
deriving DecidableEq, Repr

def writeOptions (obj : TensorOptions) : List UInt8 :=
  Word.bool.write obj.pinnedMemory ++
    (Word.bool.write obj.requiresGrad ++
      (Word.int8.write obj.dtype ++
        (Word.int8.write obj.deviceIndex ++
          (Word.int8.write obj.deviceType ++ Word.int8.write obj.layout))))

def readOptions : Reader TensorOptions := do
  let pinnedMemory ← Word.bool.read
  let requiresGrad ← Word.bool.read
  let dtype ← Word.int8.read
  let deviceIndex ← Word.int8.read
  let deviceType ← Word.int8.read
  let layout ← Word.int8.read
  return ⟨dtype, deviceIndex, deviceType, layout, requiresGrad, pinnedMemory⟩

/-- `operator<<`. -/
def writeMeta (obj : TensorStorageMeta) : List UInt8 :=
  Word.uint32.write obj.fileId ++ (Word.int64.write obj.offset ++ (Word.uint64.write obj.size ++
    (Word.int64.write (Int64.ofNat obj.shape.length) ++ (obj.shape.flatMap Word.int64.write ++
      writeOptions obj.options))))

/-- `operator>>` into the record `obj`; `resize` refuses a negative length. -/
def readMeta (obj : TensorStorageMeta) : Reader TensorStorageMeta := do
  let fileId ← Word.uint32.read
  let offset ← Word.int64.read
  let size ← Word.uint64.read
  let shapeSize ← Word.int64.read
  if shapeSize.toInt < 0 then failure
  else
    let shape ← readMany Word.int64.read shapeSize.toInt.toNat
    let options ← readOptions
    return { obj with fileId, offset, size, shape, options }

/-! ### The index -/

/-- The map, with its entries in iteration order. -/
structure ArcherTensorIndex where
  entries : List (UInt32 × TensorStorageMeta)
  nodup : (entries.map Prod.fst).Nodup

namespace ArcherTensorIndex

def empty : ArcherTensorIndex := ⟨[], List.nodup_nil⟩

def find (m : ArcherTensorIndex) (key : UInt32) : Option TensorStorageMeta := m.entries.lookup key

def size (m : ArcherTensorIndex) : ℕ := m.entries.length

/-- `insert` leaves the map as it is when the key is there. -/
def insert (m : ArcherTensorIndex) (key : UInt32) (value : TensorStorageMeta) : ArcherTensorIndex :=
  if h : key ∈ m.entries.map Prod.fst then m
  else ⟨m.entries ++ [(key, value)], by
    rw [List.map_append, List.nodup_append']
    refine ⟨m.nodup, List.nodup_singleton _, fun k hk hk' => h ?_⟩
    rw [List.map_singleton, List.mem_singleton] at hk'
    rw [hk'] at hk
    exact hk⟩

/-- New ids in the records. -/
def relabel (f : UInt32 → TensorStorageMeta → UInt32) (m : ArcherTensorIndex) : ArcherTensorIndex :=
  ⟨m.entries.map fun e => (e.1, { e.2 with id := f e.1 e.2 }), by
    rw [List.map_map]
    exact m.nodup⟩

def serialize (m : ArcherTensorIndex) : List UInt8 :=
  Word.uint32.write (UInt32.ofNat m.size) ++
    m.entries.flatMap fun item => Word.uint32.write item.1 ++ writeMeta item.2

/-- The loop of `Deserialize`; `blank` is the record as it is before it is read. -/
def readEntries (blank : TensorStorageMeta) : ℕ → ArcherTensorIndex → Reader ArcherTensorIndex
  | 0, m => pure m
  | n + 1, m => do
    let key ← Word.uint32.read
    let value ← readMeta blank
    readEntries blank n (m.insert key value)

def deserialize (blank : TensorStorageMeta) : Reader ArcherTensorIndex := do
  let size ← Word.uint32.read
  readEntries blank size.toNat empty

/-! ### Lookups -/

variable {m : ArcherTensorIndex} {key : UInt32} {value : TensorStorageMeta}

theorem find_eq_none : m.find key = none ↔ key ∉ m.entries.map Prod.fst := by
  unfold find
  rw [List.lookup_eq_none_iff, List.mem_map]
  constructor
  · rintro h ⟨e, he, rfl⟩
    simpa using h e he
  · intro h e he
    simp only [bne_iff_ne, ne_eq]
    exact fun h0 => h ⟨e, he, h0.symm⟩

theorem find_insert (key' : UInt32) : (m.insert key value).find key' =
    if key' = key ∧ m.find key = none then some value else m.find key' := by
  unfold insert
  split_ifs with h1 h2 h2
  · exact absurd h1 (find_eq_none.mp h2.2)
  · rfl
  · obtain ⟨rfl, hnone⟩ := h2
    show (m.entries ++ [(key', value)]).lookup key' = some value
    rw [List.lookup_append, show m.entries.lookup key' = none from hnone]
    simp
  · have hne : key' ≠ key := fun h0 => h2 ⟨h0, find_eq_none.mpr h1⟩
    show (m.entries ++ [(key, value)]).lookup key' = m.entries.lookup key'
    rw [List.lookup_append]
    have : (key' == key) = false := by simpa using hne
    simp [List.lookup_cons, this]

theorem mem_entries_iff : (key, value) ∈ m.entries ↔ m.find key = some value := by
  obtain ⟨entries, hnd⟩ := m
  show (key, value) ∈ entries ↔ entries.lookup key = some value
  induction entries with
  | nil => simp
  | cons e entries ih =>
    obtain ⟨hnew, hrest⟩ := List.nodup_cons.mp hnd
    obtain ⟨k, v⟩ := e
    by_cases hk : key = k
    · subst hk
      have hno : (key, value) ∉ entries := fun h0 => hnew (List.mem_map.mpr ⟨_, h0, rfl⟩)
      simp [hno, eq_comm]
    · have hk' : (key == k) = false := by simpa using hk
      simp [List.lookup_cons, hk', hk, ih hrest]

theorem find_relabel (f : UInt32 → TensorStorageMeta → UInt32) :
    (m.relabel f).find key = (m.find key).map fun v => { v with id := f key v } := by
  show (m.entries.map fun e => (e.1, { e.2 with id := f e.1 e.2 })).lookup key =
    (m.entries.lookup key).map fun v => { v with id := f key v }
  induction m.entries with
  | nil => rfl
  | cons e entries ih =>
    obtain ⟨k, v⟩ := e
    by_cases hk : key = k
    · subst hk
      simp
    · have hk' : (key == k) = false := by simpa using hk
      simpa [List.lookup_cons, hk'] using ih

@[simp] theorem size_relabel (f : UInt32 → TensorStorageMeta → UInt32) :
    (m.relabel f).size = m.size :=
  List.length_map _

/-- The ids are not written. -/
@[simp] theorem serialize_relabel (f : UInt32 → TensorStorageMeta → UInt32) :
    (m.relabel f).serialize = m.serialize := by
  unfold serialize
  rw [size_relabel]
  unfold relabel
  rw [List.flatMap_map]
  rfl

theorem size_insert (h : m.find key = none) : (m.insert key value).size = m.size + 1 := by
  unfold insert
  rw [dif_neg (find_eq_none.mp h)]
  exact List.length_append

end ArcherTensorIndex

/-! ### Reading back -/

section RoundTrip

theorem reads_options (obj : TensorOptions) : Reads readOptions (writeOptions obj) obj := by
  unfold readOptions writeOptions
  refine reads_bind (Word.bool.reads _)
    (reads_bind (Word.bool.reads _)
      (reads_bind (Word.int8.reads _)
        (reads_bind (Word.int8.reads _) (reads_bind (Word.int8.reads _) ?_))))
  rw [← List.append_nil (Word.int8.write obj.layout)]
  exact reads_bind (Word.int8.reads _) (reads_pure _)

theorem reads_meta (obj blank : TensorStorageMeta) (h : obj.shape.length < 2 ^ 63) :
    Reads (readMeta blank) (writeMeta obj) { obj with id := blank.id } := by
  unfold readMeta writeMeta
  refine reads_bind (Word.uint32.reads _)
    (reads_bind (Word.int64.reads _)
      (reads_bind (Word.uint64.reads _) (reads_bind (Word.int64.reads _) ?_)))
  rw [Int64.toInt_ofNat_of_lt h, if_neg (by omega), Int.toNat_natCast]
  refine reads_bind (reads_readMany Word.int64.reads _) ?_
  rw [← List.append_nil (writeOptions obj.options)]
  exact reads_bind (reads_options _) (reads_pure _)

/-- The loop appends the entries to those read before. -/
theorem reads_entries (blank : TensorStorageMeta) : ∀ (items : List (UInt32 × TensorStorageMeta))
    (m : ArcherTensorIndex), (∀ e ∈ items, e.2.shape.length < 2 ^ 63) →
    (m.entries.map Prod.fst ++ items.map Prod.fst).Nodup →
    ∃ m', Reads (ArcherTensorIndex.readEntries blank items.length m)
        (items.flatMap fun item => Word.uint32.write item.1 ++ writeMeta item.2) m' ∧
      m'.entries = m.entries ++ items.map fun item => (item.1, { item.2 with id := blank.id })
  | [], m, _, _ => ⟨m, reads_pure m, (List.append_nil _).symm⟩
  | (key, value) :: items, m, hshape, hnd => by
    have hnew : key ∉ m.entries.map Prod.fst := by
      intro hmem
      exact (List.nodup_append'.mp hnd).2.2 hmem List.mem_cons_self
    have hins : (m.insert key { value with id := blank.id }).entries =
        m.entries ++ [(key, { value with id := blank.id })] := by
      unfold ArcherTensorIndex.insert
      rw [dif_neg hnew]
    obtain ⟨m', hreads, hentries⟩ := reads_entries blank items
      (m.insert key { value with id := blank.id })
      (fun e he => hshape e (List.mem_cons_of_mem _ he)) (by
        rw [hins, List.map_append, List.append_assoc]
        exact hnd)
    refine ⟨m', ?_, ?_⟩
    · rw [List.flatMap_cons, List.append_assoc]
      exact reads_bind (Word.uint32.reads key)
        (reads_bind (reads_meta value blank (hshape _ List.mem_cons_self)) hreads)
    · rw [hentries, hins, List.append_assoc]
      rfl

/-- `Deserialize` finds the index that `Serialize` wrote, with fresh ids. -/
theorem reads_index {m : ArcherTensorIndex} (hsize : m.size < 2 ^ 32)
    (hshape : ∀ e ∈ m.entries, e.2.shape.length < 2 ^ 63) (blank : TensorStorageMeta) :
    Reads (ArcherTensorIndex.deserialize blank) m.serialize (m.relabel fun _ _ => blank.id) := by
  obtain ⟨m', hreads, hentries⟩ :=
    reads_entries blank m.entries ArcherTensorIndex.empty hshape m.nodup
  have hm' : m' = m.relabel fun _ _ => blank.id := by
    obtain ⟨entries, hnd⟩ := m'
    subst hentries
    rfl
  have hsize' : (UInt32.ofNat m.size).toNat = m.entries.length := UInt32.toNat_ofNat_of_lt' hsize
  subst hm'
  refine reads_bind (Word.uint32.reads _) ?_
  rw [hsize']
  exact hreads

/-- **Round trip**: reading what `Serialize` wrote consumes exactly these bytes and finds the same
keys with the same records, up to the ids that are not written. -/
theorem deserialize_serialize (m : ArcherTensorIndex) (hsize : m.size < 2 ^ 32)
    (hshape : ∀ e ∈ m.entries, e.2.shape.length < 2 ^ 63) (blank : TensorStorageMeta)
    (rest : List UInt8) :
    ∃ m', (ArcherTensorIndex.deserialize blank).run (m.serialize ++ rest) = some (m', rest) ∧
      ∀ key, m'.find key = (m.find key).map fun value => { value with id := blank.id } :=
  ⟨_, reads_index hsize hshape blank rest, fun _ => ArcherTensorIndex.find_relabel _⟩

/-- An index of two tensors, one of them without dimensions. -/
def twoTensors : ArcherTensorIndex where
  entries := [(7, ⟨0, 0, 12, [3, 2], ⟨5, -1, 0, 0, false, true⟩, 7⟩),
    (1, ⟨4, 4096, 2, [], ⟨15, 0, 1, 0, true, false⟩, 1⟩)]
  nodup := by decide

theorem deserialize_twoTensors : twoTensors.size < 2 ^ 32 ∧
    ∃ m', (ArcherTensorIndex.deserialize ⟨0, 0, 0, [], ⟨0, 0, 0, 0, false, false⟩, 9⟩).run
        twoTensors.serialize = some (m', []) ∧
      m'.find 1 = some ⟨4, 4096, 2, [], ⟨15, 0, 1, 0, true, false⟩, 9⟩ := by
  obtain ⟨m', hrun, hfind⟩ := deserialize_serialize twoTensors (by decide) (by decide)
    ⟨0, 0, 0, [], ⟨0, 0, 0, 0, false, false⟩, 9⟩ []
  rw [List.append_nil] at hrun
  exact ⟨by decide, m', hrun, (hfind 1).trans (by decide)⟩

end RoundTrip

end MoeInfinity.Core.TensorIndex
