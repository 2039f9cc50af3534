import Mathlib.Data.Char
import Mathlib.Data.List.Lex
import Mathlib.Data.List.Sort
import MoeInfinity.Lib.Dict
import MoeInfinity.Lib.Imperative
import MoeInfinity.Lib.Runs
import MoeInfinity.Utils.HfConfig

/-! # The store of experts (`models/deepseek_v4/official_offload_adapter.py`)

`OfficialExpertHostStore` reads the tensors of an expert from the shards of a checkpoint, keeps them
on the host, and keeps the experts used last on the device. A tensor is its contents, so it is the
same on the host, pinned and on the device.

* `Checkpoint.expert`: what the checkpoint has for an expert.
* `Store.Ok`: what is kept is what the checkpoint has.
* `get_spec`, `prefetch_spec`: a `get` returns what the checkpoint has, and both leave no more
  experts on the device than are allowed, whichever were dropped. -/

namespace MoeInfinity.Models.ExpertHostStore

open MoeInfinity.Lib.Dict MoeInfinity.Lib.Imperative MoeInfinity.Lib.Runs
open MoeInfinity.Utils.HfConfig (Name digits)

/-! ### Checkpoints -/

/-- A `safetensors` file. -/
structure Shard (T : Type) where
  metadata : Bool
  tensors : List (Name × T)

def metadataKey : Name := "__metadata__".toList

/-- The keys of the header. -/
def Shard.header {T : Type} (f : Shard T) : List Name :=
  (if f.metadata then [metadataKey] else []) ++ f.tensors.map Prod.fst

structure Checkpoint (T : Type) where
  files : List (Name × Shard T)
  /-- What `glob` finds for `*.safetensors`. -/
  found : List Name
  shardFile : Option Name

/-- What goes wrong in reading a checkpoint, and an index that is out of range. -/
inductive LoadError where
  | fileNotFoundError (path : Name)
  | keyError (key : Name)
  | safetensorError (key : Name)
  | indexError
deriving DecidableEq

/-- The tensors of an expert, by name. -/
abbrev Bundle (T : Type) := List (Name × T)

/-- The projections and the parts of an expert, in the order of the two loops. -/
def projections : List (Name × Name) :=
  ["w1".toList, "w2".toList, "w3".toList].flatMap fun proj =>
    ["weight".toList, "scale".toList].map fun part => (proj, part)

def partName (p : Name × Name) : Name := p.1 ++ ".".toList ++ p.2

def tensorKey (layerId expertId : ℕ) (p : Name × Name) : Name :=
  "layers.".toList ++ digits layerId ++ ".ffn.experts.".toList ++ digits expertId ++
    ".".toList ++ p.1 ++ ".".toList ++ p.2

section

variable {T : Type}

def Checkpoint.shards (c : Checkpoint T) : List Name :=
  match c.shardFile with
  | none => c.found.insertionSort (· ≤ ·)
  | some shardFile => if shardFile = [] then c.found.insertionSort (· ≤ ·) else [shardFile]

def Checkpoint.tensorIn (c : Checkpoint T) (shard key : Name) : Option T :=
  (c.files.lookup shard).bind fun f => f.tensors.lookup key

/-- A tensor of the checkpoint. Where several shards have one, the last does. -/
def Checkpoint.tensor (c : Checkpoint T) (key : Name) : Option T :=
  c.shards.reverse.findSome? fun shard => c.tensorIn shard key

def Checkpoint.part (c : Checkpoint T) (layerId expertId : ℕ) (p : Name × Name) :
    Option (Name × T) :=
  (c.tensor (tensorKey layerId expertId p)).map fun t => (partName p, t)

/-- What the checkpoint has for an expert. -/
def Checkpoint.expert (c : Checkpoint T) (layerId expertId : ℕ) : Option (Bundle T) :=
  projections.mapM (c.part layerId expertId)

/-! ### The store -/

structure Store (T : Type) where
  maxResidentExperts : ℕ
  /-- Whether there is a stream to copy on, which is so for a GPU. -/
  copyStream : Bool
  shardFor : List (Name × Name)
  openFiles : List (Name × Shard T)
  host : List ((ℕ × ℕ) × Bundle T)
  /-- An `OrderedDict`, the oldest first. -/
  gpu : List ((ℕ × ℕ) × Bundle T)

def addShard (c : Checkpoint T) (shardFor : List (Name × Name)) (shard : Name) :
    Except LoadError (List (Name × Name)) :=
  match c.files.lookup shard with
  | none => .error (.fileNotFoundError shard)
  | some f =>
    .ok ((f.header.filter fun key => !(key == metadataKey)).foldl
      (fun d key => put key shard d) shardFor)

def buildKeyIndex (c : Checkpoint T) : Except LoadError (List (Name × Name)) :=
  c.shards.foldlM (addShard c) []

def Store.init (c : Checkpoint T) (maxResidentExperts : ℕ) (cuda : Bool) :
    Except LoadError (Store T) := do
  let shardFor ← buildKeyIndex c
  return {
    maxResidentExperts := maxResidentExperts, copyStream := cuda, shardFor := shardFor
    openFiles := [], host := [], gpu := [] }

def opener (c : Checkpoint T) (shard : Name) : Prog LoadError (Store T) (Shard T) := do
  let s ← current
  match s.openFiles.lookup shard with
  | some f => pure f
  | none =>
    match c.files.lookup shard with
    | none => raise (.fileNotFoundError shard)
    | some f => do
      update fun s => { s with openFiles := put shard f s.openFiles }
      pure f

def Shard.getTensor (f : Shard T) (key : Name) : Except LoadError T :=
  match f.tensors.lookup key with
  | none => .error (.safetensorError key)
  | some t => .ok t

/-- `self._shard_for[k]` -/
def Store.shardOf (s : Store T) (key : Name) : Except LoadError Name :=
  match s.shardFor.lookup key with
  | none => .error (.keyError key)
  | some shard => .ok shard

def loadTensor (c : Checkpoint T) (key : Name) : Prog LoadError (Store T) T := do
  let s ← current
  let shard ← ofExcept (s.shardOf key)
  let f ← opener c shard
  ofExcept (f.getTensor key)

/-- The body of the two loops. -/
def loadPart (c : Checkpoint T) (layerId expertId : ℕ) (tensors : Bundle T) (p : Name × Name) :
    Prog LoadError (Store T) (Bundle T) := do
  let t ← loadTensor c (tensorKey layerId expertId p)
  pure (put (partName p) t tensors)

def loadHost (c : Checkpoint T) (layerId expertId : ℕ) : Prog LoadError (Store T) (Bundle T) := do
  let s ← current
  match s.host.lookup (layerId, expertId) with
  | some cached => pure cached
  | none => do
    let tensors ← foldEach (loadPart c layerId expertId) projections []
    update fun s => { s with host := put (layerId, expertId) tensors s.host }
    pure tensors

def toDevice (host : Bundle T) : Bundle T := host.foldl (fun gpu e => put e.1 e.2 gpu) []

/-- `popitem(last=False)`, while there are more than `max`. -/
def popOldest {α : Type} (max : ℕ) : List α → List α
  | [] => []
  | e :: d => if max < d.length + 1 then popOldest max d else e :: d

def Store.setGpu (s : Store T) (gpu : List ((ℕ × ℕ) × Bundle T)) : Store T := { s with gpu := gpu }

def Store.evict (s : Store T) : Store T := s.setGpu (popOldest s.maxResidentExperts s.gpu)

def prefetchOne (c : Checkpoint T) (layerId e : ℕ) : Prog LoadError (Store T) Unit := do
  let s ← current
  if (s.gpu.lookup (layerId, e)).isSome then
    update fun s => s.setGpu (moveToEnd (layerId, e) s.gpu)
  else do
    let host ← loadHost c layerId e
    update fun s => s.setGpu (put (layerId, e) (toDevice host) s.gpu)

def prefetch (c : Checkpoint T) (layerId : ℕ) (expertIds : List ℕ) :
    Prog LoadError (Store T) Unit := do
  let s ← current
  if s.copyStream then do
    forEach (prefetchOne c layerId) expertIds
    update Store.evict
  else pure ()

def get (c : Checkpoint T) (layerId expertId : ℕ) : Prog LoadError (Store T) (Bundle T) := do
  let s ← current
  match s.gpu.lookup (layerId, expertId) with
  | some bundle => do
    update fun s => s.setGpu (moveToEnd (layerId, expertId) s.gpu)
    pure bundle
  | none => do
    let host ← loadHost c layerId expertId
    update fun s => s.setGpu (put (layerId, expertId) (toDevice host) s.gpu)
    update Store.evict
    pure (toDevice host)

/-! ### The index -/

variable {c : Checkpoint T} {shardFor : List (Name × Name)} {s : Store T} {key : Name}
  {layerId expertId : ℕ}

theorem mem_header {f : Shard T} (hkey : key ≠ metadataKey) :
    key ∈ f.header.filter (fun key => !(key == metadataKey)) ↔ (f.tensors.lookup key).isSome := by
  have hnone : f.tensors.lookup key = none ↔ key ∉ f.tensors.map Prod.fst := lookup_eq_none
  rw [List.mem_filter, Option.isSome_iff_ne_none, Ne, hnone, not_not]
  unfold Shard.header
  cases f.metadata <;> simp [hkey]

theorem addShard_lookup {shardFor' : List (Name × Name)} {shard : Name} (hkey : key ≠ metadataKey)
    (h : addShard c shardFor shard = .ok shardFor') :
    shardFor'.lookup key = if (c.tensorIn shard key).isSome then some shard
      else shardFor.lookup key := by
  unfold addShard at h
  unfold Checkpoint.tensorIn
  cases hf : c.files.lookup shard with
  | none => rw [hf] at h; cases h
  | some f =>
    rw [hf] at h
    obtain rfl := Except.ok.inj h
    rw [lookup_foldl_put]
    simp only [mem_header hkey, Option.bind_some]

/-- **The index** leads to the tensor of the checkpoint. -/
theorem buildKeyIndex_lookup (hkey : key ≠ metadataKey) (h : buildKeyIndex c = .ok shardFor) :
    shardFor.lookup key = c.shards.reverse.find? fun shard => (c.tensorIn shard key).isSome := by
  suffices hfold : ∀ (shards : List Name) (d d' : List (Name × Name)),
      shards.foldlM (addShard c) d = .ok d' →
      d'.lookup key = (shards.reverse.find? fun shard => (c.tensorIn shard key).isSome).or
        (d.lookup key) by
    rw [hfold c.shards [] shardFor h]
    exact Option.or_none
  intro shards
  induction shards with
  | nil =>
    intro d d' h
    cases h
    rfl
  | cons shard shards ih =>
    intro d d' h
    rw [List.foldlM_cons] at h
    obtain ⟨d₁, hd₁, h⟩ := ok_of_bind h
    rw [ih d₁ d' h, addShard_lookup hkey hd₁, List.reverse_cons, List.find?_append, Option.or_assoc]
    congr 1
    cases hshard : (c.tensorIn shard key).isSome <;> simp [hshard]

theorem tensor_of_lookup {shard : Name} (hkey : key ≠ metadataKey)
    (h : buildKeyIndex c = .ok shardFor) (hshard : shardFor.lookup key = some shard) :
    c.tensor key = c.tensorIn shard key ∧ (c.tensorIn shard key).isSome := by
  rw [buildKeyIndex_lookup hkey h] at hshard
  have hsome : (c.tensorIn shard key).isSome := by simpa using List.find?_some hshard
  refine ⟨?_, hsome⟩
  obtain ⟨-, l, l', hl, hbefore⟩ := List.find?_eq_some_iff_append.mp hshard
  unfold Checkpoint.tensor
  rw [hl, List.findSome?_append, List.findSome?_cons]
  have hnone : l.findSome? (fun shard => c.tensorIn shard key) = none :=
    List.findSome?_eq_none_iff.mpr fun shard' h' => by simpa using hbefore shard' h'
  obtain ⟨t, ht⟩ := Option.isSome_iff_exists.mp hsome
  rw [hnone, ht]
  rfl

theorem tensor_of_lookup_none (hkey : key ≠ metadataKey) (h : buildKeyIndex c = .ok shardFor)
    (hshard : shardFor.lookup key = none) : c.tensor key = none := by
  rw [buildKeyIndex_lookup hkey h, List.find?_eq_none] at hshard
  exact List.findSome?_eq_none_iff.mpr fun shard' h' => by simpa using hshard shard' h'

theorem tensorKey_ne_metadataKey {p : Name × Name} :
    tensorKey layerId expertId p ≠ metadataKey := by
  unfold tensorKey metadataKey
  simp only [String.reduceToList, List.cons_append, ne_eq, List.cons.injEq, not_and]
  exact fun h => absurd h (by decide)

/-! ### Loading -/

/-- What the store keeps is what the checkpoint has. -/
structure Store.Ok (c : Checkpoint T) (n : ℕ) (s : Store T) : Prop where
  shardFor : buildKeyIndex c = .ok s.shardFor
  openFiles : ∀ shard f, s.openFiles.lookup shard = some f → c.files.lookup shard = some f
  host : ∀ key bundle, s.host.lookup key = some bundle → c.expert key.1 key.2 = some bundle
  gpu : ∀ e ∈ s.gpu, c.expert e.1.1 e.1.2 = some e.2
  maxResidentExperts : s.maxResidentExperts = n

variable {n : ℕ}

/-- What reading does to a store: it changes nothing that is on the device. -/
def Store.Reads (c : Checkpoint T) (n : ℕ) (s s' : Store T) : Prop := s'.Ok c n ∧ s'.gpu = s.gpu

theorem opener_spec (h : s.Ok c n) (shard : Name) :
    wp (opener c shard) (fun f s' => c.files.lookup shard = some f ∧ s.Reads c n s')
      (fun _ s' => c.files.lookup shard = none ∧ s.Reads c n s') s := by
  unfold opener
  rw [wp_bind, wp_current]
  cases hopen : s.openFiles.lookup shard with
  | some f => exact ⟨h.openFiles shard f hopen, h, rfl⟩
  | none =>
    cases hf : c.files.lookup shard with
    | none => exact ⟨rfl, h, rfl⟩
    | some f =>
      simp only [wp_bind, wp_update, wp_pure]
      refine ⟨trivial, { h with openFiles := fun shard' f' h' => ?_ }, rfl⟩
      by_cases hs : shard' = shard
      · subst hs
        rw [lookup_put_self] at h'
        rw [hf, h']
      · rw [lookup_put_of_ne hs] at h'
        exact h.openFiles shard' f' h'

/-- **Loading a tensor**: the tensor of the checkpoint is read, and there is an exception where it
has none. -/
theorem loadTensor_spec (h : s.Ok c n) (hkey : key ≠ metadataKey) :
    wp (loadTensor c key) (fun t s' => c.tensor key = some t ∧ s.Reads c n s')
      (fun _ s' => c.tensor key = none ∧ s.Reads c n s') s := by
  unfold loadTensor
  rw [wp_bind, wp_current, wp_bind]
  unfold Store.shardOf
  cases hshard : s.shardFor.lookup key with
  | none => exact ⟨tensor_of_lookup_none hkey h.shardFor hshard, h, rfl⟩
  | some shard =>
    obtain ⟨htensor, hsome⟩ := tensor_of_lookup hkey h.shardFor hshard
    unfold Checkpoint.tensorIn at htensor hsome
    rw [wp_ofExcept_ok, wp_bind]
    refine wp_mono (opener_spec h shard) (fun f s' hf => ?_) fun _ s' hf => ?_
    · obtain ⟨hf, hs'⟩ := hf
      rw [hf, Option.bind_some] at htensor hsome
      unfold Shard.getTensor
      cases ht : f.tensors.lookup key with
      | none => rw [ht] at hsome; cases hsome
      | some t => exact ⟨htensor.trans ht, hs'⟩
    · rw [hf.1] at hsome
      cases hsome

theorem nodup_partName : (projections.map partName).Nodup := by decide

theorem mapM_part_keys {ps : List (Name × Name)} : ∀ {bundle : Bundle T},
    ps.mapM (c.part layerId expertId) = some bundle → bundle.map Prod.fst = ps.map partName := by
  induction ps with
  | nil =>
    intro bundle h
    cases h
    rfl
  | cons p ps ih =>
    intro bundle h
    rw [List.mapM_cons] at h
    obtain ⟨e, he, h⟩ := Option.bind_eq_some_iff.mp h
    obtain ⟨bundle', hb, h⟩ := Option.bind_eq_some_iff.mp h
    obtain rfl := Option.some.inj h
    obtain ⟨t, -, rfl⟩ := Option.map_eq_some_iff.mp he
    rw [List.map_cons, List.map_cons, ih hb]

theorem toDevice_expert {bundle : Bundle T} (h : c.expert layerId expertId = some bundle) :
    toDevice bundle = bundle := by
  refine (foldl_put_of_nodup ?_).trans (List.nil_append bundle)
  rw [List.nil_append, mapM_part_keys h]
  exact nodup_partName

/-- **The loops** read the parts in order. -/
theorem loadParts_spec (h : s.Ok c n) {ps : List (Name × Name)} (hnodup : (ps.map partName).Nodup) :
    wp (foldEach (loadPart c layerId expertId) ps [])
      (fun tensors s' => ps.mapM (c.part layerId expertId) = some tensors ∧ s.Reads c n s')
      (fun _ s' => ps.mapM (c.part layerId expertId) = none ∧ s.Reads c n s') s := by
  -- the invariant: what is read are the parts visited
  have hloop : wp (foldEach (loadPart c layerId expertId) ps []) _ _ s := wp_foldEach
    (R := fun _ s' => ps.mapM (c.part layerId expertId) = none ∧ s.Reads c n s')
    (fun rest tensors s' =>
      (∃ read, read ++ rest = ps ∧ read.mapM (c.part layerId expertId) = some tensors) ∧
      s.Reads c n s')
    (fun p rest tensors t hI => by
      obtain ⟨⟨read, hread, htensors⟩, ht⟩ := hI
      unfold loadPart
      rw [wp_bind]
      refine wp_mono (loadTensor_spec ht.1 tensorKey_ne_metadataKey) (fun tensor t' ht' => ?_)
        fun _ t' ht' => ?_
      · rw [wp_pure]
        have hpart : c.part layerId expertId p = some (partName p, tensor) := by
          unfold Checkpoint.part
          rw [ht'.1]
          rfl
        have hnew : partName p ∉ tensors.map Prod.fst := by
          rw [← hread, List.map_append, List.map_cons, List.nodup_append] at hnodup
          rw [mapM_part_keys htensors]
          exact fun hmem => hnodup.2.2 _ hmem _ List.mem_cons_self rfl
        rw [put_of_not_mem hnew]
        refine ⟨⟨read ++ [p], ?_, ?_⟩, ht'.2.1, ht'.2.2.trans ht.2⟩
        · rw [List.append_assoc, List.singleton_append, hread]
        · simp [List.mapM_append, htensors, hpart]
      · have hpart : c.part layerId expertId p = none := by
          unfold Checkpoint.part
          rw [ht'.1]
          rfl
        refine ⟨?_, ht'.2.1, ht'.2.2.trans ht.2⟩
        rw [← hread, List.mapM_append, List.mapM_cons, hpart]
        simp)
    ps [] s ⟨⟨[], rfl, rfl⟩, h, rfl⟩
  refine wp_mono hloop (fun tensors s' hI => ?_) fun _ _ hs' => hs'
  obtain ⟨⟨read, hread, htensors⟩, hs'⟩ := hI
  rw [List.append_nil] at hread
  exact ⟨hread ▸ htensors, hs'⟩

/-- **Loading an expert**. -/
theorem loadHost_spec (h : s.Ok c n) : wp (loadHost c layerId expertId)
    (fun bundle s' => c.expert layerId expertId = some bundle ∧ s.Reads c n s')
    (fun _ s' => c.expert layerId expertId = none ∧ s.Reads c n s') s := by
  unfold loadHost
  rw [wp_bind, wp_current]
  cases hhost : s.host.lookup (layerId, expertId) with
  | some cached =>
    have hcached : c.expert layerId expertId = some cached :=
      h.host (layerId, expertId) cached hhost
    rw [wp_pure]
    exact ⟨hcached, h, rfl⟩
  | none =>
    rw [wp_bind]
    refine wp_mono (loadParts_spec h nodup_partName) (fun tensors s' ht => ?_) fun _ _ hs' => hs'
    obtain ⟨htensors, hs', hgpu⟩ := ht
    simp only [wp_bind, wp_update, wp_pure]
    refine ⟨htensors, { hs' with host := fun key bundle hb => ?_ }, hgpu⟩
    by_cases hk : key = (layerId, expertId)
    · subst hk
      rw [lookup_put_self] at hb
      exact hb ▸ htensors
    · rw [lookup_put_of_ne hk] at hb
      exact hs'.host key bundle hb

/-! ### The device -/

theorem isSuffix_popOldest {α : Type} (max : ℕ) : ∀ d : List α, popOldest max d <:+ d
  | [] => List.suffix_rfl
  | e :: d => by
    unfold popOldest
    split
    · exact (isSuffix_popOldest max d).trans (List.suffix_cons e d)
    · exact List.suffix_rfl

theorem length_popOldest_le {α : Type} (max : ℕ) : ∀ d : List α, (popOldest max d).length ≤ max
  | [] => Nat.zero_le max
  | e :: d => by
    unfold popOldest
    split
    · exact length_popOldest_le max d
    · next h => exact Nat.le_of_not_lt h

theorem Store.Ok.setGpu (h : s.Ok c n) {gpu : List ((ℕ × ℕ) × Bundle T)}
    (hgpu : ∀ e ∈ gpu, c.expert e.1.1 e.1.2 = some e.2) : (s.setGpu gpu).Ok c n :=
  { h with gpu := hgpu }

theorem Store.Ok.evict (h : s.Ok c n) : s.evict.Ok c n :=
  h.setGpu fun e he => h.gpu e ((isSuffix_popOldest _ _).subset he)

theorem Store.Ok.length_evict (h : s.Ok c n) : s.evict.gpu.length ≤ n :=
  h.maxResidentExperts ▸ length_popOldest_le _ _

theorem Store.Ok.moveToEnd (h : s.Ok c n) (key : ℕ × ℕ) : (s.setGpu (moveToEnd key s.gpu)).Ok c n :=
  h.setGpu fun e he => h.gpu e (mem_of_mem_moveToEnd he)

/-- An expert is put on the device. -/
theorem Store.Ok.put (h : s.Ok c n) {host : Bundle T}
    (hhost : c.expert layerId expertId = some host) :
    (s.setGpu (put (layerId, expertId) (toDevice host) s.gpu)).Ok c n := by
  refine h.setGpu fun e he => ?_
  rcases mem_of_mem_put he with rfl | he
  · rw [toDevice_expert hhost]
    exact hhost
  · exact h.gpu e he

theorem prefetchOne_spec (h : s.Ok c n) :
    wp (prefetchOne c layerId expertId) (fun _ s' => s'.Ok c n)
      (fun _ s' => c.expert layerId expertId = none ∧ s'.Ok c n) s := by
  unfold prefetchOne
  rw [wp_bind, wp_current, wp_ite]
  refine ⟨fun _ => h.moveToEnd _, fun _ => ?_⟩
  rw [wp_bind]
  refine wp_mono (loadHost_spec h) (fun host s' hs' => ?_) fun _ s' hs' => ⟨hs'.1, hs'.2.1⟩
  rw [wp_update]
  exact hs'.2.1.put hs'.1

/-- **Prefetching**: there is an exception only for an expert that the checkpoint lacks. -/
theorem prefetch_spec (h : s.Ok c n) (expertIds : List ℕ) : wp (prefetch c layerId expertIds)
    (fun _ s' => s'.Ok c n ∧ (s.gpu.length ≤ n → s'.gpu.length ≤ n))
    (fun _ s' => (∃ e ∈ expertIds, c.expert layerId e = none) ∧ s'.Ok c n) s := by
  unfold prefetch
  rw [wp_bind, wp_current, wp_ite]
  refine ⟨fun _ => ?_, fun _ => ⟨h, id⟩⟩
  rw [wp_bind]
  have hloop : wp (forEach (prefetchOne c layerId) expertIds) _ _ s := wp_forEach
    (R := fun _ s' => (∃ e ∈ expertIds, c.expert layerId e = none) ∧ s'.Ok c n)
    (fun rest s' => (∀ e ∈ rest, e ∈ expertIds) ∧ s'.Ok c n)
    (fun e rest t hI => wp_mono (prefetchOne_spec hI.2)
      (fun _ t' ht' => ⟨fun e' he' => hI.1 e' (List.mem_cons_of_mem e he'), ht'⟩)
      fun _ t' ht' => ⟨⟨e, hI.1 e List.mem_cons_self, ht'.1⟩, ht'.2⟩)
    expertIds s ⟨fun _ he => he, h⟩
  refine wp_mono hloop (fun _ s' hs' => ?_) fun _ _ hs' => hs'
  rw [wp_update]
  exact ⟨hs'.2.evict, fun _ => hs'.2.length_evict⟩

/-- **Getting**: the expert of the checkpoint, wherever it was. -/
theorem get_spec (h : s.Ok c n) : wp (get c layerId expertId)
    (fun bundle s' => c.expert layerId expertId = some bundle ∧ s'.Ok c n ∧
      (s.gpu.length ≤ n → s'.gpu.length ≤ n))
    (fun _ s' => c.expert layerId expertId = none ∧ s.Reads c n s') s := by
  unfold get
  rw [wp_bind, wp_current]
  cases hgpu : s.gpu.lookup (layerId, expertId) with
  | some bundle =>
    simp only [wp_bind, wp_update, wp_pure]
    exact ⟨h.gpu ((layerId, expertId), bundle) (mem_of_lookup hgpu), h.moveToEnd _,
      length_moveToEnd_le.trans⟩
  | none =>
    rw [wp_bind]
    refine wp_mono (loadHost_spec h) (fun host s' hs' => ?_) fun _ s' hs' => hs'
    simp only [wp_bind, wp_update, wp_pure]
    have hput := hs'.2.1.put hs'.1
    refine ⟨?_, hput.evict, fun _ => hput.length_evict⟩
    rw [toDevice_expert hs'.1]
    exact hs'.1

/-! ### Histories -/

/-- A call of the store. -/
inductive Call where
  | prefetch (layerId : ℕ) (expertIds : List ℕ)
  | get (layerId expertId : ℕ)

/-- The store after a call. -/
def step (c : Checkpoint T) (s : Store T) : Call → Store T
  | .prefetch layerId expertIds => (prefetch c layerId expertIds).state s
  | .get layerId expertId => (get c layerId expertId).state s

/-- A call answers with what the checkpoint has. -/
def Answers (c : Checkpoint T) (s : Store T) : Call → Prop
  | .prefetch layerId expertIds =>
    (∀ e ∈ expertIds, c.expert layerId e ≠ none) → ((prefetch c layerId expertIds).run s).2 = .ok ()
  | .get layerId expertId => ((get c layerId expertId).run s).2.toOption = c.expert layerId expertId

/-- The checkpoint has what is prefetched. -/
def Call.Known (c : Checkpoint T) : Call → Prop
  | .prefetch layerId expertIds => ∀ e ∈ expertIds, c.expert layerId e ≠ none
  | .get _ _ => True

theorem step_ok (s : Store T) (call : Call) (h : s.Ok c n) : (step c s call).Ok c n := by
  cases call with
  | prefetch layerId expertIds =>
    exact inv_of_wp
      (wp_mono (prefetch_spec h expertIds) (fun _ _ hs' => hs'.1) fun _ _ hs' => hs'.2)
  | get layerId expertId =>
    exact inv_of_wp (wp_mono (get_spec h) (fun _ _ hs' => hs'.2.1) fun _ _ hs' => hs'.2.1)

theorem step_answers (s : Store T) (call : Call) (h : s.Ok c n) : Answers c s call := by
  cases call with
  | prefetch layerId expertIds =>
    intro hknown
    obtain ⟨s', ⟨⟩, hrun, -⟩ :=
      exists_of_wp (wp_mono (prefetch_spec h expertIds) (fun _ _ hs' => hs') fun _ _ hs' => (by
        obtain ⟨⟨e, he, hnone⟩, -⟩ := hs'
        exact hknown e he hnone))
    rw [hrun]
  | get layerId expertId =>
    have hget : wp (get c layerId expertId) _ _ s := get_spec h
    change ((get c layerId expertId).run s).2.toOption = c.expert layerId expertId
    rcases hrun : (get c layerId expertId).run s with ⟨s', e | bundle⟩
    · exact (wp_error hget hrun).1.symm
    · exact (wp_ok hget hrun).1.symm

/-- **The bound**. -/
theorem length_step (call : Call) (h : s.Ok c n) (hknown : call.Known c) (hlen : s.gpu.length ≤ n) :
    (step c s call).gpu.length ≤ n := by
  cases call with
  | prefetch layerId expertIds =>
    refine inv_of_wp (I := fun s' => s'.gpu.length ≤ n) (wp_mono (prefetch_spec h expertIds)
      (fun _ _ hs' => hs'.2 hlen) fun _ _ hs' => ?_)
    obtain ⟨⟨e, he, hnone⟩, -⟩ := hs'
    exact absurd hnone (hknown e he)
  | get layerId expertId =>
    refine inv_of_wp (I := fun s' => s'.gpu.length ≤ n) (wp_mono (get_spec h)
      (fun _ _ hs' => hs'.2.2 hlen) fun _ _ hs' => ?_)
    rw [hs'.2.2]
    exact hlen

theorem init_ok {cuda : Bool} (h : Store.init c n cuda = .ok s) : s.Ok c n ∧ s.gpu = [] := by
  obtain ⟨shardFor, hindex, h⟩ := ok_of_bind h
  obtain rfl := Except.ok.inj h
  exact ⟨⟨hindex, by simp, by simp, by simp, rfl⟩, rfl⟩

/-- **Histories**: every call answers with what the checkpoint has. -/
theorem along_answers {cuda : Bool} (h : Store.init c n cuda = .ok s) (calls : List Call) :
    Along (step c) (Answers c) s calls :=
  along_of_inv_all step_ok step_answers calls s (init_ok h).1

/-- There are never more experts on the device than are allowed. -/
theorem along_length {cuda : Bool} (h : Store.init c n cuda = .ok s) {calls : List Call}
    (hknown : ∀ call ∈ calls, call.Known c) :
    Along (step c) (fun s call => (step c s call).gpu.length ≤ n) s calls := by
  obtain ⟨hok, hempty⟩ := init_ok h
  exact along_of_inv (I := fun s => s.Ok c n ∧ s.gpu.length ≤ n) (G := fun _ call => call.Known c)
    (fun s call hs hcall => ⟨step_ok s call hs.1, length_step call hs.1 hcall hs.2⟩)
    (fun s call hs hcall => length_step call hs.1 hcall hs.2) calls s ⟨hok, by simp [hempty]⟩
    (along_of_forall hknown s)

theorem exec_ok {cuda : Bool} (h : Store.init c n cuda = .ok s) (calls : List Call) :
    (exec (step c) s calls).Ok c n := inv_exec_all step_ok calls s (init_ok h).1

end

end MoeInfinity.Models.ExpertHostStore
