import Mathlib.Data.List.Dedup
import Mathlib.Data.List.Nodup
import Mathlib.Data.List.Range
import Mathlib.Order.Monotone.Basic
import MoeInfinity.Core.AioHandle
import MoeInfinity.Lib.Dict

/-! # The pipeline of a topology (`core/model/model_topology.cpp`)

`InitializeTopology` makes a stage of each entry of the topology, with a node for each of its groups
of tensors; a stage of several nodes is sparse. A node has a correlation id that packs its stage and
its place there, which `GetNodeBodyFromCorrID` unpacks. Then each node is given a default device:
the dense nodes in runs, the sparse ones in turn, partition by partition.

`none` is what C++ leaves undefined: a division by zero, the last element of an empty vector, a
tensor that is not in the index, a signed overflow.

* `corrIds_iff`: for which topologies the ids are unique and decoded to their nodes.
* `assigned_iff`: for which ones the devices are assigned. -/

namespace MoeInfinity.Core.ModelTopology

open MoeInfinity.Core.AioHandle MoeInfinity.Lib.Dict

abbrev TensorID := ℕ

/-- What is used of an entry of `kTensorIndex`. -/
structure TensorMeta where
  fileId : ℕ
  size : ℕ
deriving DecidableEq, Repr

abbrev TensorIndex := TensorID → Option TensorMeta

/-- The stages, each with a name and the tensors of its nodes. -/
abbrev Topology := List (String × List (List TensorID))

structure Node where
  id : ℕ
  corrId : BitVec 64
  tensorIds : List TensorID
  byteSize : ℕ
  isSparse : Bool
deriving DecidableEq, Repr

structure NodeBody where
  node : Node
  isSparse : Bool
deriving DecidableEq, Repr

structure Stage where
  isSparse : Bool
  nodes : List NodeBody
deriving DecidableEq, Repr

structure Pipeline where
  stages : List Stage
deriving DecidableEq, Repr

/-! ### Building the stages -/

/-- `(layer_id & 0xFFFFFFFF) | ((expert_id & 0xFFFFFFFF) << 32)`. -/
def corrId (layerId expertId : ℕ) : BitVec 64 :=
  (BitVec.ofNat 64 layerId &&& 0xFFFFFFFF#64) |||
  ((BitVec.ofNat 64 expertId &&& 0xFFFFFFFF#64) <<< 32)

/-- `(corr_id & 0xFFFFFFFF) | (UINT64_MAX << 32)`. -/
def lastCorrId (c : BitVec 64) : BitVec 64 := (c &&& 0xFFFFFFFF#64) ||| (BitVec.allOnes 64 <<< 32)

/-- The aligned sizes of the tensors that are in the index. -/
def byteSize (index : TensorIndex) (tensorIds : List TensorID) : ℕ :=
  ((tensorIds.filterMap index).map fun m => alignUp m.size).sum

/-- The nodes of a stage, from the place `expertId` on. -/
def stageNodes (index : TensorIndex) (isSparse : Bool) (layerId : ℕ) :
    ℕ → ℕ → List (List TensorID) → List NodeBody
  | _, _, [] => []
  | nodeId, expertId, tensorIds :: rest =>
    ⟨⟨nodeId, corrId layerId expertId, tensorIds, byteSize index tensorIds, isSparse⟩, isSparse⟩ ::
      stageNodes index isSparse layerId (nodeId + 1) (expertId + 1) rest

/-- The stages from the layer `layerId` on. -/
def buildStages (index : TensorIndex) : ℕ → ℕ → Topology → List Stage
  | _, _, [] => []
  | nodeId, layerId, (_, stageTensors) :: rest =>
    ⟨stageTensors.length > 1,
      stageNodes index (stageTensors.length > 1) layerId nodeId 0 stageTensors⟩ ::
        buildStages index (nodeId + stageTensors.length) (layerId + 1) rest

def NodeBody.markLast (body : NodeBody) : NodeBody :=
  { body with node := { body.node with corrId := lastCorrId body.node.corrId } }

def Stage.markLast (stage : Stage) : Stage :=
  { stage with nodes := stage.nodes.map NodeBody.markLast }

/-- `InitializeTopology`, up to the placement of the nodes. -/
def initializeTopology (index : TensorIndex) (topology : Topology) : Option Pipeline :=
  let stages := buildStages index 0 0 topology
  if stages = [] then none
  else some ⟨stages.modify (stages.length - 1) Stage.markLast⟩

namespace Pipeline

variable (p : Pipeline)

def getNodeBodyFromCorrID (correlationId : BitVec 64) : Option NodeBody :=
  let highCorrId := correlationId >>> 32
  let lowCorrId := correlationId &&& 0xFFFFFFFF#64
  let isLastNode := 0xFFFFFFFF#64 = highCorrId
  let highCorrId := if isLastNode then 0#64 else highCorrId
  p.stages[lowCorrId.toNat]?.bind fun stage => stage.nodes[highCorrId.toNat]?

def getDenseNodes : List Node :=
  (p.stages.filter fun stage => !stage.isSparse).flatMap fun stage => stage.nodes.map (·.node)

def getSparseNodes : List Node :=
  (p.stages.filter fun stage => stage.isSparse).flatMap fun stage => stage.nodes.map (·.node)

/-- The body at place `e` of stage `i`. -/
def body (i e : ℕ) : Option NodeBody := p.stages[i]?.bind fun stage => stage.nodes[e]?

end Pipeline

/-! ### Packing -/

theorem toNat_low (c : BitVec 64) : (c &&& 0xFFFFFFFF#64).toNat = c.toNat % 2 ^ 32 := by
  rw [BitVec.toNat_and]
  exact Nat.and_two_pow_sub_one_eq_mod c.toNat 32

theorem toNat_high (c : BitVec 64) : (c >>> 32).toNat = c.toNat / 2 ^ 32 := by
  rw [BitVec.toNat_ushiftRight, Nat.shiftRight_eq_div_pow]

/-- Two halves that are put together by `or`. -/
theorem toNat_pack {c d : BitVec 64} {low high : ℕ} (hc : c.toNat = low) (hlow : low < 2 ^ 32)
    (hd : d.toNat = 2 ^ 32 * high) : (c ||| d).toNat = 2 ^ 32 * high + low := by
  rw [BitVec.toNat_or, hc, hd, Nat.two_pow_add_eq_or_of_lt hlow, Nat.or_comm]

theorem toNat_corrId (layerId expertId : ℕ) :
    (corrId layerId expertId).toNat = 2 ^ 32 * (expertId % 2 ^ 32) + layerId % 2 ^ 32 := by
  have hofNat : ∀ n : ℕ, (BitVec.ofNat 64 n &&& 0xFFFFFFFF#64).toNat = n % 2 ^ 32 := by
    intro n
    rw [toNat_low, BitVec.toNat_ofNat]
    omega
  refine toNat_pack (hofNat layerId) (Nat.mod_lt _ (by decide)) ?_
  rw [BitVec.toNat_shiftLeft, hofNat, Nat.shiftLeft_eq]
  omega

theorem toNat_lastCorrId (c : BitVec 64) :
    (lastCorrId c).toNat = 2 ^ 32 * (2 ^ 32 - 1) + c.toNat % 2 ^ 32 :=
  toNat_pack (toNat_low c) (Nat.mod_lt _ (by decide)) (by decide)

/-- The number of the node that is found for the upper half `high`. -/
def decoded (high : ℕ) : ℕ := if high = 2 ^ 32 - 1 then 0 else high

theorem getNodeBodyFromCorrID_eq (p : Pipeline) {c : BitVec 64} {low high : ℕ}
    (hc : c.toNat = 2 ^ 32 * high + low) (hlow : low < 2 ^ 32) :
    p.getNodeBodyFromCorrID c = p.body low (decoded high) := by
  have hlow' : (c &&& 0xFFFFFFFF#64).toNat = low := by rw [toNat_low]; omega
  have hhigh : (c >>> 32).toNat = high := by rw [toNat_high]; omega
  have hlast : 0xFFFFFFFF#64 = c >>> 32 ↔ high = 2 ^ 32 - 1 := by
    rw [← BitVec.toNat_inj, hhigh]
    exact eq_comm
  unfold Pipeline.getNodeBodyFromCorrID Pipeline.body decoded
  simp only [hlow', hlast]
  split_ifs
  · rfl
  · rw [hhigh]

/-! ### The bodies of a pipeline -/

section Bodies

variable (index : TensorIndex)

theorem getElem?_stageNodes (isSparse : Bool) (layerId : ℕ) (groups : List (List TensorID)) :
    ∀ nodeId expertId e : ℕ, (stageNodes index isSparse layerId nodeId expertId groups)[e]? =
      groups[e]?.map fun tensorIds => ⟨⟨nodeId + e, corrId layerId (expertId + e), tensorIds,
        byteSize index tensorIds, isSparse⟩, isSparse⟩ := by
  induction groups with
  | nil => exact fun _ _ _ => rfl
  | cons tensorIds groups ih =>
    rintro nodeId expertId (_ | e)
    · rfl
    · rw [stageNodes, List.getElem?_cons_succ, ih, List.getElem?_cons_succ]
      simp only [Nat.add_assoc, Nat.add_comm 1 e]

/-- The number of nodes in the stages before `i`. -/
def start (topology : Topology) (i : ℕ) : ℕ :=
  ((topology.take i).map fun stage => stage.2.length).sum

theorem start_succ {topology : Topology} {i : ℕ} {stage : String × List (List TensorID)}
    (h : topology[i]? = some stage) :
    start topology (i + 1) = start topology i + stage.2.length := by
  unfold start
  rw [List.take_add_one, h]
  simp

theorem start_mono (topology : Topology) : Monotone (start topology) := by
  refine monotone_nat_of_le_succ fun i => ?_
  cases h : topology[i]? with
  | none =>
    have hlen := List.getElem?_eq_none_iff.mp h
    unfold start
    rw [List.take_of_length_le hlen, List.take_of_length_le (by omega)]
  | some stage =>
    rw [start_succ h]
    exact Nat.le_add_right ..

theorem getElem?_buildStages (topology : Topology) : ∀ nodeId layerId i : ℕ,
    (buildStages index nodeId layerId topology)[i]? = topology[i]?.map fun stage =>
      ⟨stage.2.length > 1, stageNodes index (stage.2.length > 1) (layerId + i)
        (nodeId + start topology i) 0 stage.2⟩ := by
  induction topology with
  | nil => exact fun _ _ _ => rfl
  | cons stage topology ih =>
    rintro nodeId layerId (_ | i)
    · rfl
    · obtain ⟨name, groups⟩ := stage
      have hstart : start ((name, groups) :: topology) (i + 1) =
        groups.length + start topology i := rfl
      rw [buildStages, List.getElem?_cons_succ, ih, List.getElem?_cons_succ, hstart]
      simp only [Nat.add_assoc, Nat.add_comm 1 i]

theorem length_buildStages (topology : Topology) : ∀ nodeId layerId : ℕ,
    (buildStages index nodeId layerId topology).length = topology.length := by
  induction topology with
  | nil => exact fun _ _ => rfl
  | cons stage topology ih =>
    intro nodeId layerId
    rw [buildStages, List.length_cons, ih, List.length_cons]

/-- The body of a group of tensors, as it is built at place `e` of stage `i`. -/
def bodyOf (topology : Topology) (i e : ℕ) (isSparse : Bool) (tensorIds : List TensorID) :
    NodeBody :=
  let body : NodeBody :=
    ⟨⟨start topology i + e, corrId i e, tensorIds, byteSize index tensorIds, isSparse⟩, isSparse⟩
  if i + 1 = topology.length then body.markLast else body

variable {index} {topology : Topology} {p : Pipeline}

theorem initializeTopology_eq_some (h : initializeTopology index topology = some p) :
    p.stages = (buildStages index 0 0 topology).modify (topology.length - 1) Stage.markLast ∧
      topology ≠ [] := by
  unfold initializeTopology at h
  simp only [Option.ite_none_left_eq_some, Option.some.injEq] at h
  obtain ⟨hne, rfl⟩ := h
  refine ⟨by rw [length_buildStages], ?_⟩
  rintro rfl
  exact hne rfl

theorem exists_initializeTopology (index : TensorIndex) (h : topology ≠ []) :
    ∃ p, initializeTopology index topology = some p := by
  refine ⟨_, if_neg fun h0 => h ?_⟩
  rw [← List.length_eq_zero_iff, ← length_buildStages index topology 0 0, h0]
  rfl

/-- The nodes of a stage as it is built. -/
theorem getElem?_nodes (h : initializeTopology index topology = some p) (i e : ℕ) :
    p.body i e = topology[i]?.bind fun stage =>
      stage.2[e]?.map fun tensorIds =>
          bodyOf index topology i e (stage.2.length > 1) tensorIds := by
  obtain ⟨hstages, hne⟩ := initializeTopology_eq_some h
  have hpos := List.length_pos_iff.mpr hne
  unfold Pipeline.body
  rw [hstages, List.getElem?_modify, getElem?_buildStages]
  cases hstage : topology[i]? with
  | none => rfl
  | some stage =>
    have hlast : topology.length - 1 = i ↔ i + 1 = topology.length := by omega
    have hbody : ∀ tensorIds, bodyOf index topology i e (stage.2.length > 1) tensorIds =
        if topology.length - 1 = i then (NodeBody.mk ⟨start topology i + e, corrId i e, tensorIds,
          byteSize index tensorIds, stage.2.length > 1⟩ (stage.2.length > 1)).markLast
        else ⟨⟨start topology i + e, corrId i e, tensorIds, byteSize index tensorIds,
          stage.2.length > 1⟩, stage.2.length > 1⟩ := by
      intro tensorIds
      unfold bodyOf
      simp only [hlast]
    show (if _ then Stage.markLast _ else _ : Stage).nodes[e]? = stage.2[e]?.map _
    simp only [hbody]
    split_ifs
    · rw [Stage.markLast, List.getElem?_map, getElem?_stageNodes, Option.map_map]
      simp only [Function.comp_def, Nat.zero_add]
    · rw [getElem?_stageNodes]
      simp only [Nat.zero_add]

/-- **What is at a place of the pipeline**. -/
theorem body_eq_some (h : initializeTopology index topology = some p) {i e : ℕ} {b : NodeBody} :
    p.body i e = some b ↔ ∃ stage tensorIds, topology[i]? = some stage ∧
    stage.2[e]? = some tensorIds ∧
      bodyOf index topology i e (stage.2.length > 1) tensorIds = b := by
  rw [getElem?_nodes h, Option.bind_eq_some_iff]
  simp only [Option.map_eq_some_iff]
  constructor
  · rintro ⟨stage, hstage, tensorIds, hids, hb⟩
    exact ⟨stage, tensorIds, hstage, hids, hb⟩
  · rintro ⟨stage, tensorIds, hstage, hids, hb⟩
    exact ⟨stage, hstage, tensorIds, hids, hb⟩

theorem id_bodyOf (topology : Topology) (i e : ℕ) (isSparse : Bool) (tensorIds : List TensorID) :
    (bodyOf index topology i e isSparse tensorIds).node.id = start topology i + e := by
  unfold bodyOf
  dsimp only
  split_ifs <;> rfl

theorem toNat_corrId_bodyOf (topology : Topology) (i e : ℕ) (isSparse : Bool)
    (tensorIds : List TensorID) :
    (bodyOf index topology i e isSparse tensorIds).node.corrId.toNat =
      2 ^ 32 * (if i + 1 = topology.length then 2 ^ 32 - 1 else e % 2 ^ 32) + i % 2 ^ 32 := by
  unfold bodyOf
  dsimp only
  split_ifs
  · rw [NodeBody.markLast, toNat_lastCorrId, toNat_corrId]
    omega
  · exact toNat_corrId i e

/-- Different places hold different nodes. -/
theorem body_injective (h : initializeTopology index topology = some p) {i e i' e' : ℕ}
    {b b' : NodeBody} (hb : p.body i e = some b) (hb' : p.body i' e' = some b')
    (hid : b.node.id = b'.node.id) :
    i = i' ∧ e = e' := by
  obtain ⟨stage, tensorIds, hstage, hids, rfl⟩ := (body_eq_some h).mp hb
  obtain ⟨stage', tensorIds', hstage', hids', rfl⟩ := (body_eq_some h).mp hb'
  rw [id_bodyOf, id_bodyOf] at hid
  have he := (List.getElem?_eq_some_iff.mp hids).1
  have he' := (List.getElem?_eq_some_iff.mp hids').1
  have hnext := start_succ hstage
  have hnext' := start_succ hstage'
  rcases Nat.lt_trichotomy i i' with hlt | rfl | hlt
  · have hmono := start_mono topology (show i + 1 ≤ i' from hlt)
    omega
  · exact ⟨rfl, by omega⟩
  · have hmono := start_mono topology (show i' + 1 ≤ i from hlt)
    omega

end Bodies

/-! ### Unique ids that are decoded to their nodes -/

/-- No two places have the same id, and the id of a place is decoded to the body there. -/
structure CorrIds (p : Pipeline) : Prop where
  unique : ∀ i e i' e' b b', p.body i e = some b → p.body i' e' = some b' →
    b.node.corrId = b'.node.corrId → i = i' ∧ e = e'
  decode : ∀ i e b, p.body i e = some b → p.getNodeBodyFromCorrID b.node.corrId = some b

/-- The last stage has one node at most, and the places of the other nodes are below
`0xFFFFFFFF`. -/
def CorrIdsFit (topology : Topology) : Prop :=
  ∀ i stage, topology[i]? = some stage → stage.2 ≠ [] →
    i < 2 ^ 32 ∧ stage.2.length ≤ if i + 1 = topology.length then 1 else 2 ^ 32 - 1

/-- The id of a place is decoded to the place of these numbers. -/
theorem decode_eq {index : TensorIndex} {topology : Topology} {p : Pipeline}
    (h : initializeTopology index topology = some p) {i e : ℕ} {b : NodeBody}
    (hb : p.body i e = some b) :
    p.getNodeBodyFromCorrID b.node.corrId = p.body (i % 2 ^ 32)
      (if i + 1 = topology.length then 0 else decoded (e % 2 ^ 32)) := by
  obtain ⟨stage, tensorIds, -, -, rfl⟩ := (body_eq_some h).mp hb
  rw [getNodeBodyFromCorrID_eq p (toNat_corrId_bodyOf topology i e _ tensorIds)
    (Nat.mod_lt _ (by decide))]
  split_ifs
  · rfl
  · rfl

/-- **Unique and decodable**: exactly where the numbers fit and the last stage has one node at
most. -/
theorem corrIds_iff (index : TensorIndex) (topology : Topology) :
    (∃ p, initializeTopology index topology = some p ∧ CorrIds p) ↔ topology ≠ [] ∧
    CorrIdsFit topology := by
  constructor
  · rintro ⟨p, h, hcorr⟩
    refine ⟨(initializeTopology_eq_some h).2, fun i stage hstage hne => ?_⟩
    -- a place is decoded to itself, so its numbers are those that are found for its id
    have hplace : ∀ e < stage.2.length, i = i % 2 ^ 32 ∧
        e = if i + 1 = topology.length then 0 else decoded (e % 2 ^ 32) := by
      intro e he
      have hb : p.body i e = some _ :=
        (body_eq_some h).mpr ⟨stage, _, hstage, List.getElem?_eq_getElem he, rfl⟩
      have hdecode := hcorr.decode i e _ hb
      rw [decode_eq h hb] at hdecode
      exact body_injective h hb hdecode rfl
    have hpos := List.length_pos_iff.mpr hne
    refine ⟨by have := (hplace 0 hpos).1; omega, ?_⟩
    have hlast := (hplace (stage.2.length - 1) (by omega)).2
    unfold decoded at hlast
    split_ifs at hlast ⊢ <;> omega
  · rintro ⟨hne, hfit⟩
    obtain ⟨p, h⟩ := exists_initializeTopology index hne
    have hdecode : ∀ i e b, p.body i e = some b →
    p.getNodeBodyFromCorrID b.node.corrId = some b := by
      intro i e b hb
      obtain ⟨stage, tensorIds, hstage, hids, -⟩ := (body_eq_some h).mp hb
      have he := (List.getElem?_eq_some_iff.mp hids).1
      obtain ⟨hi, hlen⟩ := hfit i stage hstage (List.length_pos_iff.mp (by omega))
      have hplace : (if i + 1 = topology.length then 0 else decoded (e % 2 ^ 32)) = e := by
        unfold decoded
        split_ifs at hlen ⊢ <;> omega
      rw [decode_eq h hb, Nat.mod_eq_of_lt hi, hplace, hb]
    refine ⟨p, h, fun i e i' e' b b' hb hb' hcorr => ?_, hdecode⟩
    have heq : b = b' := by
      rw [← Option.some.injEq, ← hdecode i e b hb, ← hdecode i' e' b' hb', hcorr]
    exact body_injective h hb hb' (by rw [heq])

/-- Two experts in the last stage have the same id, which is decoded to the first of them. The two
dense nodes before them are what one GPU needs for its default devices. -/
theorem lastStage_collides : ¬ ∀ (index : TensorIndex) (topology : Topology) (p : Pipeline),
    initializeTopology index topology = some p → CorrIds p := by
  intro h
  have hunique :=
    (h (fun _ => some ⟨0, 8⟩) [("embed", [[0]]), ("norm", [[1]]), ("experts", [[2], [3]])] _
      rfl).unique 2 0 2 1 _ _ rfl rfl rfl
  exact absurd hunique.2 (by decide)

/-! ### Default devices -/

/-- The largest `int`. -/
def intMax : ℕ := 2 ^ 31 - 1

/-- The writes to `default_device`, the last one first, and the GPU that is next. -/
structure Placement where
  writes : List (ℕ × ℕ)
  targetDeviceId : ℕ
deriving DecidableEq, Repr

namespace Placement

variable (pl : Placement)

def write (node : Node) (index : ℕ) : Placement :=
  { pl with writes := (node.id, index) :: pl.writes }

def next (numGpu : ℕ) : Placement := { pl with targetDeviceId := (pl.targetDeviceId + 1) % numGpu }

/-- The default device of a node, if it was given one. -/
def defaultDevice (node : Node) : Option ℕ := pl.writes.lookup node.id

end Placement

/-- The loop over the dense nodes; `counter` is an `int`. -/
def placeDense (numGpu numDenseNodesPerDevice : ℕ) : ℕ → Placement → List Node → Option Placement
  | _, pl, [] => some pl
  | counter, pl, node :: nodes =>
    let pl := pl.write node pl.targetDeviceId
    if intMax < counter + 1 ∨ numDenseNodesPerDevice = 0 then none
    else placeDense numGpu numDenseNodesPerDevice (counter + 1)
      (if (counter + 1) % numDenseNodesPerDevice = 0 then pl.next numGpu else pl) nodes

/-- The file of the first tensor of a node. -/
def partition (index : TensorIndex) (node : Node) : Option ℕ :=
  (node.tensorIds.head?.bind index).map (·.fileId)

/-- The sparse nodes in the order of their partitions, with those of a partition in the order of the
pipeline. -/
def nodesByPartition (index : TensorIndex) (nodes : List Node) : Option (List Node) :=
  if nodes.any fun node => (partition index node).isNone then none
  else
    let partitionIds := (nodes.filterMap (partition index)).dedup.mergeSort (· ≤ ·)
    some (partitionIds.flatMap fun fid => nodes.filter fun node => partition index node = some fid)

def placeSparse (numGpu : ℕ) (pl : Placement) (nodes : List Node) : Placement :=
  nodes.foldl (fun pl node => (pl.write node pl.targetDeviceId).next numGpu) pl

/-- `InitializeTopology`, as far as default devices are concerned. -/
def assignDevices (numGpu : ℕ) (index : TensorIndex) (p : Pipeline) : Option Placement :=
  let denseNodes := p.getDenseNodes
  if numGpu = 0 then none
  else
    -- the quotients are integers already when `std::ceil` is applied to them
    let numDenseNodesPerDevice := denseNodes.length / numGpu / 2
    if intMax < numDenseNodesPerDevice then none
    else do
      let pl ← placeDense numGpu numDenseNodesPerDevice 0 ⟨[], 0⟩ denseNodes
      let back ← denseNodes.getLast?
      let sparseNodes ← nodesByPartition index p.getSparseNodes
      return placeSparse numGpu (pl.write back (numGpu - 1)) sparseNodes

/-! ### Placements in range -/

section InRange

variable {numGpu : ℕ} {pl pl' : Placement}

/-- What was written and what is written next are numbers of GPUs. -/
structure Placement.InRange (numGpu : ℕ) (pl : Placement) : Prop where
  target : pl.targetDeviceId < numGpu
  writes : ∀ w ∈ pl.writes, w.2 < numGpu

/-- The nodes were all given a device. -/
def Placement.Gives (pl : Placement) (nodes : List Node) : Prop :=
  ∀ node ∈ nodes, node.id ∈ pl.writes.map Prod.fst

theorem Placement.InRange.write (h : pl.InRange numGpu) (node : Node) {index : ℕ}
    (hi : index < numGpu) :
    (pl.write node index).InRange numGpu := by
  refine ⟨h.target, fun w hw => ?_⟩
  rcases List.mem_cons.mp hw with rfl | hw
  · exact hi
  · exact h.writes w hw

theorem Placement.InRange.next (h : pl.InRange numGpu) : (pl.next numGpu).InRange numGpu :=
  ⟨Nat.mod_lt _ (Nat.zero_lt_of_lt h.target), h.writes⟩

/-- The device of a node that was given one is in range. -/
theorem Placement.InRange.defaultDevice (h : pl.InRange numGpu) {nodes : List Node}
    (hgives : pl.Gives nodes) {node : Node} (hnode : node ∈ nodes) :
    ∃ index, pl.defaultDevice node = some index ∧ index < numGpu := by
  cases hlookup : pl.writes.lookup node.id with
  | none => exact absurd (hgives node hnode) (lookup_eq_none.mp hlookup)
  | some index => exact ⟨index, hlookup, h.writes _ (mem_of_lookup hlookup)⟩

theorem placeDense_spec {perDevice : ℕ} (hper : perDevice ≠ 0) (nodes : List Node) :
    ∀ (counter : ℕ) (pl : Placement), counter + nodes.length ≤ intMax → pl.InRange numGpu →
      ∃ pl', placeDense numGpu perDevice counter pl nodes = some pl' ∧ pl'.InRange numGpu ∧
        pl'.Gives nodes ∧ pl.writes ⊆ pl'.writes := by
  induction nodes with
  | nil => exact fun _ pl _ h => ⟨pl, rfl, h, nofun, List.Subset.refl _⟩
  | cons node nodes ih =>
    intro counter pl hcount h
    rw [List.length_cons] at hcount
    have hwrite := h.write node h.target
    obtain ⟨pl', heq, hrange, hgives, hsub⟩ := ih (counter + 1)
      (if (counter + 1) % perDevice = 0 then (pl.write node pl.targetDeviceId).next numGpu
        else pl.write node pl.targetDeviceId) (by omega) (by split_ifs; exacts [hwrite.next,
          hwrite])
    have hsub' : (node.id, pl.targetDeviceId) :: pl.writes ⊆ pl'.writes := by
      split_ifs at hsub <;> exact hsub
    refine ⟨pl', ?_, hrange, fun node' hnode' => ?_, fun w hw => hsub' (List.mem_cons_of_mem _ hw)⟩
    · rw [placeDense, if_neg (by simp only [hper, or_false]; omega), heq]
    · rcases List.mem_cons.mp hnode' with rfl | hnode'
      · exact List.mem_map_of_mem (hsub' List.mem_cons_self)
      · exact hgives node' hnode'

/-- A loop that comes to its end has divided by a number that is not zero. -/
theorem of_placeDense {perDevice : ℕ} (nodes : List Node) : ∀ (counter : ℕ) (pl : Placement),
    placeDense numGpu perDevice counter pl nodes = some pl' → nodes ≠ [] →
      perDevice ≠ 0 ∧ counter + nodes.length ≤ intMax := by
  induction nodes with
  | nil => exact fun _ _ _ h => absurd rfl h
  | cons node nodes ih =>
    intro counter pl heq _
    rw [placeDense] at heq
    simp only [Option.ite_none_left_eq_some, not_or, not_lt] at heq
    obtain ⟨⟨hcount, hper⟩, heq⟩ := heq
    refine ⟨hper, ?_⟩
    rcases eq_or_ne nodes [] with rfl | hne
    · exact hcount
    · have hrest := (ih _ _ heq hne).2
      rw [List.length_cons]
      omega

theorem placeSparse_spec (nodes : List Node) : ∀ pl : Placement, pl.InRange numGpu →
    (placeSparse numGpu pl nodes).InRange numGpu ∧ (placeSparse numGpu pl nodes).Gives nodes ∧
      pl.writes ⊆ (placeSparse numGpu pl nodes).writes := by
  induction nodes with
  | nil => exact fun pl h => ⟨h, nofun, List.Subset.refl _⟩
  | cons node nodes ih =>
    intro pl h
    obtain ⟨hrange, hgives, hsub⟩ := ih _ (h.write node h.target).next
    refine ⟨hrange, fun node' hnode' => ?_, fun w hw => hsub (List.mem_cons_of_mem _ hw)⟩
    rcases List.mem_cons.mp hnode' with rfl | hnode'
    · exact List.mem_map_of_mem (hsub List.mem_cons_self)
    · exact hgives node' hnode'

theorem nodesByPartition_cases (index : TensorIndex) (nodes : List Node) :
    ((∃ node ∈ nodes, partition index node = none) ∧ nodesByPartition index nodes = none) ∨
      ((∀ node ∈ nodes, partition index node ≠ none) ∧
        ∃ order, nodesByPartition index nodes = some order ∧ nodes ⊆ order) := by
  unfold nodesByPartition
  by_cases hany : nodes.any fun node => (partition index node).isNone
  · rw [if_pos hany]
    simp only [List.any_eq_true, Option.isNone_iff_eq_none] at hany
    exact Or.inl ⟨hany, rfl⟩
  · rw [if_neg hany]
    simp only [List.any_eq_true, Option.isNone_iff_eq_none, not_exists, not_and] at hany
    refine Or.inr ⟨hany, _, rfl, fun node hnode => ?_⟩
    obtain ⟨fid, hfid⟩ := Option.ne_none_iff_exists'.mp (hany node hnode)
    refine List.mem_flatMap.mpr ⟨fid, ?_, List.mem_filter.mpr ⟨hnode, by simpa using hfid⟩⟩
    rw [List.mem_mergeSort, List.mem_dedup]
    exact List.mem_filterMap.mpr ⟨node, hnode, hfid⟩

/-- Every GPU has a node in each half of the dense nodes. -/
theorem perDevice_ne_zero (hgpu : 1 ≤ numGpu) (n : ℕ) : n / numGpu / 2 ≠ 0 ↔ 2 * numGpu ≤ n := by
  rw [Nat.div_div_eq_div_mul, ← Nat.pos_iff_ne_zero, Nat.div_pos_iff, Nat.mul_comm]
  exact ⟨fun h => h.2, fun h => ⟨by omega, h⟩⟩

/-- **The loop over the dense nodes and the write to the last one** come to their end exactly if
there are two dense nodes for every GPU. -/
theorem placeDense_cases (hgpu : 1 ≤ numGpu) (nodes : List Node) :
    (∃ pl back, placeDense numGpu (nodes.length / numGpu / 2) 0 ⟨[], 0⟩ nodes = some pl ∧
      nodes.getLast? = some back ∧ pl.InRange numGpu ∧ pl.Gives nodes ∧ 2 * numGpu ≤ nodes.length ∧
        nodes.length ≤ intMax) ∨
    ((placeDense numGpu (nodes.length / numGpu / 2) 0 ⟨[], 0⟩ nodes = none ∨
    nodes.getLast? = none) ∧
      ¬ (2 * numGpu ≤ nodes.length ∧ nodes.length ≤ intMax)) := by
  by_cases hlen : 2 * numGpu ≤ nodes.length ∧ nodes.length ≤ intMax
  · have hinit : Placement.InRange numGpu ⟨[], 0⟩ := ⟨hgpu, nofun⟩
    obtain ⟨pl, heq, hrange, hgives, -⟩ := placeDense_spec
      ((perDevice_ne_zero hgpu nodes.length).mpr hlen.1) nodes 0 _ (by omega) hinit
    have hne : nodes ≠ [] := List.ne_nil_of_length_pos (by omega)
    exact Or.inl ⟨pl, _, heq, List.getLast?_eq_some_getLast hne, hrange, hgives, hlen⟩
  · refine Or.inr ⟨?_, hlen⟩
    rcases eq_or_ne nodes [] with rfl | hne
    · exact Or.inr rfl
    · refine Or.inl (Option.eq_none_iff_forall_ne_some.mpr fun pl heq => hlen ?_)
      obtain ⟨hper, hcount⟩ := of_placeDense nodes 0 _ heq hne
      exact ⟨(perDevice_ne_zero hgpu _).mp hper, by omega⟩

/-- **The assignment of the devices**: every node gets one, in range, exactly where there are two
dense nodes for every GPU and the files of the sparse nodes are known. -/
theorem assignDevices_cases (hgpu : 1 ≤ numGpu) (index : TensorIndex) (p : Pipeline) :
    (∃ pl, assignDevices numGpu index p = some pl ∧ pl.InRange numGpu ∧
      pl.Gives (p.getDenseNodes ++ p.getSparseNodes) ∧ 2 * numGpu ≤ p.getDenseNodes.length ∧
        p.getDenseNodes.length ≤ intMax ∧ ∀ node ∈ p.getSparseNodes, partition index node ≠ none) ∨
    (assignDevices numGpu index p = none ∧ ¬ (2 * numGpu ≤ p.getDenseNodes.length ∧
      p.getDenseNodes.length ≤ intMax ∧ ∀ node ∈ p.getSparseNodes,
      partition index node ≠ none)) := by
  have hdiv : p.getDenseNodes.length / numGpu / 2 ≤ p.getDenseNodes.length :=
    (Nat.div_le_self ..).trans (Nat.div_le_self ..)
  unfold assignDevices
  rw [if_neg (by omega)]
  rcases placeDense_cases hgpu p.getDenseNodes
    with ⟨pl, back, heq, hback, hrange, hgives, hlen, hmax⟩ | ⟨hnone, hlen⟩
  · rw [if_neg (by omega)]
    simp only [heq, hback, Option.bind_eq_bind, Option.bind_some]
    rcases nodesByPartition_cases index p.getSparseNodes
      with ⟨⟨node, hnode, hfid⟩, hnone⟩ | ⟨hfid, order, horder, hsub⟩
    · rw [hnone]
      exact Or.inr ⟨rfl, fun h => h.2.2 node hnode hfid⟩
    · rw [horder]
      obtain ⟨hrange', hgives', hwrites⟩ :=
        placeSparse_spec order _ (hrange.write back (show numGpu - 1 < numGpu by omega))
      refine Or.inl ⟨_, rfl, hrange', fun node hnode => ?_, hlen, hmax, hfid⟩
      rcases List.mem_append.mp hnode with hnode | hnode
      · have hmem : node.id ∈ (pl.write back (numGpu - 1)).writes.map Prod.fst :=
          List.mem_cons_of_mem _ (hgives node hnode)
        obtain ⟨w, hw, hid⟩ := List.mem_map.mp hmem
        exact List.mem_map.mpr ⟨w, hwrites hw, hid⟩
      · exact hgives' node (hsub hnode)
  · refine Or.inr ⟨?_, fun h => hlen ⟨h.1, h.2.1⟩⟩
    dsimp only
    split_ifs
    · rfl
    · rcases hnone with hnone | hnone
      · rw [hnone]
        rfl
      · rw [hnone]
        simp

end InRange

/-! ### The nodes of a topology -/

/-- The groups of tensors that are dense nodes, and those that are sparse ones. -/
def denseGroups (topology : Topology) : List (List TensorID) :=
  (topology.filter fun stage => ¬ stage.2.length > 1).flatMap (·.2)

def sparseGroups (topology : Topology) : List (List TensorID) :=
  (topology.filter fun stage => stage.2.length > 1).flatMap (·.2)

section Groups

variable {index : TensorIndex} {topology : Topology} {p : Pipeline}

/-- The kind of a stage, and the tensors of its nodes. -/
def Stage.groups (stage : Stage) : Bool × List (List TensorID) :=
  (stage.isSparse, stage.nodes.map fun body => body.node.tensorIds)

theorem groups_markLast (stage : Stage) : stage.markLast.groups = stage.groups := by
  unfold Stage.markLast Stage.groups
  rw [List.map_map]
  rfl

theorem tensorIds_stageNodes (isSparse : Bool) (layerId : ℕ) (groups : List (List TensorID)) :
    ∀ nodeId expertId : ℕ, ((stageNodes index isSparse layerId nodeId expertId groups).map
      fun body => body.node.tensorIds) = groups := by
  induction groups with
  | nil => exact fun _ _ => rfl
  | cons tensorIds groups ih =>
    intro nodeId expertId
    rw [stageNodes, List.map_cons, ih]

theorem groups_stages (h : initializeTopology index topology = some p) :
    p.stages.map Stage.groups = topology.map fun stage =>
      (decide (stage.2.length > 1), stage.2) := by
  rw [(initializeTopology_eq_some h).1]
  refine List.ext_getElem? fun i => ?_
  rw [List.getElem?_map, List.getElem?_modify, List.getElem?_map, getElem?_buildStages]
  cases topology[i]? with
  | none => rfl
  | some stage =>
    simp only [Option.map_some, Option.map_eq_map]
    split_ifs
    · rw [groups_markLast, Stage.groups, tensorIds_stageNodes]
    · rw [Stage.groups, tensorIds_stageNodes]

/-- The nodes of the stages of one kind. -/
theorem tensorIds_nodes (h : initializeTopology index topology = some p) (kind : Bool → Bool) :
    ((p.stages.filter fun stage => kind stage.isSparse).flatMap fun stage =>
      stage.nodes.map (·.node)).map (·.tensorIds) =
        (topology.filter fun stage => kind (stage.2.length > 1)).flatMap (·.2) := by
  have hgroups :=
    congrArg (fun l => (l.filter fun s => kind s.1).flatMap Prod.snd) (groups_stages h)
  simp only [List.filter_map, List.flatMap_map, Function.comp_def] at hgroups
  rw [← hgroups, List.map_flatMap]
  simp only [List.map_map, Function.comp_def, Stage.groups]

theorem tensorIds_getDenseNodes (h : initializeTopology index topology = some p) :
    p.getDenseNodes.map (·.tensorIds) = denseGroups topology := by
  unfold denseGroups
  simp only [decide_not]
  exact tensorIds_nodes h not

theorem tensorIds_getSparseNodes (h : initializeTopology index topology = some p) :
    p.getSparseNodes.map (·.tensorIds) = sparseGroups topology := tensorIds_nodes h id

end Groups

/-- The file of a group: that of its first tensor, if the index has it. -/
def HasFile (index : TensorIndex) (tensorIds : List TensorID) : Prop :=
  ∃ t m, tensorIds.head? = some t ∧ index t = some m

theorem hasFile_iff (index : TensorIndex) (node : Node) :
    HasFile index node.tensorIds ↔ partition index node ≠ none := by
  unfold HasFile partition
  rw [Ne, Option.map_eq_none_iff, Option.bind_eq_none_iff]
  simp only [not_forall, exists_prop]
  constructor
  · rintro ⟨t, m, ht, hm⟩
    exact ⟨t, ht, by rw [hm]; nofun⟩
  · rintro ⟨t, ht, hm⟩
    obtain ⟨m, hm⟩ := Option.ne_none_iff_exists'.mp hm
    exact ⟨t, m, ht, hm⟩

/-- The device assignment comes to its end, all devices it writes are in range, and each node has
one. -/
def Assigned (numGpu : ℕ) (index : TensorIndex) (topology : Topology) : Prop :=
  ∃ p pl, initializeTopology index topology = some p ∧ assignDevices numGpu index p = some pl ∧
    (∀ w ∈ pl.writes, w.2 < numGpu) ∧
      ∀ node ∈ p.getDenseNodes ++ p.getSparseNodes, ∃ i, pl.defaultDevice node = some i ∧ i < numGpu

/-- **Default devices**: they are assigned exactly if there are at least two dense nodes for each
GPU, no more than an `int` counts, and the index knows the first tensor of every sparse node. -/
theorem assigned_iff {numGpu : ℕ} (hgpu : 1 ≤ numGpu) (index : TensorIndex) (topology : Topology) :
    Assigned numGpu index topology ↔ 2 * numGpu ≤ (denseGroups topology).length ∧
      (denseGroups topology).length ≤ intMax ∧ ∀ tensorIds ∈ sparseGroups topology,
      HasFile index tensorIds := by
  have hcond : ∀ p, initializeTopology index topology = some p →
      ((2 * numGpu ≤ p.getDenseNodes.length ∧ p.getDenseNodes.length ≤ intMax ∧
        ∀ node ∈ p.getSparseNodes, partition index node ≠ none) ↔
      (2 * numGpu ≤ (denseGroups topology).length ∧ (denseGroups topology).length ≤ intMax ∧
        ∀ tensorIds ∈ sparseGroups topology, HasFile index tensorIds)) := by
    intro p h
    rw [← tensorIds_getDenseNodes h, ← tensorIds_getSparseNodes h, List.length_map]
    simp only [List.forall_mem_map, hasFile_iff]
  constructor
  · rintro ⟨p, pl, h, hpl, -⟩
    rcases assignDevices_cases hgpu index p with ⟨-, -, -, -, hlen⟩ | ⟨hnone, -⟩
    · exact (hcond p h).mp hlen
    · rw [hnone] at hpl
      cases hpl
  · intro hlen
    have hne : topology ≠ [] := by
      rintro rfl
      have h0 : 2 * numGpu ≤ 0 := hlen.1
      omega
    obtain ⟨p, h⟩ := exists_initializeTopology index hne
    rcases assignDevices_cases hgpu index p with ⟨pl, hpl, hrange, hgives, -⟩ | ⟨-, hnot⟩
    · exact ⟨p, pl, h, hpl, hrange.writes, fun node hnode => hrange.defaultDevice hgives hnode⟩
    · exact absurd ((hcond p h).mpr hlen) hnot

/-- Two dense nodes and two experts on one GPU. -/
theorem assigned_oneGpu :
    Assigned 1 (fun _ => some ⟨0, 8⟩) [("embed", [[0]]), ("experts", [[1], [2]]),
      ("head", [[3]])] :=
  (assigned_iff (by decide) _ _).mpr ⟨by decide, by decide, fun tensorIds h => by
    have hmem : tensorIds ∈ [[1], [2]] := h
    rcases List.mem_pair.mp hmem with rfl | rfl
    · exact ⟨1, _, rfl, rfl⟩
    · exact ⟨2, _, rfl, rfl⟩⟩

/-- A model with one dense node: the number of dense nodes for each device is zero. -/
theorem oneDense_divides :
    ¬ ∀ (numGpu : ℕ) (index : TensorIndex) (topology : Topology), 1 ≤ numGpu →
    1 ≤ (denseGroups topology).length → Assigned numGpu index topology := by
  intro h
  obtain ⟨p, pl, hp, hpl, -⟩ :=
    h 1 (fun _ => some ⟨0, 8⟩) [("embed", [[0]])] (by decide) (by decide)
  have hp' : p = ⟨[⟨false, [⟨⟨0, lastCorrId (corrId 0 0), [0], 4096, false⟩, false⟩]⟩]⟩ :=
    (Option.some.inj hp).symm
  subst hp'
  have hnone : assignDevices 1 (fun _ => some ⟨0, 8⟩)
      ⟨[⟨false, [⟨⟨0, lastCorrId (corrId 0 0), [0], 4096, false⟩, false⟩]⟩]⟩ = none := rfl
  rw [hnone] at hpl
  cases hpl

end MoeInfinity.Core.ModelTopology
