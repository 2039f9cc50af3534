import Mathlib.Data.List.Nodup
import Mathlib.Data.List.Range
import MoeInfinity.Runtime.Topology

/-! # The numbers of a MoE layer (`runtime/model_offload.py`)

A MoE layer gets a number three times: `archer_from_pretrained` counts the modules,
`setup_archer_hooks` counts the stages of experts in the topology, and `parse_expert_id` reads the
names of the parameters. The first two start behind the dense layers of DeepSeek, which they
recognize by the name of the model.

Which layers have experts, and which other parameters there are, is up to `transformers`
(`Model`). -/

namespace MoeInfinity.Runtime.LayerNumbers

open MoeInfinity.Lib.Backtrack MoeInfinity.Lib.Backtrack.Pattern MoeInfinity.Lib.Dict
open MoeInfinity.Utils.HfConfig MoeInfinity.Runtime.Topology

/-! ### Models -/

section Layers

variable (f : Family) (config : PretrainedConfig)

/-- The layers in the order of the modules. -/
def blocks : List Block :=
  match f with
  | .nllb => (List.range config.encoderLayers).map (⟨.encoder, ·⟩) ++
      (List.range config.decoderLayers).map (⟨.decoder, ·⟩)
  | _ => (List.range config.numHiddenLayers).map (⟨.decoder, ·⟩)

/-- The layers that `transformers` builds with experts. -/
def Sparse (b : Block) : Prop :=
  match f, b.layerType with
  | .mixtral, _ => True
  | .qwen3, _ => b.index ∉ config.mlpOnlyLayers ∧ 0 < config.numExperts ∧
      (b.index + 1) % config.decoderSparseStep = 0
  | .nllb, .encoder => (b.index + 1) % config.encoderSparseStep = 0
  | .nllb, .decoder => (b.index + 1) % config.decoderSparseStep = 0
  | _, _ => config.firstKDenseReplace.getD 0 ≤ b.index

instance (b : Block) : Decidable (Sparse f config b) := by
  unfold Sparse
  split <;> infer_instance

def numExperts : ℕ := (f.moeParam config).numExperts

end Layers

/-- A model of a family, and `name_id_map` when it is loaded. Checkpoints may have tensors of
decoder layers behind the last one, and other tensors of the experts than the parameters. -/
structure Model (f : Family) (config : PretrainedConfig) where
  architectures : config.architectures = [f.architecture]
  modelType : config.modelType = f.modelType
  firstK : config.firstKDenseReplace.isSome ↔ f = .deepseekV2 ∨ f = .deepseekV3
  moe : Block → Bool
  moe_iff : ∀ b ∈ blocks f config, moe b = true ↔ Sparse f config b
  head : List Name
  before : Block → List Name
  after : Block → List Name
  tail : List Name
  buffers : List Name
  plain_head : ∀ name ∈ head, Plain name
  plain_before : ∀ b, ∀ name ∈ before b, Plain name
  plain_after : ∀ b, ∀ name ∈ after b, Plain name
  plain_tail : ∀ name ∈ tail, Plain name
  plain_buffers : ∀ name ∈ buffers, Plain name
  nameIdMap : List (Name × ℕ)
  keys : (nameIdMap.map Prod.fst).Nodup
  stored : ∀ b ∈ blocks f config, moe b = true → ∀ e < numExperts f config,
    ∀ projection ∈ f.projections,
    ∃ id, nameIdMap.lookup (f.paramName b e projection) = some id
  known : ∀ name ∈ nameIdMap.map Prod.fst, Plain name ∨
    ∃ b e tensor, name = f.paramName b e tensor ∧ (f = .nllb → '_' ∉ tensor.toList) ∧
      (b ∈ blocks f config ∧ moe b = true ∨
        b.layerType = .decoder ∧ ∀ b' ∈ blocks f config, b'.layerType = .decoder →
        b'.index < b.index)

section Parameters

variable {f : Family} {config : PretrainedConfig} (m : Model f config)

def Model.moeBlocks : List Block := (blocks f config).filter m.moe

def expertParams (f : Family) (config : PretrainedConfig) (b : Block) : List Name :=
  (List.range (numExperts f config)).flatMap fun e => f.projections.map (f.paramName b e)

/-- `model.named_parameters(recurse=True)`. -/
def Model.params : List Name :=
  m.head ++ ((blocks f config).flatMap fun b =>
    m.before b ++ ((if m.moe b then expertParams f config b else []) ++ m.after b)) ++ m.tail

/-- The ids of the parameters of an expert. -/
def Model.ids (b : Block) (e : ℕ) : List ℕ :=
  f.projections.filterMap fun projection => m.nameIdMap.lookup (f.paramName b e projection)

end Parameters

/-! ### Loading -/

/-- The tensors of the experts by the numbers of the layer and the expert. -/
abbrev ExpertDispatcher := List ((ℕ × ℕ) × List ℕ)

/-- `expert_layer_modules` are the MoE modules with their `layer_id`. -/
structure OffloadEngine where
  expertTensorMap : List ((ℕ × ℕ) × ℕ)
  expertLayerModules : List (Block × ℕ)
  expertDispatcher : ExpertDispatcher

def addExpertTensor (config : PretrainedConfig) (expertTensorMap : List ((ℕ × ℕ) × ℕ))
    (entry : Name × ℕ) :
    Except ConfigError (List ((ℕ × ℕ) × ℕ)) := do
  match ← parseExpertId entry.1 config with
  | some (layerId, some expertId) => return put (layerId, expertId) entry.2 expertTensorMap
  | _ => return expertTensorMap

def firstKDenseReplace (config : PretrainedConfig) (modelName : Name) : Except ConfigError ℕ :=
  if Contains "deepseek" modelName then
    match config.firstKDenseReplace with
    | some k => .ok k
    | none => .error .missingAttribute
  else .ok 0

/-- The calls of `register_expert` for one stage. -/
def registerExpertsFrom (expertLayerId : ℕ) :
    ℕ → List (List ℕ) → ExpertDispatcher → ExpertDispatcher
  | _, [], dispatcher => dispatcher
  | expertIdx, expertTensors :: tensors, dispatcher =>
    registerExpertsFrom expertLayerId (expertIdx + 1) tensors
      (put (expertLayerId, expertIdx) expertTensors dispatcher)

/-- The key of a stage, cut where it is a shared one. -/
def hookKey (key : Name) : Name :=
  if Contains "shared" key ∨ Contains "lm_head" key then key.takeWhile (· ≠ '.') else key

/-- The loop of `setup_archer_hooks` over the topology, for the experts. -/
def setupArcherHooks (config : PretrainedConfig) :
    List (Name × List (List ℕ)) → ℕ → ExpertDispatcher → ExpertDispatcher
  | [], _, dispatcher => dispatcher
  | (key, tensors) :: topo, expertLayerId, dispatcher =>
    if Contains "expert" (hookKey key) ∧ config.modelType ≠ "gpt_oss" then
      setupArcherHooks config topo (expertLayerId + 1)
        (registerExpertsFrom expertLayerId 0 tensors dispatcher)
    else setupArcherHooks config topo expertLayerId dispatcher

def archerFromPretrained {f : Family} {config : PretrainedConfig} (m : Model f config)
    (modelName : Name) :
    Except ConfigError OffloadEngine := do
  let _ ← parseMoeParam config
  let expertTensorMap ← m.nameIdMap.foldlM (addExpertTensor config) []
  let k ← firstKDenseReplace config modelName
  let expertLayerModules := m.moeBlocks.zipIdx.map fun (b, moduleIdx) => (b, moduleIdx + k)
  let topo ← getTopology m.nameIdMap m.params m.buffers
  let expertLayerId ← firstKDenseReplace config modelName
  return ⟨expertTensorMap, expertLayerModules, setupArcherHooks config topo expertLayerId []⟩

/-! ### Agreement -/

/-- Under the number `layerId` everything finds expert `e` of the layer `b`. -/
structure Routed {f : Family} {config : PretrainedConfig} (m : Model f config)
    (engine : OffloadEngine) (b : Block) (layerId e : ℕ) : Prop where
  registered : engine.expertDispatcher.lookup (layerId, e) = some (m.ids b e)
  parsed : ∀ projection ∈ f.projections,
    parseExpertId (f.paramName b e projection) config = .ok (some (layerId, some e))
  prefetched : ∃ tensor id, m.nameIdMap.lookup (f.paramName b e tensor) = some id ∧
    engine.expertTensorMap.lookup (layerId, e) = some id

/-- **Agreement**: the number of each MoE module is that of its experts for the dispatcher and in
their names. -/
def Agree {f : Family} {config : PretrainedConfig} (m : Model f config)
    (engine : OffloadEngine) : Prop :=
  ∀ layer ∈ engine.expertLayerModules, ∀ e < numExperts f config, Routed m engine layer.1 layer.2 e

/-! ### Names of the families -/

section Names

variable {f : Family} {config : PretrainedConfig} {b : Block} {e : ℕ} {projection : String}

/-- What stands before the number of an expert. -/
def expertWord : Family → String
  | .nllb => "expert_"
  | _ => ""

/-- The module of the experts in a layer. -/
def moduleName : Family → String
  | .mixtral => ".block_sparse_moe"
  | .nllb => ".ffn"
  | _ => ".mlp"

theorem expertName_eq (f : Family) (e : ℕ) :
    f.expertName e = (expertWord f).toList ++ digits e := by
  cases f <;> rfl

theorem containerName_eq (f : Family) :
    f.containerName.toList = (moduleName f).toList ++ ".experts".toList := by
  cases f <;> decide

/-- The front of the name of a container. -/
def front (f : Family) (b : Block) : Name :=
  (f.stackName b.layerType).toList ++ (digits b.index ++ (moduleName f).toList)

theorem expertsName_eq (f : Family) (b : Block) :
    f.expertsName b = front f b ++ ".experts".toList := by
  unfold Family.expertsName front
  rw [containerName_eq]
  simp

theorem digits_ne_nil (n : ℕ) : digits n ≠ [] := Nat.toDigits_ne_nil

/-- A word without digits is not in a name unless it is on one side of the number. -/
theorem infix_digits {w a c : Name} {n : ℕ} (hw : ∀ d ∈ w, ¬ d.isDigit)
    (h : w <:+: a ++ (digits n ++ c)) :
    w <:+: a ∨ w <:+: c :=
  infix_append_of_disjoint (fun d hd hmem => hw d hmem (isDigit_of_mem_digits hd)) h
    (digits_ne_nil n)

theorem not_mem_expertsName {c : Char} (hc : ¬ c.isDigit)
    (hstack : c ∉ (f.stackName b.layerType).toList) (hcontainer : c ∉ f.containerName.toList) :
    c ∉ f.expertsName b := by
  unfold Family.expertsName
  rw [List.mem_append, List.mem_append, not_or, not_or]
  exact ⟨hstack, not_mem_digits hc, hcontainer⟩

theorem h_not_mem_expertsName (f : Family) (b : Block) : 'h' ∉ f.expertsName b := by
  obtain ⟨layerType, index⟩ := b
  have hstack : 'h' ∉ (f.stackName layerType).toList := by
    cases f <;> cases layerType <;> decide
  have hcontainer : 'h' ∉ f.containerName.toList := by
    cases f <;> decide
  exact not_mem_expertsName (by decide) hstack hcontainer

/-- The key of a stage of experts is not cut. -/
theorem hookKey_expertsName (f : Family) (b : Block) :
    hookKey (f.expertsName b) = f.expertsName b := by
  have h := h_not_mem_expertsName f b
  have hshared : ¬ Contains "shared" (f.expertsName b) := fun hw => h (hw.subset (by decide))
  have hhead : ¬ Contains "lm_head" (f.expertsName b) := fun hw => h (hw.subset (by decide))
  exact if_neg (not_or.mpr ⟨hshared, hhead⟩)

theorem contains_expertsName (f : Family) (b : Block) : Contains "expert" (f.expertsName b) := by
  have hword : "expert".toList <:+: ".experts".toList := by decide
  unfold Contains
  rw [expertsName_eq]
  exact hword.trans (List.suffix_append _ _).isInfix

/-- A projection is a module with a tensor. -/
theorem projection_parts (h : projection ∈ f.projections) :
    ∃ word tensor : Name, projection.toList = word ++ (".".toList ++ tensor) ∧ '.' ∉ word ∧
      '.' ∉ tensor := by
  have hall : ∀ p ∈ f.projections, p.toList = p.toList.takeWhile (· ≠ '.') ++
      (".".toList ++ (p.toList.dropWhile (· ≠ '.')).tail) ∧ '.' ∉ p.toList.takeWhile (· ≠ '.') ∧
        '.' ∉ (p.toList.dropWhile (· ≠ '.')).tail := by
    cases f <;> decide
  exact ⟨_, _, hall projection h⟩

theorem experts_once (h : projection ∈ f.projections) : ¬ "experts".toList <:+:
    "xperts".toList ++ (".".toList ++ (f.expertName e ++ (".".toList ++ projection.toList))) := by
  have hleft : ¬ "experts".toList <:+: "xperts".toList ++
      (".".toList ++ (expertWord f).toList) := by
    cases f <;> decide
  have hright : ∀ p ∈ f.projections, ¬ "experts".toList <:+: ".".toList ++ p.toList := by
    cases f <;> decide
  have hname : "xperts".toList ++
      (".".toList ++ (f.expertName e ++ (".".toList ++ projection.toList))) =
        ("xperts".toList ++ (".".toList ++ (expertWord f).toList)) ++
          (digits e ++ (".".toList ++ projection.toList)) := by
    rw [expertName_eq]
    simp only [List.append_assoc]
  intro hw
  rw [hname] at hw
  rcases infix_digits (List.forall_iff_forall_mem.mp (by decide)) hw with hw | hw
  · exact hleft hw
  · exact hright projection h hw

theorem not_shared (h : projection ∈ f.projections) :
    ¬ Contains "shared_experts" (f.paramName b e projection) := by
  obtain ⟨layerType, index⟩ := b
  have hstack : ¬ "shared_experts".toList <:+: (f.stackName layerType).toList := by
    cases f <;> cases layerType <;> decide
  have hmiddle : ¬ "shared_experts".toList <:+:
      f.containerName.toList ++ (".".toList ++ (expertWord f).toList) := by
    cases f <;> decide
  have hright : ∀ p ∈ f.projections, ¬ "shared_experts".toList <:+: ".".toList ++ p.toList := by
    cases f <;> decide
  have hname : f.paramName ⟨layerType, index⟩ e projection = (f.stackName layerType).toList ++
      (digits index ++ ((f.containerName.toList ++ (".".toList ++ (expertWord f).toList)) ++
        (digits e ++ (".".toList ++ projection.toList)))) := by
    unfold Family.paramName Family.expertsName
    rw [expertName_eq]
    simp only [List.append_assoc]
  intro hw
  unfold Contains at hw
  rw [hname] at hw
  rcases infix_digits (List.forall_iff_forall_mem.mp (by decide)) hw with hw | hw
  · exact hstack hw
  · rcases infix_digits (List.forall_iff_forall_mem.mp (by decide)) hw with hw | hw
    · exact hmiddle hw
    · exact hright projection h hw

/-- **The key of a parameter** is the container of its layer and its expert. -/
theorem paramKey_paramName (h : projection ∈ f.projections) :
    paramKey (f.paramName b e projection) = .ok (.expert (f.expertsName b) (f.expertName e)) := by
  obtain ⟨word, tensor, hproj, hword, htensor⟩ := projection_parts h
  have hname : f.paramName b e projection = paramOf (front f b) (f.expertName e) word tensor := by
    unfold Family.paramName paramOf
    rw [expertsName_eq, hproj]
    simp only [List.append_assoc]
  have hexpert : ExpertName (front f b) (f.expertName e) word tensor := by
    refine ⟨?_, ?_, ?_, hword, htensor, ?_, ?_⟩
    · obtain ⟨c, hc⟩ := List.exists_mem_of_ne_nil _ (digits_ne_nil b.index)
      exact ⟨c, List.mem_append_right _ (List.mem_append_left _ hc), isDigit_of_mem_digits hc⟩
    · obtain ⟨layerType, index⟩ := b
      have hstack : '\n' ∉ (f.stackName layerType).toList := by
        cases f <;> cases layerType <;> decide
      have hmodule : '\n' ∉ (moduleName f).toList := by
        cases f <;> decide
      unfold front
      rw [List.mem_append, List.mem_append, not_or, not_or]
      exact ⟨hstack, not_mem_digits (by decide), hmodule⟩
    · have hexpertWord : '.' ∉ (expertWord f).toList := by
        cases f <;> decide
      rw [expertName_eq, List.mem_append, not_or]
      exact ⟨hexpertWord, not_mem_digits (by decide)⟩
    · rw [← hproj]
      exact experts_once h
    · rw [← hname]
      exact not_shared h
  rw [hname, hexpert.paramKey, expertsName_eq]

end Names

/-! ### The stages of experts -/

section Stages

variable {f : Family} {config : PretrainedConfig} (m : Model f config) {b b' : Block} {e e' : ℕ}

theorem decoder_of_mem (hf : f ≠ .nllb) (h : b ∈ blocks f config) : b.layerType = .decoder := by
  cases f with
  | nllb => exact absurd rfl hf
  | _ =>
    obtain ⟨i, -, rfl⟩ := List.mem_map.mp h
    rfl

theorem nodup_blocks (f : Family) (config : PretrainedConfig) : (blocks f config).Nodup := by
  have hrange : ∀ layerType n, ((List.range n).map (Block.mk layerType)).Nodup := fun layerType n =>
    List.nodup_range.map fun i j h => by simpa using h
  cases f with
  | nllb =>
    refine List.nodup_append.mpr ⟨hrange _ _, hrange _ _, fun b hb b' hb' h => ?_⟩
    obtain ⟨i, -, rfl⟩ := List.mem_map.mp hb
    obtain ⟨j, -, rfl⟩ := List.mem_map.mp hb'
    simp at h
  | _ => exact hrange _ _

theorem exists_projection (f : Family) : ∃ projection, projection ∈ f.projections := by
  cases f <;> exact ⟨_, List.mem_cons_self⟩

theorem expertName_inj (h : f.expertName e = f.expertName e') : e = e' := by
  obtain ⟨projection, hproj⟩ := exists_projection f
  have hname : f.paramName ⟨.decoder, 0⟩ e projection =
      f.paramName ⟨.decoder, 0⟩ e' projection := by
    unfold Family.paramName
    rw [h]
  exact (paramName_inj (underscore_not_mem hproj) (underscore_not_mem hproj) (fun _ => rfl)
    (fun _ => rfl) hname).2

theorem expertsName_inj (hb : b ∈ blocks f config) (hb' : b' ∈ blocks f config)
    (h : f.expertsName b = f.expertsName b') : b = b' := by
  obtain ⟨projection, hproj⟩ := exists_projection f
  have hname : f.paramName b 0 projection = f.paramName b' 0 projection := by
    unfold Family.paramName
    rw [h]
  exact (paramName_inj (underscore_not_mem hproj) (underscore_not_mem hproj)
    (fun hf => decoder_of_mem hf hb) (fun hf => decoder_of_mem hf hb') hname).1

theorem entriesOf_plain {keyOf : Name → Except ConfigError Key} {nameIdMap : List (Name × ℕ)}
    {name : Name} (h : ∃ key, keyOf name = .ok (.plain key) ∧ ¬ Contains "expert" key) :
    entriesOf keyOf nameIdMap name = [] := by
  obtain ⟨key, hkey, -⟩ := h
  unfold entriesOf
  rw [hkey]

theorem flatMap_entriesOf_plain {keyOf : Name → Except ConfigError Key}
    {nameIdMap : List (Name × ℕ)} {names : List Name}
    (h : ∀ name ∈ names, ∃ key, keyOf name = .ok (.plain key) ∧ ¬ Contains "expert" key) :
    names.flatMap (entriesOf keyOf nameIdMap) = [] :=
  List.flatMap_eq_nil_iff.mpr fun name hname => entriesOf_plain (h name hname)

/-- What the parameters of an expert add. -/
theorem flatMap_entriesOf_expert (nameIdMap : List (Name × ℕ)) (b : Block) (e : ℕ) :
    (f.projections.map (f.paramName b e)).flatMap (entriesOf paramKey nameIdMap) =
      (f.projections.filterMap fun projection => nameIdMap.lookup (f.paramName b e projection)).map
        fun id => (f.expertsName b, f.expertName e, id) := by
  have hall : ∀ projections : List String, (∀ p ∈ projections, p ∈ f.projections) →
      (projections.map (f.paramName b e)).flatMap (entriesOf paramKey nameIdMap) =
        (projections.filterMap fun projection => nameIdMap.lookup (f.paramName b e projection)).map
          fun id => (f.expertsName b, f.expertName e, id) := by
    intro projections hproj
    induction projections with
    | nil => rfl
    | cons p projections ih =>
      have ih := ih fun q hq => hproj q (List.mem_cons_of_mem p hq)
      have hentry : entriesOf paramKey nameIdMap (f.paramName b e p) =
          ((nameIdMap.lookup (f.paramName b e p)).map fun id =>
            (f.expertsName b, f.expertName e, id)).toList := by
        unfold entriesOf
        rw [paramKey_paramName (hproj p List.mem_cons_self)]
        cases nameIdMap.lookup (f.paramName b e p) <;> rfl
      rw [List.map_cons, List.flatMap_cons, ih, hentry, List.filterMap_cons]
      cases nameIdMap.lookup (f.paramName b e p) <;> rfl
  exact hall f.projections fun _ h => h

/-- The stage of a layer with its experts. -/
def expertStage (b : Block) : Name × List (Name × List ℕ) :=
  (f.expertsName b, (List.range (numExperts f config)).map fun e => (f.expertName e, m.ids b e))

/-- What a layer adds, by experts. -/
def expertEntries (b : Block) : List (Name × ℕ) :=
  (List.range (numExperts f config)).flatMap fun e => (m.ids b e).map (f.expertName e, ·)

theorem flatMap_entriesOf_layer (b : Block) :
    (expertParams f config b).flatMap (entriesOf paramKey m.nameIdMap) =
      (expertEntries m b).map (f.expertsName b, ·) := by
  unfold expertParams expertEntries
  rw [List.flatMap_assoc, List.map_flatMap]
  refine List.flatMap_congr fun e _ => ?_
  rw [flatMap_entriesOf_expert, List.map_map]
  rfl

theorem known_params : ∀ name ∈ m.params, Known paramKey name := by
  have hplain : ∀ name, Plain name → Known paramKey name := fun name h => Or.inl h.paramKey
  have hexpert : ∀ b, ∀ name ∈ expertParams f config b, Known paramKey name := by
    intro b name hname
    obtain ⟨e, -, hname⟩ := List.mem_flatMap.mp hname
    obtain ⟨projection, hproj, rfl⟩ := List.mem_map.mp hname
    exact Or.inr ⟨_, _, paramKey_paramName hproj, contains_expertsName f b⟩
  intro name hname
  rcases List.mem_append.mp hname with hname | hname
  · rcases List.mem_append.mp hname with hname | hname
    · exact hplain name (m.plain_head name hname)
    · obtain ⟨b, -, hname⟩ := List.mem_flatMap.mp hname
      rcases List.mem_append.mp hname with hname | hname
      · exact hplain name (m.plain_before b name hname)
      · rcases List.mem_append.mp hname with hname | hname
        · split_ifs at hname with hmoe
          · exact hexpert b name hname
          · exact absurd hname List.not_mem_nil
        · exact hplain name (m.plain_after b name hname)
  · exact hplain name (m.plain_tail name hname)

theorem known_buffers : ∀ name ∈ m.buffers, Known bufferKey name := fun name h =>
  Or.inl (m.plain_buffers name h).bufferKey

theorem flatMap_params : m.params.flatMap (entriesOf paramKey m.nameIdMap) =
    m.moeBlocks.flatMap fun b => (expertEntries m b).map (f.expertsName b, ·) := by
  have hlayer : ∀ b, (m.before b ++ ((if m.moe b then expertParams f config b else []) ++
      m.after b)).flatMap (entriesOf paramKey m.nameIdMap) =
        if m.moe b then (expertEntries m b).map (f.expertsName b, ·) else [] := by
    intro b
    rw [List.flatMap_append, List.flatMap_append,
      flatMap_entriesOf_plain fun name h => (m.plain_before b name h).paramKey,
      flatMap_entriesOf_plain fun name h => (m.plain_after b name h).paramKey]
    split_ifs with hmoe
    · rw [flatMap_entriesOf_layer]
      simp
    · simp
  have hfilter : ∀ bs : List Block, (bs.flatMap fun b =>
      if m.moe b then (expertEntries m b).map (f.expertsName b, ·) else []) =
        (bs.filter m.moe).flatMap fun b => (expertEntries m b).map (f.expertsName b, ·) := by
    intro bs
    induction bs with
    | nil => rfl
    | cons b bs ih =>
      rw [List.flatMap_cons, ih, List.filter_cons]
      split_ifs <;> simp
  unfold Model.params Model.moeBlocks
  rw [List.flatMap_append, List.flatMap_append,
    flatMap_entriesOf_plain fun name h => (m.plain_head name h).paramKey,
    flatMap_entriesOf_plain fun name h => (m.plain_tail name h).paramKey, List.flatMap_assoc,
    List.flatMap_congr fun b _ => hlayer b, hfilter]
  simp

theorem ids_ne_nil (hb : b ∈ m.moeBlocks) (he : e < numExperts f config) : m.ids b e ≠ [] := by
  obtain ⟨projection, hproj⟩ := exists_projection f
  obtain ⟨hb, hmoe⟩ := List.mem_filter.mp hb
  obtain ⟨id, hid⟩ := m.stored b hb hmoe e he projection hproj
  have hmem : id ∈ m.ids b e := List.mem_filterMap.mpr ⟨projection, hproj, hid⟩
  exact List.ne_nil_of_mem hmem

/-- The nodes of a layer. -/
theorem foldl_expertEntries (hb : b ∈ m.moeBlocks) :
    (expertEntries m b).foldl (fun nodes entry => update entry.1 (· ++ [entry.2]) [] nodes) [] =
      (expertStage m b).2 := by
  have hgroups : expertEntries m b = ((List.range (numExperts f config)).map fun e =>
      (f.expertName e, m.ids b e)).flatMap fun g => g.2.map (g.1, ·) := by
    unfold expertEntries
    rw [List.flatMap_map]
  rw [hgroups, foldl_groups (f := fun id ids => ids ++ [id]), List.map_map]
  · unfold expertStage
    rw [List.nil_append]
    refine List.map_congr_left fun e _ => Prod.ext rfl ?_
    show (m.ids b e).foldl (fun ids id => ids ++ [id]) [] = m.ids b e
    rw [List.foldl_append_eq_append, ← List.flatMap_def, List.flatMap_singleton', List.nil_append]
  · rw [List.map_map]
    exact List.nodup_range.map fun _ _ h => expertName_inj h
  · simp
  · intro g hg
    obtain ⟨e, he, rfl⟩ := List.mem_map.mp hg
    exact ids_ne_nil m hb (List.mem_range.mp he)

/-- **The stages of experts** are those of the MoE layers in their order, with the experts in
theirs. -/
theorem expertStages_topology (hexperts : numExperts f config ≠ 0) :
    (m.params.flatMap (entriesOf paramKey m.nameIdMap) ++
      m.buffers.flatMap (entriesOf bufferKey m.nameIdMap)).foldl addExpert [] =
        m.moeBlocks.map (expertStage m) := by
  have hgroups : (m.moeBlocks.flatMap fun b => (expertEntries m b).map (f.expertsName b, ·)) =
      (m.moeBlocks.map fun b => (f.expertsName b, expertEntries m b)).flatMap fun g =>
        g.2.map (g.1, ·) := by
    rw [List.flatMap_map]
  rw [flatMap_params, flatMap_entriesOf_plain fun name h => (m.plain_buffers name h).bufferKey,
    List.append_nil, hgroups]
  unfold addExpert
  rw [foldl_groups (f := fun (entry : Name × ℕ) nodes => update entry.1 (· ++ [entry.2]) [] nodes),
    List.map_map, List.nil_append]
  · exact List.map_congr_left fun b hb => Prod.ext rfl (foldl_expertEntries m hb)
  · rw [List.map_map]
    refine ((nodup_blocks f config).filter m.moe).map_on fun b hb b' hb' h => ?_
    exact expertsName_inj (List.mem_of_mem_filter hb) (List.mem_of_mem_filter hb') h
  · simp
  · intro g hg
    obtain ⟨b, hb, rfl⟩ := List.mem_map.mp hg
    have h0 : 0 ∈ List.range (numExperts f config) :=
      List.mem_range.mpr (Nat.pos_of_ne_zero hexperts)
    obtain ⟨id, hid⟩ := List.exists_mem_of_ne_nil _ (ids_ne_nil m hb (Nat.pos_of_ne_zero hexperts))
    exact List.ne_nil_of_mem (List.mem_flatMap.mpr ⟨0, h0, List.mem_map.mpr ⟨id, hid, rfl⟩⟩)

end Stages

/-! ### Registering -/

section Registering

variable {f : Family} {config : PretrainedConfig} {layer layer' e start : ℕ}
  {tensors : List (List ℕ)} {dispatcher : ExpertDispatcher}

/-- Other numbers keep what they have. -/
theorem lookup_registerExpertsFrom_of_ne (h : layer' ≠ layer ∨ e < start) :
    (registerExpertsFrom layer start tensors dispatcher).lookup (layer', e) =
    dispatcher.lookup (layer', e) := by
  induction tensors generalizing start dispatcher with
  | nil => rfl
  | cons ids tensors ih =>
    rw [registerExpertsFrom, ih (h.imp_right Nat.lt_succ_of_lt), lookup_put_of_ne]
    intro h0
    obtain ⟨hlayer, hstart⟩ := Prod.mk.inj h0
    rcases h with h | h
    · exact h hlayer
    · omega

theorem lookup_registerExpertsFrom {ids : List ℕ} (h : tensors[e]? = some ids) :
    (registerExpertsFrom layer start tensors dispatcher).lookup (layer, start + e) = some ids := by
  induction tensors generalizing start dispatcher e with
  | nil => simp at h
  | cons ids' tensors ih =>
    rw [registerExpertsFrom]
    cases e with
    | zero =>
      obtain rfl : ids' = ids := by simpa using h
      rw [lookup_registerExpertsFrom_of_ne (Or.inr (by omega))]
      exact lookup_put_self
    | succ e =>
      have h' : tensors[e]? = some ids := by simpa using h
      have hstart : start + (e + 1) = start + 1 + e := by omega
      rw [hstart]
      exact ih h'

/-- The loop over the stages of experts alone. -/
def registerStages : List (Name × List (Name × List ℕ)) → ℕ → ExpertDispatcher → ExpertDispatcher
  | [], _, dispatcher => dispatcher
  | stage :: stages, expertLayerId, dispatcher =>
    registerStages stages (expertLayerId + 1)
      (registerExpertsFrom expertLayerId 0 (stage.2.map Prod.snd) dispatcher)

/-- The other stages are passed over. -/
theorem setupArcherHooks_eq {topo : RetDict} (hsorted : Sorted topo)
    (hmodel : config.modelType ≠ "gpt_oss")
    (hkeys : ∀ stage ∈ expertStages topo, hookKey stage.1 = stage.1) :
    setupArcherHooks config (topo.map fun stage => (stage.1, stage.2.nodes)) layer dispatcher =
      registerStages (expertStages topo) layer dispatcher := by
  induction topo generalizing layer dispatcher with
  | nil => rfl
  | cons entry topo ih =>
    obtain ⟨key, stage⟩ := entry
    have htail : Sorted topo := fun d hd => hsorted d (List.mem_cons_of_mem _ hd)
    have hkey := hsorted _ List.mem_cons_self
    rw [List.map_cons, setupArcherHooks]
    cases stage with
    | plain ids =>
      have hcut : hookKey key <+: key := by
        unfold hookKey
        split_ifs
        · exact List.takeWhile_prefix _
        · exact List.prefix_refl key
      rw [if_neg fun h => not_contains_of_isPrefix hcut hkey h.1]
      exact ih htail hkeys
    | experts nodes =>
      have hcons : expertStages ((key, .experts nodes) :: topo) = (key, nodes) ::
        expertStages topo := rfl
      rw [hcons] at hkeys ⊢
      have hcut : hookKey key = key := hkeys _ List.mem_cons_self
      rw [if_pos ⟨by rw [hcut]; exact hkey, hmodel⟩]
      exact ih htail fun stage hstage => hkeys stage (List.mem_cons_of_mem _ hstage)

theorem lookup_registerStages_of_lt {stages : List (Name × List (Name × List ℕ))}
    (h : layer' < layer) :
    (registerStages stages layer dispatcher).lookup (layer', e) =
    dispatcher.lookup (layer', e) := by
  induction stages generalizing layer dispatcher with
  | nil => rfl
  | cons stage stages ih =>
    rw [registerStages, ih (by omega)]
    exact lookup_registerExpertsFrom_of_ne (Or.inl (by omega))

/-- **The experts of the stage at a position** are registered under that position behind the first
number. -/
theorem lookup_registerStages {stages : List (Name × List (Name × List ℕ))} {i : ℕ}
    {stage : Name × List (Name × List ℕ)} {node : Name × List ℕ} (hstage : stages[i]? = some stage)
    (hnode : stage.2[e]? = some node) :
    (registerStages stages layer dispatcher).lookup (layer + i, e) = some node.2 := by
  induction stages generalizing layer dispatcher i with
  | nil => simp at hstage
  | cons stage' stages ih =>
    rw [registerStages]
    cases i with
    | zero =>
      obtain rfl : stage' = stage := by simpa using hstage
      have hids : (stage'.2.map Prod.snd)[e]? = some node.2 := by
        rw [List.getElem?_map, hnode]
        rfl
      have hfound : (registerExpertsFrom layer 0 (stage'.2.map Prod.snd) dispatcher).lookup
          (layer, 0 + e) = some node.2 := lookup_registerExpertsFrom hids
      rw [Nat.zero_add] at hfound
      rw [lookup_registerStages_of_lt (by omega)]
      exact hfound
    | succ i =>
      have hstage' : stages[i]? = some stage := by simpa using hstage
      have hlayer : layer + (i + 1) = layer + 1 + i := by omega
      rw [hlayer]
      exact ih hstage'

end Registering

end MoeInfinity.Runtime.LayerNumbers
