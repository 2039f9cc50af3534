import MoeInfinity.Lib.Backtrack

/-! # Configurations and parameter names (`utils/hf_config.py`)

`parse_moe_param` reads the numbers of layers and experts from a configuration, `parse_expert_id`
the numbers of a layer and an expert from the name of a parameter. Both go by the architecture. A
string is the list of its characters; digits are those of ASCII. -/

namespace MoeInfinity.Utils.HfConfig

open MoeInfinity.Lib.Backtrack MoeInfinity.Lib.Backtrack.Pattern

abbrev Name := List Char

/-- `part in s`. -/
def Contains (part : String) (s : Name) : Prop := part.toList <:+: s

instance (part : String) (s : Name) : Decidable (Contains part s) :=
  inferInstanceAs (Decidable (_ <:+: _))

/-- The attributes that are read here and when a model is loaded. Not all of them are attributes of
all configurations; `firstKDenseReplace` is `none` where there is none and it may be asked for
nevertheless. -/
structure PretrainedConfig where
  architectures : List String
  modelType : String
  numHiddenLayers : ℕ
  numLocalExperts : ℕ
  numExperts : ℕ
  nRoutedExperts : ℕ
  encoderLayers : ℕ
  decoderLayers : ℕ
  encoderSparseStep : ℕ
  decoderSparseStep : ℕ
  mlpOnlyLayers : List ℕ
  firstKDenseReplace : Option ℕ

inductive ConfigError where
  | unsupportedArchitecture
  | zeroDivision
  | missingAttribute
  | incorrectExpertName
  | mixedStage
deriving DecidableEq, Repr

/-- `(config.architectures or [""])[0].lower()`. -/
def arch (config : PretrainedConfig) : Name :=
  (config.architectures.headD "").toList.map Char.toLower

structure MoeParam where
  numLayers : ℕ
  numExperts : ℕ
  numEncoderLayers : ℕ
deriving DecidableEq, Repr

def parseMoeParam (config : PretrainedConfig) : Except ConfigError MoeParam :=
  if Contains "nllb" (arch config) then
    if config.encoderSparseStep = 0 ∨ config.decoderSparseStep = 0 then .error .zeroDivision
    else
      let numEncoderLayers := config.encoderLayers / config.encoderSparseStep
      let numDecoderLayers := config.decoderLayers / config.decoderSparseStep
      .ok ⟨numEncoderLayers + numDecoderLayers, config.numExperts, numEncoderLayers⟩
  else if Contains "mixtral" (arch config) then
    .ok ⟨config.numHiddenLayers, config.numLocalExperts, 0⟩
  else if Contains "qwen3" (arch config) then .ok ⟨config.numHiddenLayers, config.numExperts, 0⟩
  else if Contains "deepseek" (arch config) then
    .ok ⟨config.numHiddenLayers, config.nRoutedExperts, 0⟩
  else if Contains "gpt_oss" (arch config) ∨ Contains "gptoss" (arch config) then
    .ok ⟨config.numHiddenLayers, config.numLocalExperts, 0⟩
  else .error .unsupportedArchitecture

/-! ### Patterns -/

inductive LayerType where
  | encoder
  | decoder
deriving DecidableEq, Repr

def LayerType.name : LayerType → String
  | .encoder => "encoder"
  | .decoder => "decoder"

/-- `layers\.(\d+)` … `(\d+)\.`, with what stands between the numbers. -/
def layersPattern (middle : String) : Pattern (ℕ × ℕ) := do
  lit "layers."
  let layerId ← number
  lit middle
  let expertId ← number
  lit "."
  return (layerId, expertId)

def layerTypePattern : Pattern LayerType :=
  (do lit LayerType.encoder.name; return .encoder : Pattern LayerType).or
    (do lit LayerType.decoder.name; return .decoder)

/-- `(encoder|decoder)\.[a-z]+\.(\d+).*expert_(\d+)`. -/
def nllbPattern : Pattern (LayerType × ℕ × ℕ) := do
  let layerType ← layerTypePattern
  lit "."
  let _ ← many1 Char.isLower
  lit "."
  let layerId ← number
  let _ ← many (· ≠ '\n')
  lit "expert_"
  let expertId ← number
  return (layerType, layerId, expertId)

/-- `layers\.(\d+)\.mlp\.experts\.(gate_up_proj|down_proj)`. -/
def gptOssPattern : Pattern ℕ := do
  lit "layers."
  let layerId ← number
  lit ".mlp.experts."
  (lit "gate_up_proj").or (lit "down_proj")
  return layerId

/-- The numbers of the layer and of the expert, if the name has them. -/
def parseExpertId (paramName : Name) (config : PretrainedConfig) :
    Except ConfigError (Option (ℕ × Option ℕ)) := do
  let param ← parseMoeParam config
  if Contains "nllb" (arch config) then
    return (nllbPattern.search paramName).map fun (layerType, layerId, expertId) =>
      match layerType with
      | .decoder => (layerId / config.decoderSparseStep + param.numEncoderLayers, some expertId)
      | .encoder => (layerId / config.encoderSparseStep, some expertId)
  else if Contains "mixtral" (arch config) then
    return ((layersPattern ".block_sparse_moe.experts.").search paramName).map
      fun (layerId, expertId) =>
      (layerId / 1 + param.numEncoderLayers, some expertId)
  else if Contains "deepseekv4" (arch config) then
    return ((layersPattern ".ffn.experts.").search paramName).map fun (layerId, expertId) =>
      (layerId / 1 + param.numEncoderLayers, some expertId)
  else if Contains "deepseek" (arch config) ∨ Contains "qwen3" (arch config) then
    return ((layersPattern ".mlp.experts.").search paramName).map fun (layerId, expertId) =>
      (layerId / 1 + param.numEncoderLayers, some expertId)
  else if Contains "gpt_oss" (arch config) ∨ Contains "gptoss" (arch config) then
    return (gptOssPattern.search paramName).map fun layerId => (layerId, none)
  else return none

/-! ### Names of the supported models -/

/-- The families of models whose experts are parameters of their own. -/
inductive Family where
  | mixtral
  | qwen3
  | deepseekV2
  | deepseekV3
  | nllb
deriving DecidableEq, Repr

def Family.architecture : Family → String
  | .mixtral => "MixtralForCausalLM"
  | .qwen3 => "Qwen3MoeForCausalLM"
  | .deepseekV2 => "DeepseekV2ForCausalLM"
  | .deepseekV3 => "DeepseekV3ForCausalLM"
  | .nllb => "NllbMoeForConditionalGeneration"

def Family.modelType : Family → String
  | .mixtral => "mixtral"
  | .qwen3 => "qwen3_moe"
  | .deepseekV2 => "deepseek_v2"
  | .deepseekV3 => "deepseek_v3"
  | .nllb => "nllb-moe"

/-- A transformer layer; only NLLB has an encoder. -/
structure Block where
  layerType : LayerType
  index : ℕ
deriving DecidableEq, Repr

def digits (n : ℕ) : Name := Nat.toDigits 10 n

/-- What stands before the number of a layer. -/
def Family.stackName : Family → LayerType → String
  | .nllb, .encoder => "model.encoder.layers."
  | .nllb, .decoder => "model.decoder.layers."
  | _, _ => "model.layers."

/-- The container of the experts in a layer. -/
def Family.containerName : Family → String
  | .mixtral => ".block_sparse_moe.experts"
  | .nllb => ".ffn.experts"
  | _ => ".mlp.experts"

/-- The parameters of an expert. -/
def Family.projections : Family → List String
  | .mixtral => ["w1.weight", "w2.weight", "w3.weight"]
  | .nllb => ["fc1.weight", "fc1.bias", "fc2.weight", "fc2.bias"]
  | _ => ["gate_proj.weight", "up_proj.weight", "down_proj.weight"]

def Family.expertName (f : Family) (e : ℕ) : Name :=
  match f with
  | .nllb => "expert_".toList ++ digits e
  | _ => digits e

/-- The name of the container of a layer. -/
def Family.expertsName (f : Family) (b : Block) : Name :=
  (f.stackName b.layerType).toList ++ (digits b.index ++ f.containerName.toList)

def Family.paramName (f : Family) (b : Block) (e : ℕ) (projection : String) : Name :=
  f.expertsName b ++ (".".toList ++ (f.expertName e ++ (".".toList ++ projection.toList)))

/-- The number that `parse_expert_id` gives a layer. -/
def Family.layerNumber (f : Family) (config : PretrainedConfig) (b : Block) : ℕ :=
  match f, b.layerType with
  | .nllb, .encoder => b.index / config.encoderSparseStep
  | .nllb, .decoder =>
    b.index / config.decoderSparseStep + config.encoderLayers / config.encoderSparseStep
  | _, _ => b.index

/-! ### Reading names -/

section Reading

variable {f : Family} {config : PretrainedConfig} {b : Block} {e i : ℕ} {tail : Name}

theorem isDigit_of_mem_digits {c : Char} (h : c ∈ digits i) : c.isDigit :=
  Nat.isDigit_of_mem_toDigits (by decide) (by decide) h

theorem not_isDigit_dot {c : Char} {t : Name} (h : ".".toList ++ tail = c :: t) : ¬ c.isDigit := by
  have hdot : '.' = c := by simpa using congrArg List.head? h
  rw [← hdot]
  decide

theorem first_layersPattern {middle : String}
    (hmiddle : ∀ s c t, middle.toList ++ s = c :: t → ¬ c.isDigit) :
    First (layersPattern middle) ("layers.".toList ++ (digits i ++ (middle.toList ++
      (digits e ++ (".".toList ++ tail))))) (i, e) tail :=
  (first_lit "layers." _).bind ((first_number i (hmiddle _)).bind ((first_lit middle _).bind
    ((first_number e fun _ _ => not_isDigit_dot).bind
      ((first_lit "." tail).bind (first_pure _ _)))))

theorem search_layersPattern {middle : String}
    (hmiddle : ∀ s c t, middle.toList ++ s = c :: t → ¬ c.isDigit) :
    (layersPattern middle).search
    ("model.".toList ++ ("layers.".toList ++ (digits i ++ (middle.toList ++
      (digits e ++ (".".toList ++ tail)))))) = some (i, e) := by
  have hclash : ∀ v ∈ "model.".toList.tails, v ≠ [] → Clash "layers.".toList v := by decide
  have hfails : ∀ v ∈ "model.".toList.tails, v ≠ [] → ∀ s, Fails (layersPattern middle) (v ++ s) :=
    fun v hv hne s => fails_bind_left (fails_lit_of_clash (hclash v hv hne) s)
  rw [search_append fun v hv hne => hfails v hv hne _]
  exact search_of_first (first_layersPattern hmiddle)

/-! The pattern of NLLB goes over the whole name and back to the last `expert_`. -/

theorem not_mem_digits {c : Char} (h : ¬ c.isDigit) : c ∉ digits i :=
  fun hc => h (isDigit_of_mem_digits hc)

theorem first_layerType (layerType : LayerType) (s : Name) :
    First layerTypePattern (layerType.name.toList ++ s) layerType s := by
  cases layerType with
  | encoder => exact First.or_left ((first_lit _ s).bind (first_pure _ _))
  | decoder =>
    refine first_or_right (fails_bind_left (fails_lit_of_clash (by decide) s)) ?_
    exact (first_lit _ s).bind (first_pure _ _)

/-- The only underscore is the one before the number of the expert. -/
theorem fails_later {u v : Name} (htail : '_' ∉ tail)
    (h : "expert_".toList ++ (digits e ++ (".".toList ++ tail)) = u ++ v) (hu : u ≠ []) :
    Fails (lit "expert_") v := by
  refine fails_lit.mpr fun ⟨t, ht⟩ => hu ?_
  have hwords : "expert".toList ++ '_' :: (digits e ++ (".".toList ++ tail)) =
      (u ++ "expert".toList) ++ '_' :: t := by
    rw [← ht] at h
    simpa using h
  have hrest : '_' ∉ digits e ++ (".".toList ++ tail) := by
    rw [List.mem_append, List.mem_append, not_or, not_or]
    exact ⟨not_mem_digits (by decide), by decide, htail⟩
  obtain ⟨hword, -⟩ := (List.append_cons_inj_of_notMem (by decide) hrest).mp hwords
  exact List.self_eq_append_left.mp hword

theorem first_nllbPattern {layerType : LayerType} (htail : '_' ∉ tail) :
    First nllbPattern
      (layerType.name.toList ++
        (".".toList ++
          ("layers".toList ++
            (".".toList ++
              (digits i ++
                (".ffn.experts.".toList ++
                  ("expert_".toList ++ (digits e ++ (".".toList ++ tail)))))))))
      (layerType, i, e) (".".toList ++ tail) := by
  have hlayers : First (many1 Char.isLower) ("layers".toList ++ (".".toList ++ (digits i ++
      (".ffn.experts.".toList ++ ("expert_".toList ++ (digits e ++ (".".toList ++ tail)))))))
      "layers".toList _ := first_many1 (by decide) (List.forall_iff_forall_mem.mp (by decide))
        fun c t hc => by
    have hdot : '.' = c := by simpa using congrArg List.head? hc
    rw [← hdot]
    decide
  have hnumber :
      First number
        (digits i ++
          (".ffn.experts.".toList ++ ("expert_".toList ++ (digits e ++ (".".toList ++ tail))))) i
            _ := first_number i fun c t hc => by
    have hdot : '.' = c := by simpa using congrArg List.head? hc
    rw [← hdot]
    decide
  refine (first_layerType layerType _).bind
    ((first_lit "." _).bind (hlayers.bind ((first_lit "." _).bind (hnumber.bind ?_))))
  refine first_many_bind (List.forall_iff_forall_mem.mp (by decide)) ?_ fun u v huv hu =>
    fails_bind_left (fails_later htail huv hu)
  exact (first_lit "expert_" _).bind
    ((first_number e fun _ _ => not_isDigit_dot).bind (first_pure _ _))

theorem search_nllbPattern {layerType : LayerType} (htail : '_' ∉ tail) :
    nllbPattern.search
      ("model.".toList ++
        (layerType.name.toList ++
          (".".toList ++
            ("layers".toList ++
              (".".toList ++
                (digits i ++
                  (".ffn.experts.".toList ++
                    ("expert_".toList ++ (digits e ++ (".".toList ++ tail)))))))))) =
                    some (layerType, i, e) := by
  have hencoder : ∀ v ∈ "model.".toList.tails, v ≠ [] →
    Clash LayerType.encoder.name.toList v := by decide
  have hdecoder : ∀ v ∈ "model.".toList.tails, v ≠ [] →
    Clash LayerType.decoder.name.toList v := by decide
  have hfails : ∀ v ∈ "model.".toList.tails, v ≠ [] → ∀ s, Fails nllbPattern (v ++ s) :=
    fun v hv hne s => fails_bind_left (fails_or
      (fails_bind_left (fails_lit_of_clash (hencoder v hv hne) s))
      (fails_bind_left (fails_lit_of_clash (hdecoder v hv hne) s)))
  rw [search_append fun v hv hne => hfails v hv hne _]
  exact search_of_first (first_nllbPattern htail)

/-! ### The numbers in the names -/

theorem arch_eq (h : config.architectures = [f.architecture]) :
    arch config = f.architecture.toList.map Char.toLower := by
  unfold arch
  rw [h]
  rfl

/-- The attributes of the configuration that say how many layers and experts there are. -/
def Family.moeParam (f : Family) (config : PretrainedConfig) : MoeParam :=
  match f with
  | .mixtral => ⟨config.numHiddenLayers, config.numLocalExperts, 0⟩
  | .qwen3 => ⟨config.numHiddenLayers, config.numExperts, 0⟩
  | .nllb =>
    ⟨config.encoderLayers / config.encoderSparseStep + config.decoderLayers /
      config.decoderSparseStep, config.numExperts, config.encoderLayers / config.encoderSparseStep⟩
  | _ => ⟨config.numHiddenLayers, config.nRoutedExperts, 0⟩

/-- Only a sparse step of zero is refused. -/
theorem parseMoeParam_eq (h : config.architectures = [f.architecture])
    (hsteps : f = .nllb → config.encoderSparseStep ≠ 0 ∧ config.decoderSparseStep ≠ 0) :
    parseMoeParam config = .ok (f.moeParam config) := by
  have harch := arch_eq h
  unfold parseMoeParam
  rw [harch]
  cases f with
  | nllb =>
    obtain ⟨h1, h2⟩ := hsteps rfl
    rw [if_pos (by decide), if_neg (not_or.mpr ⟨h1, h2⟩)]
    rfl
  | mixtral => rw [if_neg (by decide), if_pos (by decide)]; rfl
  | qwen3 => rw [if_neg (by decide), if_neg (by decide), if_pos (by decide)]; rfl
  | deepseekV2 =>
    rw [if_neg (by decide), if_neg (by decide), if_neg (by decide), if_pos (by decide)]; rfl
  | deepseekV3 =>
    rw [if_neg (by decide), if_neg (by decide), if_neg (by decide), if_pos (by decide)]; rfl

/-- The name of a parameter of a decoder-only model. -/
theorem paramName_eq (hf : f ≠ .nllb) (b : Block) (e : ℕ) (projection : String) :
    f.paramName b e projection = "model.".toList ++ ("layers.".toList ++ (digits b.index ++
      ((f.containerName ++ ".").toList ++ (digits e ++ (".".toList ++ projection.toList))))) := by
  have hstack : f.stackName b.layerType = "model.layers." := by
    cases f with
    | nllb => exact absurd rfl hf
    | _ => rfl
  have hexpert : f.expertName e = digits e := by
    cases f with
    | nllb => exact absurd rfl hf
    | _ => rfl
  unfold Family.paramName Family.expertsName
  rw [hstack, hexpert, String.toList_append]
  simp

theorem search_paramName (hf : f ≠ .nllb) {middle : String}
    (hmiddle : f.containerName ++ "." = middle) (projection : String) :
    (layersPattern middle).search (f.paramName b e projection) = some (b.index, e) := by
  rw [paramName_eq hf, hmiddle]
  refine search_layersPattern fun s c t hc => ?_
  have hdot : '.' = c := by
    cases f with
    | nllb => exact absurd rfl hf
    | _ =>
      rw [← hmiddle] at hc
      simpa [Family.containerName] using congrArg List.head? hc
  rw [← hdot]
  decide

/-- The name of a parameter of NLLB. -/
theorem paramName_nllb (b : Block) (e : ℕ) (projection : String) :
    Family.nllb.paramName b e projection = "model.".toList ++
      (b.layerType.name.toList ++
        (".".toList ++
          ("layers".toList ++
            (".".toList ++
              (digits b.index ++
                (".ffn.experts.".toList ++
                  ("expert_".toList ++ (digits e ++ (".".toList ++ projection.toList))))))))) := by
  have hstack : ∀ layerType, (Family.nllb.stackName layerType).toList = "model.".toList ++
      (layerType.name.toList ++ (".".toList ++ ("layers".toList ++ ".".toList))) := by
    intro layerType
    cases layerType <;> decide
  have hcontainer : ".ffn.experts.".toList = Family.nllb.containerName.toList ++
    ".".toList := by decide
  unfold Family.paramName Family.expertsName Family.expertName
  rw [hstack, hcontainer]
  simp only [List.append_assoc]

theorem underscore_not_mem {projection : String} (h : projection ∈ f.projections) :
    f = .nllb → '_' ∉ projection.toList := by
  rintro rfl
  have hall : ∀ q ∈ Family.nllb.projections, '_' ∉ q.toList := by decide
  exact hall projection h

/-- The names of two experts differ. -/
theorem paramName_inj {b' : Block} {e' : ℕ} {projection projection' : String}
    (hproj : f = .nllb → '_' ∉ projection.toList) (hproj' : f = .nllb → '_' ∉ projection'.toList)
    (hb : f ≠ .nllb → b.layerType = .decoder) (hb' : f ≠ .nllb → b'.layerType = .decoder)
    (h : f.paramName b e projection = f.paramName b' e' projection') : b = b' ∧ e = e' := by
  obtain ⟨layerType, index⟩ := b
  obtain ⟨layerType', index'⟩ := b'
  by_cases hf : f = .nllb
  · subst hf
    have hsearch := congrArg nllbPattern.search h
    rw [paramName_nllb, paramName_nllb, search_nllbPattern (hproj rfl),
      search_nllbPattern (hproj' rfl)] at hsearch
    obtain ⟨rfl, rfl, rfl⟩ : layerType = layerType' ∧ index = index' ∧ e = e' := by
      simpa using hsearch
    exact ⟨rfl, rfl⟩
  · have hsearch := congrArg (layersPattern (f.containerName ++ ".")).search h
    rw [search_paramName hf rfl, search_paramName hf rfl] at hsearch
    obtain ⟨rfl, rfl⟩ : index = index' ∧ e = e' := by simpa using hsearch
    obtain rfl : layerType = layerType' := (hb hf).trans (hb' hf).symm
    exact ⟨rfl, rfl⟩

/-- Only the configuration can be refused. -/
theorem parseExpertId_ok {param : MoeParam} (h : parseMoeParam config = .ok param) (name : Name) :
    ∃ r, parseExpertId name config = .ok r := by
  unfold parseExpertId
  rw [h]
  simp only [bind, Except.bind]
  split_ifs <;> exact ⟨_, rfl⟩

/-- **`parse_expert_id`** finds the numbers of the layer and of the expert in the names of its
parameters. -/
theorem parseExpertId_paramName (h : config.architectures = [f.architecture])
    (hsteps : f = .nllb → config.encoderSparseStep ≠ 0 ∧ config.decoderSparseStep ≠ 0)
    {projection : String} (hproj : f = .nllb → '_' ∉ projection.toList) :
    parseExpertId (f.paramName b e projection) config =
      .ok (some (f.layerNumber config b, some e)) := by
  have harch := arch_eq h
  unfold parseExpertId
  rw [parseMoeParam_eq h hsteps, harch]
  simp only [bind, Except.bind]
  cases f with
  | nllb =>
    rw [if_pos (by decide), paramName_nllb, search_nllbPattern (hproj rfl)]
    obtain ⟨layerType, index⟩ := b
    cases layerType <;> rfl
  | mixtral =>
    rw [if_neg (by decide), if_pos (by decide), search_paramName (by decide) (by decide)]
    simp [Family.moeParam, Family.layerNumber, pure, Except.pure]
  | _ =>
    rw [if_neg (by decide), if_neg (by decide), if_neg (by decide), if_pos (by decide),
      search_paramName (by decide) (by decide)]
    simp [Family.moeParam, Family.layerNumber, pure, Except.pure]

end Reading

end MoeInfinity.Utils.HfConfig
