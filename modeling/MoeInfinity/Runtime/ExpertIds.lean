import MoeInfinity.Runtime.LayerAgreement

/-! # The experts of the supported architectures (`utils/hf_config.py`)

`parse_expert_id` gives the parameters of different experts different numbers, all of them below the
numbers of layers and experts that `parse_moe_param` reports, and no numbers to other parameters.
The experts of GPT-OSS have no parameters of their own: a layer has its experts in common tensors,
which get the number of the layer only.

Which layers have experts, and what their parameters are called, is up to `transformers` and to the
checkpoint of DeepSeek-V4. -/

namespace MoeInfinity.Runtime.ExpertIds

open MoeInfinity.Lib.Backtrack MoeInfinity.Lib.Backtrack.Pattern
open MoeInfinity.Utils.HfConfig MoeInfinity.Runtime.LayerNumbers MoeInfinity.Runtime.LayerAgreement

/-! ### Architectures -/

/-- The architectures that `parse_moe_param` knows. -/
inductive Architecture where
  | separate (f : Family)
  | deepseekV4
  | gptOss
deriving DecidableEq, Repr

/-- `config.architectures[0]`. -/
def Architecture.className : Architecture → String
  | .separate f => f.architecture
  | .deepseekV4 => "DeepseekV4ForCausalLM"
  | .gptOss => "GptOssForCausalLM"

def Architecture.moeParam (config : PretrainedConfig) : Architecture → MoeParam
  | .separate f => f.moeParam config
  | .deepseekV4 => ⟨config.numHiddenLayers, config.nRoutedExperts, 0⟩
  | .gptOss => ⟨config.numHiddenLayers, config.numLocalExperts, 0⟩

structure Expert where
  block : Block
  index : ℕ
deriving DecidableEq, Repr

/-- All layers of DeepSeek-V4 and of GPT-OSS have experts. -/
def Architecture.HasExpert (config : PretrainedConfig) (a : Architecture) (x : Expert) : Prop :=
  (match a with
    | .separate f => MoeBlock f config x.block
    | _ => x.block.layerType = .decoder ∧ x.block.index < config.numHiddenLayers) ∧
  x.index < (a.moeParam config).numExperts

/-- The tensors that the experts of a layer of GPT-OSS share, with `_blocks`, `_scales` or `_bias`
behind them. -/
def fusedNames : List String := ["gate_up_proj", "down_proj"]

/-- The name is that of a parameter of the expert. -/
def Architecture.IsParam (x : Expert) (name : Name) : Architecture → Prop
  | .separate f =>
    ∃ tensor : String, (f = .nllb → '_' ∉ tensor.toList) ∧ name = f.paramName x.block x.index tensor
  | .deepseekV4 => ∃ tensor : Name, name = "layers.".toList ++ (digits x.block.index ++
      (".ffn.experts.".toList ++ (digits x.index ++ (".".toList ++ tensor))))
  | .gptOss => ∃ fused ∈ fusedNames, ∃ tail : Name, name = "model.".toList ++ ("layers.".toList ++
      (digits x.block.index ++ (".mlp.experts.".toList ++ (fused.toList ++ tail))))

/-- The name of another parameter: `experts` is not on its path. In NLLB only experts have `expert_`
in their names. -/
def Architecture.Other (name : Name) : Architecture → Prop
  | .separate .nllb => ¬ Contains "expert_" name
  | _ => "experts".toList ∉ name.splitOn '.'

/-- What `parse_expert_id` has to do with the names of the parameters. -/
structure Indexed (a : Architecture) (config : PretrainedConfig) (param : MoeParam) : Prop where
  pair : ∀ x name, a.HasExpert config x → a.IsParam x name → ∃ layerId expertId,
    parseExpertId name config = .ok (some (layerId, some expertId)) ∧
      layerId < param.numLayers ∧ expertId < param.numExperts
  distinct : ∀ x x' name name', a.HasExpert config x → a.HasExpert config x' → a.IsParam x name →
    a.IsParam x' name' → parseExpertId name config = parseExpertId name' config → x = x'
  other : ∀ name, a.Other name → parseExpertId name config = .ok none

/-! ### Other parameters -/

section Others

variable {name : Name} {word : Name}

/-- A word with dots around it is a part of the path. -/
theorem mem_splitOn (h : '.' :: (word ++ ['.']) <:+: name) (hword : '.' ∉ word) :
    word ∈ name.splitOn '.' := by
  obtain ⟨u, v, rfl⟩ := h
  rw [List.append_assoc, List.cons_append, List.append_assoc, List.singleton_append,
    List.splitOn_append_cons_self, List.splitOn_append_cons_self, List.splitOn_eq_singleton hword]
  simp

theorem not_contains_of_other {container : String} {u : Name}
    (hname : "experts".toList ∉ name.splitOn '.')
    (hcontainer : container.toList = u ++ ".experts.".toList) : ¬ container.toList <:+: name := by
  intro h
  rw [hcontainer] at h
  have hsuffix : ".experts.".toList <:+: name := (List.suffix_append u _).isInfix.trans h
  have hword : ".experts.".toList = '.' :: ("experts".toList ++ ['.']) := by decide
  rw [hword] at hsuffix
  exact hname (mem_splitOn hsuffix (by decide))

theorem finds_layersPattern (middle : String) : Finds middle.toList (layersPattern middle) :=
  .bind (shortens_lit _) fun _ => .bind shortens_number fun _ => (finds_lit middle).bind_left

theorem finds_gptOssPattern : Finds ".mlp.experts.".toList gptOssPattern :=
  .bind (shortens_lit _) fun _ => .bind shortens_number fun _ => (finds_lit _).bind_left

theorem finds_nllbPattern : Finds "expert_".toList nllbPattern :=
  .bind shortens_layerTypePattern fun _ => .bind (shortens_lit _) fun _ =>
    .bind (shortens_many1 _) fun _ =>
    .bind (shortens_lit _) fun _ => .bind shortens_number fun _ => .bind (shortens_many _) fun _ =>
      (finds_lit _).bind_left

end Others

/-! ### One class name -/

section Parsing

variable {a : Architecture} {config : PretrainedConfig} {x : Expert} {name : Name}
  {param : MoeParam}

/-- The configuration with the first of its class names only. -/
def single (a : Architecture) (config : PretrainedConfig) : PretrainedConfig :=
  { config with architectures := [a.className] }

theorem arch_single (h : config.architectures.head? = some a.className) :
    arch config = arch (single a config) := by
  unfold arch single
  rw [List.headD_eq_head?_getD, h]
  rfl

theorem arch_single_eq (a : Architecture) (config : PretrainedConfig) :
    arch (single a config) = a.className.toList.map Char.toLower := rfl

theorem parseMoeParam_single (h : config.architectures.head? = some a.className) :
    parseMoeParam config = parseMoeParam (single a config) := by
  unfold parseMoeParam
  rw [arch_single h]
  rfl

theorem parseExpertId_single (h : config.architectures.head? = some a.className) (name : Name) :
    parseExpertId name config = parseExpertId name (single a config) := by
  unfold parseExpertId
  rw [parseMoeParam_single h, arch_single h]
  rfl

/-- The sparse steps that NLLB divides by. -/
def Architecture.Steps (config : PretrainedConfig) (a : Architecture) : Prop :=
  a = .separate .nllb → config.encoderSparseStep ≠ 0 ∧ config.decoderSparseStep ≠ 0

/-- What `parse_moe_param` reports, and what it takes for that. -/
theorem parseMoeParam_ok (h : config.architectures.head? = some a.className)
    (hparam : parseMoeParam config = .ok param) : param = a.moeParam config ∧ a.Steps config := by
  rw [parseMoeParam_single h] at hparam
  have hsteps : a.Steps config := by
    rintro rfl
    by_contra hzero
    have hzero' : (single (.separate .nllb) config).encoderSparseStep = 0 ∨
        (single (.separate .nllb) config).decoderSparseStep = 0 := by
      rw [not_and_or, not_not, not_not] at hzero
      exact hzero
    unfold parseMoeParam at hparam
    rw [arch_single_eq, if_pos (by decide), if_pos hzero'] at hparam
    cases hparam
  refine ⟨?_, hsteps⟩
  cases a with
  | separate f =>
    have hok : parseMoeParam (single (.separate f) config) = .ok (f.moeParam config) :=
      parseMoeParam_eq rfl fun hf => hsteps (hf ▸ rfl)
    rw [hok] at hparam
    exact (Except.ok.inj hparam).symm
  | deepseekV4 =>
    unfold parseMoeParam at hparam
    rw [arch_single_eq, if_neg (by decide), if_neg (by decide), if_neg (by decide),
      if_pos (by decide)] at hparam
    exact (Except.ok.inj hparam).symm
  | gptOss =>
    unfold parseMoeParam at hparam
    rw [arch_single_eq, if_neg (by decide), if_neg (by decide), if_neg (by decide),
      if_neg (by decide), if_pos (by decide)] at hparam
    exact (Except.ok.inj hparam).symm

/-! ### Names of parameters -/

/-- The number that an expert's layer gets. -/
def Architecture.number (config : PretrainedConfig) (b : Block) : Architecture → ℕ
  | .separate f => f.layerNumber config b
  | _ => b.index

/-- **The parameters of an expert** have its numbers in their names. -/
theorem parseExpertId_param (h : config.architectures.head? = some a.className)
    (hparam : parseMoeParam config = .ok param) (ha : a ≠ .gptOss) (hname : a.IsParam x name) :
    parseExpertId name config = .ok (some (a.number config x.block, some x.index)) := by
  obtain ⟨rfl, hsteps⟩ := parseMoeParam_ok h hparam
  rw [parseMoeParam_single h] at hparam
  rw [parseExpertId_single h]
  cases a with
  | separate f =>
    obtain ⟨tensor, htensor, rfl⟩ := hname
    have hclass : (single (.separate f) config).architectures = [f.architecture] := rfl
    exact parseExpertId_paramName hclass (fun hf => hsteps (hf ▸ rfl)) htensor
  | deepseekV4 =>
    obtain ⟨tensor, rfl⟩ := hname
    have hdot : ∀ s c t, ".ffn.experts.".toList ++ s = c :: t → ¬ c.isDigit := fun s c t hc => by
      have hc : '.' = c := by simpa using congrArg List.head? hc
      rw [← hc]
      decide
    unfold parseExpertId
    rw [hparam, arch_single_eq]
    simp only [bind, Except.bind]
    rw [if_neg (by decide), if_neg (by decide), if_pos (by decide),
      search_of_first (first_layersPattern hdot)]
    simp [Architecture.moeParam, Architecture.number, pure, Except.pure]
  | gptOss => exact absurd rfl ha

/-- The tensors of a layer of GPT-OSS. -/
theorem search_gptOssPattern {i : ℕ} {fused : String} (hfused : fused ∈ fusedNames) (tail : Name) :
    gptOssPattern.search
      ("model.".toList ++
        ("layers.".toList ++ (digits i ++ (".mlp.experts.".toList ++ (fused.toList ++ tail))))) =
        some i := by
  have hclash : ∀ v ∈ "model.".toList.tails, v ≠ [] → Clash "layers.".toList v := by decide
  have hfails : ∀ v ∈ "model.".toList.tails, v ≠ [] → ∀ s, Fails gptOssPattern (v ++ s) :=
    fun v hv hne s => fails_bind_left (fails_lit_of_clash (hclash v hv hne) s)
  rw [search_append fun v hv hne => hfails v hv hne _]
  have hnumber :
      First number (digits i ++ (".mlp.experts.".toList ++ (fused.toList ++ tail))) i _ :=
    first_number i fun c t hc => by
      have hc : '.' = c := by simpa using congrArg List.head? hc
      rw [← hc]
      decide
  have hword : First ((lit "gate_up_proj").or (lit "down_proj")) (fused.toList ++ tail)
      () tail := by
    rcases List.mem_cons.mp hfused with rfl | hfused
    · exact First.or_left (first_lit _ tail)
    · rw [List.mem_singleton.mp hfused]
      exact first_or_right (fails_lit_of_clash (by decide) tail) (first_lit _ tail)
  exact search_of_first ((first_lit "layers." _).bind (hnumber.bind ((first_lit _ _).bind
    (hword.bind (first_pure i tail)))))

/-- **GPT-OSS**: the tensors of the experts have the number of the layer only. -/
theorem parseExpertId_fused (h : config.architectures.head? = some Architecture.gptOss.className)
    (hname : Architecture.gptOss.IsParam x name) :
    parseExpertId name config = .ok (some (x.block.index, none)) := by
  obtain ⟨fused, hfused, tail, rfl⟩ := hname
  rw [parseExpertId_single h]
  unfold parseExpertId parseMoeParam
  rw [arch_single_eq, if_neg (by decide), if_neg (by decide), if_neg (by decide),
    if_neg (by decide), if_pos (by decide)]
  simp only [bind, Except.bind]
  rw [if_neg (by decide), if_neg (by decide), if_neg (by decide), if_neg (by decide),
    if_pos (by decide), search_gptOssPattern hfused]
  rfl

/-- **Other parameters** have no numbers. -/
theorem parseExpertId_other (h : config.architectures.head? = some a.className)
    (hparam : parseMoeParam config = .ok param) (hname : a.Other name) :
    parseExpertId name config = .ok none := by
  have hlayers : ∀ middle : String, "experts".toList ∉ name.splitOn '.' →
      (∃ u, middle.toList = u ++ ".experts.".toList) → (layersPattern middle).search name = none :=
    fun middle hother ⟨_, hmiddle⟩ =>
      (finds_layersPattern middle).search (not_contains_of_other hother hmiddle)
  rw [parseMoeParam_single h] at hparam
  rw [parseExpertId_single h]
  unfold parseExpertId
  rw [hparam, arch_single_eq]
  simp only [bind, Except.bind]
  cases a with
  | separate f =>
    cases f with
    | nllb =>
      rw [if_pos (by decide), finds_nllbPattern.search hname]
      rfl
    | mixtral =>
      rw [if_neg (by decide), if_pos (by decide),
        hlayers ".block_sparse_moe.experts." hname ⟨".block_sparse_moe".toList, by decide⟩]
      rfl
    | _ =>
      rw [if_neg (by decide), if_neg (by decide), if_neg (by decide), if_pos (by decide),
        hlayers ".mlp.experts." hname ⟨".mlp".toList, by decide⟩]
      rfl
  | deepseekV4 =>
    rw [if_neg (by decide), if_neg (by decide), if_pos (by decide),
      hlayers ".ffn.experts." hname ⟨".ffn".toList, by decide⟩]
    rfl
  | gptOss =>
    have hcontainer : ¬ ".mlp.experts.".toList <:+: name :=
      not_contains_of_other (u := ".mlp".toList) hname (by decide)
    rw [if_neg (by decide), if_neg (by decide), if_neg (by decide), if_neg (by decide),
      if_pos (by decide), finds_gptOssPattern.search hcontainer]
    rfl

/-! ### Numbers -/

/-- **The range**: the layer of an expert is one of those that are counted. -/
theorem number_lt (hsteps : a.Steps config) (hx : a.HasExpert config x) :
    a.number config x.block < (a.moeParam config).numLayers := by
  obtain ⟨hblock, -⟩ := hx
  cases a with
  | separate f =>
    by_cases hf : f = .nllb
    · subst hf
      obtain ⟨henc, hdec⟩ := hsteps rfl
      rcases hblock.nllb with ⟨i, hi, hb, hmod⟩ | ⟨i, hi, hb, hmod⟩
      · have hlt := div_lt_of_mod henc hmod hi
        rw [hb]
        exact Nat.lt_add_right _ hlt
      · have hlt := div_lt_of_mod hdec hmod hi
        rw [hb, Architecture.moeParam, Family.moeParam, Nat.add_comm]
        exact Nat.add_lt_add_right hlt _
    · obtain ⟨i, hi, hb⟩ : ∃ i < config.numHiddenLayers, x.block = ⟨.decoder, i⟩ := by
        cases f with
        | nllb => exact absurd rfl hf
        | _ =>
          obtain ⟨i, hi, hb⟩ := List.mem_map.mp hblock.1
          exact ⟨i, List.mem_range.mp hi, hb.symm⟩
      rw [hb]
      cases f with
      | nllb => exact absurd rfl hf
      | _ => exact hi
  | _ => exact hblock.2

/-- **Different layers** have different numbers. -/
theorem number_inj {x' : Expert} (hsteps : a.Steps config) (hx : a.HasExpert config x)
    (hx' : a.HasExpert config x') (h : a.number config x.block = a.number config x'.block) :
    x.block = x'.block := by
  obtain ⟨hblock, -⟩ := hx
  obtain ⟨hblock', -⟩ := hx'
  cases a with
  | separate f => exact layerNumber_inj (fun hf => hsteps (hf ▸ rfl)) hblock (Or.inl hblock') h
  | _ =>
    obtain ⟨⟨layerType, i⟩, e⟩ := x
    obtain ⟨⟨layerType', i'⟩, e'⟩ := x'
    obtain rfl : layerType = .decoder := hblock.1
    obtain rfl : layerType' = .decoder := hblock'.1
    exact congrArg (Block.mk .decoder) h

end Parsing

/-- **The numbers in the names**, wherever `parse_moe_param` reports a range: different experts have
different pairs in the range, and other parameters have none; GPT-OSS has the number of the layer
for the tensors that its experts share. -/
theorem parseExpertId_indexed (a : Architecture) (config : PretrainedConfig) (param : MoeParam)
    (h : config.architectures.head? = some a.className)
    (hparam : parseMoeParam config = .ok param) :
    (a ≠ .gptOss → Indexed a config param) ∧
      (a = .gptOss → (∀ name, a.Other name → parseExpertId name config = .ok none) ∧
        ∀ x name, a.HasExpert config x → a.IsParam x name →
          parseExpertId name config = .ok (some (x.block.index, none)) ∧
          x.block.index < param.numLayers) := by
  obtain ⟨hmoe, hsteps⟩ := parseMoeParam_ok h hparam
  refine ⟨fun ha => ⟨fun x name hx hname => ?_, fun x x' name name' hx hx' hname hname' heq => ?_,
    fun name => parseExpertId_other h hparam⟩, ?_⟩
  · refine ⟨_, _, parseExpertId_param h hparam ha hname, ?_⟩
    rw [hmoe]
    exact ⟨number_lt hsteps hx, hx.2⟩
  · rw [parseExpertId_param h hparam ha hname, parseExpertId_param h hparam ha hname'] at heq
    obtain ⟨hnumber, hindex⟩ : a.number config x.block = a.number config x'.block ∧
    x.index = x'.index := by
      simpa using heq
    have hblock := number_inj hsteps hx hx' hnumber
    cases x
    cases x'
    simp only at hblock hindex
    rw [hblock, hindex]
  · rintro rfl
    refine ⟨fun name => parseExpertId_other h hparam,
      fun x name hx hname => ⟨parseExpertId_fused h hname, ?_⟩⟩
    rw [hmoe]
    exact hx.1.2

def nllb : PretrainedConfig where
  architectures := ["NllbMoeForConditionalGeneration"]
  modelType := "nllb-moe"
  numHiddenLayers := 12
  numLocalExperts := 0
  numExperts := 4
  nRoutedExperts := 0
  encoderLayers := 12
  decoderLayers := 6
  encoderSparseStep := 2
  decoderSparseStep := 3
  mlpOnlyLayers := []
  firstKDenseReplace := none

theorem nllb_indexed : Indexed (.separate .nllb) nllb ⟨8, 4, 6⟩ :=
  (parseExpertId_indexed (.separate .nllb) nllb ⟨8, 4, 6⟩ rfl (by decide)).1 (by decide)

def gptOss : PretrainedConfig :=
  { nllb with
    architectures := ["GptOssForCausalLM"], modelType := "gpt_oss", numLocalExperts := 32 }

/-- Both experts of a layer of GPT-OSS have the tensor with the number of the layer and no more;
with a sparse step of zero in the encoder there is no range, and no number in the decoder. -/
theorem not_all_indexed :
    (¬ ∃ param, parseMoeParam gptOss = .ok param ∧ Indexed .gptOss gptOss param) ∧
    ¬ ∃ param, parseMoeParam { nllb with encoderSparseStep := 0 } = .ok param ∧
      Indexed (.separate .nllb) { nllb with encoderSparseStep := 0 } param := by
  constructor
  · rintro ⟨param, hparam, hindexed⟩
    obtain rfl : param = ⟨12, 32, 0⟩ := by
      have hok : parseMoeParam gptOss = .ok ⟨12, 32, 0⟩ := by decide
      exact Except.ok.inj (hparam.symm.trans hok)
    have hname : Architecture.gptOss.IsParam ⟨⟨.decoder, 0⟩, 0⟩
        "model.layers.0.mlp.experts.gate_up_proj".toList :=
          ⟨"gate_up_proj", by decide, [], by decide⟩
    obtain ⟨layerId, expertId, hpair, -⟩ := hindexed.pair ⟨⟨.decoder, 0⟩, 0⟩ _
      ⟨⟨rfl, by decide⟩, by decide⟩ hname
    rw [parseExpertId_fused rfl hname] at hpair
    cases hpair
  · rintro ⟨param, hparam, -⟩
    have herror : parseMoeParam { nllb with encoderSparseStep := 0 } =
      .error .zeroDivision := by decide
    rw [herror] at hparam
    cases hparam

end MoeInfinity.Runtime.ExpertIds
