import Mathlib.Data.List.Dedup
import MoeInfinity.Runtime.LayerNumbers

/-! # Agreement of the layer numbers

The modules and the stages of experts are counted alike, so the two numbers of a MoE layer that come
from counting are equal, and expert `e` of the dispatcher is expert `e` of the checkpoint. The
number in the names is equal to them if the count starts behind the dense layers and passes over
none. -/

namespace MoeInfinity.Runtime.LayerAgreement

open MoeInfinity.Lib.Backtrack MoeInfinity.Lib.Backtrack.Pattern MoeInfinity.Lib.Dict
open MoeInfinity.Utils.HfConfig MoeInfinity.Runtime.Topology MoeInfinity.Runtime.LayerNumbers

/-! ### Other names have no numbers -/

section Numberless

variable {f : Family} {config : PretrainedConfig} {name : Name}

/-- A digit behind `expert`. -/
def Numbered (name : Name) : Prop :=
  ∃ u v c, name = u ++ ("expert".toList ++ v) ∧ c ∈ v ∧ c.isDigit

theorem Numbered.of_suffix {s : Name} (h : Numbered s) (hs : s <:+ name) : Numbered name := by
  obtain ⟨w, rfl⟩ := hs
  obtain ⟨u, v, c, rfl, hc, hdigit⟩ := h
  exact ⟨w ++ u, v, c, (List.append_assoc _ _ _).symm, hc, hdigit⟩

/-- The number of a plain name stands before `expert`. -/
theorem not_numbered_of_plain (h : Plain name) : ¬ Numbered name := by
  rintro ⟨u, v, c, hname, hc, hdigit⟩
  rcases h with h | ⟨-, front, back, hsplit, -, hfront, hback⟩
  · exact h ⟨u, v, by rw [hname, List.append_assoc]⟩
  · have hword : (u ++ "expert".toList) ++ v = front ++ back := by
      rw [← hsplit, hname, List.append_assoc]
    rcases List.append_eq_append_iff.mp hword with ⟨w, hw, hv⟩ | ⟨w, hw, hv⟩
    · exact hfront ⟨u, w, by rw [hw]⟩
    · have hmem : c ∈ back := by
        rw [hv]
        exact List.mem_append_right w hc
      exact hback c hmem hdigit

/-- What a pattern matches has a number behind `expert`. -/
def FindsNumbered {α : Type} (p : Pattern α) : Prop := ∀ s, ∀ x ∈ p.run s, Numbered s

theorem FindsNumbered.search {α : Type} {p : Pattern α} (hp : FindsNumbered p)
    (h : ¬ Numbered name) :
    p.search name = none :=
  search_eq_none fun t ht => List.eq_nil_iff_forall_not_mem.mpr fun x hx =>
    h ((hp t x hx).of_suffix ht)

theorem FindsNumbered.bind {α β : Type} {p : Pattern α} {k : α → Pattern β} (hp : Shortens p)
    (hk : ∀ a, FindsNumbered (k a)) : FindsNumbered (p >>= k) := by
  intro s x hx
  obtain ⟨y, hy, hx⟩ := mem_bind.mp hx
  exact (hk y.1 y.2 x hx).of_suffix (hp s y hy)

theorem shortens_layerTypePattern : Shortens layerTypePattern := by
  intro s x hx
  rcases List.mem_append.mp hx with hx | hx
  · obtain ⟨y, hy, hx⟩ := mem_bind.mp hx
    rw [mem_pure.mp hx]
    exact shortens_lit _ s y hy
  · obtain ⟨y, hy, hx⟩ := mem_bind.mp hx
    rw [mem_pure.mp hx]
    exact shortens_lit _ s y hy

/-- A word with `expert` and a number. -/
theorem findsNumbered_word {α : Type} {u w : Name} {middle : String} {k : ℕ → Pattern α}
    (hmiddle : middle.toList = u ++ ("expert".toList ++ w)) :
    FindsNumbered (lit middle >>= fun _ => number >>= k) := by
  intro s x hx
  obtain ⟨⟨_, s1⟩, h1, hx⟩ := mem_bind.mp hx
  obtain ⟨⟨_, s2⟩, h2, hx⟩ := mem_bind.mp hx
  obtain ⟨n, hn, hne, hall⟩ := mem_number h2
  obtain ⟨c, hc⟩ := List.exists_mem_of_ne_nil _ hne
  have h1 := mem_lit h1
  simp only at h1 hn
  refine ⟨u, w ++ (n ++ s2), c, ?_, List.mem_append_right w (List.mem_append_left _ hc), hall c hc⟩
  rw [h1, hn, hmiddle]
  simp only [List.append_assoc]

theorem findsNumbered_layersPattern {u w : Name} {middle : String}
    (hmiddle : middle.toList = u ++ ("expert".toList ++ w)) :
    FindsNumbered (layersPattern middle) :=
  .bind (shortens_lit _) fun _ => .bind shortens_number fun _ => findsNumbered_word hmiddle

theorem findsNumbered_nllbPattern : FindsNumbered nllbPattern :=
  .bind shortens_layerTypePattern fun _ => .bind (shortens_lit _) fun _ =>
    .bind (shortens_many1 _) fun _ =>
    .bind (shortens_lit _) fun _ => .bind shortens_number fun _ => .bind (shortens_many _) fun _ =>
      findsNumbered_word (u := []) (w := "_".toList) (by decide)

/-- `parse_expert_id` on a name without a number behind `expert`. -/
theorem parseExpertId_plain (harch : config.architectures = [f.architecture])
    (hsteps : f = .nllb → config.encoderSparseStep ≠ 0 ∧ config.decoderSparseStep ≠ 0)
    (h : Plain name) :
    parseExpertId name config = .ok none := by
  have hnot := not_numbered_of_plain h
  have hlayers : ∀ middle : String, (∃ u w, middle.toList = u ++ ("expert".toList ++ w)) →
      (layersPattern middle).search name = none := fun _ ⟨_, _, hmiddle⟩ =>
    (findsNumbered_layersPattern hmiddle).search hnot
  unfold parseExpertId
  rw [parseMoeParam_eq harch hsteps, arch_eq harch]
  simp only [bind, Except.bind]
  cases f with
  | nllb =>
    rw [if_pos (by decide), findsNumbered_nllbPattern.search hnot]
    rfl
  | mixtral =>
    rw [if_neg (by decide), if_pos (by decide),
      hlayers ".block_sparse_moe.experts." ⟨".block_sparse_moe.".toList, "s.".toList, by decide⟩]
    rfl
  | _ =>
    rw [if_neg (by decide), if_neg (by decide), if_neg (by decide), if_pos (by decide),
      hlayers ".mlp.experts." ⟨".mlp.".toList, "s.".toList, by decide⟩]
    rfl

end Numberless

/-! ### Loaded models -/

section Loading

variable {f : Family} {config : PretrainedConfig} {m : Model f config} {engine : OffloadEngine}
  {modelName : Name} {k : ℕ}

/-- `expert_tensor_map` has an entry for each pair of numbers in a name, and no others. -/
def TensorsOf (config : PretrainedConfig) (entries : List (Name × ℕ))
    (expertTensorMap : List ((ℕ × ℕ) × ℕ)) :
    Prop :=
  ∀ key : ℕ × ℕ, (∃ entry ∈ entries, parseExpertId entry.1 config = .ok (some (key.1, some key.2)) ∧
      expertTensorMap.lookup key = some entry.2) ∨
    ∀ entry ∈ entries, parseExpertId entry.1 config ≠ .ok (some (key.1, some key.2))

theorem TensorsOf.add {entries : List (Name × ℕ)} {expertTensorMap : List ((ℕ × ℕ) × ℕ)}
    {entry : Name × ℕ} {param : MoeParam} (hparam : parseMoeParam config = .ok param)
    (h : TensorsOf config entries expertTensorMap) :
    ∃ expertTensorMap', addExpertTensor config expertTensorMap entry = .ok expertTensorMap' ∧
      TensorsOf config (entries ++ [entry]) expertTensorMap' := by
  obtain ⟨r, hr⟩ := parseExpertId_ok hparam entry.1
  unfold addExpertTensor
  rw [hr]
  have hkeep : (∀ key : ℕ × ℕ, r ≠ some (key.1, some key.2)) →
      TensorsOf config (entries ++ [entry]) expertTensorMap := by
    intro hnone key
    refine (h key).imp (fun ⟨d, hd, hparse⟩ => ⟨d, List.mem_append_left _ hd, hparse⟩)
      fun hall d hd => ?_
    rcases List.mem_append.mp hd with hd | hd
    · exact hall d hd
    · rw [List.mem_singleton.mp hd, hr]
      simpa using hnone key
  match r, hr, hkeep with
  | none, _, hkeep => exact ⟨_, rfl, hkeep fun _ => nofun⟩
  | some (_, none), _, hkeep => exact ⟨_, rfl, hkeep fun _ => nofun⟩
  | some (layerId, some expertId), hr, _ =>
    refine ⟨_, rfl, fun key => ?_⟩
    by_cases hkey : key = (layerId, expertId)
    · subst hkey
      exact Or.inl ⟨entry, List.mem_append_right _ List.mem_cons_self, hr, lookup_put_self⟩
    · rcases h key with ⟨d, hd, hparse, hlookup⟩ | hall
      · exact Or.inl ⟨d, List.mem_append_left _ hd, hparse, by rw [lookup_put_of_ne hkey, hlookup]⟩
      · refine Or.inr fun d hd hparse => ?_
        rcases List.mem_append.mp hd with hd | hd
        · exact hall d hd hparse
        · rw [List.mem_singleton.mp hd, hr] at hparse
          exact hkey (by simpa [Prod.ext_iff, eq_comm] using hparse)

theorem foldlM_addExpertTensor {param : MoeParam} (hparam : parseMoeParam config = .ok param)
    (entries done : List (Name × ℕ)) (expertTensorMap : List ((ℕ × ℕ) × ℕ))
    (h : TensorsOf config done expertTensorMap) :
    ∃ expertTensorMap', entries.foldlM (addExpertTensor config) expertTensorMap =
      .ok expertTensorMap' ∧ TensorsOf config (done ++ entries) expertTensorMap' := by
  induction entries generalizing done expertTensorMap with
  | nil => exact ⟨expertTensorMap, rfl, by rwa [List.append_nil]⟩
  | cons entry entries ih =>
    obtain ⟨expertTensorMap₁, h1, hof⟩ : ∃ t, addExpertTensor config expertTensorMap entry = .ok t ∧
        TensorsOf config (done ++ [entry]) t := h.add hparam
    obtain ⟨expertTensorMap₂, h2, hof₂⟩ := ih _ _ hof
    refine ⟨expertTensorMap₂, ?_, ?_⟩
    · rw [List.foldlM_cons, h1]
      exact h2
    · rwa [List.append_assoc] at hof₂

/-- What loading makes of a model, with the number `k` of the first MoE layer. -/
structure Loaded (m : Model f config) (k : ℕ) (engine : OffloadEngine) : Prop where
  modules : engine.expertLayerModules = m.moeBlocks.zipIdx.map fun (b, moduleIdx) =>
    (b, moduleIdx + k)
  registered : ∀ i b, m.moeBlocks[i]? = some b → ∀ e < numExperts f config,
    engine.expertDispatcher.lookup (k + i, e) = some (m.ids b e)
  tensors : TensorsOf config m.nameIdMap engine.expertTensorMap

/-- **Loading** a model. -/
theorem archerFromPretrained_spec
    (hsteps : f = .nllb → config.encoderSparseStep ≠ 0 ∧ config.decoderSparseStep ≠ 0)
    (hk : LayerNumbers.firstKDenseReplace config modelName = .ok k) :
    ∃ engine, archerFromPretrained m modelName = .ok engine ∧ Loaded m k engine := by
  have hparam := parseMoeParam_eq m.architectures hsteps
  obtain ⟨expertTensorMap, hmap, hof⟩ := foldlM_addExpertTensor hparam m.nameIdMap [] []
    fun key => Or.inr fun entry h => absurd h List.not_mem_nil
  obtain ⟨topo, htopo, hsorted, hstages⟩ := getTopology_known (known_params m) (known_buffers m)
  have hmodel : config.modelType ≠ "gpt_oss" := by
    have hall : ∀ g : Family, g.modelType ≠ "gpt_oss" := by
      intro g
      cases g <;> decide
    rw [m.modelType]
    exact hall f
  unfold archerFromPretrained
  rw [hparam, hk]
  simp only [bind, Except.bind, pure, Except.pure]
  rw [hmap, htopo]
  refine ⟨_, rfl, ⟨rfl, fun i b hb e he => ?_, hof⟩⟩
  rw [expertStages_topology m (by omega)] at hstages
  have hkeys : ∀ stage ∈ expertStages topo, hookKey stage.1 = stage.1 := by
    intro stage hstage
    rw [hstages] at hstage
    obtain ⟨b, -, rfl⟩ := List.mem_map.mp hstage
    exact hookKey_expertsName f b
  have hstage : (expertStages topo)[i]? = some (expertStage m b) := by
    rw [hstages, List.getElem?_map, hb]
    rfl
  have hnode : (expertStage m b).2[e]? = some (f.expertName e, m.ids b e) := by
    unfold expertStage
    rw [List.getElem?_map, List.getElem?_range he]
    rfl
  rw [setupArcherHooks_eq hsorted hmodel hkeys]
  exact lookup_registerStages hstage hnode

/-- A model that is loaded has what loading asks for. -/
theorem loaded_of_ok (h : archerFromPretrained m modelName = .ok engine) :
    (f = .nllb → config.encoderSparseStep ≠ 0 ∧ config.decoderSparseStep ≠ 0) ∧
      ∃ k, LayerNumbers.firstKDenseReplace config modelName = .ok k ∧ Loaded m k engine := by
  have hsteps : f = .nllb → config.encoderSparseStep ≠ 0 ∧ config.decoderSparseStep ≠ 0 := by
    rintro rfl
    by_contra h0
    have hzero : config.encoderSparseStep = 0 ∨ config.decoderSparseStep = 0 := by omega
    have hparam : parseMoeParam config = .error .zeroDivision := by
      unfold parseMoeParam
      rw [arch_eq m.architectures, if_pos (by decide), if_pos hzero]
    unfold archerFromPretrained at h
    rw [hparam] at h
    simp [bind, Except.bind] at h
  refine ⟨hsteps, ?_⟩
  cases hk : LayerNumbers.firstKDenseReplace config modelName with
  | ok k =>
    obtain ⟨engine', hengine', hloaded⟩ := archerFromPretrained_spec (m := m) hsteps hk
    rw [h] at hengine'
    obtain rfl : engine = engine' := by simpa using hengine'
    exact ⟨k, rfl, hloaded⟩
  | error err =>
    have hparam := parseMoeParam_eq m.architectures hsteps
    obtain ⟨expertTensorMap, hmap, -⟩ := foldlM_addExpertTensor hparam m.nameIdMap [] []
      fun key => Or.inr fun entry h => absurd h List.not_mem_nil
    unfold archerFromPretrained at h
    rw [hparam, hk] at h
    simp [bind, Except.bind, hmap] at h

end Loading

/-! ### Numbers in names -/

section Numbers

variable {f : Family} {config : PretrainedConfig} {m : Model f config} {b b' : Block}
  {i j n step : ℕ}

/-- The last of every `step` layers. -/
theorem exists_of_mod (hi : (i + 1) % step = 0) : ∃ q, i + 1 = step * (q + 1) ∧ i / step = q := by
  obtain ⟨q, hq⟩ := Nat.dvd_of_mod_eq_zero hi
  obtain ⟨q, rfl⟩ : ∃ q', q = q' + 1 := Nat.exists_eq_succ_of_ne_zero (by rintro rfl; omega)
  have hmul : step * (q + 1) = step * q + step := Nat.mul_succ step q
  refine ⟨q, hq, Nat.div_eq_of_lt_le ?_ ?_⟩
  · rw [Nat.mul_comm]
    have hpos : 0 < step := Nat.pos_of_ne_zero (by rintro rfl; omega)
    omega
  · rw [Nat.mul_comm]
    have hsucc : step * q.succ = step * q + step := Nat.mul_succ step q
    omega

theorem div_inj_of_mod (hi : (i + 1) % step = 0) (hj : (j + 1) % step = 0)
    (h : i / step = j / step) :
    i = j := by
  obtain ⟨q, hq, rfl⟩ := exists_of_mod hi
  obtain ⟨q', hq', rfl⟩ := exists_of_mod hj
  rw [h] at hq
  omega

theorem div_lt_of_mod (hstep : step ≠ 0) (hi : (i + 1) % step = 0) (hlt : i < n) :
    i / step < n / step := by
  obtain ⟨q, hq, hdiv⟩ := exists_of_mod hi
  have hle : (q + 1) * step ≤ n := by
    rw [Nat.mul_comm]
    omega
  rw [hdiv]
  exact (Nat.le_div_iff_mul_le (Nat.pos_of_ne_zero hstep)).mpr hle

/-- A layer of the model that is built with experts. -/
def MoeBlock (f : Family) (config : PretrainedConfig) (b : Block) : Prop :=
  b ∈ blocks f config ∧ Sparse f config b

theorem moeBlock_of_mem (h : b ∈ m.moeBlocks) : MoeBlock f config b := by
  obtain ⟨hb, hmoe⟩ := List.mem_filter.mp h
  exact ⟨hb, (m.moe_iff b hb).mp hmoe⟩

/-- A decoder layer behind the last one. -/
def Beyond (f : Family) (config : PretrainedConfig) (b : Block) : Prop :=
  b.layerType = .decoder ∧ ∀ b' ∈ blocks f config, b'.layerType = .decoder → b'.index < b.index

theorem Beyond.nllb (h : Beyond .nllb config b) :
    ∃ j ≥ config.decoderLayers, b = ⟨.decoder, j⟩ := by
  obtain ⟨layerType, j⟩ := b
  obtain rfl : layerType = .decoder := h.1
  refine ⟨j, ?_, rfl⟩
  rcases Nat.eq_zero_or_pos config.decoderLayers with h0 | hpos
  · omega
  · have hlast : (⟨.decoder, config.decoderLayers - 1⟩ : Block) ∈ blocks .nllb config :=
      List.mem_append_right _ (List.mem_map.mpr ⟨_, List.mem_range.mpr (by omega), rfl⟩)
    have hlt : config.decoderLayers - 1 < j := h.2 _ hlast rfl
    omega

theorem MoeBlock.nllb (h : MoeBlock .nllb config b) :
    (∃ i < config.encoderLayers, b = ⟨.encoder, i⟩ ∧ (i + 1) % config.encoderSparseStep = 0) ∨
      ∃ i < config.decoderLayers, b = ⟨.decoder, i⟩ ∧ (i + 1) % config.decoderSparseStep = 0 := by
  obtain ⟨hb, hsparse⟩ := h
  rcases List.mem_append.mp hb with hb | hb
  · obtain ⟨i, hi, rfl⟩ := List.mem_map.mp hb
    exact Or.inl ⟨i, List.mem_range.mp hi, rfl, hsparse⟩
  · obtain ⟨i, hi, rfl⟩ := List.mem_map.mp hb
    exact Or.inr ⟨i, List.mem_range.mp hi, rfl, hsparse⟩

/-- NLLB counts through the encoder and goes on with the decoder. -/
theorem layerNumber_inj_nllb
    (hsteps : config.encoderSparseStep ≠ 0 ∧ config.decoderSparseStep ≠ 0)
    (hb : MoeBlock .nllb config b) (hb' : MoeBlock .nllb config b' ∨ Beyond .nllb config b')
    (h : Family.nllb.layerNumber config b = Family.nllb.layerNumber config b') : b = b' := by
  rcases hb.nllb with ⟨i, hi, rfl, hmod⟩ | ⟨i, hi, rfl, hmod⟩
  · have hlt := div_lt_of_mod hsteps.1 hmod hi
    rcases hb'.imp MoeBlock.nllb Beyond.nllb
      with (⟨j, -, rfl, hmod'⟩ | ⟨j, -, rfl, -⟩) | ⟨j, -, rfl⟩
    · rw [div_inj_of_mod hmod hmod' h]
    all_goals
      have hnum : i / config.encoderSparseStep =
        j / config.decoderSparseStep + config.encoderLayers / config.encoderSparseStep := h
      exact absurd (hnum ▸ hlt) (Nat.not_lt.mpr (Nat.le_add_left _ _))
  · have hlt := div_lt_of_mod hsteps.2 hmod hi
    rcases hb'.imp MoeBlock.nllb Beyond.nllb
      with (⟨j, hj, rfl, hmod'⟩ | ⟨j, -, rfl, hmod'⟩) | ⟨j, hj, rfl⟩
    · have hlt' := div_lt_of_mod hsteps.1 hmod' hj
      have hnum : i / config.decoderSparseStep + config.encoderLayers / config.encoderSparseStep =
        j / config.encoderSparseStep := h
      exact absurd (hnum ▸ hlt') (Nat.not_lt.mpr (Nat.le_add_left _ _))
    · rw [div_inj_of_mod hmod hmod' (Nat.add_right_cancel h)]
    · have hle : config.decoderLayers / config.decoderSparseStep ≤ j / config.decoderSparseStep :=
        Nat.div_le_div_right hj
      have hnum : i / config.decoderSparseStep = j / config.decoderSparseStep :=
        Nat.add_right_cancel h
      exact absurd (hnum ▸ hlt) (Nat.not_lt.mpr hle)

/-- **The names of different layers have different numbers.** -/
theorem layerNumber_inj
    (hsteps : f = .nllb → config.encoderSparseStep ≠ 0 ∧ config.decoderSparseStep ≠ 0)
    (hb : MoeBlock f config b) (hb' : MoeBlock f config b' ∨ Beyond f config b')
    (h : f.layerNumber config b = f.layerNumber config b') : b = b' := by
  by_cases hf : f = .nllb
  · subst hf
    exact layerNumber_inj_nllb (hsteps rfl) hb hb' h
  · have hdecoder : b.layerType = .decoder := decoder_of_mem hf hb.1
    have hdecoder' : b'.layerType = .decoder :=
      hb'.elim (fun h => decoder_of_mem hf h.1) fun h => h.1
    obtain ⟨layerType, i⟩ := b
    obtain ⟨layerType', j⟩ := b'
    obtain rfl : layerType = .decoder := hdecoder
    obtain rfl : layerType' = .decoder := hdecoder'
    have hij : i = j := by
      cases f with
      | nllb => exact absurd rfl hf
      | _ => exact h
    rw [hij]

end Numbers

/-! ### Agreement and counting -/

section Counting

variable {f : Family} {config : PretrainedConfig} {m : Model f config}
  {engine : OffloadEngine} {b : Block} {e i k : ℕ}

/-- The entry of `expert_tensor_map` for an expert is one of its tensors. -/
theorem Loaded.prefetched (h : Loaded m k engine)
    (hsteps : f = .nllb → config.encoderSparseStep ≠ 0 ∧ config.decoderSparseStep ≠ 0)
    (hb : b ∈ m.moeBlocks) (he : e < numExperts f config) :
    ∃ tensor id, m.nameIdMap.lookup (f.paramName b e tensor) = some id ∧
      engine.expertTensorMap.lookup (f.layerNumber config b, e) = some id := by
  obtain ⟨hmem, hmoe⟩ := List.mem_filter.mp hb
  rcases h.tensors (f.layerNumber config b, e) with ⟨⟨name, id⟩, hentry, hparse, hlookup⟩ | hnone
  · rcases m.known name (List.mem_map_of_mem hentry)
      with hplain | ⟨b', e', tensor, rfl, htensor, hb'⟩
    · rw [parseExpertId_plain m.architectures hsteps hplain] at hparse
      simp at hparse
    · rw [parseExpertId_paramName m.architectures hsteps htensor] at hparse
      obtain ⟨hnum, rfl⟩ : f.layerNumber config b' = f.layerNumber config b ∧ e' = e := by
        simpa using hparse
      have hb'' : MoeBlock f config b' ∨ Beyond f config b' :=
        hb'.imp_left fun h => moeBlock_of_mem (List.mem_filter.mpr h)
      obtain rfl := layerNumber_inj hsteps (moeBlock_of_mem hb) hb'' hnum.symm
      refine ⟨tensor, id, ?_, hlookup⟩
      obtain ⟨l, l', hsplit⟩ := List.append_of_mem hentry
      have hkeys := m.keys
      rw [hsplit, List.map_append, List.map_cons] at hkeys
      have hnew : f.paramName b e' tensor ∉ l.map Prod.fst := fun hl =>
        (List.nodup_append.mp hkeys).2.2 _ hl _ List.mem_cons_self rfl
      rw [hsplit, List.lookup_append, lookup_eq_none.mpr hnew]
      simp
  · obtain ⟨projection, hproj⟩ := exists_projection f
    obtain ⟨id, hid⟩ := m.stored b hmem hmoe e he projection hproj
    have hparse := parseExpertId_paramName (b := b) (e := e) m.architectures hsteps
      (underscore_not_mem hproj)
    have hunparsed := hnone _ (mem_of_lookup hid)
    rw [hparse] at hunparsed
    exact absurd rfl hunparsed

/-- **Agreement** says that the names count the MoE layers from `k` on. -/
theorem Loaded.agree_iff (h : Loaded m k engine)
    (hsteps : f = .nllb → config.encoderSparseStep ≠ 0 ∧ config.decoderSparseStep ≠ 0)
    (hexperts : numExperts f config ≠ 0) :
    Agree m engine ↔
      m.moeBlocks.map (f.layerNumber config) = List.range' k m.moeBlocks.length := by
  have hiff : m.moeBlocks.map (f.layerNumber config) = List.range' k m.moeBlocks.length ↔
      ∀ i b, m.moeBlocks[i]? = some b → f.layerNumber config b = k + i := by
    constructor
    · intro hmap i b hb
      have hi := (List.getElem?_eq_some_iff.mp hb).1
      have hget := congrArg (·[i]?) hmap
      simp only [List.getElem?_map, hb, List.getElem?_range' hi] at hget
      simpa using hget
    · intro hall
      refine List.ext_getElem (by simp) fun i h1 h2 => ?_
      have hi : i < m.moeBlocks.length := by simpa using h1
      rw [List.getElem_map, List.getElem_range']
      rw [hall i _ (List.getElem?_eq_getElem hi)]
      omega
  rw [hiff]
  unfold Agree
  rw [h.modules]
  constructor
  · intro hagree i b hb
    obtain ⟨projection, hproj⟩ := exists_projection f
    have hmem : (b, i + k) ∈ m.moeBlocks.zipIdx.map fun (b, moduleIdx) => (b, moduleIdx + k) :=
      List.mem_map.mpr ⟨(b, i), List.mem_zipIdx_iff_getElem?.mpr hb, rfl⟩
    have hparse := (hagree _ hmem 0 (Nat.pos_of_ne_zero hexperts)).parsed projection hproj
    rw [parseExpertId_paramName m.architectures hsteps (underscore_not_mem hproj)] at hparse
    have hnum : f.layerNumber config b = i + k := by simpa using hparse
    omega
  · intro hall layer hlayer e he
    obtain ⟨⟨b, i⟩, hzip, rfl⟩ := List.mem_map.mp hlayer
    have hb : m.moeBlocks[i]? = some b := List.mem_zipIdx_iff_getElem?.mp hzip
    have hnum := hall i b hb
    have hik : i + k = k + i := Nat.add_comm i k
    refine ⟨?_, fun projection hproj => ?_, ?_⟩
    · show engine.expertDispatcher.lookup (i + k, e) = _
      rw [hik]
      exact h.registered i b hb e he
    · show parseExpertId _ _ = .ok (some (i + k, some e))
      rw [hik, ← hnum]
      exact parseExpertId_paramName m.architectures hsteps (underscore_not_mem hproj)
    · show ∃ tensor id, _ ∧ engine.expertTensorMap.lookup (i + k, e) = some id
      rw [hik, ← hnum]
      exact h.prefetched hsteps (List.mem_of_getElem? hb) he

end Counting

/-! ### When the names count -/

section Aligned

variable {f : Family} {config : PretrainedConfig} {m : Model f config} {modelName : Name}
  {k n first step : ℕ}

theorem filter_range_le :
    (List.range n).filter (fun i => decide (first ≤ i)) = List.range' first (n - first) := by
  induction n with
  | zero => simp
  | succ n ih =>
    rw [List.range_succ, List.filter_append, ih]
    by_cases h : first ≤ n
    · have hlen : n + 1 - first = n - first + 1 := by omega
      have hlast : first + (n - first) = n := by omega
      rw [hlen, List.range'_1_concat, hlast]
      simp [h]
    · have hzero : n + 1 - first = 0 := by omega
      have hzero' : n - first = 0 := by omega
      rw [hzero, hzero']
      simp [h]

/-- The positions of the last of every `step` layers. -/
theorem map_div_filter_range :
    ((List.range n).filter fun i => decide ((i + 1) % step = 0)).map (· / step) =
    List.range (n / step) := by
  induction n with
  | zero => simp
  | succ n ih =>
    rw [List.range_succ, List.filter_append, List.map_append, ih, Nat.succ_div]
    by_cases h : step ∣ n + 1
    · rw [if_pos h, List.range_succ]
      simp [Nat.mod_eq_zero_of_dvd h]
    · have hmod : ¬ (n + 1) % step = 0 := fun h0 => h (Nat.dvd_of_mod_eq_zero h0)
      rw [if_neg h]
      simp [hmod]

/-- What is filtered from a range is a range if nothing is missing before it. -/
theorem filter_range_eq_iff {p : ℕ → Bool} :
    (List.range n).filter p = List.range' 0 ((List.range n).filter p).length ↔
      ∀ i < n, p i = true → ∀ j < i, p j = true := by
  rw [← List.range_eq_range']
  constructor
  · intro h i hi hp j hj
    have hmem : i ∈ (List.range n).filter p := List.mem_filter.mpr ⟨List.mem_range.mpr hi, hp⟩
    rw [h, List.mem_range] at hmem
    have hmem' : j ∈ (List.range n).filter p := by
      rw [h, List.mem_range]
      omega
    exact (List.mem_filter.mp hmem').2
  · intro h
    induction n with
    | zero => rfl
    | succ n ih =>
      rw [List.range_succ, List.filter_append]
      have hn := ih fun i hi => h i (by omega)
      cases hp : p n with
      | false => simpa [hp] using hn
      | true =>
        have hall : (List.range n).filter p = List.range n :=
          List.filter_eq_self.mpr fun j hj => h n (by omega) hp j (List.mem_range.mp hj)
        rw [hall]
        simp [hp, List.range_succ]

/-- The number of the first MoE layer in the counts. -/
theorem offset_eq (m : Model f config)
    (hk : LayerNumbers.firstKDenseReplace config modelName = .ok k) :
    k = 0 ∧ ¬ (f = .deepseekV2 ∨ f = .deepseekV3) ∨
      (f = .deepseekV2 ∨ f = .deepseekV3) ∧ ∃ first, config.firstKDenseReplace = some first ∧
        k = if Contains "deepseek" modelName then first else 0 := by
  unfold LayerNumbers.firstKDenseReplace at hk
  by_cases hf : f = .deepseekV2 ∨ f = .deepseekV3
  · obtain ⟨first, hfirst⟩ := Option.isSome_iff_exists.mp (m.firstK.mpr hf)
    refine Or.inr ⟨hf, first, hfirst, ?_⟩
    rw [hfirst] at hk
    split_ifs at hk ⊢ <;> simpa using hk.symm
  · have hnone : config.firstKDenseReplace = none := by
      rw [← Option.not_isSome_iff_eq_none]
      exact fun h => hf (m.firstK.mp h)
    rw [hnone] at hk
    split_ifs at hk
    exact Or.inl ⟨by simpa using hk.symm, hf⟩

theorem counts_iff {numbers : List ℕ} (h : m.moeBlocks.map (f.layerNumber config) = numbers) :
    m.moeBlocks.map (f.layerNumber config) = List.range' k m.moeBlocks.length ↔
      numbers = List.range' k numbers.length := by
  rw [← h, List.length_map]

/-- The numbers in the names of a decoder-only model. -/
theorem map_layerNumber (m : Model f config) (hf : f ≠ .nllb) :
    m.moeBlocks.map (f.layerNumber config) = (List.range config.numHiddenLayers).filter fun i =>
      decide (Sparse f config ⟨.decoder, i⟩) := by
  have hblocks : blocks f config = (List.range config.numHiddenLayers).map (⟨.decoder, ·⟩) := by
    cases f with
    | nllb => exact absurd rfl hf
    | _ => rfl
  have hnumber : (f.layerNumber config ∘ fun i => ⟨.decoder, i⟩) = id := by
    funext i
    cases f with
    | nllb => exact absurd rfl hf
    | _ => rfl
  have hmoe : (blocks f config).filter m.moe = (blocks f config).filter fun b =>
      decide (Sparse f config b) :=
    List.filter_congr fun b hb => by
      rw [Bool.eq_iff_iff, decide_eq_true_iff]
      exact m.moe_iff b hb
  unfold Model.moeBlocks
  rw [hmoe, hblocks, List.filter_map, List.map_map, hnumber, List.map_id]
  rfl

theorem map_layerNumber_nllb (m : Model .nllb config) :
    m.moeBlocks.map (Family.nllb.layerNumber config) = List.range' 0 m.moeBlocks.length := by
  have hmoe : (blocks .nllb config).filter m.moe =
      (blocks .nllb config).filter fun b => decide (Sparse .nllb config b) :=
    List.filter_congr fun b hb => by
      rw [Bool.eq_iff_iff, decide_eq_true_iff]
      exact m.moe_iff b hb
  have hsplit : m.moeBlocks.map (Family.nllb.layerNumber config) =
      List.range (config.encoderLayers / config.encoderSparseStep) ++
        (List.range (config.decoderLayers / config.decoderSparseStep)).map
          (· + config.encoderLayers / config.encoderSparseStep) := by
    unfold Model.moeBlocks
    rw [hmoe]
    unfold blocks
    rw [List.filter_append, List.map_append, List.filter_map, List.filter_map, List.map_map,
      List.map_map, ← map_div_filter_range, ← map_div_filter_range, List.map_map]
    rfl
  have hrange : List.range (config.encoderLayers / config.encoderSparseStep) ++
      (List.range (config.decoderLayers / config.decoderSparseStep)).map
        (· + config.encoderLayers / config.encoderSparseStep) =
      List.range' 0 (config.encoderLayers / config.encoderSparseStep +
        config.decoderLayers / config.decoderSparseStep) := by
    rw [← List.range'_append_1, Nat.zero_add, ← List.range_eq_range',
      List.range'_eq_map_range (s := config.encoderLayers / config.encoderSparseStep)]
    exact congrArg _ (List.map_congr_left fun i _ => Nat.add_comm i _)
  rw [counts_iff (hsplit.trans hrange), List.length_range']

/-- The condition for agreement: no dense layer stands before a MoE layer, or it is DeepSeek's and
the name of the model says so. -/
def Aligned (f : Family) (config : PretrainedConfig) (modelName : Name) : Prop :=
  numExperts f config = 0 ∨
    match f with
    | .mixtral | .nllb => True
    | .qwen3 => ∀ i < config.numHiddenLayers, Sparse .qwen3 config ⟨.decoder, i⟩ →
        ∀ j < i, Sparse .qwen3 config ⟨.decoder, j⟩
    | .deepseekV2 | .deepseekV3 =>
      Contains "deepseek" modelName ∨ config.firstKDenseReplace = some 0 ∨
        config.numHiddenLayers ≤ config.firstKDenseReplace.getD 0

theorem deepseek_aligned (m : Model f config) (hf : f = .deepseekV2 ∨ f = .deepseekV3)
    (hfirst : config.firstKDenseReplace = some first) :
    m.moeBlocks.map (f.layerNumber config) = List.range' k m.moeBlocks.length ↔
      first = k ∨ config.numHiddenLayers ≤ first := by
  have hsparse : (List.range config.numHiddenLayers).filter
      (fun i => decide (Sparse f config ⟨.decoder, i⟩)) =
        (List.range config.numHiddenLayers).filter fun i => decide (first ≤ i) := by
    refine List.filter_congr fun i _ => ?_
    rcases hf with rfl | rfl
    · simp [Sparse, hfirst]
    · simp [Sparse, hfirst]
  have hmap := map_layerNumber m (by rcases hf with rfl | rfl <;> decide)
  rw [hsparse, filter_range_le] at hmap
  rw [counts_iff hmap, List.length_range', List.range'_inj]
  omega

/-- **Agreement of the numbers of a MoE layer**, for each model that is loaded. -/
theorem agree_iff_aligned {engine : OffloadEngine} (m : Model f config)
    (h : archerFromPretrained m modelName = .ok engine) :
    Agree m engine ↔ Aligned f config modelName := by
  obtain ⟨hsteps, k, hk, hloaded⟩ := loaded_of_ok h
  by_cases hexperts : numExperts f config = 0
  · have hagree : Agree m engine := fun layer _ e he => absurd he (by omega)
    exact iff_of_true hagree (Or.inl hexperts)
  unfold Aligned
  rw [hloaded.agree_iff hsteps hexperts, or_iff_right hexperts]
  rcases offset_eq m hk with ⟨rfl, hf⟩ | ⟨hf, first, hfirst, rfl⟩
  · cases f with
    | nllb => exact iff_of_true (map_layerNumber_nllb m) trivial
    | mixtral =>
      have hall : ∀ i < config.numHiddenLayers,
          decide (Sparse .mixtral config ⟨.decoder, i⟩) = true →
          ∀ j < i, decide (Sparse .mixtral config ⟨.decoder, j⟩) = true :=
        fun _ _ _ _ _ => decide_eq_true_iff.mpr trivial
      rw [counts_iff (map_layerNumber m (by decide))]
      exact iff_of_true (filter_range_eq_iff.mpr hall) trivial
    | qwen3 =>
      rw [counts_iff (map_layerNumber m (by decide)), filter_range_eq_iff]
      simp only [decide_eq_true_iff]
    | deepseekV2 => exact absurd (Or.inl rfl) hf
    | deepseekV3 => exact absurd (Or.inr rfl) hf
  · have hiff : (first = (if Contains "deepseek" modelName then first else 0) ∨
        config.numHiddenLayers ≤ first) ↔ (Contains "deepseek" modelName ∨
        config.firstKDenseReplace = some 0 ∨
          config.numHiddenLayers ≤ config.firstKDenseReplace.getD 0) := by
      rw [hfirst, Option.some_inj, Option.getD_some]
      split_ifs with hname
      · simp [hname]
      · simp [hname]
    rw [deepseek_aligned m hf hfirst, hiff]
    rcases hf with rfl | rfl <;> rfl

end Aligned

/-! ### Models of the experts alone -/

section Bare

variable {f : Family} {config : PretrainedConfig}

/-- The names of the parameters of the experts. -/
def bareNames (f : Family) (config : PretrainedConfig) : List Name :=
  (((blocks f config).filter fun b => decide (Sparse f config b)).flatMap
    (expertParams f config)).dedup

theorem mem_bareNames {name : Name} :
    name ∈ bareNames f config ↔ ∃ b ∈ blocks f config, Sparse f config b ∧
    ∃ e < numExperts f config, ∃ projection ∈ f.projections, name = f.paramName b e projection := by
  unfold bareNames expertParams
  rw [List.mem_dedup, List.mem_flatMap]
  constructor
  · rintro ⟨b, hb, hname⟩
    obtain ⟨e, he, hname⟩ := List.mem_flatMap.mp hname
    obtain ⟨projection, hproj, rfl⟩ := List.mem_map.mp hname
    obtain ⟨hmem, hsparse⟩ := List.mem_filter.mp hb
    exact ⟨b, hmem, of_decide_eq_true hsparse, e, List.mem_range.mp he, projection, hproj, rfl⟩
  · rintro ⟨b, hb, hsparse, e, he, projection, hproj, rfl⟩
    exact ⟨b, List.mem_filter.mpr ⟨hb, decide_eq_true hsparse⟩, List.mem_flatMap.mpr
      ⟨e, List.mem_range.mpr he, List.mem_map.mpr ⟨projection, hproj, rfl⟩⟩⟩

theorem map_fst_zipIdx (names : List Name) : names.zipIdx.map Prod.fst = names :=
  List.zipIdx_map_fst 0 names

/-- The model of a configuration without other parameters. -/
def bare (f : Family) (config : PretrainedConfig) (harch : config.architectures = [f.architecture])
    (htype : config.modelType = f.modelType)
    (hfirst : config.firstKDenseReplace.isSome ↔ f = .deepseekV2 ∨ f = .deepseekV3) :
    Model f config where
  architectures := harch
  modelType := htype
  firstK := hfirst
  moe b := decide (Sparse f config b)
  moe_iff _ _ := decide_eq_true_iff
  head := []
  before _ := []
  after _ := []
  tail := []
  buffers := []
  plain_head := nofun
  plain_before _ := nofun
  plain_after _ := nofun
  plain_tail := nofun
  plain_buffers := nofun
  nameIdMap := (bareNames f config).zipIdx
  keys := by
    rw [map_fst_zipIdx]
    exact List.nodup_dedup _
  stored b hb hmoe e he projection hproj := by
    have hmem : f.paramName b e projection ∈ (bareNames f config).zipIdx.map Prod.fst := by
      rw [map_fst_zipIdx]
      exact mem_bareNames.mpr ⟨b, hb, of_decide_eq_true hmoe, e, he, projection, hproj, rfl⟩
    have hsome : (bareNames f config).zipIdx.lookup (f.paramName b e projection) ≠ none :=
      fun hnone => lookup_eq_none.mp hnone hmem
    exact Option.ne_none_iff_exists'.mp hsome
  known name hname := by
    rw [map_fst_zipIdx] at hname
    obtain ⟨b, hb, hsparse, e, -, projection, hproj, rfl⟩ := mem_bareNames.mp hname
    exact Or.inr ⟨b, e, projection, rfl, underscore_not_mem hproj,
      Or.inl ⟨hb, decide_eq_true hsparse⟩⟩

/-- A DeepSeek model with one dense layer and one MoE layer. -/
def liteConfig : PretrainedConfig where
  architectures := ["DeepseekV2ForCausalLM"]
  modelType := "deepseek_v2"
  numHiddenLayers := 2
  numLocalExperts := 0
  numExperts := 0
  nRoutedExperts := 4
  encoderLayers := 0
  decoderLayers := 0
  encoderSparseStep := 0
  decoderSparseStep := 0
  mlpOnlyLayers := []
  firstKDenseReplace := some 1

def lite : Model .deepseekV2 liteConfig := bare _ _ rfl rfl (by decide)

/-- The lower-case name of the model is recognized. -/
theorem lite_lowercase :
    ∃ engine, archerFromPretrained lite "deepseek-ai/deepseek-v2-lite".toList = .ok engine ∧
      (Agree lite engine ↔
        Aligned .deepseekV2 liteConfig "deepseek-ai/deepseek-v2-lite".toList) := by
  have hk : LayerNumbers.firstKDenseReplace liteConfig "deepseek-ai/deepseek-v2-lite".toList =
      .ok 1 := by
    decide
  obtain ⟨engine, hengine, -⟩ := archerFromPretrained_spec (m := lite) nofun hk
  exact ⟨engine, hengine, agree_iff_aligned lite hengine⟩

/-- A path with the name in capital letters: the modules are counted from 0, the names from 1. -/
theorem lite_capitals :
    ∃ engine, archerFromPretrained lite "/models/DeepSeek-V2-Lite".toList = .ok engine ∧
      ¬ Agree lite engine := by
  have hk : LayerNumbers.firstKDenseReplace liteConfig "/models/DeepSeek-V2-Lite".toList =
    .ok 0 := by decide
  obtain ⟨engine, hengine, hloaded⟩ := archerFromPretrained_spec (m := lite) nofun hk
  refine ⟨engine, hengine, fun hagree => ?_⟩
  rw [hloaded.agree_iff nofun (by decide), deepseek_aligned lite (Or.inl rfl) rfl] at hagree
  revert hagree
  decide

end Bare

end MoeInfinity.Runtime.LayerAgreement
