import MoeInfinity.Engine.GenerationRun

/-! # Generation on the native engine (`entrypoints/big_modeling.py`)

`MoE.generate` decodes a single prompt with the generation engine. A model without paged attention
classes keeps the keys and values of the text in the `past_key_values` that it returns; they are
kept in an attribute of the `MoE` object between the forwards, and are dropped before and after
every call.

The model is a parameter that works on a state `μ` of its own and may raise; `π` is the type of its
`past_key_values` and `ρ` that of a row of logits. `generate` of HuggingFace, which takes the calls
that are not for the native engine, is a parameter as well. -/

namespace MoeInfinity.Entrypoints.NativeGenerate

open MoeInfinity.Python MoeInfinity.Lib.Imperative MoeInfinity.Lib.Runs
open MoeInfinity.Memory.KvManager MoeInfinity.Memory.RefCounts MoeInfinity.Memory.KvCalls
open MoeInfinity.Engine.GenerationLoop MoeInfinity.Engine.GenerationRun

/-! ### The model -/

/-- The arguments of a forward. -/
structure ModelInputs (π : Type) where
  inputIds : List (List ℤ)
  useCache : Bool := false
  pastKeyValues : Option π := none
  positionIds : Option (List (List ℤ)) := none
  pagedContext : Option AttentionMetadata := none

inductive Logits (ρ : Type) where
  | rank2 (rows : List ρ)
  | rank3 (batch : List (List ρ))
  | otherShape (shape : String)
  | notATensor

/-- `tupleHead` is the first entry of an output that is a tuple. -/
structure ModelOutput (π ρ : Type) where
  pastKeyValues : Option π
  logits : Option (Logits ρ)
  tupleHead : Option (Logits ρ) := none

/-- The keyword arguments of `generate`; an argument that is `None` is `some none`. -/
structure GenerateKwargs where
  maxNewTokens : Option (Option ℤ) := none
  maxTokens : Option (Option ℤ) := none
  doSample : Option Bool := none
  temperature : ℚ := 1
  topP : ℚ := 1
  topK : ℤ := 0

structure MoE (π μ ρ : Type) where
  useNativeEngine : Bool
  maxSeqLength : ℤ
  pagedAttentionClasses : List String
  hasAttentionBackend : Bool
  kvSpec : KVCacheSpec
  vocabSize : ℕ
  eosTokenId : ℤ
  model : ModelInputs π → Prog PyError μ (ModelOutput π ρ)
  configureHook : List (List ℤ) → Prog PyError μ Unit
  eval : Prog PyError μ Unit
  modelGenerate : List (List ℤ) → GenerateKwargs → Prog PyError μ (List (List ℤ))
  argmax : ρ → ℤ
  multinomial : ρ → SamplingParams → Prog PyError μ ℤ
  randn : ℕ → ℕ → Prog PyError μ (List ρ)

structure MoeState (π μ : Type) where
  cachedPastKeyValues : Option π
  model : μ

section Generate

variable {π μ ρ : Type}

/-- Run the model. -/
def onModel {α : Type} (m : Prog PyError μ α) : Prog PyError (MoeState π μ) α :=
  zoom MoeState.model (fun w s => { s with model := w }) m

def setPast (past : Option π) (s : MoeState π μ) : MoeState π μ :=
  { s with cachedPastKeyValues := past }

/-- The rows of the logits for the `n` tokens of a forward. -/
def newRows (n : ℕ) (outputs : ModelOutput π ρ) : Except PyError (List ρ) :=
  match outputs.logits.or outputs.tupleHead with
  | none => .error (.runtimeError "model forward did not return logits")
  | some .notATensor => .error (.runtimeError "model logits must be a torch.Tensor")
  | some (.rank3 []) => .error (.indexError "index 0 is out of bounds for dimension 0 with size 0")
  | some (.rank3 (rows :: _)) => .ok (if n = 0 then rows else rows.drop (rows.length - n))
  | some (.rank2 rows) => .ok rows
  | some (.otherShape shape) => .error (.runtimeError s!"unexpected logits shape: {shape}")

namespace MoE

variable (moe : MoE π μ ρ)

def usePagedContext : Bool := moe.pagedAttentionClasses ≠ [] ∧ moe.hasAttentionBackend

/-- Without a paged context a decode gets the past; with one it gets its position. -/
def modelInputs (tokenIds : List ℤ) (m : AttentionMetadata) (past : Option π) : ModelInputs π :=
  if moe.usePagedContext then
    { inputIds := [tokenIds]
      positionIds := if m.isPrefill then none else m.seqLens.head?.map fun n => [[(n : ℤ) - 1]]
      pagedContext := some m }
  else
    { inputIds := [tokenIds]
      useCache := true
      pastKeyValues := if m.isPrefill then none else past }

def nativeModelForward (tokenIds : List ℤ) (m : AttentionMetadata) :
    Prog PyError (MoeState π μ) (List ρ) := do
  let s ← current
  let outputs ← onModel (moe.model (modelInputs moe tokenIds m s.cachedPastKeyValues))
  if moe.usePagedContext = false ∧ outputs.pastKeyValues.isSome then
    update (setPast outputs.pastKeyValues)
  else pure ()
  ofExcept (newRows tokenIds.length outputs)

def generationEngine : GenerationEngine (MoeState π μ) ρ where
  kvSpec := moe.kvSpec
  vocabSize := moe.vocabSize
  modelForward := some (nativeModelForward moe)
  eosTokenId := moe.eosTokenId
  maxSeqLength := some moe.maxSeqLength
  randn := fun n v => onModel (moe.randn n v)
  sample := sampleLast moe.argmax fun row params => onModel (moe.multinomial row params)

/-- The tokens asked for. -/
def maxNewTokens (kwargs : GenerateKwargs) : ℤ :=
  (kwargs.maxNewTokens.getD (kwargs.maxTokens.getD (some 256))).getD 256

def samplingParams (kwargs : GenerateKwargs) : SamplingParams where
  temperature := if kwargs.doSample = some false then 0 else kwargs.temperature
  topP := kwargs.topP
  topK := kwargs.topK
  maxTokens := maxNewTokens kwargs

def generate (inputIds : List (List ℤ)) (kwargs : GenerateKwargs) (uuid4 : String) :
    Prog PyError (EngineState (MoeState π μ)) (List (List ℤ)) :=
  if moe.useNativeEngine = false ∨ inputIds.length ≠ 1 then do
    onOracle (onModel (moe.configureHook inputIds))
    onOracle (onModel moe.eval)
    onOracle (onModel (moe.modelGenerate inputIds kwargs))
  else do
    onOracle (onModel (moe.configureHook inputIds))
    onOracle (update (setPast none))
    onOracle (onModel moe.eval)
    if moe.maxSeqLength < (inputIds.headD []).length then
      raise (.valueError
        s!"prompt length {(inputIds.headD []).length} exceeds max_seq_length {moe.maxSeqLength}")
    else
      let result ← finallyDo
        (GenerationEngine.generate (generationEngine moe) (inputIds.headD [])
          (some (samplingParams kwargs)) none uuid4)
        (onOracle (update (setPast none)))
      return [inputIds.headD [] ++ result.outputTokenIds]

end MoE

end Generate

/-! ### Models that keep a past -/

/-- What a HuggingFace model computes: the logits of a text, one row for each token, and its
past. -/
structure CachedModel (π ρ : Type) where
  full : List ℤ → List ρ
  past : List ℤ → π
  length_full : ∀ text, (full text).length = text.length

namespace CachedModel

variable {π ρ : Type} (M : CachedModel π ρ)

/-- The past of a text as an argument: there is none of the empty text. -/
def pastOf : List ℤ → Option π
  | [] => none
  | text => some (M.past text)

/-- The token that greedy decoding appends to a text, by a full forward. -/
def next (argmax : ρ → ℤ) (text : List ℤ) : Option ℤ := (M.full text).getLast?.map argmax

/-- Greedy decoding by full forwards. -/
def greedy (argmax : ρ → ℤ) : ℕ → List ℤ → List ℤ
  | 0, _ => []
  | n + 1, text =>
    match M.next argmax text with
    | none => []
    | some t => t :: greedy argmax n (text ++ [t])

variable {M}

theorem greedy_isPrefix (argmax : ρ → ℤ) : ∀ {n m : ℕ} (text : List ℤ), n ≤ m →
    M.greedy argmax n text <+: M.greedy argmax m text
  | 0, _, _, _ => List.nil_prefix
  | n + 1, 0, _, h => absurd h (by omega)
  | n + 1, m + 1, text, h => by
    rw [greedy, greedy]
    cases M.next argmax text with
    | none => exact List.prefix_rfl
    | some t =>
      exact List.cons_prefix_cons.mpr ⟨rfl, greedy_isPrefix argmax (text ++ [t]) (by omega)⟩

/-- Tokens each of which is the next one are the greedy ones. -/
theorem eq_greedy {argmax : ρ → ℤ} : ∀ {outputs text : List ℤ},
    EachNext (fun text t => M.next argmax text = some t) text outputs →
      outputs = M.greedy argmax outputs.length text
  | [], _, _ => rfl
  | t :: outputs, text, ⟨ht, h⟩ => by
    rw [List.length_cons, greedy, ht]
    exact congrArg (t :: ·) (eq_greedy h)

end CachedModel

section Law

variable {π μ ρ : Type} {moe : MoE π μ ρ} {M : CachedModel π ρ}

/-- **The cache law.** A forward on new tokens with the past of a text gives the logits of a full
forward on the whole at the places of the new tokens, and the past of the whole. -/
def FollowsCacheLaw (moe : MoE π μ ρ) (M : CachedModel π ρ) : Prop :=
  ∀ text tokens w, tokens ≠ [] →
    wp (moe.model { inputIds := [tokens], useCache := true, pastKeyValues := M.pastOf text })
      (fun outputs _ => outputs.logits =
        some (.rank3 [(M.full (text ++ tokens)).drop text.length]) ∧
        outputs.pastKeyValues = some (M.past (text ++ tokens))) (fun _ _ => True) w

theorem pastOf_append {text tokens : List ℤ} (h : tokens ≠ []) :
    M.pastOf (text ++ tokens) = some (M.past (text ++ tokens)) := by
  cases htext : text ++ tokens with
  | nil => exact absurd (List.append_eq_nil_iff.mp htext).2 h
  | cons t rest => rfl

/-- **A forward of the engine** gives the rows of the new tokens and keeps the past of the whole. -/
theorem wp_nativeModelForward (hpaged : moe.pagedAttentionClasses = [])
    (hlaw : FollowsCacheLaw moe M) {text tokens : List ℤ} (htokens : tokens ≠ [])
    {m : AttentionMetadata} {s : MoeState π μ} (hpre : m.isPrefill = true → text = [])
    (hs : s.cachedPastKeyValues = M.pastOf text) :
    wp (MoE.nativeModelForward moe tokens m) (fun rows s' =>
      rows = (M.full (text ++ tokens)).drop text.length ∧
        s'.cachedPastKeyValues = M.pastOf (text ++ tokens)) (fun _ _ => True) s := by
  have hnot : moe.usePagedContext = false := by
    unfold MoE.usePagedContext
    simp [hpaged]
  have hin : MoE.modelInputs moe tokens m s.cachedPastKeyValues =
      { inputIds := [tokens], useCache := true, pastKeyValues := M.pastOf text } := by
    unfold MoE.modelInputs
    rw [if_neg (by rw [hnot]; exact Bool.false_ne_true), hs]
    cases hm : m.isPrefill with
    | false => rfl
    | true => rw [hpre hm]; rfl
  unfold MoE.nativeModelForward
  simp only [onModel, wp_bind, wp_current, wp_zoom, hin]
  refine wp_mono (hlaw text tokens s.model htokens) ?_ fun _ _ _ => trivial
  rintro outputs w ⟨hlogits, hpast⟩
  have hrows : newRows tokens.length outputs =
      .ok ((M.full (text ++ tokens)).drop text.length) := by
    have hlen : ((M.full (text ++ tokens)).drop text.length).length = tokens.length := by
      rw [List.length_drop, M.length_full, List.length_append]
      omega
    unfold newRows
    rw [hlogits]
    change Except.ok (if tokens.length = 0 then _ else _) = _
    rw [hlen, Nat.sub_self, List.drop_zero, ite_self]
  simp only [wp_ite, wp_update, wp_bind, hrows, wp_ofExcept_ok]
  refine ⟨fun _ => ⟨trivial, ?_⟩, fun h0 => absurd ⟨hnot, by rw [hpast]; rfl⟩ h0⟩
  rw [pastOf_append htokens]
  exact hpast

/-- The largest of the last logits of a text is its next token. -/
theorem wp_sampleLast (M : CachedModel π ρ) (text : List ℤ) {tokens : List ℤ}
    (htokens : tokens ≠ []) {sp : SamplingParams} (htemp : sp.temperature = 0) {ω : Type}
    {draw : ρ → SamplingParams → Prog PyError ω ℤ} {rows : List ρ}
    (hrows : rows.getLast? = ((M.full (text ++ tokens)).drop text.length).getLast?) (w : ω) :
    wp (sampleLast moe.argmax draw rows sp) (fun t w' => w' = w ∧
      M.next moe.argmax (text ++ tokens) = some t) (fun _ _ => True) w := by
  have hlast : rows.getLast? = (M.full (text ++ tokens)).getLast? := by
    have hpos := List.length_pos_of_ne_nil htokens
    rw [hrows, List.getLast?_drop, M.length_full, List.length_append, if_neg (by omega)]
  unfold sampleLast CachedModel.next
  rw [hlast]
  cases (M.full (text ++ tokens)).getLast? with
  | none => trivial
  | some row =>
    change wp (if sp.temperature < 0 then _ else if sp.temperature = 0 then pure (moe.argmax row)
      else _) _ _ w
    rw [if_neg (by rw [htemp]; decide), if_pos htemp, wp_pure]
    exact ⟨rfl, rfl⟩

/-- The past that is kept is that of the text passed so far, and each token is the greedy one. -/
theorem follows_native (hpaged : moe.pagedAttentionClasses = []) (hlaw : FollowsCacheLaw moe M)
    {prompt : List ℤ} (hprompt : prompt ≠ []) {sp : SamplingParams} (htemp : sp.temperature = 0) :
    Follows (MoE.generationEngine moe) sp prompt
      (fun text s => s.cachedPastKeyValues = M.pastOf text)
      (fun text t => M.next moe.argmax text = some t) where
  prefill := by
    intro s m hs _
    refine wp_mono (wp_nativeModelForward hpaged hlaw hprompt (fun _ => rfl) hs) ?_ fun _ _ h => h
    rintro rows s' ⟨hrows, hs'⟩
    refine ⟨hs', wp_mono (wp_sampleLast M [] hprompt htemp ?_ s') ?_ fun _ _ h => h⟩
    · rw [hrows, List.getLast?_drop]
      split_ifs with hlen
      · rw [eq_comm, List.getLast?_eq_none_iff, ← List.length_eq_zero_iff]
        omega
      · rfl
    · rintro t _ ⟨rfl, ht⟩
      exact ⟨hs', ht⟩
  decode := by
    intro text t s m hs hm
    refine wp_mono (wp_nativeModelForward hpaged hlaw (List.cons_ne_nil t [])
      (fun h0 => by rw [hm] at h0; cases h0) hs) ?_ fun _ _ h => h
    rintro rows s' ⟨hrows, hs'⟩
    refine wp_mono (wp_sampleLast M text (List.cons_ne_nil t []) htemp (by rw [hrows]) s') ?_
      fun _ _ h => h
    rintro u _ ⟨rfl, hu⟩
    exact ⟨hs', hu⟩

/-! ### Sequences of calls -/

/-- A call with a single prompt. -/
structure GenerateCall where
  promptTokenIds : List ℤ
  kwargs : GenerateKwargs
  uuid4 : String

/-- The state after a call, whether it returns or raises. -/
def callStep (moe : MoE π μ ρ) (s : EngineState (MoeState π μ)) (c : GenerateCall) :
    EngineState (MoeState π μ) := (MoE.generate moe [c.promptTokenIds] c.kwargs c.uuid4).state s

/-- The prompt with greedy tokens, ended by `eos`, by the number of tokens asked for or because the
pool has no room for more. -/
structure GreedyText (moe : MoE π μ ρ) (M : CachedModel π ρ) (numGpuBlocks : ℕ) (c : GenerateCall)
    (outputs : List ℤ) : Prop where
  greedy : outputs <+: M.greedy moe.argmax (MoE.maxNewTokens c.kwargs).toNat c.promptTokenIds
  noEos : moe.eosTokenId ∉ outputs.dropLast
  ended : outputs.length = (MoE.maxNewTokens c.kwargs).toNat ∨
    outputs.getLast? = some moe.eosTokenId ∨
    numGpuBlocks * moe.kvSpec.blockSize < c.promptTokenIds.length + outputs.length

/-- A call that returns gives the prompt with greedy tokens. -/
def ReturnsGreedy (moe : MoE π μ ρ) (M : CachedModel π ρ) (numGpuBlocks : ℕ)
    (s : EngineState (MoeState π μ)) (c : GenerateCall) : Prop :=
  wp (MoE.generate moe [c.promptTokenIds] c.kwargs c.uuid4) (fun r _ => ∃ outputs,
    r = [c.promptTokenIds ++ outputs] ∧ GreedyText moe M numGpuBlocks c outputs) (fun _ _ => True) s

variable {k₀ : KVCacheManager} {held : Multiset ℕ}

theorem greedyText_of_produced {c : GenerateCall} {calls : List ForwardCall} {r : GenerationResult}
    {k : KVCacheManager} {numGpuBlocks : ℕ} (hn : k.gpuPool.numFreeBlocks = numGpuBlocks)
    (h : Produced (MoE.generationEngine moe) k (MoE.samplingParams c.kwargs) c.promptTokenIds
      (fun text t => M.next moe.argmax text = some t) calls r.outputTokenIds r.finishReason) :
    GreedyText moe M numGpuBlocks c r.outputTokenIds where
  greedy := by
    have hfew : (r.outputTokenIds.length : ℤ) ≤ max 0 (MoE.maxNewTokens c.kwargs) := h.few
    rw [CachedModel.eq_greedy h.next]
    exact CachedModel.greedy_isPrefix _ _ (by omega)
  noEos := h.noEos
  ended := by
    rw [← hn]
    refine h.why.imp_left fun hlen => ?_
    have hlen : (r.outputTokenIds.length : ℤ) = max 0 (MoE.maxNewTokens c.kwargs) := hlen
    omega

/-- **One call**, from a state in which the manager is as it was in the beginning. -/
theorem wp_generate_greedy (hpaged : moe.pagedAttentionClasses = [])
    (hnative : moe.useNativeEngine = true) (hlaw : FollowsCacheLaw moe M)
    (hbs : k₀.blockSize = moe.kvSpec.blockSize) (hk₀ : Holds k₀ held) (hid : ∀ i, NotInUse i k₀)
    {s : EngineState (MoeState π μ)} (hs : Unchanged k₀ s.kvMgr held) {c : GenerateCall}
    (hgreedy : c.kwargs.doSample = some false) :
    wp (MoE.generate moe [c.promptTokenIds] c.kwargs c.uuid4)
      (fun r s' => (∃ outputs, r = [c.promptTokenIds ++ outputs] ∧
        GreedyText moe M k₀.gpuPool.numFreeBlocks c outputs) ∧ Unchanged k₀ s'.kvMgr held)
      (fun _ s' => Unchanged k₀ s'.kvMgr held) s := by
  have hid' : ∀ i, NotInUse i s.kvMgr := fun i =>
    ⟨(congrFun hs.tables i).trans (hid i).noTable,
      (congrFun (congrArg Memory.SwapRecords.Records.swapped hs.records) i).trans (hid i).noCopy⟩
  have hfree : s.kvMgr.gpuPool.numFreeBlocks = k₀.gpuPool.numFreeBlocks :=
    ((List.perm_ext_iff_of_nodup hs.holds.sound.gpu.nodup hk₀.sound.gpu.nodup).mpr
      (hs.free hk₀)).length_eq
  unfold MoE.generate
  rw [if_neg (by rw [hnative]; simp)]
  simp only [onOracle, onModel, wp_bind, wp_zoom, wp_update]
  refine wp_of_forall (fun _ w => ?_) fun _ w => hs
  refine wp_of_forall (fun _ w' => ?_) fun _ w' => hs
  rw [wp_ite]
  refine ⟨fun _ => hs, fun _ => ?_⟩
  simp only [wp_bind, wp_finallyDo, wp_zoom, wp_update, wp_pure, List.headD_cons]
  by_cases hprompt : c.promptTokenIds = []
  · unfold GenerationEngine.generate
    rw [if_pos hprompt, wp_raise]
    exact hs
  · have htemp : (MoE.samplingParams c.kwargs).temperature = 0 := if_pos hgreedy
    refine wp_mono (wp_generate hs.holds ((congrArg Prod.fst hs.size).trans hbs)
      (follows_native hpaged hlaw hprompt htemp) rfl (hid' _)) ?_ ?_
    · rintro r s' ⟨-, -, calls, hfin, hout⟩
      exact ⟨⟨r.outputTokenIds, rfl, greedyText_of_produced hfree hout⟩, hs.trans hfin.unchanged⟩
    · rintro _ s' ⟨calls, hfin⟩
      exact hs.trans hfin.unchanged

/-- **Sequences of calls.** Every call that returns gives its prompt with greedy tokens, whatever
the calls before it have done. -/
theorem generate_greedy (moe : MoE π μ ρ) (M : CachedModel π ρ)
    (hpaged : moe.pagedAttentionClasses = []) (hnative : moe.useNativeEngine = true)
    (hlaw : FollowsCacheLaw moe M) (numGpuBlocks numCpuBlocks : ℕ) (w : MoeState π μ)
    (calls : List GenerateCall) (hgreedy : ∀ c ∈ calls, c.kwargs.doSample = some false) :
    Along (callStep moe) (ReturnsGreedy moe M numGpuBlocks)
      ⟨KVCacheManager.new numGpuBlocks numCpuBlocks moe.kvSpec.blockSize, w, []⟩ calls := by
  set k₀ := KVCacheManager.new numGpuBlocks numCpuBlocks moe.kvSpec.blockSize
  have hk₀ : Holds k₀ 0 := holds_new numGpuBlocks numCpuBlocks moe.kvSpec.blockSize
  have hfree : k₀.gpuPool.numFreeBlocks = numGpuBlocks := List.length_range
  refine along_of_inv (I := fun s => Unchanged k₀ s.kvMgr 0)
    (G := fun _ c => c.kwargs.doSample = some false) (fun s c hs hc => ?_) (fun s c hs hc => ?_)
    calls _ (Unchanged.refl hk₀) (along_of_forall hgreedy _)
  · exact inv_of_wp
      (wp_mono (wp_generate_greedy hpaged hnative hlaw rfl hk₀ (fun _ => ⟨rfl, rfl⟩) hs hc)
        (fun _ _ h => h.2) fun _ _ h => h)
  · have hcall := wp_generate_greedy hpaged hnative hlaw rfl hk₀ (fun _ => ⟨rfl, rfl⟩) hs hc
    rw [hfree] at hcall
    exact wp_mono hcall (fun _ _ h => h.1) fun _ _ _ => trivial

/-- A model whose logits for a token are the token, with the text as its past. It raises on the
token `8`. -/
def echoModel : MoE (List ℤ) Unit ℤ where
  useNativeEngine := true
  maxSeqLength := 100
  pagedAttentionClasses := []
  hasAttentionBackend := true
  kvSpec := ⟨2⟩
  vocabSize := 10
  eosTokenId := 5
  model := fun inputs =>
    if 8 ∈ inputs.inputIds.headD [] then raise (.runtimeError "out of memory")
    else pure ⟨some (inputs.pastKeyValues.getD [] ++ inputs.inputIds.headD []),
      some (.rank3 [inputs.inputIds.headD []]), none⟩
  configureHook := fun _ => pure ()
  eval := pure ()
  modelGenerate := fun _ _ => pure []
  argmax := fun row => row + 1
  multinomial := fun _ _ => pure 0
  randn := fun _ _ => pure []

def echo : CachedModel (List ℤ) ℤ := ⟨id, id, fun _ => rfl⟩

theorem echoModel_law : FollowsCacheLaw echoModel echo := by
  intro text tokens w _
  have hpast : (echo.pastOf text).getD [] = text := by
    cases text with
    | nil => rfl
    | cons t rest => rfl
  change wp (if 8 ∈ tokens then _ else _) _ _ w
  rw [wp_ite]
  refine ⟨fun _ => trivial, fun _ => ⟨?_, ?_⟩⟩
  · change _ = some (Logits.rank3 [(text ++ tokens).drop text.length])
    rw [List.drop_left]
    rfl
  · change some ((echo.pastOf text).getD [] ++ tokens) = some (text ++ tokens)
    rw [hpast]

/-- The first call raises in the middle, the second one stops at `eos`. -/
def raisingAndStopping : List GenerateCall :=
  [⟨[6], { doSample := some false, maxNewTokens := some (some 4) }, "a"⟩,
    ⟨[2, 3], { doSample := some false }, "b"⟩]

theorem generate_greedy_echo :
    (raisingAndStopping.map fun c =>
      ((MoE.generate echoModel [c.promptTokenIds] c.kwargs c.uuid4).run
        ⟨KVCacheManager.new 3 0 2, ⟨some [1], ()⟩, []⟩).2.toOption) = [none, some [[2, 3, 4, 5]]] ∧
      Along (callStep echoModel) (ReturnsGreedy echoModel echo 3)
        ⟨KVCacheManager.new 3 0 2, ⟨some [1], ()⟩, []⟩ raisingAndStopping :=
  ⟨by decide +kernel, generate_greedy echoModel echo rfl rfl echoModel_law 3 0 ⟨some [1], ()⟩
    raisingAndStopping (by decide)⟩

end Law

end MoeInfinity.Entrypoints.NativeGenerate
