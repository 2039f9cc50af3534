import MoeInfinity.Serving.Alone

/-! # Requests and limits of the server (`entrypoints/openai/api_server_v2.py`,
`serving/validation.py`)

The server checks a request against the context length of the model and the number of sequences
allowed, and hands it to an engine whose configuration `_build_engine_config` makes from the
model's. The engine has limits of its own: the batch size, 2048 tokens in a step and the blocks of
the pool. The checks of the server do not look at them, so that a request can pass the checks and
wait forever at the head of the queue (`long_prompt_not_admitted`); it runs to completion exactly if
these limits have room for it (`submission_completes_iff`).

Floating-point numbers are rational here, and `floatText` prints them. The tokenizer is a parameter,
and so is the number of KV blocks that `MemoryManager.get_max_kv_blocks` finds. Answers to requests
that are accepted, backpressure and authentication are left out. -/

namespace MoeInfinity.Entrypoints.Requests

open MoeInfinity.Python MoeInfinity.Lib.Imperative MoeInfinity.Lib.Runs
open MoeInfinity.Serving.Sequence MoeInfinity.Serving.KvCache MoeInfinity.Serving.Schedule
open MoeInfinity.Serving.ModelRunner MoeInfinity.Serving.Engine MoeInfinity.Serving.EngineStep
open MoeInfinity.Serving.EngineInv MoeInfinity.Serving.Pool MoeInfinity.Serving.Alone

/-! ### Configuration -/

/-- The attributes of the model's configuration that are read. -/
structure ModelConfig where
  /-- The attributes that are integers. -/
  intAttr : String → Option ℤ
  /-- `eos_token_id`, if it is a list of integers. -/
  eosTokenIds : List ℤ
  /-- `str(torch_dtype)`, unless it is `None`. -/
  torchDtype : Option String

/-- The command-line arguments that are read. -/
structure Args where
  deviceMemoryRatio : ℚ := 3 / 4
  kvCacheRatio : ℚ := 1 / 4
  maxBatchSize : ℤ := 32
  maxN : ℤ := 16
  enablePrefixCaching : Bool := false

/-- The dictionary that `_build_engine_config` returns; `none` is a key that is not there. -/
structure EngineConfig where
  deviceMemoryRatio : ℚ
  kvCacheRatio : ℚ
  maxBatchSize : ℤ
  maxTokensPerStep : ℤ
  maxSeqLength : ℤ
  blockSize : ℤ
  numLayers : ℤ
  numKvHeads : ℤ
  headDim : ℤ
  dtype : String
  eosTokenId : Option ℤ
  enablePrefixCaching : Option Bool

def resolveIntAttr (config : ModelConfig) (names : List String) : Option ℤ :=
  names.findSome? config.intAttr

def resolveDtype (config : ModelConfig) : String :=
  match config.torchDtype with
  | some dtype => dtype.replace "torch." ""
  | none => "float16"

/-- `x or default`, for an optional integer. -/
def orElse (x : Option ℤ) (default : ℤ) : ℤ :=
  match x with
  | none => default
  | some n => if n = 0 then default else n

/-- `_build_engine_config`; `modelConfig` is `model.config`. -/
def buildEngineConfig (args : Args) (modelConfig : Option ModelConfig) :
    Except PyError EngineConfig :=
  match modelConfig with
  | none => .error (.runtimeError "model config is required to initialize serving engine")
  | some config => do
    let numAttentionHeads := resolveIntAttr config ["num_attention_heads", "n_head"]
    let maxSeqLength := resolveIntAttr config ["max_position_embeddings", "max_seq_len",
      "max_sequence_length", "n_positions", "model_max_length"]
    let numLayers ← (resolveIntAttr config ["num_hidden_layers", "num_layers", "n_layer"]).elim
      (.error (.runtimeError "unable to resolve model num_layers")) .ok
    let numHeads ← numAttentionHeads.elim
      (.error (.runtimeError "unable to resolve model num_attention_heads")) .ok
    let headDim ← (resolveIntAttr config ["head_dim"]).elim
      ((resolveIntAttr config ["hidden_size", "n_embd"]).elim
        (.error (.runtimeError "unable to resolve model hidden_size/head_dim"))
        fun hiddenSize => .ok (hiddenSize.fdiv (max 1 numHeads))) .ok
    return {
      deviceMemoryRatio := args.deviceMemoryRatio
      kvCacheRatio := args.kvCacheRatio
      maxBatchSize := args.maxBatchSize
      maxTokensPerStep := 2048
      maxSeqLength := orElse maxSeqLength 4096
      blockSize := 16
      numLayers := numLayers
      numKvHeads :=
        (resolveIntAttr config ["num_key_value_heads", "num_kv_heads", "n_head_kv"]).getD numHeads
      headDim := headDim
      dtype := resolveDtype config
      eosTokenId := (config.intAttr "eos_token_id").or config.eosTokenIds.head?
      enablePrefixCaching := if args.enablePrefixCaching then some true else none }

/-- `_fallback_num_blocks`. -/
def fallbackNumBlocks (config : EngineConfig) : ℤ :=
  max 1 (-(-config.maxTokensPerStep).fdiv (max 1 config.blockSize))

/-- `_resolve_num_blocks`, for the number of blocks that the memory manager finds. The configuration
of the server has no `num_kv_blocks`. -/
def resolveNumBlocks (config : EngineConfig) (maxKvBlocks : ℤ) : ℤ :=
  if 0 < maxKvBlocks then maxKvBlocks else fallbackNumBlocks config

/-- The parts of `ContinuousBatchingEngine.__init__` that the sizes go through: the checks of the
cache, of its allocator and of the scheduler. -/
def newEngine {β : Type} (config : EngineConfig) (maxKvBlocks : ℤ) (kv : ℕ → β) :
    Except PyError (ContinuousBatchingEngine β) :=
  if config.numLayers ≤ 0 then
    .error (.valueError s!"num_layers must be > 0, got {config.numLayers}")
  else if config.numKvHeads ≤ 0 then
    .error (.valueError s!"num_heads must be > 0, got {config.numKvHeads}")
  else if config.headDim ≤ 0 then
    .error (.valueError s!"head_dim must be > 0, got {config.headDim}")
  else if hblocks : resolveNumBlocks config maxKvBlocks ≤ 0 then
    .error (.valueError s!"num_blocks must be > 0, got {resolveNumBlocks config maxKvBlocks}")
  else if hsize : config.blockSize ≤ 0 then
    .error (.valueError s!"block_size must be > 0, got {config.blockSize}")
  else if hbatch : config.maxBatchSize ≤ 0 then
    .error (.valueError s!"max_batch_size must be > 0, got {config.maxBatchSize}")
  else if htokens : config.maxTokensPerStep ≤ 0 then
    .error (.valueError s!"max_tokens_per_step must be > 0, got {config.maxTokensPerStep}")
  else .ok (start
    ⟨config.maxBatchSize.toNat, config.maxTokensPerStep.toNat, by omega, by omega⟩
    ⟨(resolveNumBlocks config maxKvBlocks).toNat, config.blockSize.toNat, by omega, by omega⟩ kv)

/-! ### Checks -/

structure ErrorResponse where
  statusCode : ℕ
  message : String
  type : String
  code : String
  param : Option String
deriving DecidableEq, Repr

def invalidRequest (message : String) (param : Option String) : ErrorResponse :=
  ⟨400, message, "invalid_request_error", "invalid_request_error", param⟩

/-- What the checks of the server read. -/
structure Server where
  maxN : ℤ
  maxSeqLength : ℤ
  floatText : ℚ → String
  tokenize : String → List ℕ

def validateRequiredParams (maxTokens : Option ℤ) : Except ErrorResponse ℤ :=
  match maxTokens with
  | none => .error (invalidRequest "max_tokens is required. Please provide a positive integer."
      (some "max_tokens"))
  | some n => .ok n

def validateTemperature (server : Server) : Option ℚ → Except ErrorResponse Unit
  | none => .ok ()
  | some t =>
    if 0 ≤ t ∧ t ≤ 2 then .ok ()
    else .error (invalidRequest s!"temperature must be between 0 and 2, got {server.floatText t}"
      (some "temperature"))

def validateTopP (server : Server) : Option ℚ → Except ErrorResponse Unit
  | none => .ok ()
  | some p =>
    if 0 < p ∧ p ≤ 1 then .ok ()
    else .error (invalidRequest
      s!"top_p must be between 0 (exclusive) and 1 (inclusive), got {server.floatText p}"
        (some "top_p"))

/-- `validate_sampling_params`, as the server calls it, without `top_k`. -/
def validateSamplingParams (server : Server) (temperature topP : Option ℚ) (maxTokens : ℤ) :
    Except ErrorResponse Unit := do
  validateTemperature server temperature
  validateTopP server topP
  if maxTokens ≤ 0 then
    .error (invalidRequest s!"max_tokens must be > 0, got {maxTokens}" (some "max_tokens"))
  else .ok ()

def validateParallelSampling (server : Server) (n bestOf : Option ℤ) : Except ErrorResponse Unit :=
  let requestedN := orElse n 1
  let requestedBestOf := orElse bestOf requestedN
  if requestedN ≤ 0 then .error (invalidRequest "n must be greater than 0" (some "n"))
  else if server.maxN < requestedN then
    .error (invalidRequest s!"n must be less than or equal to {server.maxN}" (some "n"))
  else if requestedBestOf ≤ 0 then
    .error (invalidRequest "best_of must be greater than 0" (some "best_of"))
  else if server.maxN < requestedBestOf then
    .error (invalidRequest s!"best_of must be less than or equal to {server.maxN}" (some "best_of"))
  else if requestedBestOf < requestedN then
    .error (invalidRequest "best_of must be greater than or equal to n" (some "best_of"))
  else .ok ()

/-- `validate_context_length`, and the answer to its exception. -/
def validateContextLength (server : Server) (promptTokens : ℕ) (maxTokens : ℤ) :
    Except ErrorResponse Unit :=
  if server.maxSeqLength < promptTokens + maxTokens then
    .error ⟨400,
      s!"prompt ({promptTokens} tokens) + max_tokens ({maxTokens}) = {promptTokens + maxTokens} exceeds model max ({server.maxSeqLength})", "invalid_request_error", "context_length_exceeded", none⟩
  else .ok ()

/-! ### Requests -/

/-- `prompt` of a completion request. -/
inductive Prompt where
  | text (prompt : String)
  | texts (prompts : List String)
  | tokens (prompt : List ℕ)
  | tokenLists (prompts : List (List ℕ))

structure CompletionRequest where
  prompt : Prompt
  maxTokens : Option ℤ := none
  temperature : Option ℚ := some 1
  topP : Option ℚ := some 1
  n : Option ℤ := some 1
  bestOf : Option ℤ := none
  stream : Bool := false
  stop : List String := []
  logprobs : Option ℤ := none

structure ChatCompletionRequest where
  /-- The token ids of the messages, as `_chat_prompt_to_token_ids` finds them. -/
  promptTokenIds : List ℕ
  maxTokens : Option ℤ := none
  temperature : Option ℚ := some (7 / 10)
  topP : Option ℚ := some 1
  n : Option ℤ := some 1
  stream : Bool := false
  stop : List String := []
  logprobs : Bool := false
  topLogprobs : Option ℤ := none

/-- The arguments of one call of `engine.add_request`. -/
structure Submission where
  promptTokenIds : List ℕ
  samplingParams : SamplingParams
  n : ℤ

/-- `parse_prompt_format`, and the tokenization of the prompts. -/
def parsePromptFormat (server : Server) : Prompt → Except ErrorResponse (List (List ℕ))
  | .text prompt => .ok [server.tokenize prompt]
  | .texts [] | .tokens [] | .tokenLists [] =>
    .error (invalidRequest "please provide at least one prompt" none)
  | .texts prompts => .ok (prompts.map server.tokenize)
  | .tokens prompt => .ok [prompt]
  | .tokenLists ([] :: _) => .error (invalidRequest
      "prompt must be a string, array of strings, array of tokens, or array of token arrays" none)
  | .tokenLists prompts => .ok prompts

def buildSamplingParams (temperature topP : Option ℚ) (maxTokens : ℤ) (stop : List String)
    (logprobs : Option ℤ) : SamplingParams where
  temperature := temperature.getD 1
  topP := topP.getD 1
  logprobs := logprobs.getD 0
  maxTokens := maxTokens
  stop := stop

/-- The loop of `completion` over its prompts: what is submitted, and the error that ends it. -/
def submitPrompts (server : Server) (params : SamplingParams) (n : ℤ) :
    List (List ℕ) → List Submission × Option ErrorResponse
  | [] => ([], none)
  | prompt :: prompts =>
    match validateContextLength server prompt.length params.maxTokens with
    | .error e => ([], some e)
    | .ok _ =>
      let (rest, e) := submitPrompts server params n prompts
      (⟨prompt, params, n⟩ :: rest, e)

/-- The checks of `completion` on a request that streams. -/
def checkStreaming (stream : Bool) (n bestOf : ℤ) (prompts : List (List ℕ)) :
    Except ErrorResponse Unit :=
  if stream = false then .ok ()
  else if n ≠ 1 ∨ bestOf ≠ 1 then
    .error (invalidRequest "streaming completions only support n=1 and best_of=1" none)
  else if prompts.length ≠ 1 then
    .error (invalidRequest "streaming completion only supports a single prompt" none)
  else .ok ()

/-- The checks of `completion` before the first prompt is submitted. -/
def checkCompletion (server : Server) (request : CompletionRequest) :
    Except ErrorResponse (SamplingParams × ℤ × List (List ℕ)) := do
  let maxTokens ← validateRequiredParams request.maxTokens
  validateSamplingParams server request.temperature request.topP maxTokens
  validateParallelSampling server request.n request.bestOf
  let requestedN := orElse request.n 1
  let requestedBestOf := orElse request.bestOf requestedN
  let prompts ← parsePromptFormat server request.prompt
  let params :=
    buildSamplingParams request.temperature request.topP maxTokens request.stop request.logprobs
  checkStreaming request.stream requestedN requestedBestOf prompts
  return (params, requestedBestOf, prompts)

/-- What `completion` submits to the engine, and its error. -/
def completion (server : Server) (request : CompletionRequest) :
    List Submission × Option ErrorResponse :=
  match checkCompletion server request with
  | .error e => ([], some e)
  | .ok (params, n, prompts) => submitPrompts server params n prompts

/-- What `chat_completion` submits to the engine. -/
def chatCompletion (server : Server) (request : ChatCompletionRequest) :
    Except ErrorResponse Submission := do
  let maxTokens ← validateRequiredParams request.maxTokens
  validateSamplingParams server request.temperature request.topP maxTokens
  validateParallelSampling server request.n none
  let requestedN := orElse request.n 1
  let params := buildSamplingParams request.temperature request.topP maxTokens request.stop
    (if request.logprobs then request.topLogprobs else none)
  validateContextLength server request.promptTokenIds.length maxTokens
  if request.stream ∧ requestedN ≠ 1 then
    .error (invalidRequest "streaming chat completions only support n=1" none)
  else .ok ⟨request.promptTokenIds, params, requestedN⟩

/-- The server submits `sub` for some request. -/
def Submits (server : Server) (sub : Submission) : Prop :=
  (∃ request, sub ∈ (completion server request).1) ∨
    ∃ request, chatCompletion server request = .ok sub

/-! ### What has passed the checks -/

/-- The bounds that the checks leave for a submission. -/
structure Validated (server : Server) (sub : Submission) : Prop where
  temperature : 0 ≤ sub.samplingParams.temperature
  maxTokens : 1 ≤ sub.samplingParams.maxTokens
  n : 1 ≤ sub.n ∧ sub.n ≤ server.maxN
  context : sub.promptTokenIds.length + sub.samplingParams.maxTokens ≤ server.maxSeqLength

theorem validateTemperature_ok {server : Server} {temperature : Option ℚ}
    (h : validateTemperature server temperature = .ok ()) : 0 ≤ temperature.getD 1 := by
  cases temperature with
  | none => exact (by decide : (0 : ℚ) ≤ 1)
  | some t =>
    simp only [validateTemperature] at h
    split_ifs at h with h0
    exact h0.1

theorem validateSamplingParams_ok {server : Server} {temperature topP : Option ℚ} {maxTokens : ℤ}
    (h : validateSamplingParams server temperature topP maxTokens = .ok ()) :
    0 ≤ temperature.getD 1 ∧ 1 ≤ maxTokens := by
  obtain ⟨⟨⟩, ht, h⟩ := ok_of_bind h
  obtain ⟨⟨⟩, -, h⟩ := ok_of_bind h
  refine ⟨validateTemperature_ok ht, ?_⟩
  split_ifs at h
  omega

theorem validateParallelSampling_ok {server : Server} {n bestOf : Option ℤ}
    (h : validateParallelSampling server n bestOf = .ok ()) :
    1 ≤ orElse bestOf (orElse n 1) ∧ orElse bestOf (orElse n 1) ≤ server.maxN := by
  unfold validateParallelSampling at h
  simp only at h
  split_ifs at h
  omega

theorem validateContextLength_ok {server : Server} {promptTokens : ℕ} {maxTokens : ℤ}
    (h : validateContextLength server promptTokens maxTokens = .ok ()) :
    promptTokens + maxTokens ≤ server.maxSeqLength := by
  unfold validateContextLength at h
  split_ifs at h
  omega

theorem validated_submitPrompts {server : Server} {params : SamplingParams} {n : ℤ}
    (htemp : 0 ≤ params.temperature) (hmax : 1 ≤ params.maxTokens) (hn : 1 ≤ n ∧ n ≤ server.maxN) :
    ∀ prompts : List (List ℕ), ∀ sub ∈ (submitPrompts server params n prompts).1,
      Validated server sub
  | [], _, hsub => absurd hsub List.not_mem_nil
  | prompt :: prompts, sub, hsub => by
    unfold submitPrompts at hsub
    cases hctx : validateContextLength server prompt.length params.maxTokens with
    | error e =>
      rw [hctx] at hsub
      exact absurd hsub List.not_mem_nil
    | ok u =>
      rw [hctx] at hsub
      rcases List.mem_cons.mp hsub with rfl | hsub
      · exact ⟨htemp, hmax, hn, validateContextLength_ok hctx⟩
      · exact validated_submitPrompts htemp hmax hn prompts sub hsub

/-- **What the server submits** is within the bounds that it checks. -/
theorem validated_of_submits {server : Server} {sub : Submission} (h : Submits server sub) :
    Validated server sub := by
  rcases h with ⟨request, hsub⟩ | ⟨request, hsub⟩
  · unfold completion at hsub
    cases hcheck : checkCompletion server request with
    | error e =>
      rw [hcheck] at hsub
      exact absurd hsub List.not_mem_nil
    | ok r =>
      rw [hcheck] at hsub
      unfold checkCompletion at hcheck
      obtain ⟨maxTokens, -, hcheck⟩ := ok_of_bind hcheck
      obtain ⟨⟨⟩, hsampling, hcheck⟩ := ok_of_bind hcheck
      obtain ⟨⟨⟩, hparallel, hcheck⟩ := ok_of_bind hcheck
      obtain ⟨prompts, -, hcheck⟩ := ok_of_bind hcheck
      obtain ⟨htemp, hmax⟩ := validateSamplingParams_ok hsampling
      have hn := validateParallelSampling_ok hparallel
      obtain ⟨-, -, hcheck⟩ := ok_of_bind hcheck
      rw [← Except.ok.inj hcheck] at hsub
      exact validated_submitPrompts htemp hmax hn prompts sub hsub
  · unfold chatCompletion at hsub
    obtain ⟨maxTokens, -, hsub⟩ := ok_of_bind hsub
    obtain ⟨⟨⟩, hsampling, hsub⟩ := ok_of_bind hsub
    obtain ⟨⟨⟩, hparallel, hsub⟩ := ok_of_bind hsub
    obtain ⟨⟨⟩, hcontext, hsub⟩ := ok_of_bind hsub
    obtain ⟨htemp, hmax⟩ := validateSamplingParams_ok hsampling
    have hn := validateParallelSampling_ok hparallel
    by_cases hstream : request.stream = true ∧ orElse request.n 1 ≠ 1
    · rw [if_pos hstream] at hsub
      cases hsub
    · rw [if_neg hstream] at hsub
      rw [← Except.ok.inj hsub]
      exact ⟨htemp, hmax, hn, validateContextLength_ok hcontext⟩

/-! ### Submissions to an idle engine -/

variable {β ρ : Type}

/-- The server, with an engine of the configuration. -/
def serverOf (args : Args) (config : EngineConfig) (floatText : ℚ → String)
    (tokenize : String → List ℕ) :
    Server :=
  ⟨max 1 args.maxN, config.maxSeqLength, floatText, tokenize⟩

/-- The engine after the submission with the callback `onToken`. -/
def submit (e : ContinuousBatchingEngine β) (rid : String) (sub : Submission)
    (onToken : Option Callback) :
    ContinuousBatchingEngine β :=
  (ContinuousBatchingEngine.addRequest rid sub.promptTokenIds sub.samplingParams sub.n.toNat
    onToken).state e

/-- Whatever the model, the callback and the eviction hook do, the submission is admitted at once
and runs to completion. -/
def Completes (ρ : Type) (e : ContinuousBatchingEngine β) (rid : String)
    (sub : Submission) : Prop :=
  ∀ (onToken : Option Callback) (env : Env ρ), RunsAlone env (submit e rid sub onToken)
    (((submit e rid sub onToken).requestToSeqIds rid).getD []) sub.samplingParams.maxTokens.toNat

/-- The limits of the engine have room for the submission. -/
def HasRoom (args : Args) (config : EngineConfig) (maxKvBlocks : ℤ) (sub : Submission) : Prop :=
  sub.n ≤ args.maxBatchSize ∧ sub.n * sub.promptTokenIds.length ≤ 2048 ∧
    sub.n * ceilDiv (sub.promptTokenIds.length + sub.samplingParams.maxTokens.toNat - 1) 16 ≤
      resolveNumBlocks config maxKvBlocks

instance (args : Args) (config : EngineConfig) (maxKvBlocks : ℤ) (sub : Submission) :
    Decidable (HasRoom args config maxKvBlocks sub) := inferInstanceAs (Decidable (_ ∧ _))

theorem buildEngineConfig_ok {args : Args} {modelConfig : Option ModelConfig}
    {config : EngineConfig} (h : buildEngineConfig args modelConfig = .ok config) :
    config.maxBatchSize = args.maxBatchSize ∧ config.maxTokensPerStep = 2048 ∧
    config.blockSize = 16 := by
  unfold buildEngineConfig at h
  cases modelConfig with
  | none => cases h
  | some m =>
    obtain ⟨numLayers, -, h⟩ := ok_of_bind h
    obtain ⟨numHeads, -, h⟩ := ok_of_bind h
    obtain ⟨headDim, -, h⟩ := ok_of_bind h
    rw [← Except.ok.inj h]
    exact ⟨rfl, rfl, rfl⟩

/-- The sizes of a new engine. -/
theorem newEngine_ok {config : EngineConfig} {maxKvBlocks : ℤ} {kv : ℕ → β}
    {e : ContinuousBatchingEngine β} (h : newEngine config maxKvBlocks kv = .ok e) :
    ∃ cfg kvCfg, e = start cfg kvCfg kv ∧ (cfg.maxBatchSize : ℤ) = config.maxBatchSize ∧
      (cfg.maxTokensPerStep : ℤ) = config.maxTokensPerStep ∧
      (kvCfg.numBlocks : ℤ) = resolveNumBlocks config maxKvBlocks ∧
      (kvCfg.blockSize : ℤ) = config.blockSize := by
  unfold newEngine at h
  split_ifs at h
  refine ⟨_, _, (Except.ok.inj h).symm, ?_, ?_, ?_, ?_⟩
  all_goals exact Int.toNat_of_nonneg (by omega)

theorem room_iff {args : Args} {modelConfig : Option ModelConfig} {config : EngineConfig}
    (hconfig : buildEngineConfig args modelConfig = .ok config) {maxKvBlocks : ℤ}
    {cfg : SchedConfig} {kvCfg : KvConfig} (hbatch : (cfg.maxBatchSize : ℤ) = config.maxBatchSize)
    (htokens : (cfg.maxTokensPerStep : ℤ) = config.maxTokensPerStep)
    (hblocks : (kvCfg.numBlocks : ℤ) = resolveNumBlocks config maxKvBlocks)
    (hsize : (kvCfg.blockSize : ℤ) = config.blockSize) {sub : Submission} (hn : 1 ≤ sub.n) :
    Room cfg kvCfg sub.promptTokenIds sub.samplingParams sub.n.toNat ↔
      HasRoom args config maxKvBlocks sub := by
  obtain ⟨h1, h2, h3⟩ := buildEngineConfig_ok hconfig
  have hcast : ((sub.n.toNat : ℕ) : ℤ) = sub.n := Int.toNat_of_nonneg (by omega)
  have hsixteen : kvCfg.blockSize = 16 := by omega
  unfold Room PoolFits HasRoom
  have hbudget : cfg.maxTokensPerStep = 2048 := by omega
  rw [hsixteen, ← hblocks, ← h1, ← hbatch, ← hcast, hbudget, Int.toNat_natCast]
  norm_cast

theorem completes_iff [Nonempty ρ] {args : Args} {modelConfig : Option ModelConfig}
    {config : EngineConfig} (hconfig : buildEngineConfig args modelConfig = .ok config)
    {maxKvBlocks : ℤ} {kv : ℕ → β} {e : ContinuousBatchingEngine β}
    (hengine : newEngine config maxKvBlocks kv = .ok e) (env : Env ρ) (ops : List Op)
    (hidle : (exec (runOp env) e ops).scheduler.requestMap = []) {server : Server}
    {sub : Submission} (hsub : Validated server sub) (hprompt : sub.promptTokenIds ≠ [])
    {rid : String} (hfresh : (exec (runOp env) e ops).requestToSeqIds rid = none) :
    Completes ρ (exec (runOp env) e ops) rid sub ↔ HasRoom args config maxKvBlocks sub := by
  obtain ⟨cfg, kvCfg, rfl, hbatch, htokens, hblocks, hsize⟩ := newEngine_ok hengine
  have hcon : Consistent (exec (runOp env) (start cfg kvCfg kv) ops) :=
    inv_exec_all (I := Consistent) (fun _ o h => consistent_runOp env h o) ops _
      (consistent_new cfg kvCfg kv)
  have hlimits : limits (exec (runOp env) (start cfg kvCfg kv) ops).scheduler = (cfg, kvCfg) :=
    inv_exec_all (I := fun e : ContinuousBatchingEngine β => limits e.scheduler = (cfg, kvCfg))
      (fun e o h => (limits_runOp env e o).trans h) ops (start cfg kvCfg kv) rfl
  refine (forall_congr' fun onToken => ?_).trans (forall_const (Option Callback))
  obtain ⟨g, hlen, hids, hcon', hlimits', hent⟩ :=
    entering_of_idle hcon hidle hfresh sub.promptTokenIds sub.samplingParams (n := sub.n.toNat)
      (by have := hsub.n.1; omega) onToken
  unfold submit
  set e' := (ContinuousBatchingEngine.addRequest rid sub.promptTokenIds sub.samplingParams
    sub.n.toNat onToken).state (exec (runOp env) (start cfg kvCfg kv) ops)
  have hcfg : e'.scheduler.cfg = cfg := congrArg Prod.fst (hlimits'.trans hlimits)
  have hkv : sizes e'.scheduler.kvCache = kvCfg := congrArg Prod.snd (hlimits'.trans hlimits)
  rw [hids, Option.getD_some,
    runsAlone_iff hcon' hent hprompt hsub.temperature hsub.maxTokens, hlen, hcfg, hkv,
    room_iff hconfig hbatch htokens hblocks hsize hsub.n.1]

/-- **Which submissions complete**: those for which the limits of the engine have room. -/
theorem submission_completes_iff [Nonempty ρ] (args : Args) (modelConfig : Option ModelConfig)
    (config : EngineConfig) (hconfig : buildEngineConfig args modelConfig = .ok config)
    (maxKvBlocks : ℤ) (kv : ℕ → β) (e : ContinuousBatchingEngine β)
    (hengine : newEngine config maxKvBlocks kv = .ok e) (env : Env ρ) (ops : List Op)
    (hidle : (exec (runOp env) e ops).scheduler.requestMap = []) (floatText : ℚ → String)
    (tokenize : String → List ℕ) (sub : Submission)
    (hsub : Submits (serverOf args config floatText tokenize) sub)
    (hprompt : sub.promptTokenIds ≠ []) (rid : String)
    (hfresh : (exec (runOp env) e ops).requestToSeqIds rid = none) :
    Completes ρ (exec (runOp env) e ops) rid sub ↔ HasRoom args config maxKvBlocks sub :=
  completes_iff hconfig hengine env ops hidle (validated_of_submits hsub) hprompt hfresh

/-- A model with a context of 4096 tokens. -/
def smallModel : ModelConfig where
  intAttr := fun name =>
    if name = "num_hidden_layers" then some 2
    else if name = "num_attention_heads" then some 4
    else if name = "head_dim" then some 8
    else if name = "max_position_embeddings" then some 4096
    else none
  eosTokenIds := []
  torchDtype := none

def smallConfig : EngineConfig :=
  ⟨3 / 4, 1 / 4, 32, 2048, 4096, 16, 2, 4, 8, "float16", none, none⟩

theorem smallConfig_built : buildEngineConfig {} (some smallModel) = .ok smallConfig := by
  rfl

/-- What the server submits for a prompt of `n` tokens. -/
def longPrompt (n : ℕ) : Submission :=
  ⟨List.replicate n 0, buildSamplingParams (some 1) (some 1) 1 [] none, 1⟩

theorem submits_longPrompt {n : ℕ} (hpos : n ≠ 0) (hn : n + 1 ≤ 4096) (floatText : ℚ → String)
    (tokenize : String → List ℕ) :
    Submits (serverOf {} smallConfig floatText tokenize) (longPrompt n) := by
  obtain ⟨n, rfl⟩ := Nat.exists_eq_succ_of_ne_zero hpos
  refine Or.inl ⟨{ prompt := .tokens (List.replicate n.succ 0), maxTokens := some 1 }, ?_⟩
  have hcheck : checkCompletion (serverOf {} smallConfig floatText tokenize)
      { prompt := .tokens (List.replicate n.succ 0), maxTokens := some 1 } =
      .ok (buildSamplingParams (some 1) (some 1) 1 [] none, 1, [List.replicate n.succ 0]) := rfl
  have hcontext : validateContextLength (serverOf {} smallConfig floatText tokenize)
      (List.replicate n.succ 0).length 1 = .ok () := by
    unfold validateContextLength
    rw [List.length_replicate, if_neg]
    change ¬ (4096 : ℤ) < _
    omega
  unfold completion
  rw [hcheck]
  change longPrompt n.succ ∈ (submitPrompts _ _ _ [List.replicate n.succ 0]).1
  unfold submitPrompts
  rw [show (buildSamplingParams (some 1) (some 1) 1 [] none).maxTokens = 1 from rfl, hcontext]
  exact List.mem_cons_self

/-- An engine of the configuration, with `n` blocks. -/
def smallEngine (n : ℕ) (hn : 0 < n) : ContinuousBatchingEngine ℕ :=
  start ⟨32, 2048, by decide, by decide⟩ ⟨n, 16, hn, by decide⟩ fun b => b

theorem submission_completes_iff_shortPrompt :
    HasRoom {} smallConfig 1 (longPrompt 3) ∧
    Completes ℕ (smallEngine 1 (by decide)) "a" (longPrompt 3) :=
  ⟨by decide, (submission_completes_iff {} (some smallModel) smallConfig smallConfig_built
    1 (fun b => b) (smallEngine 1 (by decide)) rfl (quiet 0) [] rfl (fun _ => "") (fun _ => [])
      (longPrompt 3)
    (submits_longPrompt (by decide) (by decide) _ _) (by decide) "a" rfl).mpr (by decide)⟩

/-- A prompt of 2049 tokens is within the context of the model, and is never admitted. -/
theorem long_prompt_not_admitted : ¬ ∀ (args : Args) (modelConfig : Option ModelConfig)
    (config : EngineConfig) (maxKvBlocks : ℤ) (kv : ℕ → ℕ) (e : ContinuousBatchingEngine ℕ)
    (floatText : ℚ → String) (tokenize : String → List ℕ) (sub : Submission) (rid : String),
    buildEngineConfig args modelConfig = .ok config → newEngine config maxKvBlocks kv = .ok e →
    Submits (serverOf args config floatText tokenize) sub → sub.promptTokenIds ≠ [] →
    Completes ℕ e rid sub := by
  intro h
  have hsub := submits_longPrompt (n := 2049) (by decide) (by decide) (fun _ => "") fun _ => []
  have hne : (longPrompt 2049).promptTokenIds ≠ [] := List.cons_ne_nil 0 (List.replicate 2048 0)
  have hcompletes :=
    h {} (some smallModel) smallConfig 1000 (fun b => b) (smallEngine 1000 (by decide)) _ _
      (longPrompt 2049) "a" smallConfig_built rfl hsub hne
  have hengine : newEngine smallConfig 1000 (fun b => b) = .ok (smallEngine 1000 (by decide)) := rfl
  have hroom :=
    (completes_iff smallConfig_built hengine (quiet 0) [] rfl (validated_of_submits hsub) hne
      rfl).mp hcompletes
  have hlen : ((longPrompt 2049).promptTokenIds.length : ℤ) = 2049 :=
    congrArg Nat.cast List.length_replicate
  have hbudget := hroom.2.1
  rw [hlen] at hbudget
  exact absurd hbudget (by decide)

end MoeInfinity.Entrypoints.Requests
