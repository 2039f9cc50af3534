import MoeInfinity.Serving.Batch

/-! # Running the model on a batch (`serving/model_runner.py`, `serving/sampler.py`)

The model itself is outside the repository. It is a parameter: `forward` takes the inputs of all
earlier calls and of this one, so that a model that keeps state between its calls is covered. A
model with paged attention classes and a backend gets the slot mapping through the paged context,
for the block size that `_resolve_block_size` finds. Expert tracing and request ids, which no result
depends on, are left out. -/

namespace MoeInfinity.Serving.ModelRunner

open MoeInfinity.Python MoeInfinity.Serving.Sequence MoeInfinity.Serving.Batch

/-! ### Inputs -/

/-- The `AttentionMetadata` of the paged context. -/
structure AttentionMetadata where
  blockTables : List (List ℕ)
  seqLens : List ℕ
  maxSeqLen : ℕ
  numPrefillTokens : ℕ
  numDecodeTokens : ℕ
  slotMapping : List ℕ
  isPrefill : Bool
deriving DecidableEq, Repr

/-- The arguments of one call of the model's `forward`. The serving engine passes no
`past_key_values`. -/
structure ForwardInputs where
  inputIds : List (List ℕ)
  positionIds : List (List ℕ)
  attentionMask : List (List ℕ)
  metadata : Option AttentionMetadata
deriving DecidableEq, Repr

/-- A row of a `torch.zeros` tensor of width `width` whose first entries are `xs`. -/
def padded (width : ℕ) (xs : List ℕ) : List ℕ := xs ++ List.replicate (width - xs.length) 0

/-- `torch.arange(context_len, context_len + seq_len)`. -/
def positions (r : BatchRow) : List ℕ := List.range' r.contextLength r.tokens.length

def maxSeqLen (b : BatchMetadata) : ℕ := b.seqLengths.foldl max 0

theorem foldl_max_ge (l : List ℕ) (a : ℕ) : a ≤ l.foldl max a := by
  induction l generalizing a with
  | nil => exact le_rfl
  | cons b l ih => exact (le_max_left a b).trans (ih (max a b))

theorem le_foldl_max {l : List ℕ} {n : ℕ} (h : n ∈ l) : ∀ a, n ≤ l.foldl max a := by
  induction l with
  | nil => exact absurd h List.not_mem_nil
  | cons b l ih =>
    intro a
    rcases List.mem_cons.mp h with rfl | h
    · exact (le_max_right a n).trans (foldl_max_ge l (max a n))
    · exact ih h (max a b)

/-- Every row fits into the width of the padded tensors. -/
theorem le_maxSeqLen {b : BatchMetadata} {r : BatchRow} (hr : r ∈ b.rows) :
    r.tokens.length ≤ maxSeqLen b :=
  le_foldl_max (List.mem_map_of_mem (f := fun r : BatchRow => r.tokens.length) hr) 0

def prepareInputs (b : BatchMetadata) (metadata : Option AttentionMetadata) : ForwardInputs where
  inputIds := b.rows.map fun r => padded (maxSeqLen b) r.tokens
  positionIds := b.rows.map fun r => padded (maxSeqLen b) (positions r)
  attentionMask := b.rows.map fun r => padded (maxSeqLen b) (r.tokens.map fun _ => 1)
  metadata := metadata

/-- The slot of one token, by the block table of its sequence. -/
def slotOf (blockSize : ℕ) (table : List ℕ) (pos : ℕ) : Except PyError ℕ :=
  match table[pos / blockSize]? with
  | none => .error (.valueError "batch metadata block table is too short for sequence length")
  | some b => .ok (b * blockSize + pos % blockSize)

def buildSlotMapping (b : BatchMetadata) (blockSize : ℕ) : Except PyError (List ℕ) := do
  let slots ← b.rows.mapM fun r => (positions r).mapM (slotOf blockSize r.blockTable)
  return slots.flatten

def buildRuntimeAttentionMetadata (b : BatchMetadata) (blockSize : ℕ) :
    Except PyError AttentionMetadata := do
  let slots ← buildSlotMapping b blockSize
  let maxBlocks := (b.rows.map (·.blockTable.length)).foldl max 0
  let numPrefillTokens := ((b.rows.filter (·.isPrefill)).map (·.tokens.length)).sum
  return {
    blockTables := b.rows.map fun r => padded maxBlocks r.blockTable
    seqLens := b.rows.map fun r => r.contextLength + r.tokens.length
    maxSeqLen := (b.rows.map fun r => r.contextLength + r.tokens.length).foldl max 0
    numPrefillTokens := numPrefillTokens
    numDecodeTokens := b.totalTokens - numPrefillTokens
    slotMapping := slots
    isPrefill := !b.rows.isEmpty && b.rows.all (·.isPrefill) }

/-! ### Calls -/

/-- The logits a model returns: one row per token, packed or padded. -/
inductive Logits (ρ : Type) where
  | rank2 (rows : List ρ)
  | rank3 (rows : List (List ρ))
  | other (rank : ℕ)

inductive EvictionEvent where
  | completed
  | aborted
  | freed
  | swapped
deriving DecidableEq, Repr

/-- The model, its engine and the sampler's random choices, as the runner sees them, and the
eviction hook of the serving engine. -/
structure Env (ρ : Type) where
  /-- Whether `_get_paged_attention_classes` finds a class. -/
  pagedClasses : Bool
  /-- Whether the engine has an attention backend. -/
  hasBackend : Bool
  /-- The result of `_resolve_block_size`. -/
  runnerBlockSize : ℕ
  runnerBlockSize_pos : 0 < runnerBlockSize
  /-- The model, after the calls made before. -/
  forward : List ForwardInputs → ForwardInputs → Except PyError (Logits ρ)
  argmax : ρ → ℕ
  /-- A choice by temperature, `top_k` and `top_p`, after the calls made before. -/
  draw : List ForwardInputs → ρ → SamplingParams → ℕ
  eosTokenId : Option ℕ
  /-- `tokenizer.decode`; `none` without a tokenizer or when it raises. -/
  decodeTokens : List ℕ → Option String
  /-- `on_request_finished` and `on_request_aborted` of `_eviction_sync`, after what it was told
  before. Without a hook nothing is raised. -/
  evictionSync : List (EvictionEvent × String) → EvictionEvent → String → Except PyError Unit :=
    fun _ _ _ => .ok ()
  /-- The place of a request id where a set of them is visited. -/
  setRank : String → ℕ := fun _ => 0

variable {ρ : Type}

/-- `use_paged_context` of `execute`. -/
def Env.usePagedContext (env : Env ρ) : Bool := env.pagedClasses && env.hasBackend

/-- `logits[token_mask]`: the rows of the tokens that are not padding. -/
def maskedRows : List BatchRow → List (List ρ) → List ρ
  | r :: rows, l :: ls => l.take r.tokens.length ++ maskedRows rows ls
  | _, _ => []

/-- The packed logits, one row per token of the batch. -/
def packLogits (b : BatchMetadata) : Logits ρ → Except PyError (List ρ)
  | .rank2 rows => .ok rows
  | .rank3 rows =>
    if rows.length = b.rows.length ∧ ∀ l ∈ rows, l.length = maxSeqLen b then
      .ok (maskedRows b.rows rows)
    else .error (.indexError "The shape of the mask does not match the shape of the indexed tensor")
  | .other rank =>
    .error (.valueError s!"model output logits must be rank-2 or rank-3, got rank-{rank}")

/-- The inputs of the call that `execute` makes for a batch. -/
def callInputs (env : Env ρ) (b : BatchMetadata) : Except PyError ForwardInputs :=
  if env.usePagedContext then do
    let metadata ← buildRuntimeAttentionMetadata b env.runnerBlockSize
    return prepareInputs b (some metadata)
  else return prepareInputs b none

/-- A call of the model, and whose rows it was made for. -/
structure Call where
  batch : BatchMetadata
  inputs : ForwardInputs
deriving DecidableEq, Repr

/-- `ModelRunner.execute`, with the calls made before: the calls after it and the packed logits. -/
def execute (env : Env ρ) (calls : List Call) (b : BatchMetadata) :
    List Call × Except PyError (List ρ) :=
  if b.totalTokens = 0 then (calls, .ok [])
  else
    match callInputs env b with
    | .error e => (calls, .error e)
    | .ok inputs =>
      (calls ++ [⟨b, inputs⟩], do
        let logits ← env.forward (calls.map (·.inputs)) inputs
        let rows ← packLogits b logits
        if rows.length ≠ b.totalTokens then
          throw (.valueError
            s!"packed logits row count must match batch.total_tokens; got {rows.length} vs {b.totalTokens}")
        return rows)

/-- `ContinuousBatchingEngine._execute_batch`: a paged model gets prefill and decode sequences in
two calls. -/
def executeBatch (env : Env ρ) (calls : List Call) (b : BatchMetadata) :
    List Call × Except PyError (List ρ) :=
  let hasPrefill := b.rows.any (·.isPrefill)
  let hasDecode := b.rows.any (!·.isPrefill)
  if !env.pagedClasses || !(hasPrefill && hasDecode) then execute env calls b
  else
    match execute env calls (sliceBatch b true) with
    | (calls, .error e) => (calls, .error e)
    | (calls, .ok prefill) =>
      match execute env calls (sliceBatch b false) with
      | (calls, .error e) => (calls, .error e)
      | (calls, .ok decode) => (calls, .ok (recombineOutputs b.rows prefill decode))

/-- `_extract_last_token_logits`: the last logits of each row, from the packed logits. -/
def extractLastTokenLogits : List BatchRow → List ρ → Except PyError (List ρ)
  | [], _ => .ok []
  | r :: rows, logits =>
    if r.tokens.length = 0 then
      .error (.runtimeError "scheduled sequence has no tokens; empty prompts are not supported")
    else
      match logits[r.tokens.length - 1]? with
      | none => .error (.indexError "index out of range")
      | some l => do
        let rest ← extractLastTokenLogits rows (logits.drop r.tokens.length)
        return l :: rest

/-! ### Sampling -/

/-- The choice of `Sampler.sample` for one row. -/
def sampleRow (env : Env ρ) (calls : List Call) (row : ρ) (params : SamplingParams) :
    Except PyError ℕ :=
  if params.temperature = 0 then .ok (env.argmax row)
  else if params.temperature < 0 then .error (.valueError "temperature must be non-negative")
  else .ok (env.draw (calls.map (·.inputs)) row params)

def sample (env : Env ρ) (calls : List Call) :
    List ρ → List SamplingParams → Except PyError (List ℕ)
  | [], [] => .ok []
  | row :: rows, params :: rest => do
    let t ← sampleRow env calls row params
    let ts ← sample env calls rows rest
    return t :: ts
  | _, _ => .error (.valueError "sampling_params must match batch size")

end MoeInfinity.Serving.ModelRunner
