import Mathlib.Data.Rat.Defs
import MoeInfinity.Engine.Schedule
import MoeInfinity.Memory.KvManager

/-! # The generation loop (`engine/generation_loop.py`)

`generate` takes the blocks of a prompt, runs one prefill forward and then one decode forward for
each further token, taking another block when the table is full. However it ends, the blocks go
back.

The model forward and the draws of `torch` work on a state `ω` of their own and may raise; a row of
logits is of type `ρ`. `calls` is a history variable, read by no operation: the forwards so far,
with the manager as it was at each of them. -/

namespace MoeInfinity.Engine.GenerationLoop

open MoeInfinity.Python MoeInfinity.Lib.Imperative
open MoeInfinity.Memory.KvManager
open MoeInfinity.Engine.Schedule (SequenceStatus)

structure SamplingParams where
  temperature : ℚ := 1
  topP : ℚ := 1
  topK : ℤ := 0
  maxTokens : ℤ := 256
deriving DecidableEq, Repr

/-- `AttentionMetadata`, with tensors as lists. -/
structure AttentionMetadata where
  blockTables : List (List ℕ)
  seqLens : List ℕ
  maxSeqLen : ℕ
  numPrefillTokens : ℕ
  numDecodeTokens : ℕ
  slotMapping : List ℕ
  isPrefill : Bool
deriving DecidableEq, Repr

structure GenerationResult where
  requestId : String
  promptTokenIds : List ℤ
  outputTokenIds : List ℤ
  finishReason : SequenceStatus
deriving DecidableEq, Repr

structure KVCacheSpec where
  blockSize : ℕ

/-- The engine without its manager. `randn` and `sample` stand for `torch.randn`, which gives the
logits if there is no model forward, and for `_sample`. -/
structure GenerationEngine (ω ρ : Type) where
  kvSpec : KVCacheSpec
  vocabSize : ℕ
  modelForward : Option (List ℤ → AttentionMetadata → Prog PyError ω (List ρ)) := none
  eosTokenId : ℤ := 2
  maxSeqLength : Option ℤ := none
  randn : ℕ → ℕ → Prog PyError ω (List ρ)
  sample : List ρ → SamplingParams → Prog PyError ω ℤ

/-- A forward: its arguments, and the manager when it was made. -/
structure ForwardCall where
  tokenIds : List ℤ
  attentionMetadata : AttentionMetadata
  manager : KVCacheManager

structure EngineState (ω : Type) where
  kvMgr : KVCacheManager
  oracle : ω
  calls : List ForwardCall := []

section Loop

variable {ω ρ : Type}

/-- Run a method of the manager. -/
def onKv {α : Type} (m : Prog PyError KVCacheManager α) : Prog PyError (EngineState ω) α :=
  zoom EngineState.kvMgr (fun k s => { s with kvMgr := k }) m

/-- Run a forward or a draw. -/
def onOracle {α : Type} (m : Prog PyError ω α) : Prog PyError (EngineState ω) α :=
  zoom EngineState.oracle (fun w s => { s with oracle := w }) m

namespace GenerationEngine

variable (e : GenerationEngine ω ρ)

def computeSlotMapping (blockTable : List ℕ) (numTokens : ℕ) : Except PyError (List ℕ) :=
  if e.kvSpec.blockSize = 0 ∧ 0 < numTokens then
    .error (.zeroDivisionError "integer division or modulo by zero")
  else
    .ok ((List.range numTokens).filterMap fun tokenIdx =>
      (blockTable[tokenIdx / e.kvSpec.blockSize]?).map fun b =>
        b * e.kvSpec.blockSize + tokenIdx % e.kvSpec.blockSize)

def forward (tokenIds : List ℤ) (attentionMetadata : AttentionMetadata) : Prog PyError ω (List ρ) :=
  match e.modelForward with
  | some f => f tokenIds attentionMetadata
  | none => e.randn tokenIds.length e.vocabSize

def runForward (tokenIds : List ℤ) (attentionMetadata : AttentionMetadata) :
    Prog PyError (EngineState ω) (List ρ) := do
  update fun s => { s with calls := s.calls ++ [⟨tokenIds, attentionMetadata, s.kvMgr⟩] }
  onOracle (e.forward tokenIds attentionMetadata)

def prefillMetadata (blockTable slotMapping : List ℕ) (numPromptTokens : ℕ) :
    AttentionMetadata where
  blockTables := [blockTable]
  seqLens := [numPromptTokens]
  maxSeqLen := numPromptTokens
  numPrefillTokens := numPromptTokens
  numDecodeTokens := 0
  slotMapping := slotMapping
  isPrefill := true

def decodeMetadata (blockTable decodeSlot : List ℕ) (currentSeqLen : ℕ) : AttentionMetadata where
  blockTables := [blockTable]
  seqLens := [currentSeqLen]
  maxSeqLen := currentSeqLen
  numPrefillTokens := 0
  numDecodeTokens := 1
  slotMapping := decodeSlot
  isPrefill := false

/-- The table that holds the current tokens, with another block if they need one, or nothing if
there is none. -/
def growTable (requestId : String) (currentSeqLen : ℕ) (blockTable : List ℕ) :
    Prog PyError (EngineState ω) (Option (List ℕ)) :=
  if blockTable.length * e.kvSpec.blockSize < currentSeqLen then do
    let appended ← onKv (KVCacheManager.appendTokenBlock requestId)
    if appended = false then return none
    else
      let s ← current
      return some (s.kvMgr.getBlockTable requestId)
  else return some blockTable

/-- The decode loop for at most `n` more tokens. -/
def decodeLoop (requestId : String) (sp : SamplingParams) (numPromptTokens : ℕ) :
    ℕ → List ℕ → List ℤ → Prog PyError (EngineState ω) (List ℤ × SequenceStatus)
  | 0, _, outputIds => pure (outputIds, .finishedLength)
  | n + 1, blockTable, outputIds =>
    if outputIds.getLast? = some e.eosTokenId then pure (outputIds, .finishedStopped)
    else do
      let grown ← growTable e requestId (numPromptTokens + outputIds.length) blockTable
      match grown with
      | none => return (outputIds, .finishedLength)
      | some blockTable => do
        let slots ← ofExcept (e.computeSlotMapping blockTable (numPromptTokens + outputIds.length))
        let decodeLogits ← runForward e outputIds.getLast?.toList
          (decodeMetadata blockTable (slots.drop (slots.length - 1))
            (numPromptTokens + outputIds.length))
        let token ← onOracle (e.sample decodeLogits sp)
        decodeLoop requestId sp numPromptTokens n blockTable (outputIds ++ [token])

/-- The `try` block of `generate`: the outputs and the finish reason. -/
def produce (requestId : String) (sp : SamplingParams) (promptTokenIds : List ℤ) :
    Prog PyError (EngineState ω) (List ℤ × SequenceStatus) := do
  let s ← current
  let slotMapping ← ofExcept
    (e.computeSlotMapping (s.kvMgr.getBlockTable requestId) promptTokenIds.length)
  let prefillLogits ← runForward e promptTokenIds
    (prefillMetadata (s.kvMgr.getBlockTable requestId) slotMapping promptTokenIds.length)
  if sp.maxTokens ≤ 0 then return ([], .finishedLength)
  else
    let nextToken ← onOracle (e.sample (prefillLogits.drop (prefillLogits.length - 1)) sp)
    let (outputIds, finishReason) ← decodeLoop e requestId sp promptTokenIds.length
      (sp.maxTokens - 1).toNat (s.kvMgr.getBlockTable requestId) [nextToken]
    if outputIds.getLast? = some e.eosTokenId then return (outputIds, .finishedStopped)
    else return (outputIds, finishReason)

/-- `request_id or str(uuid.uuid4())`. -/
def requestIdOr (requestId : Option String) (uuid4 : String) : String :=
  match requestId with
  | none => uuid4
  | some r => if r = "" then uuid4 else r

/-- The prompt is longer than a bound that is set. -/
def tooLong (promptTokenIds : List ℤ) : Option ℤ → Bool
  | none => false
  | some m => m < promptTokenIds.length

/-- `uuid4` is the fresh id of a call without one. -/
def generate (promptTokenIds : List ℤ) (samplingParams : Option SamplingParams)
    (requestId : Option String) (uuid4 : String) : Prog PyError (EngineState ω) GenerationResult :=
  if promptTokenIds = [] then raise (.valueError "prompt_token_ids must not be empty")
  else if tooLong promptTokenIds e.maxSeqLength then
    raise (.valueError
      s!"prompt length {promptTokenIds.length} exceeds max_seq_length {e.maxSeqLength.getD 0}")
  else do
    let rid := requestIdOr requestId uuid4
    let allocated ← onKv (KVCacheManager.allocateBlocksForSequence rid promptTokenIds.length)
    if allocated = false then
      raise (.runtimeError s!"Failed to allocate KV blocks for {promptTokenIds.length} tokens")
    else
      let (outputIds, finishReason) ← finallyDo
        (produce e rid (samplingParams.getD {}) promptTokenIds)
        (onKv (KVCacheManager.freeSequence rid))
      return ⟨rid, promptTokenIds, outputIds, finishReason⟩

end GenerationEngine

/-- `_sample`: the largest of the last logits, or a draw from the distribution they give after
filtering. -/
def sampleLast (argmax : ρ → ℤ) (multinomial : ρ → SamplingParams → Prog PyError ω ℤ)
    (logits : List ρ) (params : SamplingParams) : Prog PyError ω ℤ :=
  match logits.getLast? with
  | none => raise (.indexError "index -1 is out of bounds for dimension 0 with size 0")
  | some finalLogits =>
    if params.temperature < 0 then raise (.valueError "temperature must be non-negative")
    else if params.temperature = 0 then pure (argmax finalLogits)
    else multinomial finalLogits params

end Loop

end MoeInfinity.Engine.GenerationLoop
