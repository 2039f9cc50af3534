import MoeInfinity.Serving.ModelRunner

/-! # The continuous batching engine (`serving/engine.py`)

`step` schedules, runs the model on the batch, samples one token per sequence, appends it and hands
the sequences back to the scheduler; then it passes the outputs to the callbacks of their requests
and tells the eviction hook which requests have finished. Callbacks and the hook may raise; they do
not touch the engine. The sequence objects are those of the scheduler's store; `sequences` are the
keys of `_sequences`. `calls`, `delivered` and `evictions` are history variables: the calls of the
model made so far, the outputs passed to callbacks, and the requests the hook was told of. Log
probabilities are left out. -/

namespace MoeInfinity.Serving.Engine

open MoeInfinity.Python MoeInfinity.Lib.Imperative
open MoeInfinity.Serving.Sequence MoeInfinity.Serving.KvCache MoeInfinity.Serving.Schedule
open MoeInfinity.Serving.Batch MoeInfinity.Serving.ModelRunner

/-! ### State -/

structure Usage where
  promptTokens : ℕ
  completionTokens : ℕ
  totalTokens : ℕ
deriving DecidableEq, Repr

structure RequestOutput where
  requestId : String
  seqId : ℕ
  tokenId : ℕ
  tokenText : Option String
  finished : Bool
  finishReason : Option String
  usage : Option Usage
deriving DecidableEq, Repr

/-- A callback: what a call with an output does, after the outputs that were passed to callbacks
before. -/
abbrev Callback := List RequestOutput → RequestOutput → Except PyError Unit

structure ContinuousBatchingEngine (β : Type) where
  scheduler : Scheduler β
  nextSeqId : ℕ
  sequences : Finset ℕ
  sequenceToRequestId : ℕ → Option String
  requestToSeqIds : String → Option (List ℕ)
  requestOutputs : String → Option (ℕ → Option (List ℕ))
  callbacks : String → List Callback
  completedRequestIds : Finset String
  cancelledRequestIds : Finset String
  numSteps : ℕ
  totalGeneratedTokens : ℕ
  calls : List Call
  delivered : List RequestOutput
  evictions : List (EvictionEvent × String)

namespace ContinuousBatchingEngine

variable {β ρ : Type}

def new (scheduler : Scheduler β) : ContinuousBatchingEngine β :=
  ⟨scheduler, 0, ∅, fun _ => none, fun _ => none, fun _ => none, fun _ => [], ∅, ∅, 0,
    0, [], [], []⟩

/-- Run a method of the scheduler. -/
def onScheduler {α : Type} (m : Prog PyError (Scheduler β) α) :
    Prog PyError (ContinuousBatchingEngine β) α :=
  zoom scheduler (fun s e => { e with scheduler := s }) m

/-- Tell the eviction hook of a request. -/
def notifyEviction (env : Env ρ) (event : EvictionEvent) (requestId : String) :
    Prog PyError (ContinuousBatchingEngine β) Unit := do
  let e ← current
  update fun e => { e with evictions := e.evictions ++ [(event, requestId)] }
  ofExcept (env.evictionSync e.evictions event requestId)

/-- `self._callbacks.pop(request_id, None)`. -/
def popCallbacks (requestId : String) : Prog PyError (ContinuousBatchingEngine β) Unit :=
  update fun e => { e with callbacks := Function.update e.callbacks requestId [] }

/-! ### Adding and aborting requests -/

/-- The sequence objects that `add_request` makes. -/
def newSequences (firstId n : ℕ) (prompt : List ℕ) (params : SamplingParams) : List SequenceData :=
  (List.range n).map fun k =>
    { seqId := firstId + k, promptTokenIds := prompt, samplingParams := params }

def addRequest (requestId : String) (prompt : List ℕ) (params : SamplingParams) (n : ℕ)
    (onToken : Option Callback := none) : Prog PyError (ContinuousBatchingEngine β) Unit := do
  let e ← current
  if (e.requestToSeqIds requestId).isSome then
    raise (.valueError s!"request_id '{requestId}' already exists")
  else if n = 0 then raise (.valueError "n must be greater than 0")
  else
    let sequences := newSequences e.nextSeqId n prompt params
    let seqIds := sequences.map (·.seqId)
    update fun e => { e with
      nextSeqId := e.nextSeqId + n
      sequences := e.sequences ∪ seqIds.toFinset
      sequenceToRequestId := fun i =>
        if i ∈ seqIds then some requestId else e.sequenceToRequestId i
      requestToSeqIds := Function.update e.requestToSeqIds requestId (some seqIds)
      requestOutputs := Function.update e.requestOutputs requestId
        (some fun i => if i ∈ seqIds then some [] else none)
      callbacks := Function.update e.callbacks requestId (e.callbacks requestId ++ onToken.toList) }
    onScheduler (Scheduler.addRequest requestId sequences)

def abortRequest (env : Env ρ) (requestId : String) :
    Prog PyError (ContinuousBatchingEngine β) Unit := do
  let e ← current
  let seqIds := (e.requestToSeqIds requestId).getD []
  let wasPending := seqIds.any fun i => i ∈ e.sequences ∧ (e.scheduler.store i).Live
  onScheduler (Scheduler.abortRequest requestId)
  popCallbacks requestId
  if wasPending = false then pure ()
  else
    notifyEviction env .aborted requestId
    update fun e => { e with
      cancelledRequestIds := insert requestId e.cancelledRequestIds
      requestOutputs := Function.update e.requestOutputs requestId none
      requestToSeqIds := Function.update e.requestToSeqIds requestId none
      sequenceToRequestId := fun i => if i ∈ seqIds then none else e.sequenceToRequestId i
      sequences := e.sequences \ seqIds.toFinset }

def getRequestNOutputs (e : ContinuousBatchingEngine β) (requestId : String) :
    Except PyError (List (List ℕ)) :=
  match e.requestOutputs requestId with
  | none => .error (.keyError s!"unknown request_id '{requestId}'")
  | some outputs => ((e.requestToSeqIds requestId).getD []).mapM fun seqId =>
      match outputs seqId with
      | none => .error (.keyError s!"{seqId}")
      | some tokens => .ok tokens

/-! ### Steps -/

/-- `_get_finish_reason`. -/
def getFinishReason (env : Env ρ) (d : SequenceData) (tokenId : ℕ) : Option String :=
  if env.eosTokenId = some tokenId then some "stop"
  else if d.samplingParams.maxTokens ≤ d.outputTokenIds.length then some "length"
  else if d.samplingParams.stop = [] then none
  else
    match env.decodeTokens d.outputTokenIds with
    | none => none
    | some text => if d.samplingParams.stop.any (text.endsWith ·) then some "stop" else none

def buildUsage (d : SequenceData) : Usage :=
  ⟨d.promptLength, d.outputTokenIds.length, d.promptLength + d.outputTokenIds.length⟩

/-- `self._request_outputs[request_id][seq_id].append(token_id)`. -/
def recordOutput (requestId : String) (seqId tokenId : ℕ) :
    Prog PyError (ContinuousBatchingEngine β) Unit := do
  let e ← current
  match e.requestOutputs requestId with
  | none => raise (.keyError requestId)
  | some outputs =>
    match outputs seqId with
    | none => raise (.keyError s!"{seqId}")
    | some tokens => update fun e => { e with
        requestOutputs := Function.update e.requestOutputs requestId
          (some (Function.update outputs seqId (some (tokens ++ [tokenId])))) }

/-- One iteration of the loop of `step` over the sampled tokens. -/
def acceptToken (env : Env ρ) (seqId tokenId : ℕ) :
    Prog PyError (ContinuousBatchingEngine β) RequestOutput := do
  let e ← current
  if seqId ∉ e.sequences then raise (.keyError s!"{seqId}")
  else
    match e.sequenceToRequestId seqId with
    | none => raise (.keyError s!"{seqId}")
    | some requestId =>
      onScheduler (Scheduler.appendOutput seqId tokenId)
      recordOutput requestId seqId tokenId
      update fun e => { e with totalGeneratedTokens := e.totalGeneratedTokens + 1 }
      let e ← current
      let d := e.scheduler.store seqId
      let reason := getFinishReason env d tokenId
      return {
        requestId := requestId
        seqId := seqId
        tokenId := tokenId
        tokenText := env.decodeTokens [tokenId]
        finished := reason.isSome
        finishReason := reason
        usage := if reason.isSome then some (buildUsage d) else none }

/-- The loop of `step` over the batch. -/
def acceptTokens (env : Env ρ) :
    List (ℕ × ℕ) → Prog PyError (ContinuousBatchingEngine β) (List RequestOutput)
  | [] => pure []
  | (seqId, tokenId) :: rest => do
    let output ← acceptToken env seqId tokenId
    let outputs ← acceptTokens env rest
    return output :: outputs

/-- `_is_request_finished`. -/
def isRequestFinished (e : ContinuousBatchingEngine β) (requestId : String) : Bool :=
  match e.requestToSeqIds requestId with
  | none => false
  | some [] => false
  | some seqIds => seqIds.all fun i => i ∉ e.sequences ∨ (e.scheduler.store i).status = .finished

/-- `request_id in self._pending_request_ids()`. -/
def Pending (e : ContinuousBatchingEngine β) (requestId : String) : Prop :=
  ∃ seqIds, e.requestToSeqIds requestId = some seqIds ∧
    ∃ i ∈ seqIds, i ∈ e.sequences ∧ (e.scheduler.store i).Live

def HasPendingRequests (e : ContinuousBatchingEngine β) : Prop := ∃ requestId, e.Pending requestId

/-- Run the model on a batch, and choose the next token of each sequence. -/
def forwardAndSample (env : Env ρ) (b : BatchMetadata) :
    Prog PyError (ContinuousBatchingEngine β) (List ℕ) := do
  let e ← current
  update fun e => { e with calls := (executeBatch env e.calls b).1 }
  let logits ← ofExcept (executeBatch env e.calls b).2
  let last ← ofExcept (extractLastTokenLogits b.rows logits)
  let e ← current
  ofExcept (sample env e.calls last b.samplingParams)

/-- `step` up to the call of `update_after_step`: the outputs, if something was scheduled. -/
def stepTokens (env : Env ρ) (predict : Option (String → List ℕ → ℚ)) :
    Prog PyError (ContinuousBatchingEngine β) (Option (List RequestOutput)) := do
  let out ← onScheduler (Scheduler.schedule predict)
  if out.prefillSeqIds = [] ∧ out.decodeSeqIds = [] then return none
  else
    let e ← current
    let b ← ofExcept (fromSchedulerOutput out e.sequences e.scheduler.store e.scheduler.kvCache)
    if b.totalTokens = 0 then
      raise (.runtimeError "scheduler produced an empty batch; empty prompts are not supported")
    else
      let tokens ← forwardAndSample env b
      let outputs ← acceptTokens env (b.seqIds.zip tokens)
      return some outputs

/-- `completed_seq_ids` of `step`. -/
def completedSeqIds (outputs : List RequestOutput) : List ℕ :=
  (outputs.filter (·.finished)).map (·.seqId)

/-- `new_decode_seq_ids` of `step`. -/
def newDecodeSeqIds (outputs : List RequestOutput) : List ℕ :=
  (outputs.filter (!·.finished)).map (·.seqId)

/-- `finished_request_ids` of `step`. -/
def finishedRequestIds (e : ContinuousBatchingEngine β) (outputs : List RequestOutput) :
    List String :=
  (fromkeys (outputs.map (·.requestId))).filter (e.isRequestFinished ·)

/-- `callback(output)`. -/
def callCallback (output : RequestOutput) (callback : Callback) :
    Prog PyError (ContinuousBatchingEngine β) Unit := do
  let e ← current
  update fun e => { e with delivered := e.delivered ++ [output] }
  ofExcept (callback e.delivered output)

/-- The loop of `step` over the outputs and the callbacks of their requests. -/
def callCallbacks (outputs : List RequestOutput) : Prog PyError (ContinuousBatchingEngine β) Unit :=
  forEach (fun output => do
    let e ← current
    forEach (callCallback output) (e.callbacks output.requestId)) outputs

/-- The loop of `step` over the set of the finished requests. -/
def closeRequests (env : Env ρ) (requestIds : List String) :
    Prog PyError (ContinuousBatchingEngine β) Unit :=
  forEach (fun requestId => do
    notifyEviction env .completed requestId
    popCallbacks requestId) (requestIds.insertionSort fun a b => env.setRank a ≤ env.setRank b)

/-- `step` after `update_after_step`. -/
def announce (env : Env ρ) (outputs : List RequestOutput) :
    Prog PyError (ContinuousBatchingEngine β) Unit := do
  let e ← current
  let finished := finishedRequestIds e outputs
  update fun e => { e with completedRequestIds := e.completedRequestIds ∪ finished.toFinset }
  callCallbacks outputs
  closeRequests env finished

def step (env : Env ρ) (predict : Option (String → List ℕ → ℚ)) :
    Prog PyError (ContinuousBatchingEngine β) (List RequestOutput) := do
  match ← stepTokens env predict with
  | none => return []
  | some outputs =>
    onScheduler (Scheduler.updateAfterStep (completedSeqIds outputs) (newDecodeSeqIds outputs))
    update fun e => { e with numSteps := e.numSteps + 1 }
    announce env outputs
    return outputs

end ContinuousBatchingEngine

end MoeInfinity.Serving.Engine
