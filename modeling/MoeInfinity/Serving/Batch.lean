import MoeInfinity.Serving.Schedule

/-! # Batches (`serving/batch.py`)

`BatchMetadata` packs the tokens of several sequences into one list and keeps their lengths and
offsets beside it; `__post_init__` refuses lists that do not fit together. The model keeps one row
per sequence, from which the packed lists are computed, so that only consistent metadata can be
written down. -/

namespace MoeInfinity.Serving.Batch

open MoeInfinity.Python MoeInfinity.Lib.Imperative
open MoeInfinity.Serving.Sequence MoeInfinity.Serving.KvCache MoeInfinity.Serving.Schedule

/-- The entries of the metadata for one sequence. -/
structure BatchRow where
  seqId : ℕ
  tokens : List ℕ
  contextLength : ℕ
  isPrefill : Bool
  blockTable : List ℕ
  samplingParams : SamplingParams
deriving DecidableEq, Repr

structure BatchMetadata where
  rows : List BatchRow
deriving DecidableEq, Repr

namespace BatchMetadata

def seqIds (b : BatchMetadata) : List ℕ := b.rows.map (·.seqId)

def inputTokenIds (b : BatchMetadata) : List ℕ := b.rows.flatMap (·.tokens)

def seqLengths (b : BatchMetadata) : List ℕ := b.rows.map (·.tokens.length)

def samplingParams (b : BatchMetadata) : List SamplingParams := b.rows.map (·.samplingParams)

def totalTokens (b : BatchMetadata) : ℕ := b.inputTokenIds.length

end BatchMetadata

/-! ### Building a batch -/

variable {β : Type}

/-- `sequences[seq_id]`, for the keys of the engine's `_sequences`. -/
def lookupSequence (keys : Finset ℕ) (store : ℕ → SequenceData) (seqId : ℕ) :
    Except PyError SequenceData :=
  if seqId ∈ keys then .ok (store seqId) else .error (.keyError s!"{seqId}")

/-- `kv_cache.get_block_table(seq_id)`. -/
def blockTableOf (kvCache : PagedKVCache β) (seqId : ℕ) : Except PyError (List ℕ) :=
  match kvCache.sequenceTables seqId with
  | none => .error (.keyError s!"unknown sequence id: {seqId}")
  | some t => .ok t.blockIds

/-- The row of a sequence in its prefill step: the prompt tokens that are not computed yet. -/
def prefillRow (keys : Finset ℕ) (store : ℕ → SequenceData) (kvCache : PagedKVCache β) (seqId : ℕ) :
    Except PyError BatchRow := do
  let sequence ← lookupSequence keys store seqId
  let table ← blockTableOf kvCache seqId
  return ⟨seqId, sequence.promptTokenIds.drop sequence.numComputedTokens,
    sequence.numComputedTokens, true, table, sequence.samplingParams⟩

/-- The row of a sequence in a decode step: its last token, at the number of computed tokens. -/
def decodeRow (keys : Finset ℕ) (store : ℕ → SequenceData) (kvCache : PagedKVCache β) (seqId : ℕ) :
    Except PyError BatchRow := do
  let sequence ← lookupSequence keys store seqId
  let table ← blockTableOf kvCache seqId
  return ⟨seqId, sequence.totalTokenIds.drop (sequence.totalTokenIds.length - 1),
    sequence.numComputedTokens, false, table, sequence.samplingParams⟩

/-- `BatchBuilder.from_scheduler_output`. -/
def fromSchedulerOutput (out : SchedulerOutput) (keys : Finset ℕ) (store : ℕ → SequenceData)
    (kvCache : PagedKVCache β) : Except PyError BatchMetadata := do
  let prefill ← out.prefillSeqIds.mapM (prefillRow keys store kvCache)
  let decode ← out.decodeSeqIds.mapM (decodeRow keys store kvCache)
  return ⟨prefill ++ decode⟩

/-! ### Splitting a batch -/

/-- `_slice_batch`, at the prefill or at the decode indices. -/
def sliceBatch (b : BatchMetadata) (prefill : Bool) : BatchMetadata :=
  ⟨b.rows.filter (·.isPrefill = prefill)⟩

/-- The loop of `SplitBatchMetadata.recombine_outputs`: each row takes its outputs from the stream
of its kind. -/
def recombineOutputs {ρ : Type} : List BatchRow → List ρ → List ρ → List ρ
  | [], _, _ => []
  | r :: rows, prefill, decode =>
    if r.isPrefill then
      prefill.take r.tokens.length ++
        recombineOutputs rows (prefill.drop r.tokens.length) decode
    else
      decode.take r.tokens.length ++
        recombineOutputs rows prefill (decode.drop r.tokens.length)

end MoeInfinity.Serving.Batch
