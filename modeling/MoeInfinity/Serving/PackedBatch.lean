import MoeInfinity.Lib.Packed
import MoeInfinity.Serving.Batch

/-! # Packed metadata and its two halves (`serving/batch.py`)

Here `BatchMetadata` has the fields of the source: the packed tokens, the offsets, and one list for
each entry of a sequence. An object of the type has passed the checks of `__post_init__`.

* `rows`: the entries sequence by sequence; `pack` is the metadata with given rows. Metadata that
  passes the checks is `pack` of its rows (`eq_pack`), and so `sliceBatch` returns the `pack` of the
  chosen rows (`sliceBatch_eq`).
* `recombineOutputs` walks over the sequences with one cursor in each of the two outputs; `Filled`
  is what it has written when the cursors stand after the first sequences.

Lengths are natural numbers, as the builder computes them. -/

namespace MoeInfinity.Serving.PackedBatch

open MoeInfinity.Python MoeInfinity.Lib.Imperative MoeInfinity.Lib.Packed
open MoeInfinity.Serving.Sequence
open MoeInfinity.Serving.Batch (BatchRow)

/-! ### The metadata -/

/-- The arguments of `BatchMetadata`. -/
structure BatchFields where
  seqIds : List ℕ
  inputTokenIds : List ℕ
  seqLengths : List ℕ
  contextLengths : List ℕ
  isPrefill : List Bool
  blockTables : List (List ℕ)
  tokenOffsets : List ℕ
  samplingParams : List SamplingParams
deriving DecidableEq, Repr

/-- `xs[i]`. -/
def item {α : Type} (xs : List α) (i : ℕ) : Except PyError α :=
  match xs[i]? with
  | some x => .ok x
  | none => .error (.indexError "list index out of range")

namespace BatchFields

/-- The loop over the fields whose lengths are checked. -/
def checkLengths (expected : ℕ) : List (String × ℕ) → Except PyError Unit
  | [] => .ok ()
  | (fieldName, n) :: rest =>
    if n ≠ expected then
      .error (.valueError s!"{fieldName} must have length {expected}, got {n}")
    else checkLengths expected rest

/-- The loop over `seq_lengths`, from the index `idx`; it returns `running_total`. -/
def cumulativeSum (tokenOffsets : List ℕ) : ℕ → ℕ → List ℕ → Except PyError ℕ
  | _, runningTotal, [] => .ok runningTotal
  | idx, runningTotal, length :: rest => do
    let offset ← item tokenOffsets (idx + 1)
    if offset ≠ runningTotal + length then
      throw (.valueError "token_offsets must be a cumulative sum of seq_lengths")
    cumulativeSum tokenOffsets (idx + 1) (runningTotal + length) rest

/-- `BatchMetadata.__post_init__`. -/
def postInit (f : BatchFields) : Except PyError Unit := do
  let expected := f.seqIds.length
  checkLengths expected [("seq_lengths", f.seqLengths.length),
    ("context_lengths", f.contextLengths.length), ("is_prefill", f.isPrefill.length),
    ("block_tables", f.blockTables.length), ("sampling_params", f.samplingParams.length)]
  if f.tokenOffsets.length ≠ expected + 1 then
    throw (.valueError
      s!"token_offsets must have length {expected + 1}, got {f.tokenOffsets.length}")
  if f.tokenOffsets.take 1 ≠ [0] then
    throw (.valueError "token_offsets must start at 0")
  let runningTotal ← cumulativeSum f.tokenOffsets 0 0 f.seqLengths
  if runningTotal ≠ f.inputTokenIds.length then
    throw (.valueError "seq_lengths must sum to the number of packed input tokens")

/-- The entries of the sequence `k`, its tokens cut out by the offsets. -/
def row (f : BatchFields) (k : ℕ) : Option BatchRow := do
  let seqId ← f.seqIds[k]?
  let start ← f.tokenOffsets[k]?
  let stop ← f.tokenOffsets[k + 1]?
  let contextLength ← f.contextLengths[k]?
  let isPrefill ← f.isPrefill[k]?
  let blockTable ← f.blockTables[k]?
  let params ← f.samplingParams[k]?
  return ⟨seqId, slice f.inputTokenIds start stop, contextLength, isPrefill, blockTable, params⟩

def rows (f : BatchFields) : List BatchRow := (List.range f.seqIds.length).filterMap f.row

end BatchFields

/-- The metadata with the given rows. -/
def pack (rs : List BatchRow) : BatchFields where
  seqIds := rs.map (·.seqId)
  inputTokenIds := (rs.map (·.tokens)).flatten
  seqLengths := rs.map (·.tokens.length)
  contextLengths := rs.map (·.contextLength)
  isPrefill := rs.map (·.isPrefill)
  blockTables := rs.map (·.blockTable)
  tokenOffsets := offsets 0 (rs.map (·.tokens.length))
  samplingParams := rs.map (·.samplingParams)

/-- A `BatchMetadata` object: its fields have passed the checks. -/
structure BatchMetadata extends BatchFields where
  valid : toBatchFields.postInit = .ok ()

/-- `BatchMetadata(...)`. -/
def BatchMetadata.make (f : BatchFields) : Except PyError BatchMetadata :=
  match h : f.postInit with
  | .ok () => .ok ⟨f, h⟩
  | .error e => .error e

def BatchMetadata.totalTokens (b : BatchMetadata) : ℕ := b.inputTokenIds.length

/-! ### The two halves -/

/-- The loop of `_slice_batch` over the tokens, with the lists it extends. -/
def sliceTokens (b : BatchMetadata) : List ℕ → List ℕ → List ℕ →
    Except PyError (List ℕ × List ℕ)
  | [], inputTokenIds, tokenOffsets => .ok (inputTokenIds, tokenOffsets)
  | i :: rest, inputTokenIds, tokenOffsets => do
    let start ← item b.tokenOffsets i
    let stop ← item b.tokenOffsets (i + 1)
    let tokens := slice b.inputTokenIds start stop
    sliceTokens b rest (inputTokenIds ++ tokens)
      (tokenOffsets ++ [tokenOffsets.getLastD 0 + tokens.length])

/-- `_slice_batch`. -/
def sliceBatch (b : BatchMetadata) (seqIndices : List ℕ) : Except PyError BatchMetadata := do
  if seqIndices = [] then
    throw (.valueError "seq_indices must not be empty")
  let seqIds ← seqIndices.mapM (item b.seqIds)
  let seqLengths ← seqIndices.mapM (item b.seqLengths)
  let contextLengths ← seqIndices.mapM (item b.contextLengths)
  let isPrefill ← seqIndices.mapM (item b.isPrefill)
  let blockTables ← seqIndices.mapM (item b.blockTables)
  let samplingParams ← seqIndices.mapM (item b.samplingParams)
  let (inputTokenIds, tokenOffsets) ← sliceTokens b seqIndices [] [0]
  BatchMetadata.make ⟨seqIds, inputTokenIds, seqLengths, contextLengths, isPrefill, blockTables,
    tokenOffsets, samplingParams⟩

structure SplitBatchMetadata where
  originalBatch : BatchMetadata
  prefillBatch : Option BatchMetadata
  decodeBatch : Option BatchMetadata
  prefillIndices : List ℕ
  decodeIndices : List ℕ

/-- The indices of the sequences of one kind, from the index `idx`. -/
def kindIndices (kind : Bool) : ℕ → List Bool → List ℕ
  | _, [] => []
  | idx, isPrefill :: rest =>
    if isPrefill = kind then idx :: kindIndices kind (idx + 1) rest
    else kindIndices kind (idx + 1) rest

/-- `_slice_batch(batch, indices) if indices else None`. -/
def sliceNonempty (b : BatchMetadata) (seqIndices : List ℕ) :
    Except PyError (Option BatchMetadata) :=
  if seqIndices = [] then .ok none
  else do
    let sub ← sliceBatch b seqIndices
    return some sub

/-- `split_prefill_decode_batch`. -/
def splitPrefillDecodeBatch (b : BatchMetadata) : Except PyError SplitBatchMetadata := do
  let prefillIndices := kindIndices true 0 b.isPrefill
  let decodeIndices := kindIndices false 0 b.isPrefill
  let prefillBatch ← sliceNonempty b prefillIndices
  let decodeBatch ← sliceNonempty b decodeIndices
  return ⟨b, prefillBatch, decodeBatch, prefillIndices, decodeIndices⟩

/-! ### Putting the outputs together -/

variable {ρ : Type}

/-- The checks of the outputs of one half. -/
def checkOutputs (kind : String) : Option BatchMetadata → Option (List ρ) → Except PyError Unit
  | some _, none => .error (.valueError s!"{kind}_outputs is required")
  | some b, some rows =>
    if rows.length ≠ b.totalTokens then
      .error (.valueError s!"{kind}_outputs row count must match {kind}_batch.total_tokens")
    else .ok ()
  | none, some rows =>
    if rows.length ≠ 0 then .error (.valueError s!"{kind}_outputs must be None or empty")
    else .ok ()
  | none, none => .ok ()

/-- `result[start:stop] = rows`; a single row is broadcast. A row that has not been written is
`none`. -/
def assignRows (result : List (Option ρ)) (start stop : ℕ) (rows : List ρ) :
    Except PyError (List (Option ρ)) :=
  match rows with
  | [r] => .ok (assign result start (List.replicate (stop - start) (some r)))
  | rows =>
    if rows.length = stop - start then .ok (assign result start (rows.map some))
    else .error (.runtimeError "shape mismatch")

/-- The loop of `recombine_outputs` over the sequences, with its two cursors. -/
def recombineLoop (b : BatchMetadata) (prefillOutputs decodeOutputs : Option (List ρ)) :
    List ℕ → ℕ → ℕ → List (Option ρ) → Except PyError (List (Option ρ))
  | [], _, _, result => .ok result
  | seqIdx :: rest, prefillCursor, decodeCursor, result => do
    let seqStart ← item b.tokenOffsets seqIdx
    let seqEnd ← item b.tokenOffsets (seqIdx + 1)
    let seqLen := seqEnd - seqStart
    if seqLen = 0 then
      recombineLoop b prefillOutputs decodeOutputs rest prefillCursor decodeCursor result
    else
      let isPrefill ← item b.isPrefill seqIdx
      if isPrefill then
        match prefillOutputs with
        | none => throw (.valueError "prefill_outputs is required")
        | some rows =>
          let sourceEnd := prefillCursor + seqLen
          let result ← assignRows result seqStart seqEnd (slice rows prefillCursor sourceEnd)
          recombineLoop b prefillOutputs decodeOutputs rest sourceEnd decodeCursor result
      else
        match decodeOutputs with
        | none => throw (.valueError "decode_outputs is required")
        | some rows =>
          let sourceEnd := decodeCursor + seqLen
          let result ← assignRows result seqStart seqEnd (slice rows decodeCursor sourceEnd)
          recombineLoop b prefillOutputs decodeOutputs rest prefillCursor sourceEnd result

/-- `SplitBatchMetadata.recombine_outputs`: the result starts as an uninitialised tensor. -/
def SplitBatchMetadata.recombineOutputs (s : SplitBatchMetadata)
    (prefillOutputs decodeOutputs : Option (List ρ)) : Except PyError (List (Option ρ)) := do
  checkOutputs "prefill" s.prefillBatch prefillOutputs
  checkOutputs "decode" s.decodeBatch decodeOutputs
  match prefillOutputs <|> decodeOutputs with
  | none => return []
  | some _ =>
    recombineLoop s.originalBatch prefillOutputs decodeOutputs
      (List.range s.originalBatch.seqIds.length) 0 0
      (List.replicate s.originalBatch.totalTokens none)

/-! ### What the checks say -/

theorem item_eq_ok {α : Type} {xs : List α} {i : ℕ} {x : α} :
    item xs i = .ok x ↔ xs[i]? = some x := by
  unfold item
  cases xs[i]? with
  | none => simp
  | some y => simp

namespace BatchFields

theorem checkLengths_eq_ok {expected : ℕ} {fields : List (String × ℕ)} :
    checkLengths expected fields = .ok () ↔ ∀ p ∈ fields, p.2 = expected := by
  induction fields with
  | nil => simp [checkLengths]
  | cons p rest ih =>
    obtain ⟨fieldName, n⟩ := p
    by_cases h : n = expected
    · simp [checkLengths, h, ih]
    · simp [checkLengths, h]

theorem cumulativeSum_eq_ok {os : List ℕ} {idx total t : ℕ} {ls : List ℕ} :
    cumulativeSum os idx total ls = .ok t ↔ t = total + ls.sum ∧
      ∀ k < ls.length, os[idx + 1 + k]? = some (total + (ls.take (k + 1)).sum) := by
  induction ls generalizing idx total with
  | nil => simp [cumulativeSum, eq_comm]
  | cons l ls ih =>
    have hstep : cumulativeSum os idx total (l :: ls) = .ok t ↔ os[idx + 1]? = some (total + l) ∧
        cumulativeSum os (idx + 1) (total + l) ls = .ok t := by
      rw [cumulativeSum]
      constructor
      · intro h
        obtain ⟨offset, hitem, h⟩ := ok_of_bind h
        by_cases hne : offset = total + l
        · rw [if_neg (not_not.mpr hne)] at h
          exact ⟨by rw [← hne]; exact item_eq_ok.mp hitem, h⟩
        · rw [if_pos hne] at h
          cases h
      · rintro ⟨hitem, h⟩
        rw [item_eq_ok.mpr hitem, ok_bind, if_neg (not_not.mpr rfl)]
        exact h
    rw [hstep, ih]
    constructor
    · rintro ⟨h0, ht, h⟩
      refine ⟨by rw [ht, List.sum_cons]; omega, fun k hk => ?_⟩
      rcases k with _ | k
      · simpa using h0
      · have := h k (by simpa using hk)
        rw [show idx + 1 + (k + 1) = idx + 1 + 1 + k by omega, this, List.take_succ_cons,
          List.sum_cons]
        congr 1
        omega
    · rintro ⟨ht, h⟩
      refine ⟨by simpa using h 0 (by simp), by rw [ht, List.sum_cons]; omega, fun k hk => ?_⟩
      have := h (k + 1) (by simpa using hk)
      rw [show idx + 1 + 1 + k = idx + 1 + (k + 1) by omega, this, List.take_succ_cons,
        List.sum_cons]
      congr 1
      omega

/-- What the checks of `__post_init__` say. -/
structure Fits (f : BatchFields) : Prop where
  seqLengths : f.seqLengths.length = f.seqIds.length
  contextLengths : f.contextLengths.length = f.seqIds.length
  isPrefill : f.isPrefill.length = f.seqIds.length
  blockTables : f.blockTables.length = f.seqIds.length
  samplingParams : f.samplingParams.length = f.seqIds.length
  tokenOffsets : f.tokenOffsets = offsets 0 f.seqLengths
  sum : f.seqLengths.sum = f.inputTokenIds.length

/-- **The checks** accept exactly the fields that fit together. -/
theorem postInit_eq_ok {f : BatchFields} : f.postInit = .ok () ↔ Fits f := by
  unfold postInit
  constructor
  · intro h
    obtain ⟨_, hlen, h⟩ := ok_of_bind h
    have hlen := checkLengths_eq_ok.mp hlen
    simp only [List.mem_cons, List.not_mem_nil, or_false, forall_eq_or_imp, forall_eq] at hlen
    obtain ⟨h1, h2, h3, h4, h5⟩ := hlen
    by_cases ho : f.tokenOffsets.length = f.seqIds.length + 1
    swap
    · rw [if_pos ho] at h; cases h
    rw [if_neg (not_not.mpr ho)] at h
    by_cases hz : f.tokenOffsets.take 1 = [0]
    swap
    · simp only [hz, ne_eq, not_false_eq_true, if_true] at h; cases h
    simp only [hz, ne_eq, not_true_eq_false, if_false] at h
    obtain ⟨total, hcum, h⟩ := ok_of_bind h
    obtain ⟨rfl, hos⟩ := cumulativeSum_eq_ok.mp hcum
    have hsum : f.seqLengths.sum = f.inputTokenIds.length := by
      by_contra hne
      simp [hne] at h
    refine ⟨h1, h2, h3, h4, h5, eq_offsets (by omega) fun k hk => ?_, hsum⟩
    rcases k with _ | k
    · have : (f.tokenOffsets.take 1)[0]? = some 0 := by rw [hz]; rfl
      simpa using this
    · simpa [Nat.add_comm] using hos k (by omega)
  · intro h
    have hlen : f.tokenOffsets.length = f.seqIds.length + 1 := by
      rw [h.tokenOffsets, length_offsets, h.seqLengths]
    have hz : f.tokenOffsets.take 1 = [0] := by
      rw [h.tokenOffsets]
      cases f.seqLengths <;> rfl
    have hcum : cumulativeSum f.tokenOffsets 0 0 f.seqLengths = .ok f.seqLengths.sum := by
      refine cumulativeSum_eq_ok.mpr ⟨by omega, fun k hk => ?_⟩
      rw [h.tokenOffsets, Nat.add_comm, getElem?_offsets _ _ (by omega)]
    have hcheck : checkLengths f.seqIds.length [("seq_lengths", f.seqLengths.length),
        ("context_lengths", f.contextLengths.length), ("is_prefill", f.isPrefill.length),
        ("block_tables", f.blockTables.length), ("sampling_params", f.samplingParams.length)] =
        .ok () := by
      rw [checkLengths_eq_ok]
      simp [h.seqLengths, h.contextLengths, h.isPrefill, h.blockTables, h.samplingParams]
    simp only [hcheck, ok_bind, hlen, hz, hcum, h.sum, ne_eq, not_true_eq_false, if_false]
    rfl

end BatchFields

/-! ### Rows -/

theorem fits_pack (rs : List BatchRow) : BatchFields.Fits (pack rs) where
  seqLengths := by simp [pack]
  contextLengths := by simp [pack]
  isPrefill := by simp [pack]
  blockTables := by simp [pack]
  samplingParams := by simp [pack]
  tokenOffsets := rfl
  sum := by simp [pack, List.length_flatten, Function.comp_def]

/-- The metadata with given rows, as an object. -/
def ofRows (rs : List BatchRow) : BatchMetadata :=
  ⟨pack rs, BatchFields.postInit_eq_ok.mpr (fits_pack rs)⟩

theorem tokenOffsets_pack {rs : List BatchRow} {k : ℕ} (hk : k ≤ rs.length) :
    (pack rs).tokenOffsets[k]? = some (((rs.map (·.tokens.length)).take k).sum) := by
  have := getElem?_offsets 0 (rs.map (·.tokens.length)) (k := k) (by simpa using hk)
  simpa [pack] using this

theorem slice_pack {rs : List BatchRow} {k : ℕ} {r : BatchRow} (h : rs[k]? = some r) :
    slice (pack rs).inputTokenIds ((rs.map (·.tokens.length)).take k).sum
      ((rs.map (·.tokens.length)).take (k + 1)).sum = r.tokens := by
  have hk : (rs.map (·.tokens))[k]? = some r.tokens := by simp [h]
  simpa [pack, Function.comp_def] using slice_flatten hk

theorem row_pack (rs : List BatchRow) (k : ℕ) : (pack rs).row k = rs[k]? := by
  cases h : rs[k]? with
  | none => simp [BatchFields.row, pack, h]
  | some r =>
    have hk : k < rs.length := (List.getElem?_eq_some_iff.mp h).1
    have h0 := tokenOffsets_pack (show k ≤ rs.length by omega)
    have h1 := tokenOffsets_pack (show k + 1 ≤ rs.length by omega)
    have h2 := slice_pack h
    unfold BatchFields.row
    rw [h0, h1]
    simp only [Option.bind_eq_bind, Option.bind_some, h2]
    simp [pack, h]

theorem rows_pack (rs : List BatchRow) : (pack rs).rows = rs := by
  unfold BatchFields.rows
  rw [funext (row_pack rs), show (pack rs).seqIds.length = rs.length by simp [pack]]
  exact filterMap_range_getElem? rs

namespace BatchFields

/-- Every index below the number of sequences has a row, and its entries are those of the lists. -/
theorem Fits.row {f : BatchFields} (h : Fits f) {k : ℕ} (hk : k < f.seqIds.length) :
    ∃ r, f.row k = some r ∧ f.seqIds[k]? = some r.seqId ∧
      f.contextLengths[k]? = some r.contextLength ∧ f.isPrefill[k]? = some r.isPrefill ∧
      f.blockTables[k]? = some r.blockTable ∧ f.samplingParams[k]? = some r.samplingParams ∧
      (f.seqLengths.splitLengths f.inputTokenIds)[k]? = some r.tokens := by
  have h0 := getElem?_offsets 0 f.seqLengths (k := k) (by rw [h.seqLengths]; omega)
  have h1 := getElem?_offsets 0 f.seqLengths (k := k + 1) (by rw [h.seqLengths]; omega)
  rw [← h.tokenOffsets, Nat.zero_add] at h0 h1
  have h2 := List.getElem?_eq_getElem hk
  have h3 :=
    List.getElem?_eq_getElem (show k < f.contextLengths.length by rw [h.contextLengths]; exact hk)
  have h4 := List.getElem?_eq_getElem (show k < f.isPrefill.length by rw [h.isPrefill]; exact hk)
  have h5 :=
    List.getElem?_eq_getElem (show k < f.blockTables.length by rw [h.blockTables]; exact hk)
  have h6 := List.getElem?_eq_getElem
    (show k < f.samplingParams.length by rw [h.samplingParams]; exact hk)
  have h7 := getElem?_splitLengths f.seqLengths f.inputTokenIds (k := k)
    (by rw [h.seqLengths]; exact hk)
  refine ⟨⟨_, _, _, _, _, _⟩, ?_, h2, h3, h4, h5, h6, h7⟩
  unfold BatchFields.row
  rw [h0, h1, h2, h3, h4, h5, h6]
  rfl

theorem Fits.getElem?_rows {f : BatchFields} (h : Fits f) (k : ℕ) :
    f.rows[k]? = if k < f.seqIds.length then f.row k else none :=
  getElem?_filterMap_range (fun k hk => by
    obtain ⟨r, hr, -⟩ := h.row hk
    rw [hr]
    rfl) k

/-- A list that agrees with one entry of every row is the list of these entries. -/
theorem Fits.column {f : BatchFields} (h : Fits f) {α : Type} {xs : List α} {g : BatchRow → α}
    (hlen : xs.length = f.seqIds.length)
    (hg : ∀ k < f.seqIds.length, ∀ r, f.row k = some r → xs[k]? = some (g r)) :
    f.rows.map g = xs := by
  refine List.ext_getElem? fun k => ?_
  rw [List.getElem?_map, h.getElem?_rows]
  split
  · next hk =>
    obtain ⟨r, hr, -⟩ := h.row hk
    rw [hr, hg k hk r hr]
    rfl
  · next hk =>
    rw [List.getElem?_eq_none (by omega)]
    rfl

/-- **Metadata that passes the checks** is packed from its rows. -/
theorem Fits.eq_pack {f : BatchFields} (h : Fits f) : f = pack f.rows := by
  have hsplit : f.rows.map (·.tokens) = f.seqLengths.splitLengths f.inputTokenIds :=
    h.column (by rw [List.length_splitLengths, h.seqLengths]) fun k hk r hr => by
      obtain ⟨r', hr', -, -, -, -, -, ht⟩ := h.row hk
      rw [hr, Option.some.injEq] at hr'
      rw [hr', ht]
  have hlens : f.rows.map (·.tokens.length) = f.seqLengths := by
    rw [← List.map_splitLengths_length f.inputTokenIds f.seqLengths h.sum.le,
      ← hsplit, List.map_map]
    rfl
  have hids : f.rows.map (·.seqId) = f.seqIds := h.column rfl fun k hk r hr => by
    obtain ⟨r', hr', hx, -⟩ := h.row hk
    rw [hr, Option.some.injEq] at hr'
    rw [hr', hx]
  have hctx : f.rows.map (·.contextLength) = f.contextLengths :=
    h.column h.contextLengths fun k hk r hr => by
      obtain ⟨r', hr', -, hx, -⟩ := h.row hk
      rw [hr, Option.some.injEq] at hr'
      rw [hr', hx]
  have hkind : f.rows.map (·.isPrefill) = f.isPrefill := h.column h.isPrefill fun k hk r hr => by
    obtain ⟨r', hr', -, -, hx, -⟩ := h.row hk
    rw [hr, Option.some.injEq] at hr'
    rw [hr', hx]
  have htab : f.rows.map (·.blockTable) = f.blockTables := h.column h.blockTables
      fun k hk r hr => by
    obtain ⟨r', hr', -, -, -, hx, -⟩ := h.row hk
    rw [hr, Option.some.injEq] at hr'
    rw [hr', hx]
  have hparams : f.rows.map (·.samplingParams) = f.samplingParams :=
    h.column h.samplingParams fun k hk r hr => by
      obtain ⟨r', hr', -, -, -, -, hx, -⟩ := h.row hk
      rw [hr, Option.some.injEq] at hr'
      rw [hr', hx]
  unfold pack
  rw [hids, hctx, hkind, htab, hparams, hlens, hsplit, List.flatten_splitLengths _ _ h.sum.ge,
    ← h.tokenOffsets]

end BatchFields

theorem BatchMetadata.fits (b : BatchMetadata) : BatchFields.Fits b.toBatchFields :=
  BatchFields.postInit_eq_ok.mp b.valid

theorem BatchMetadata.eq_ofRows (b : BatchMetadata) : b = ofRows b.rows := by
  have h := b.fits.eq_pack
  obtain ⟨f, hf⟩ := b
  simp only [ofRows, BatchMetadata.mk.injEq]
  exact h

/-! ### Slices of the metadata -/

/-- The rows at the given indices. -/
def picked (rs : List BatchRow) (seqIndices : List ℕ) : List BatchRow :=
  seqIndices.filterMap fun i => rs[i]?

theorem mapM_item {rs : List BatchRow} {α : Type} (g : BatchRow → α) {is : List ℕ}
    (h : ∀ i ∈ is, i < rs.length) : is.mapM (item (rs.map g)) = .ok ((picked rs is).map g) := by
  induction is with
  | nil => rfl
  | cons i is ih =>
    have hlt := h i List.mem_cons_self
    have hi := List.getElem?_eq_getElem hlt
    have hitem : item (rs.map g) i = .ok (g rs[i]) := by
      rw [item_eq_ok, List.getElem?_map, hi]
      rfl
    rw [List.mapM_cons, hitem, ok_bind, ih fun j hj => h j (List.mem_cons_of_mem i hj), ok_bind]
    simp only [picked, List.filterMap_cons, hi]
    rfl

/-- The tokens and offsets that the loop adds, behind offsets that end in `last`. -/
theorem sliceTokens_ofRows {rs : List BatchRow} {is : List ℕ} (h : ∀ i ∈ is, i < rs.length)
    (tokens os : List ℕ) (last : ℕ) :
    sliceTokens (ofRows rs) is tokens (os ++ [last]) =
      .ok (tokens ++ ((picked rs is).map (·.tokens)).flatten,
        os ++ offsets last ((picked rs is).map (·.tokens.length))) := by
  induction is generalizing tokens os last with
  | nil => simp [sliceTokens, picked, offsets]
  | cons i is ih =>
    have hlt := h i List.mem_cons_self
    have hi := List.getElem?_eq_getElem hlt
    have h0 : item (ofRows rs).tokenOffsets i = .ok _ :=
      item_eq_ok.mpr (tokenOffsets_pack (show i ≤ rs.length by omega))
    have h1 : item (ofRows rs).tokenOffsets (i + 1) = .ok _ :=
      item_eq_ok.mpr (tokenOffsets_pack (show i + 1 ≤ rs.length by omega))
    have h2 : slice (ofRows rs).inputTokenIds ((rs.map (·.tokens.length)).take i).sum
      ((rs.map (·.tokens.length)).take (i + 1)).sum = rs[i].tokens := slice_pack hi
    rw [sliceTokens, h0, ok_bind, h1, ok_bind]
    simp only [h2, List.getLastD_concat]
    rw [ih (fun j hj => h j (List.mem_cons_of_mem i hj))]
    simp [picked, hi, offsets]

theorem make_eq_ok {f : BatchFields} (h : f.postInit = .ok ()) :
    BatchMetadata.make f = .ok ⟨f, h⟩ := by
  unfold BatchMetadata.make
  split
  · rfl
  · next e he => rw [he] at h; cases h

/-- **`_slice_batch`** returns the metadata of the rows at its indices; its checks pass. -/
theorem sliceBatch_ofRows {rs : List BatchRow} {is : List ℕ} (hne : is ≠ [])
    (h : ∀ i ∈ is, i < rs.length) : sliceBatch (ofRows rs) is = .ok (ofRows (picked rs is)) := by
  have htok := sliceTokens_ofRows h [] [] 0
  simp only [List.nil_append] at htok
  unfold sliceBatch
  rw [if_neg hne]
  have h1 : is.mapM (item (ofRows rs).seqIds) = _ := mapM_item (·.seqId) h
  have h2 : is.mapM (item (ofRows rs).seqLengths) = _ := mapM_item (·.tokens.length) h
  have h3 : is.mapM (item (ofRows rs).contextLengths) = _ := mapM_item (·.contextLength) h
  have h4 : is.mapM (item (ofRows rs).isPrefill) = _ := mapM_item (·.isPrefill) h
  have h5 : is.mapM (item (ofRows rs).blockTables) = _ := mapM_item (·.blockTable) h
  have h6 : is.mapM (item (ofRows rs).samplingParams) = _ := mapM_item (·.samplingParams) h
  rw [h1, ok_bind, h2, ok_bind, h3, ok_bind, h4, ok_bind, h5, ok_bind, h6, ok_bind, htok, ok_bind]
  exact make_eq_ok (ofRows (picked rs is)).valid

/-- The indices of one kind, counted from the end of `done`, pick the rows of this kind. -/
theorem picked_kindIndices (kind : Bool) (done todo : List BatchRow) :
    (∀ i ∈ kindIndices kind done.length (todo.map (·.isPrefill)), i < (done ++ todo).length) ∧
      picked (done ++ todo) (kindIndices kind done.length (todo.map (·.isPrefill))) =
        todo.filter (·.isPrefill = kind) := by
  induction todo generalizing done with
  | nil => simp [kindIndices, picked]
  | cons r todo ih =>
    obtain ⟨hlt, hpick⟩ := ih (done ++ [r])
    have happ : done ++ [r] ++ todo = done ++ r :: todo := by simp
    rw [happ] at hlt hpick
    rw [show (done ++ [r]).length = done.length + 1 by simp] at hlt hpick
    rw [List.map_cons, kindIndices]
    have hget : (done ++ r :: todo)[done.length]? = some r := by simp
    split
    · next hk =>
      refine ⟨fun i hi => ?_, ?_⟩
      · rcases List.mem_cons.mp hi with rfl | hi
        · simp
        · exact hlt i hi
      · rw [picked, List.filterMap_cons, hget]
        simp only [List.filter_cons, hk, decide_true, if_true]
        exact congrArg (r :: ·) hpick
    · next hk =>
      refine ⟨hlt, ?_⟩
      simp only [List.filter_cons, hk, decide_false, Bool.false_eq_true, if_false]
      exact hpick

/-- The metadata of the rows of one kind, if there are any. -/
def half (rs : List BatchRow) (kind : Bool) : Option BatchMetadata :=
  if rs.filter (·.isPrefill = kind) = [] then
    none else some (ofRows (rs.filter (·.isPrefill = kind)))

theorem sliceNonempty_ofRows (rs : List BatchRow) (kind : Bool) :
    sliceNonempty (ofRows rs) (kindIndices kind 0 (ofRows rs).isPrefill) = .ok (half rs kind) := by
  obtain ⟨hlt, hpick⟩ := picked_kindIndices kind [] rs
  rw [List.nil_append, List.length_nil] at hlt hpick
  have hflags : (ofRows rs).isPrefill = rs.map (·.isPrefill) := rfl
  rw [hflags]
  unfold sliceNonempty half
  by_cases hnil : kindIndices kind 0 (rs.map (·.isPrefill)) = []
  · have hf : rs.filter (·.isPrefill = kind) = [] := by
      rw [← hpick, hnil]
      rfl
    rw [if_pos hnil, if_pos hf]
  · have hf : rs.filter (·.isPrefill = kind) ≠ [] := by
      intro hf
      obtain ⟨i, is, his⟩ := List.exists_cons_of_ne_nil hnil
      have hi := List.getElem?_eq_getElem (hlt i (by rw [his]; exact List.mem_cons_self))
      rw [hf, his, picked, List.filterMap_cons, hi] at hpick
      cases hpick
    rw [if_neg hnil, if_neg hf, sliceBatch_ofRows hnil hlt, hpick]
    rfl

/-- **The split** of metadata with given rows. -/
theorem split_ofRows (rs : List BatchRow) :
    splitPrefillDecodeBatch (ofRows rs) = .ok ⟨ofRows rs, half rs true, half rs false,
      kindIndices true 0 (rs.map (·.isPrefill)), kindIndices false 0 (rs.map (·.isPrefill))⟩ := by
  unfold splitPrefillDecodeBatch
  simp only [sliceNonempty_ofRows, ok_bind]
  rfl

/-! ### Recombination -/

/-- The outputs of a row function for one sequence: `f r j` is the output of the token `j` of a
sequence with the entries `r`. -/
def rowOutputs (f : BatchRow → ℕ → ρ) (r : BatchRow) : List ρ :=
  (List.range r.tokens.length).map (f r)

/-- The packed outputs of a batch, for the outputs `out r` of a sequence with the entries `r`. -/
def outputs (out : BatchRow → List ρ) (b : BatchMetadata) : List ρ := b.rows.flatMap out

/-- What may be passed for a half: its outputs, or, if there is no such half, nothing or an empty
tensor. -/
def OutputsOf (out : BatchRow → List ρ) : Option BatchMetadata → Option (List ρ) → Prop
  | some b, given => given = some (outputs out b)
  | none, given => given = none ∨ given = some []

@[simp] theorem length_rowOutputs (f : BatchRow → ℕ → ρ) (r : BatchRow) :
    (rowOutputs f r).length = r.tokens.length := by
  simp [rowOutputs]

section Recombine

variable {out : BatchRow → List ρ}

theorem outputs_ofRows (out : BatchRow → List ρ) (rs : List BatchRow) :
    outputs out (ofRows rs) = rs.flatMap out :=
  congrArg (fun rs : List BatchRow => rs.flatMap out) (rows_pack rs)

theorem length_outputs (hout : ∀ r, (out r).length = r.tokens.length) (rs : List BatchRow) :
    (rs.flatMap out).length = (rs.map (·.tokens.length)).sum := by
  rw [List.length_flatMap]
  simp only [hout]

theorem totalTokens_ofRows (rs : List BatchRow) :
    (ofRows rs).totalTokens = (rs.map (·.tokens.length)).sum := by
  simp [BatchMetadata.totalTokens, ofRows, pack, List.length_flatten, Function.comp_def]

/-- The outputs given for a half are those of its rows. -/
theorem OutputsOf.getD {rs : List BatchRow} {kind : Bool} {given : Option (List ρ)}
    (h : OutputsOf out (half rs kind) given) :
    given.getD [] = (rs.filter (·.isPrefill = kind)).flatMap out := by
  unfold half at h
  split at h
  · next hnil =>
    rw [hnil]
    rcases h with rfl | rfl <;> rfl
  · rw [show given = some _ from h, outputs_ofRows]
    rfl

theorem OutputsOf.isSome {rs : List BatchRow} {kind : Bool} {given : Option (List ρ)}
    (h : OutputsOf out (half rs kind) given) {r : BatchRow} (hr : r ∈ rs)
    (hk : r.isPrefill = kind) :
    given = some ((rs.filter (·.isPrefill = kind)).flatMap out) := by
  have hmem : r ∈ rs.filter (·.isPrefill = kind) := List.mem_filter.mpr ⟨hr, by simpa using hk⟩
  unfold half at h
  rw [if_neg (List.ne_nil_of_mem hmem)] at h
  rw [show given = some _ from h, outputs_ofRows]

theorem checkOutputs_ofRows (hout : ∀ r, (out r).length = r.tokens.length) {rs : List BatchRow}
    {kind : Bool} {given : Option (List ρ)} (h : OutputsOf out (half rs kind) given)
    (name : String) :
    checkOutputs name (half rs kind) given = .ok () := by
  unfold half at h ⊢
  split at h
  · next hnil =>
    rw [if_pos hnil]
    rcases h with rfl | rfl <;> rfl
  · next hne =>
    rw [if_neg hne, show given = some _ from h]
    simp only [checkOutputs]
    rw [if_neg (not_not.mpr _)]
    rw [outputs_ofRows, totalTokens_ofRows, length_outputs hout]

/-- Rows of the right number are assigned as they are. -/
theorem assignRows_eq {result : List (Option ρ)} {start stop : ℕ} {rows : List ρ}
    (h : rows.length = stop - start) :
    assignRows result start stop rows = .ok (assign result start (rows.map some)) := by
  unfold assignRows
  split
  · next r =>
    have h1 : stop - start = 1 := h.symm
    rw [h1]
    rfl
  · rw [if_pos h]

/-- The tensor when the sequences `done` have been written and `todo` are left. -/
def Filled (out : BatchRow → List ρ) (done todo : List BatchRow) : List (Option ρ) :=
  (done.flatMap out).map some ++ List.replicate (todo.map (·.tokens.length)).sum none

/-- Writing the outputs of the next sequence behind those that are written. -/
theorem assign_filled (hout : ∀ r, (out r).length = r.tokens.length) (done todo : List BatchRow)
    (r : BatchRow) :
    assign (Filled out done (r :: todo)) (done.map (·.tokens.length)).sum ((out r).map some) =
      Filled out (done ++ [r]) todo := by
  have hlen : ((done.flatMap out).map some).length = (done.map (·.tokens.length)).sum := by
    rw [List.length_map, length_outputs hout]
  unfold Filled
  rw [← hlen, assign_append]
  simp [List.append_assoc, hout]

/-- The source of a copy: the cursor stands behind the outputs of the sequences of this kind that
are done. -/
theorem slice_outputs (hout : ∀ r, (out r).length = r.tokens.length) (before after : List BatchRow)
    (r : BatchRow) :
    slice ((before ++ r :: after).flatMap out) (before.map (·.tokens.length)).sum
      ((before.map (·.tokens.length)).sum + r.tokens.length) = out r := by
  rw [slice_eq, List.flatMap_append, ← length_outputs hout before, List.drop_left,
    List.flatMap_cons, ← hout r, List.take_left]

/-- Of one kind, before the sequence `r`. -/
def cursor (kind : Bool) (done : List BatchRow) : ℕ :=
  ((done.filter (·.isPrefill = kind)).map (·.tokens.length)).sum

theorem cursor_concat (kind : Bool) (done : List BatchRow) (r : BatchRow) :
    cursor kind (done ++ [r]) =
      if r.isPrefill = kind then cursor kind done + r.tokens.length else cursor kind done := by
  unfold cursor
  by_cases h : r.isPrefill = kind <;> simp [List.filter_append, h]

/-- The slice that the loop takes for a sequence of one kind. -/
theorem slice_cursor (hout : ∀ r, (out r).length = r.tokens.length) {done todo : List BatchRow}
    {r : BatchRow} {kind : Bool} (hk : r.isPrefill = kind) :
    slice (((done ++ r :: todo).filter (·.isPrefill = kind)).flatMap out) (cursor kind done)
      (cursor kind done + r.tokens.length) = out r := by
  rw [List.filter_append, List.filter_cons_of_pos (by simpa using hk)]
  exact slice_outputs hout _ _ r

/-- **The loop**: with the cursors behind the sequences `done`, it writes the outputs of the
rest. -/
theorem recombineLoop_ofRows (hout : ∀ r, (out r).length = r.tokens.length)
    {prefillOutputs decodeOutputs : Option (List ρ)} (done todo : List BatchRow)
    (hp : OutputsOf out (half (done ++ todo) true) prefillOutputs)
    (hd : OutputsOf out (half (done ++ todo) false) decodeOutputs) :
    recombineLoop (ofRows (done ++ todo)) prefillOutputs decodeOutputs
      (List.range' done.length todo.length) (cursor true done) (cursor false done)
      (Filled out done todo) = .ok (Filled out (done ++ todo) []) := by
  induction todo generalizing done with
  | nil => simp [recombineLoop]
  | cons r todo ih =>
    have happ : done ++ r :: todo = done ++ [r] ++ todo := by simp
    have hrest := ih (done ++ [r]) (by rw [← happ]; exact hp) (by rw [← happ]; exact hd)
    rw [← happ, show (done ++ [r]).length = done.length + 1 by simp, cursor_concat,
      cursor_concat] at hrest
    have hmem : r ∈ done ++ r :: todo := by simp
    have hle : done.length + 1 ≤ (done ++ r :: todo).length := by simp
    have hstart : item (ofRows (done ++ r :: todo)).tokenOffsets done.length =
        .ok (done.map (·.tokens.length)).sum := by
      refine item_eq_ok.mpr ((tokenOffsets_pack (by omega)).trans ?_)
      simp
    have hend : item (ofRows (done ++ r :: todo)).tokenOffsets (done.length + 1) =
        .ok ((done.map (·.tokens.length)).sum + r.tokens.length) := by
      have hr : ((done ++ r :: todo).map (·.tokens.length))[done.length]? =
          some r.tokens.length := by
        simp
      refine item_eq_ok.mpr ((tokenOffsets_pack hle).trans ?_)
      rw [sum_take_succ hr]
      simp
    have hkind : item (ofRows (done ++ r :: todo)).isPrefill done.length = .ok r.isPrefill := by
      rw [item_eq_ok]
      simp [ofRows, pack]
    have hassign : assignRows (Filled out done (r :: todo)) (done.map (·.tokens.length)).sum
        ((done.map (·.tokens.length)).sum + r.tokens.length) (out r) =
          .ok (Filled out (done ++ [r]) todo) := by
      rw [assignRows_eq (by rw [hout]; omega), assign_filled hout]
    rw [List.length_cons, List.range'_succ, recombineLoop, hstart, ok_bind, hend, ok_bind]
    simp only [Nat.add_sub_cancel_left]
    by_cases hzero : r.tokens.length = 0
    · -- a sequence without tokens is skipped: the cursors and the tensor stay
      have hsame : Filled out done (r :: todo) = Filled out (done ++ [r]) todo := by
        have hnil : out r = [] := List.length_eq_zero_iff.mp (by rw [hout, hzero])
        simp [Filled, hzero, hnil]
      rw [if_pos hzero, hsame]
      simpa only [hzero, Nat.add_zero, ite_self] using hrest
    · rw [if_neg hzero, hkind, ok_bind]
      cases hk : r.isPrefill with
      | true =>
        rw [hp.isSome hmem hk]
        simp only [hk, if_true, Bool.true_eq_false, if_false, slice_cursor hout hk,
          hassign, ok_bind, hp.isSome hmem hk] at hrest ⊢
        exact hrest
      | false =>
        rw [hd.isSome hmem hk]
        simp only [hk, if_true, Bool.false_eq_true, if_false, slice_cursor hout hk,
          hassign, ok_bind, hd.isSome hmem hk] at hrest ⊢
        exact hrest

theorem recombineOutputs_ofRows (hout : ∀ r, (out r).length = r.tokens.length)
    {rs : List BatchRow} {prefillOutputs decodeOutputs : Option (List ρ)}
    (hp : OutputsOf out (half rs true) prefillOutputs)
    (hd : OutputsOf out (half rs false) decodeOutputs) {prefillIndices decodeIndices : List ℕ} :
    SplitBatchMetadata.recombineOutputs
      ⟨ofRows rs, half rs true, half rs false, prefillIndices, decodeIndices⟩
      prefillOutputs decodeOutputs = .ok ((rs.flatMap out).map some) := by
  unfold SplitBatchMetadata.recombineOutputs
  simp only [checkOutputs_ofRows hout hp, checkOutputs_ofRows hout hd, ok_bind]
  have hloop := recombineLoop_ofRows hout [] rs (by simpa using hp) (by simpa using hd)
  have hlen : (ofRows rs).seqIds.length = rs.length := by simp [ofRows, pack]
  simp only [Filled, List.flatMap_nil, List.map_nil, List.sum_nil, List.replicate_zero,
    List.append_nil, List.nil_append, List.length_nil, ← List.range_eq_range'] at hloop
  split
  · next hnone =>
    -- nothing was given: there are no sequences
    have hnil : rs = [] := by
      by_contra hne
      obtain ⟨r, rest, rfl⟩ := List.exists_cons_of_ne_nil hne
      cases hk : r.isPrefill with
      | true => rw [hp.isSome List.mem_cons_self hk] at hnone; cases hnone
      | false =>
        rw [hd.isSome List.mem_cons_self hk] at hnone
        cases prefillOutputs <;> cases hnone
    rw [hnil]
    rfl
  · rw [hlen, totalTokens_ofRows]
    exact hloop

end Recombine

/-! ### The two halves of every batch -/

/-- The sequence `k` of `sub` is the sequence `i` of `b`, with its tokens and all its entries. -/
structure SameSequence (b sub : BatchMetadata) (i k : ℕ) : Prop where
  seqId : sub.seqIds[k]? = b.seqIds[i]?
  length : sub.seqLengths[k]? = b.seqLengths[i]?
  contextLength : sub.contextLengths[k]? = b.contextLengths[i]?
  isPrefill : sub.isPrefill[k]? = b.isPrefill[i]?
  blockTable : sub.blockTables[k]? = b.blockTables[i]?
  samplingParams : sub.samplingParams[k]? = b.samplingParams[i]?
  tokens : (sub.row k).map (·.tokens) = (b.row i).map (·.tokens)

/-- The half of `b` at the given indices: nothing for no index, otherwise metadata (which has passed
the checks) of these sequences, in order. -/
def IsHalf (b : BatchMetadata) (seqIndices : List ℕ) : Option BatchMetadata → Prop
  | none => seqIndices = []
  | some sub => sub.seqIds.length = seqIndices.length ∧
      ∀ k i, seqIndices[k]? = some i → SameSequence b sub i k

theorem sameSequence_of_row {rs rs' : List BatchRow} {i k : ℕ} (h : rs'[k]? = rs[i]?) :
    SameSequence (ofRows rs) (ofRows rs') i k := by
  constructor <;> simp [ofRows, pack, h]
  have hrow := congrArg (Option.map (·.tokens)) h
  rw [← row_pack, ← row_pack] at hrow
  simpa [pack] using hrow

theorem picked_getElem? {rs : List BatchRow} {is : List ℕ} (h : ∀ i ∈ is, i < rs.length) {k i : ℕ}
    (hk : is[k]? = some i) : (picked rs is)[k]? = rs[i]? := by
  induction is generalizing k with
  | nil => simp at hk
  | cons j is ih =>
    have hj := List.getElem?_eq_getElem (h j List.mem_cons_self)
    rw [picked, List.filterMap_cons, hj]
    rcases k with _ | k
    · have : j = i := by simpa using hk
      subst this
      exact hj.symm
    · exact ih (fun j hj => h j (List.mem_cons_of_mem _ hj)) (by simpa using hk)

theorem length_picked {rs : List BatchRow} {is : List ℕ} (h : ∀ i ∈ is, i < rs.length) :
    (picked rs is).length = is.length := by
  induction is with
  | nil => rfl
  | cons j is ih =>
    have hj := List.getElem?_eq_getElem (h j List.mem_cons_self)
    rw [picked, List.filterMap_cons, hj]
    exact congrArg (· + 1) (ih fun j hj => h j (List.mem_cons_of_mem _ hj))

theorem isHalf_half (rs : List BatchRow) (kind : Bool) :
    IsHalf (ofRows rs) (kindIndices kind 0 (rs.map (·.isPrefill))) (half rs kind) := by
  obtain ⟨hlt, hpick⟩ := picked_kindIndices kind [] rs
  rw [List.nil_append, List.length_nil] at hlt hpick
  have hlen := length_picked hlt
  unfold half
  rw [← hpick]
  split
  · next hnil =>
    rw [hnil] at hlen
    exact List.length_eq_zero_iff.mp hlen.symm
  · refine ⟨?_, fun k i hk => sameSequence_of_row (picked_getElem? hlt hk)⟩
    rw [← hlen]
    simp [ofRows, pack]

/-- An index is listed for a kind exactly if the sequence there is of this kind. -/
theorem mem_kindIndices {kind : Bool} {idx i : ℕ} {flags : List Bool} :
    i ∈ kindIndices kind idx flags ↔ idx ≤ i ∧ flags[i - idx]? = some kind := by
  induction flags generalizing idx with
  | nil => simp [kindIndices]
  | cons flag rest ih =>
    have hsplit : idx ≤ i ∧ (flag :: rest)[i - idx]? = some kind ↔
        (i = idx ∧ flag = kind) ∨ (idx + 1 ≤ i ∧ rest[i - (idx + 1)]? = some kind) := by
      rcases Nat.lt_trichotomy i idx with h | rfl | h
      · constructor
        · rintro ⟨h', -⟩; omega
        · rintro (⟨h', -⟩ | ⟨h', -⟩) <;> omega
      · simp
      · rw [show i - idx = i - (idx + 1) + 1 by omega, List.getElem?_cons_succ]
        constructor
        · rintro ⟨-, h'⟩; exact Or.inr ⟨h, h'⟩
        · rintro (⟨h', -⟩ | ⟨-, h'⟩)
          · omega
          · exact ⟨by omega, h'⟩
    rw [hsplit, kindIndices]
    split
    · next hk => simp [ih, hk]
    · next hk => simp [ih, hk]

/-- **Splitting and recombining**: every batch is cut into its prefill and its decode sequences, and
the outputs of a row function on the two halves are put together to its outputs on the batch. -/
theorem split_recombine (b : BatchMetadata) :
    ∃ s, splitPrefillDecodeBatch b = .ok s ∧
      (∀ i, i ∈ s.prefillIndices ↔ b.isPrefill[i]? = some true) ∧
      (∀ i, i ∈ s.decodeIndices ↔ b.isPrefill[i]? = some false) ∧
      IsHalf b s.prefillIndices s.prefillBatch ∧ IsHalf b s.decodeIndices s.decodeBatch ∧
      ∀ (ρ : Type) (f : BatchRow → ℕ → ρ) (prefillOutputs decodeOutputs : Option (List ρ)),
        OutputsOf (rowOutputs f) s.prefillBatch prefillOutputs →
        OutputsOf (rowOutputs f) s.decodeBatch decodeOutputs →
        s.recombineOutputs prefillOutputs decodeOutputs =
          .ok ((outputs (rowOutputs f) b).map some) := by
  rw [b.eq_ofRows]
  refine ⟨_, split_ofRows b.rows, fun i => ?_, fun i => ?_, isHalf_half _ _, isHalf_half _ _, ?_⟩
  · rw [mem_kindIndices]
    simp [ofRows, pack]
  · rw [mem_kindIndices]
    simp [ofRows, pack]
  · intro ρ f prefillOutputs decodeOutputs hp hd
    rw [outputs_ofRows]
    exact recombineOutputs_ofRows (length_rowOutputs f) hp hd

end MoeInfinity.Serving.PackedBatch
