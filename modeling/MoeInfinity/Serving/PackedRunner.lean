import MoeInfinity.Serving.PackedBatch
import MoeInfinity.Serving.Rowwise

/-! # From packed metadata to the last logits (`serving/model_runner.py`, `serving/engine.py`)

The runner cuts the packed tokens into right-padded rows, selects the logits of the real positions
with the flattened attention mask, and the engine picks one row per sequence by its last offset.
Here these three steps work on the packed fields, with the indices of the source:

* `prepareInputs` is the row-level one of the model runner (`prepareInputs_ofRows`);
* the mask selects, row after row, the first logits of each padded row (`maskSelect_padded`);
* the index `token_offsets[k + 1] - 1` is the last output of the sequence `k`
  (`extractLastTokenLogits_ofRows`).

A model that maps every padded row by itself (`RowwiseModel`) then gives each sequence its own last
output (`lastLogits_rowwise`). The model is called without a paged context. -/

namespace MoeInfinity.Serving.PackedRunner

open MoeInfinity.Python MoeInfinity.Lib.Imperative MoeInfinity.Lib.Packed
open MoeInfinity.Serving.PackedBatch
open MoeInfinity.Serving.Batch (BatchRow)
open MoeInfinity.Serving.ModelRunner (AttentionMetadata ForwardInputs Logits padded positions)

variable {ρ : Type}

/-! ### The runner on packed fields -/

/-- `max(batch.seq_lengths, default=0)`. -/
def maxSeqLen (b : BatchMetadata) : ℕ := b.seqLengths.foldl max 0

/-- One iteration of `prepare_inputs`: the three rows of the sequence `seqIdx`. -/
def prepareRow (b : BatchMetadata) (seqIdx : ℕ) : Except PyError (List ℕ × List ℕ × List ℕ) := do
  let start ← item b.tokenOffsets seqIdx
  let stop ← item b.tokenOffsets (seqIdx + 1)
  let seqTokens := slice b.inputTokenIds start stop
  let seqLen ← item b.seqLengths seqIdx
  if seqTokens.length ≠ seqLen then
    throw (.valueError
      "batch metadata is inconsistent: seq_lengths and token_offsets disagree")
  let zeros := List.replicate (maxSeqLen b) 0
  if seqLen = 0 then return (zeros, zeros, zeros)
  else
    let contextLen ← item b.contextLengths seqIdx
    return (padded (maxSeqLen b) seqTokens, padded (maxSeqLen b) (List.range' contextLen seqLen),
      padded (maxSeqLen b) (List.replicate seqLen 1))

/-- `prepare_inputs`. -/
def prepareInputs (b : BatchMetadata) : Except PyError ForwardInputs := do
  let rows ← (List.range b.seqIds.length).mapM (prepareRow b)
  return ⟨rows.map (·.1), rows.map (·.2.1), rows.map (·.2.2), none⟩

/-- `logits[token_mask]`: the entries where the mask is not zero, in row-major order. -/
def maskSelect (mask : List (List ℕ)) (logits : List (List ρ)) : Except PyError (List ρ) :=
  if logits.map List.length = mask.map List.length then
    .ok ((mask.flatten.zip logits.flatten).filterMap fun p => if p.1 ≠ 0 then some p.2 else none)
  else .error (.indexError "The shape of the mask does not match the shape of the indexed tensor")

/-- `ModelRunner.execute`. -/
def execute (forward : ForwardInputs → Except PyError (Logits ρ)) (b : BatchMetadata) :
    Except PyError (List ρ) := do
  if b.totalTokens = 0 then return []
  let modelInputs ← prepareInputs b
  let logits ← forward modelInputs
  let packed ← match logits with
    | .rank3 rows => maskSelect modelInputs.attentionMask rows
    | .rank2 rows => .ok rows
    | .other rank =>
      .error (.valueError s!"model output logits must be rank-2 or rank-3, got rank-{rank}")
  if packed.length ≠ b.totalTokens then
    throw (.valueError
      s!"packed logits row count must match batch.total_tokens; got {packed.length} vs {b.totalTokens}")
  return packed

/-- `ContinuousBatchingEngine._execute_batch`; `usesPaged` says whether the model has paged
attention classes. -/
def executeBatch (usesPaged : Bool) (forward : ForwardInputs → Except PyError (Logits ρ))
    (b : BatchMetadata) : Except PyError (List (Option ρ)) := do
  let hasPrefill := b.isPrefill.any id
  let hasDecode := b.isPrefill.any (!·)
  if !usesPaged || !(hasPrefill && hasDecode) then
    let logits ← execute forward b
    return logits.map some
  let split ← splitPrefillDecodeBatch b
  let prefillLogits ← split.prefillBatch.mapM (execute forward)
  let decodeLogits ← split.decodeBatch.mapM (execute forward)
  split.recombineOutputs prefillLogits decodeLogits

/-- The loop of `_extract_last_token_logits`, from the index `index`. -/
def lastTokenIndices (tokenOffsets : List ℕ) : ℕ → List ℕ → Except PyError (List ℕ)
  | _, [] => .ok []
  | index, seqLength :: rest => do
    if seqLength = 0 then
      throw (.runtimeError "scheduled sequence has no tokens; empty prompts are not supported")
    let offset ← item tokenOffsets (index + 1)
    let indices ← lastTokenIndices tokenOffsets (index + 1) rest
    return (offset - 1) :: indices

/-- `_extract_last_token_logits`. -/
def extractLastTokenLogits (logits : List ρ) (b : BatchMetadata) : Except PyError (List ρ) := do
  let indices ← lastTokenIndices b.tokenOffsets 0 b.seqLengths
  indices.mapM (item logits)

/-- The rows of logits that are sampled for a batch. -/
def lastLogits (forward : ForwardInputs → Except PyError (Logits ρ)) (b : BatchMetadata) :
    Except PyError (List ρ) := do
  let logits ← execute forward b
  extractLastTokenLogits logits b

/-! ### Models that map every padded row by itself -/

/-- A padded row: the real tokens with their positions under the mask, then `n` zeros. -/
def paddedRow (xs : List (ℕ × ℕ)) (n : ℕ) : List (ℕ × ℕ × ℕ) :=
  xs.map (fun x => (x.1, x.2, 1)) ++ List.replicate n (0, 0, 0)

/-- A model on one padded row of tokens, positions and mask. The outputs at the real positions
depend on the real tokens and their positions only. -/
structure RowwiseModel (ρ : Type) where
  run : List (ℕ × ℕ × ℕ) → List ρ
  length_run : ∀ row, (run row).length = row.length
  run_padded : ∀ xs n, (run (paddedRow xs n)).take xs.length = run (paddedRow xs 0)

namespace RowwiseModel

/-- `forward` of the model. -/
def forward (M : RowwiseModel ρ) (inputs : ForwardInputs) : Except PyError (Logits ρ) :=
  .ok (.rank3 ((inputs.inputIds.zip (inputs.positionIds.zip inputs.attentionMask)).map fun row =>
    M.run (row.1.zip (row.2.1.zip row.2.2))))

/-- The outputs of the model for a sequence by itself, without padding. -/
def outputs (M : RowwiseModel ρ) (tokens : List ℕ) (contextLength : ℕ) : List ρ :=
  M.run (paddedRow (tokens.zip (List.range' contextLength tokens.length)) 0)

/-- The output of the model at the last token of a sequence. -/
def lastOutput (M : RowwiseModel ρ) (r : BatchRow) : Option ρ :=
  (M.outputs r.tokens r.contextLength).getLast?

theorem length_outputs (M : RowwiseModel ρ) (tokens : List ℕ) (contextLength : ℕ) :
    (M.outputs tokens contextLength).length = tokens.length := by
  simp [outputs, M.length_run, paddedRow]

end RowwiseModel

/-! ### The inputs -/

theorem maxSeqLen_ofRows (rs : List BatchRow) :
    maxSeqLen (ofRows rs) = ModelRunner.maxSeqLen ⟨rs⟩ := rfl

theorem prepareRow_ofRows {rs : List BatchRow} {k : ℕ} {r : BatchRow} (h : rs[k]? = some r) :
    prepareRow (ofRows rs) k = .ok (padded (maxSeqLen (ofRows rs)) r.tokens,
      padded (maxSeqLen (ofRows rs)) (positions r),
      padded (maxSeqLen (ofRows rs)) (r.tokens.map fun _ => 1)) := by
  have hk : k < rs.length := (List.getElem?_eq_some_iff.mp h).1
  have h0 : item (ofRows rs).tokenOffsets k = .ok _ :=
    item_eq_ok.mpr (tokenOffsets_pack (show k ≤ rs.length by omega))
  have h1 : item (ofRows rs).tokenOffsets (k + 1) = .ok _ :=
    item_eq_ok.mpr (tokenOffsets_pack (show k + 1 ≤ rs.length by omega))
  have h2 : slice (ofRows rs).inputTokenIds ((rs.map (·.tokens.length)).take k).sum
    ((rs.map (·.tokens.length)).take (k + 1)).sum = r.tokens := slice_pack h
  have h3 : item (ofRows rs).seqLengths k = .ok r.tokens.length :=
    item_eq_ok.mpr (by simp [ofRows, pack, h])
  have h4 : item (ofRows rs).contextLengths k = .ok r.contextLength :=
    item_eq_ok.mpr (by simp [ofRows, pack, h])
  unfold prepareRow
  rw [h0, ok_bind, h1, ok_bind]
  simp only [h2, h3, ok_bind, ne_eq, not_true_eq_false, if_false]
  by_cases hzero : r.tokens.length = 0
  · have hnil : r.tokens = [] := List.length_eq_zero_iff.mp hzero
    rw [if_pos hzero]
    simp [hnil, padded, positions]
    rfl
  · rw [if_neg hzero, h4, ok_bind, List.map_const']
    rfl

theorem mapM_range {α γ : Type} {rs : List α} {g : α → γ} {f : ℕ → Except PyError γ}
    (h : ∀ k r, rs[k]? = some r → f k = .ok (g r)) :
    (List.range rs.length).mapM f = .ok (rs.map g) := by
  have hfrom : ∀ (todo done : List α), rs = done ++ todo →
      (List.range' done.length todo.length).mapM f = .ok (todo.map g) := by
    intro todo
    induction todo with
    | nil => intro done _; rfl
    | cons r todo ih =>
      intro done hrs
      have hr : rs[done.length]? = some r := by simp [hrs]
      have hrest := ih (done ++ [r]) (by simp [hrs])
      rw [show (done ++ [r]).length = done.length + 1 by simp] at hrest
      rw [List.length_cons, List.range'_succ, List.mapM_cons, h _ _ hr, ok_bind, hrest]
      rfl
  rw [List.range_eq_range']
  exact hfrom rs [] rfl

/-- **The inputs** of the packed metadata are the padded rows of its sequences. -/
theorem prepareInputs_ofRows (rs : List BatchRow) :
    prepareInputs (ofRows rs) = .ok (ModelRunner.prepareInputs ⟨rs⟩ none) := by
  have hlen : (ofRows rs).seqIds.length = rs.length := by simp [ofRows, pack]
  unfold prepareInputs
  rw [hlen, mapM_range fun k r h => prepareRow_ofRows h, ok_bind]
  simp only [List.map_map, ModelRunner.prepareInputs, ← maxSeqLen_ofRows]
  rfl

/-- The split at the packed fields and the one of the row-level batches put the same outputs
together. -/
theorem recombineOutputs_eq {out : BatchRow → List ρ} (hout : ∀ r, (out r).length = r.tokens.length)
    {rs : List BatchRow} {s : SplitBatchMetadata} (hs : splitPrefillDecodeBatch (ofRows rs) = .ok s)
    {prefillOutputs decodeOutputs : Option (List ρ)}
    (hp : OutputsOf out s.prefillBatch prefillOutputs)
    (hd : OutputsOf out s.decodeBatch decodeOutputs) :
    s.recombineOutputs prefillOutputs decodeOutputs =
      .ok ((Batch.recombineOutputs rs (prefillOutputs.getD []) (decodeOutputs.getD [])).map
        some) := by
  rw [split_ofRows, Except.ok.injEq] at hs
  subst hs
  rw [recombineOutputs_ofRows hout hp hd, OutputsOf.getD hp, OutputsOf.getD hd,
    Rowwise.recombine_flatMap out hout]

/-! ### The mask -/

theorem filterMap_ones (n : ℕ) (l : List ρ) (h : l.length = n) :
    ((List.replicate n 1).zip l).filterMap (fun p => if p.1 ≠ 0 then some p.2 else none) = l := by
  induction n generalizing l with
  | zero => rw [List.length_eq_zero_iff.mp h]; rfl
  | succ n ih =>
    obtain ⟨x, l, rfl⟩ := List.exists_cons_of_length_eq_add_one h
    exact congrArg (x :: ·) (ih l (by simpa using h))

theorem filterMap_zeros (n : ℕ) (l : List ρ) :
    ((List.replicate n 0).zip l).filterMap (fun p => if p.1 ≠ 0 then some p.2 else none) = [] := by
  rw [List.filterMap_eq_nil_iff]
  rintro ⟨m, x⟩ hmem
  have hm : m = 0 := List.eq_of_mem_replicate (List.of_mem_zip hmem).1
  simp [hm]

/-- One row: the mask selects the logits of the real positions. -/
theorem filterMap_row {w n : ℕ} {l : List ρ} (hn : n ≤ w) (hl : l.length = w) :
    ((padded w (List.replicate n 1)).zip l).filterMap
    (fun p => if p.1 ≠ 0 then some p.2 else none) =
      l.take n := by
  have hsplit : l = l.take n ++ l.drop n := (List.take_append_drop n l).symm
  have htake : (l.take n).length = n := by rw [List.length_take]; omega
  rw [padded, hsplit, List.zip_append (by rw [List.length_replicate, htake]), List.filterMap_append,
    filterMap_ones n _ htake, filterMap_zeros, List.append_nil, ← hsplit]

/-- **The mask** selects, row after row, the logits of the real positions. -/
theorem maskSelect_padded {w : ℕ} {rs : List BatchRow} {ls : List (List ρ)}
    (hw : ∀ r ∈ rs, r.tokens.length ≤ w) (hls : ls.map List.length = rs.map fun _ => w) :
    maskSelect (rs.map fun r => padded w (r.tokens.map fun _ => 1)) ls =
      .ok (ModelRunner.maskedRows rs ls) := by
  have hpad : ∀ r ∈ rs, (padded w (r.tokens.map fun _ => 1)).length = w := by
    intro r hr
    have := hw r hr
    simp only [padded, List.length_append, List.length_map, List.length_replicate]
    omega
  unfold maskSelect
  rw [if_pos]
  swap
  · rw [hls, List.map_map]
    exact List.map_congr_left fun r hr => (hpad r hr).symm
  congr 1
  induction rs generalizing ls with
  | nil =>
    have : ls = [] := by simpa using hls
    rw [this]
    rfl
  | cons r rs ih =>
    obtain ⟨l, ls, rfl⟩ := List.exists_cons_of_ne_nil (show ls ≠ [] by rintro rfl; simp at hls)
    simp only [List.map_cons, List.cons.injEq] at hls
    have hr := hw r List.mem_cons_self
    simp only [List.map_cons, List.flatten_cons]
    rw [List.zip_append (by rw [hpad r List.mem_cons_self, hls.1]), List.filterMap_append,
      ih (fun r hr => hw r (List.mem_cons_of_mem _ hr)) hls.2
        (fun r hr => hpad r (List.mem_cons_of_mem _ hr)),
      List.map_const', filterMap_row hr hls.1, ModelRunner.maskedRows]

/-! ### The last tokens -/

theorem lastTokenIndices_ofRows (done todo : List BatchRow) (h : ∀ r ∈ todo, r.tokens ≠ []) :
    lastTokenIndices (ofRows (done ++ todo)).tokenOffsets done.length (todo.map (·.tokens.length)) =
      .ok ((List.range' done.length todo.length).map fun k =>
        (((done ++ todo).map (·.tokens.length)).take (k + 1)).sum - 1) := by
  induction todo generalizing done with
  | nil => rfl
  | cons r todo ih =>
    have hr : r.tokens.length ≠ 0 :=
      fun h0 => h r List.mem_cons_self (List.length_eq_zero_iff.mp h0)
    have happ : done ++ r :: todo = done ++ [r] ++ todo := by simp
    have hrest := ih (done ++ [r]) fun r hr => h r (List.mem_cons_of_mem _ hr)
    rw [← happ, show (done ++ [r]).length = done.length + 1 by simp] at hrest
    have hle : done.length + 1 ≤ (done ++ r :: todo).length := by simp
    have hitem : item (ofRows (done ++ r :: todo)).tokenOffsets (done.length + 1) = .ok _ :=
      item_eq_ok.mpr (tokenOffsets_pack hle)
    rw [List.map_cons, lastTokenIndices, if_neg hr]
    simp only [hitem, ok_bind, hrest]
    rfl

/-- The index of the last token of a sequence picks the last of its outputs. -/
theorem getElem?_last {out : BatchRow → List ρ} (hout : ∀ r, (out r).length = r.tokens.length)
    {rs : List BatchRow} {k : ℕ} {r : BatchRow} (h : rs[k]? = some r) (hr : r.tokens ≠ []) :
    (rs.flatMap out)[((rs.map (·.tokens.length)).take (k + 1)).sum - 1]? = (out r).getLast? := by
  have hlens : rs.map (·.tokens.length) = (rs.map out).map List.length := by
    simp [Function.comp_def, hout]
  have hk : (rs.map out)[k]? = some (out r) := by simp [h]
  have hslice := slice_flatten hk
  have hlen :=
    sum_take_succ (show ((rs.map out).map List.length)[k]? = some (out r).length by simp [h])
  have hpos : (out r).length ≠ 0 := by
    rw [hout]
    exact fun h0 => hr (List.length_eq_zero_iff.mp h0)
  rw [hlens, List.flatMap_def]
  rw [hlen] at hslice ⊢
  rw [slice_eq] at hslice
  rw [List.getLast?_eq_getElem?]
  nth_rewrite 2 [← hslice]
  rw [List.getElem?_take_of_lt (by omega), List.getElem?_drop]
  congr 1
  omega

/-- **The last logits** of packed outputs are the last outputs of the sequences. -/
theorem extractLastTokenLogits_ofRows {out : BatchRow → List ρ}
    (hout : ∀ r, (out r).length = r.tokens.length) {rs : List BatchRow}
    (h : ∀ r ∈ rs, r.tokens ≠ []) :
    ∃ last, extractLastTokenLogits (rs.flatMap out) (ofRows rs) = .ok last ∧
      last.map some = rs.map fun r => (out r).getLast? := by
  have hidx := lastTokenIndices_ofRows [] rs h
  rw [List.nil_append, List.length_nil, ← List.range_eq_range'] at hidx
  have hsome : ∀ r ∈ rs, ∃ x, (out r).getLast? = some x := by
    intro r hr
    rw [← Option.ne_none_iff_exists', ne_eq, List.getLast?_eq_none_iff,
      ← List.length_eq_zero_iff, hout, List.length_eq_zero_iff]
    exact h r hr
  cases rs with
  | nil => exact ⟨[], rfl, rfl⟩
  | cons r₀ rest =>
    obtain ⟨x₀, -⟩ := hsome r₀ List.mem_cons_self
    generalize r₀ :: rest = rs at *
    have hlast : ∀ r ∈ rs, (out r).getLast? = some ((out r).getLast?.getD x₀) := by
      intro r hr
      obtain ⟨x, hx⟩ := hsome r hr
      rw [hx]
      rfl
    refine ⟨rs.map fun r => (out r).getLast?.getD x₀, ?_, ?_⟩
    · unfold extractLastTokenLogits
      rw [show (ofRows rs).seqLengths = rs.map (·.tokens.length) from rfl, hidx, ok_bind,
        List.mapM_map]
      refine mapM_range fun k r hk => item_eq_ok.mpr ?_
      have hr : r ∈ rs := List.mem_of_getElem? hk
      rw [getElem?_last hout hk (h r hr), ← hlast r hr]
    · rw [List.map_map]
      exact List.map_congr_left fun r hr => (hlast r hr).symm

/-! ### Each sequence gets its own last output -/

section Rowwise

variable (M : RowwiseModel ρ)

theorem run_row (w : ℕ) (r : BatchRow) :
    (padded w r.tokens).zip ((padded w (positions r)).zip (padded w (r.tokens.map fun _ => 1))) =
      paddedRow (r.tokens.zip (List.range' r.contextLength r.tokens.length))
        (w - r.tokens.length) := by
  have hpos : (positions r).length = r.tokens.length := List.length_range'
  have hzip : r.tokens.zip ((positions r).zip (r.tokens.map fun _ => 1)) =
      (r.tokens.zip (positions r)).map fun x => (x.1, x.2, 1) := by
    rw [List.map_const', ← hpos]
    refine List.ext_getElem ?_ fun i h1 h2 => ?_
    · simp [hpos]
    · simp
  unfold padded paddedRow
  rw [List.zip_append (by simp [hpos]), List.zip_append (by simp [hpos]), hzip, hpos]
  congr 1
  simp [List.zip_replicate']

theorem le_width {rs : List BatchRow} {r : BatchRow} (hr : r ∈ rs) :
    r.tokens.length ≤ maxSeqLen (ofRows rs) :=
  ModelRunner.le_maxSeqLen (b := ⟨rs⟩) hr

/-- The logits of a padded row. -/
def paddedLogits (w : ℕ) (r : BatchRow) : List ρ :=
  M.run (paddedRow (r.tokens.zip (List.range' r.contextLength r.tokens.length))
    (w - r.tokens.length))

theorem forward_ofRows (rs : List BatchRow) :
    M.forward (ModelRunner.prepareInputs ⟨rs⟩ none) =
      .ok (.rank3 (rs.map (paddedLogits M (maxSeqLen (ofRows rs))))) := by
  unfold RowwiseModel.forward ModelRunner.prepareInputs
  simp only [List.zip_map', List.map_map, ← maxSeqLen_ofRows]
  congr 2
  refine List.map_congr_left fun r _ => ?_
  simp only [Function.comp_apply, run_row, paddedLogits]

theorem length_paddedLogits {w : ℕ} {r : BatchRow} (hw : r.tokens.length ≤ w) :
    (paddedLogits M w r).length = w := by
  simp [paddedLogits, M.length_run, paddedRow]
  omega

/-- Cut to the real tokens, the logits of a padded row are the outputs of its sequence. -/
theorem take_paddedLogits (w : ℕ) (r : BatchRow) :
    (paddedLogits M w r).take r.tokens.length = M.outputs r.tokens r.contextLength := by
  have h := M.run_padded (r.tokens.zip (List.range' r.contextLength r.tokens.length))
    (w - r.tokens.length)
  have hlen : (r.tokens.zip (List.range' r.contextLength r.tokens.length)).length =
      r.tokens.length := by
    simp
  rw [hlen] at h
  exact h

theorem maskedRows_map (w : ℕ) (rs : List BatchRow) :
    ModelRunner.maskedRows rs (rs.map (paddedLogits M w)) =
      rs.flatMap fun r => M.outputs r.tokens r.contextLength := by
  induction rs with
  | nil => rfl
  | cons r rs ih =>
    rw [List.map_cons, ModelRunner.maskedRows, ih, take_paddedLogits, List.flatMap_cons]

/-- **One call** on a batch returns the outputs of its sequences, packed. -/
theorem execute_ofRows (rs : List BatchRow) :
    execute M.forward (ofRows rs) =
      .ok (rs.flatMap fun r => M.outputs r.tokens r.contextLength) := by
  have hlen : (rs.flatMap fun r => M.outputs r.tokens r.contextLength).length =
      (ofRows rs).totalTokens := by
    rw [List.length_flatMap, totalTokens_ofRows]
    simp [M.length_outputs]
  unfold execute
  by_cases hzero : (ofRows rs).totalTokens = 0
  · rw [if_pos hzero, List.length_eq_zero_iff.mp (hlen.trans hzero)]
    rfl
  · have hmask : maskSelect (ModelRunner.prepareInputs ⟨rs⟩ none).attentionMask
        (rs.map (paddedLogits M (maxSeqLen (ofRows rs)))) = .ok _ :=
      maskSelect_padded (fun r hr => le_width hr) (by
        rw [List.map_map]
        exact List.map_congr_left fun r hr => length_paddedLogits M (le_width hr))
    rw [if_neg hzero]
    simp only [prepareInputs_ofRows, ok_bind, forward_ofRows, hmask, maskedRows_map, hlen, ne_eq,
      not_true_eq_false, if_false]
    rfl

/-- The logits of one half, as `_execute_batch` passes them on. -/
theorem mapM_execute_half (rs : List BatchRow) (kind : Bool) :
    ∃ given, (half rs kind).mapM (execute M.forward) = .ok given ∧
      OutputsOf (fun r => M.outputs r.tokens r.contextLength) (half rs kind) given := by
  unfold half
  split
  · exact ⟨none, rfl, Or.inl rfl⟩
  · refine ⟨some _, ?_, rfl⟩
    rw [outputs_ofRows, Option.mapM_some, execute_ofRows]
    rfl

/-- **Also in two calls**, for the prefill and the decode sequences, a batch gets the outputs of its
sequences. -/
theorem executeBatch_eq (usesPaged : Bool) (b : BatchMetadata) :
    executeBatch usesPaged M.forward b =
      .ok ((outputs (fun r => M.outputs r.tokens r.contextLength) b).map some) := by
  rw [b.eq_ofRows]
  generalize b.rows = rs
  obtain ⟨prefillLogits, hp, hp'⟩ := mapM_execute_half M rs true
  obtain ⟨decodeLogits, hd, hd'⟩ := mapM_execute_half M rs false
  unfold executeBatch
  extract_lets hasPrefill hasDecode
  split
  · rw [execute_ofRows, outputs_ofRows]
    rfl
  · simp only [split_ofRows, ok_bind, hp, hd, outputs_ofRows]
    exact recombineOutputs_ofRows (fun r => M.length_outputs r.tokens r.contextLength) hp' hd'

/-- **Every sequence gets its own last output**: whatever the other sequences of the batch are, the
row sampled for the sequence `k` is the output of the model at its last token when it is run by
itself. -/
theorem lastLogits_rowwise (b : BatchMetadata) (hpos : ∀ l ∈ b.seqLengths, 1 ≤ l) :
    ∃ last, lastLogits M.forward b = .ok last ∧ last.length = b.seqIds.length ∧
      ∀ k, last[k]? = (b.row k).bind M.lastOutput := by
  rw [b.eq_ofRows] at hpos ⊢
  generalize b.rows = rs at *
  have hne : ∀ r ∈ rs, r.tokens ≠ [] := by
    intro r hr hnil
    have h1 := hpos r.tokens.length
      (List.mem_map_of_mem (f := fun r : BatchRow => r.tokens.length) hr)
    rw [hnil] at h1
    exact absurd h1 (by simp)
  obtain ⟨last, hlast, hmap⟩ := extractLastTokenLogits_ofRows
    (fun r => M.length_outputs r.tokens r.contextLength) hne
  have hlen := congrArg List.length hmap
  rw [List.length_map, List.length_map] at hlen
  refine ⟨last, ?_, ?_, fun k => ?_⟩
  · unfold lastLogits
    rw [execute_ofRows, ok_bind]
    exact hlast
  · rw [hlen]
    simp [ofRows, pack]
  · have hk := congrArg (fun l : List (Option ρ) => l[k]?) hmap
    simp only [List.getElem?_map] at hk
    rw [show (ofRows rs).row k = rs[k]? from row_pack rs k]
    cases hr : rs[k]? with
    | none =>
      rw [hr] at hk
      simpa using hk
    | some r =>
      rw [hr] at hk
      cases hl : last[k]? with
      | none => rw [hl] at hk; cases hk
      | some x =>
        rw [hl] at hk
        exact Option.some.inj hk

end Rowwise

/-- A model that adds the position of a token to it. -/
def tokenPlusPosition : RowwiseModel ℕ where
  run row := row.map fun x => x.1 + x.2.1
  length_run row := List.length_map _
  run_padded xs n := by simp [paddedRow]

/-- A prefill sequence of three tokens and a decode sequence of one token after four. -/
theorem lastLogits_mixed : ∃ last, lastLogits tokenPlusPosition.forward
    (ofRows [⟨0, [7, 8, 9], 0, true, [0], {}⟩, ⟨1, [5], 4, false, [1], {}⟩]) = .ok last ∧
    last.length = 2 ∧ ∀ k, last[k]? = ((ofRows [⟨0, [7, 8, 9], 0, true, [0], {}⟩,
      ⟨1, [5], 4, false, [1], {}⟩]).row k).bind tokenPlusPosition.lastOutput :=
  lastLogits_rowwise tokenPlusPosition
    (ofRows [⟨0, [7, 8, 9], 0, true, [0], {}⟩, ⟨1, [5], 4, false, [1], {}⟩]) (by decide)

end MoeInfinity.Serving.PackedRunner
