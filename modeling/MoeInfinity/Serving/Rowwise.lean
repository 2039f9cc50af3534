import Mathlib.Data.Nat.Cast.Basic
import MoeInfinity.Serving.EngineStep

/-! # Models that compute row by row

Without a paged context the model gets one padded row per sequence of the batch. If the logits at
the real positions of a row are a function of the real tokens of this row and their positions
(`RowLocal`), the packed logits of a batch are the concatenation of these functions' values,
whichever way the batch is split into calls, and each sequence is sampled from the last logits of
its own row. -/

namespace MoeInfinity.Serving.Rowwise

open MoeInfinity.Python MoeInfinity.Lib.Imperative
open MoeInfinity.Serving.Sequence MoeInfinity.Serving.Schedule MoeInfinity.Serving.Batch
open MoeInfinity.Serving.ModelRunner MoeInfinity.Serving.EngineStep

variable {ρ : Type}

/-- The logits of a row, from its tokens and their positions. -/
structure RowModel (ρ : Type) where
  logits : List (ℕ × ℕ) → List ρ
  length_logits : ∀ xs, (logits xs).length = xs.length

/-- The real tokens of the rows of a call, with their positions. -/
def realRows (inputs : ForwardInputs) : List (List (ℕ × ℕ)) :=
  (inputs.inputIds.zip (inputs.positionIds.zip inputs.attentionMask)).map fun row =>
    (row.1.zip row.2.1).take row.2.2.sum

/-- The logits that a model returns are those of `L` at the real positions. -/
def LogitsOf (L : RowModel ρ) (rows : List (List (ℕ × ℕ))) : Logits ρ → Prop
  | .rank3 ls => List.Forall₂ (fun xs l => l.take xs.length = L.logits xs) rows ls
  | .rank2 ls => ls = rows.flatMap L.logits
  | .other _ => True

/-- Without a paged context, the logits at the real positions of a row depend on the real tokens of
this row and their positions only. -/
def RowLocal (env : Env ρ) (L : RowModel ρ) : Prop :=
  ∀ history inputs logits, inputs.metadata = none → env.forward history inputs = .ok logits →
    LogitsOf L (realRows inputs) logits

/-- The tokens of a row of the batch, with their positions. -/
def rowTokens (r : BatchRow) : List (ℕ × ℕ) := r.tokens.zip (positions r)

theorem length_rowTokens (r : BatchRow) : (rowTokens r).length = r.tokens.length := by
  unfold rowTokens positions
  rw [List.length_zip, List.length_range', Nat.min_self]

variable (L : RowModel ρ)

def rowLogits (r : BatchRow) : List ρ := L.logits (rowTokens r)

theorem length_rowLogits (r : BatchRow) : (rowLogits L r).length = r.tokens.length :=
  (L.length_logits _).trans (length_rowTokens r)

/-! ### One call -/

theorem sum_mask (w : ℕ) (tokens : List ℕ) :
    (padded w (tokens.map fun _ => 1)).sum = tokens.length := by
  unfold padded
  rw [List.sum_append, List.sum_replicate, List.map_const', List.sum_replicate]
  simp

theorem take_zip_padded (w : ℕ) (r : BatchRow) :
    ((padded w r.tokens).zip (padded w (positions r))).take r.tokens.length =
      r.tokens.zip (positions r) := by
  have hlen : r.tokens.length = (positions r).length := List.length_range'.symm
  unfold padded
  rw [List.zip_append hlen, List.take_append_of_le_length (by rw [List.length_zip]; omega),
    List.take_of_length_le (by rw [List.length_zip]; omega)]

theorem realRows_prepareInputs (b : BatchMetadata) :
    realRows (prepareInputs b none) = b.rows.map rowTokens := by
  unfold realRows prepareInputs
  simp only [List.zip_map', List.map_map]
  refine List.map_congr_left fun r _ => ?_
  simp only [Function.comp_apply, sum_mask, take_zip_padded]
  rfl

variable {L}

/-- The packed logits of a call are the logits of the rows. -/
theorem maskedRows_eq : ∀ {rows : List BatchRow} {ls : List (List ρ)},
    List.Forall₂ (fun xs l => l.take xs.length = L.logits xs) (rows.map rowTokens) ls →
    maskedRows rows ls = rows.flatMap (rowLogits L)
  | [], ls, _ => by cases ls <;> rfl
  | r :: rows, [], h => by cases h
  | r :: rows, l :: ls, h => by
    rw [List.map_cons, List.forall₂_cons] at h
    rw [maskedRows, List.flatMap_cons, maskedRows_eq h.2, ← length_rowTokens, h.1]
    rfl

theorem packLogits_eq {b : BatchMetadata} {logits : Logits ρ} {packed : List ρ}
    (h : LogitsOf L (b.rows.map rowTokens) logits) (hp : packLogits b logits = .ok packed) :
    packed = b.rows.flatMap (rowLogits L) := by
  cases logits with
  | rank2 ls =>
    rw [← Except.ok.inj hp, show ls = _ from h, List.flatMap_map]
    rfl
  | rank3 ls =>
    simp only [packLogits] at hp
    split_ifs at hp
    rw [← Except.ok.inj hp]
    exact maskedRows_eq h
  | other rank => cases hp

/-- A call without a paged context returns the logits of the rows. -/
theorem execute_logits {env : Env ρ} (hL : RowLocal env L) (hpaged : env.usePagedContext = false)
    {calls calls' : List Call} {b : BatchMetadata} {logits : List ρ}
    (h : execute env calls b = (calls', .ok logits)) : logits = b.rows.flatMap (rowLogits L) := by
  have hinputs : callInputs env b = .ok (prepareInputs b none) := by
    unfold callInputs
    rw [hpaged]
    rfl
  unfold execute at h
  split_ifs at h with hzero
  · have hl : [] = logits := Except.ok.inj (congrArg Prod.snd h)
    have hlen : (b.rows.flatMap (rowLogits L)).length = b.totalTokens := by
      unfold BatchMetadata.totalTokens BatchMetadata.inputTokenIds
      rw [List.length_flatMap, List.length_flatMap]
      exact congrArg List.sum (List.map_congr_left fun r _ => length_rowLogits L r)
    rw [← hl]
    exact (List.eq_nil_of_length_eq_zero (hlen.trans hzero)).symm
  · rw [hinputs] at h
    have hres := congrArg Prod.snd h
    obtain ⟨out, hf, hres⟩ := ok_of_bind hres
    have hof := hL _ _ out rfl hf
    rw [realRows_prepareInputs] at hof
    obtain ⟨packed, hp, hres⟩ := ok_of_bind hres
    rw [← packLogits_eq hof hp]
    split_ifs at hres with hcount
    · cases hres
    · exact (Except.ok.inj hres).symm

/-! ### The whole batch -/

/-- Also when prefill and decode rows are run apart, the packed logits are those of the rows. -/
theorem recombine_flatMap (L : BatchRow → List ρ) (hL : ∀ r, (L r).length = r.tokens.length) :
    ∀ rows : List BatchRow,
    recombineOutputs rows ((rows.filter (·.isPrefill = true)).flatMap L)
      ((rows.filter (·.isPrefill = false)).flatMap L) = rows.flatMap L
  | [] => rfl
  | r :: rows => by
    have htake : ∀ ls : List ρ, (L r ++ ls).take r.tokens.length = L r := fun ls => by
      rw [← hL r, List.take_left]
    have hdrop : ∀ ls : List ρ, (L r ++ ls).drop r.tokens.length = ls := fun ls => by
      rw [← hL r, List.drop_left]
    rw [recombineOutputs, List.flatMap_cons]
    cases hp : r.isPrefill with
    | true =>
      have hpos : (r :: rows).filter (·.isPrefill = true) = r :: rows.filter (·.isPrefill = true) :=
        List.filter_cons_of_pos (by simpa using hp)
      have hneg : (r :: rows).filter (·.isPrefill = false) = rows.filter (·.isPrefill = false) :=
        List.filter_cons_of_neg (by simp [hp])
      rw [if_pos rfl, hpos, hneg, List.flatMap_cons, htake, hdrop, recombine_flatMap L hL rows]
    | false =>
      have hpos : (r :: rows).filter (·.isPrefill = false) = r ::
          rows.filter (·.isPrefill = false) :=
        List.filter_cons_of_pos (by simpa using hp)
      have hneg : (r :: rows).filter (·.isPrefill = true) = rows.filter (·.isPrefill = true) :=
        List.filter_cons_of_neg (by simp [hp])
      rw [if_neg Bool.false_ne_true, hpos, hneg, List.flatMap_cons, htake, hdrop,
        recombine_flatMap L hL rows]

theorem executeBatch_logits {env : Env ρ} (hL : RowLocal env L)
    (hpaged : env.usePagedContext = false) {calls calls' : List Call} {b : BatchMetadata}
    {logits : List ρ} (h : executeBatch env calls b = (calls', .ok logits)) :
    logits = b.rows.flatMap (rowLogits L) := by
  unfold executeBatch at h
  simp only at h
  split_ifs at h with hone
  · exact execute_logits hL hpaged h
  · cases hpre : execute env calls (sliceBatch b true) with
    | mk calls₁ r =>
      rw [hpre] at h
      cases r with
      | error err => cases h
      | ok prefill =>
        simp only at h
        cases hdec : execute env calls₁ (sliceBatch b false) with
        | mk calls₂ r =>
          rw [hdec] at h
          cases r with
          | error err => cases h
          | ok decode =>
            have hl : recombineOutputs b.rows prefill decode = logits :=
              Except.ok.inj (congrArg Prod.snd h)
            rw [← hl, execute_logits hL hpaged hpre, execute_logits hL hpaged hdec]
            exact recombine_flatMap (rowLogits L) (length_rowLogits L) b.rows

/-- The rows that are sampled are the last ones of each sequence. -/
theorem extractLast_flatMap {L : BatchRow → List ρ} (hL : ∀ r, (L r).length = r.tokens.length) :
    ∀ {rows : List BatchRow} {last : List ρ},
    extractLastTokenLogits rows (rows.flatMap L) = .ok last →
    last.map some = rows.map fun r => (L r).getLast?
  | [], last, h => by
    unfold extractLastTokenLogits at h
    rw [← Except.ok.inj h]
    rfl
  | r :: rows, last, h => by
    have hr := hL r
    unfold extractLastTokenLogits at h
    split_ifs at h with hzero
    rw [List.flatMap_cons, List.getElem?_append_left (by omega),
      List.drop_append_of_le_length (by omega), List.drop_eq_nil_of_le (by omega),
      List.nil_append, ← hr, ← List.getLast?_eq_getElem?] at h
    cases hlast : (L r).getLast? with
    | none => rw [hlast] at h; cases h
    | some l =>
      rw [hlast] at h
      obtain ⟨rest, hrest, h⟩ := ok_of_bind h
      have hl : l :: rest = last := Except.ok.inj h
      rw [← hl, List.map_cons, List.map_cons, extractLast_flatMap hL hrest, hlast]

/-- The token of a sequence is sampled from the last row of its logits. -/
theorem sample_rows {env : Env ρ} {calls : List Call} {L : BatchRow → List ρ} :
    ∀ {rows : List BatchRow} {last : List ρ} {tokens : List ℕ},
    last.map some = (rows.map fun r => (L r).getLast?) →
    sample env calls last (rows.map (·.samplingParams)) = .ok tokens →
    ∀ i t, (i, t) ∈ (rows.map (·.seqId)).zip tokens → ∃ r ∈ rows, r.seqId = i ∧
      ∃ row, (L r).getLast? = some row ∧ sampleRow env calls row r.samplingParams = .ok t
  | [], _, _, _, _, _, _, hmem => absurd hmem List.not_mem_nil
  | r :: rows, [], _, hlast, _, _, _, _ => by cases hlast
  | r :: rows, l :: last, tokens, hlast, hs, i, t, hmem => by
    rw [List.map_cons, List.map_cons, List.cons.injEq] at hlast
    rw [List.map_cons, sample] at hs
    obtain ⟨t₀, hrow, hs⟩ := ok_of_bind hs
    obtain ⟨ts, hrest, hs⟩ := ok_of_bind hs
    have htok : t₀ :: ts = tokens := Except.ok.inj hs
    rw [← htok, List.map_cons, List.zip_cons_cons, List.mem_cons] at hmem
    rcases hmem with heq | hmem
    · obtain ⟨rfl, rfl⟩ := Prod.mk.inj heq
      exact ⟨r, List.mem_cons_self, rfl, l, hlast.1.symm, hrow⟩
    · obtain ⟨r', hr', hid, row, hget, hsample⟩ := sample_rows hlast.2 hrest i t hmem
      exact ⟨r', List.mem_cons_of_mem r hr', hid, row, hget, hsample⟩

/-- **The token of a sequence** of the batch is sampled from the last logits of its row. -/
theorem sampled_row {env : Env ρ} (hL : RowLocal env L) (hpaged : env.usePagedContext = false)
    {calls calls' : List Call} {b : BatchMetadata} {tokens : List ℕ}
    (h : Sampled env calls b calls' tokens) {i t : ℕ} (hmem : (i, t) ∈ b.seqIds.zip tokens) :
    ∃ r ∈ b.rows, r.seqId = i ∧ ∃ row, (rowLogits L r).getLast? = some row ∧
      sampleRow env calls' row r.samplingParams = .ok t := by
  obtain ⟨logits, last, hexec, hlast, hsample⟩ := h
  rw [executeBatch_logits hL hpaged hexec] at hlast
  exact sample_rows (extractLast_flatMap (length_rowLogits L) hlast) hsample i t hmem

end MoeInfinity.Serving.Rowwise
