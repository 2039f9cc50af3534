import Mathlib.Algebra.BigOperators.Group.List.Basic
import Mathlib.Algebra.Order.BigOperators.Group.List
import Mathlib.Algebra.Order.Field.Basic
import Mathlib.Analysis.Complex.Exponential
import MoeInfinity.Runtime.KvLayout

/-! # The prefill of several sequences

A prefill without FlashInfer in `runtime/attention_backend.py`: the tokens of all sequences of the
batch lie in one dimension, and `scaled_dot_product_attention` is called on it once with
`is_causal`. This function is a parameter that is causal attention, as it is documented; the
exponential function is one that is positive.

* `forward_eq`: the prefill returns, and gives causal attention over the packed tokens.
* `own_iff`: it is causal attention over the tokens of each sequence alone, for all contents of the
  batch, exactly when at most one of its sequences has tokens. -/

namespace MoeInfinity.Runtime.PrefillIsolation

open MoeInfinity.Python MoeInfinity.Lib.Imperative MoeInfinity.Lib.Packed
  MoeInfinity.Runtime.KvLayout

variable {α : Type} [Field α]

/-! ### Attention -/

def dot (dim : ℕ) (q k : ℕ → α) : α := ((List.range dim).map fun d => q d * k d).sum

/-- The softmax of the scores of the keys, times the values. -/
def attend (exp : α → α) (scale : α) (dim : ℕ) (q : ℕ → α) (kvs : List ((ℕ → α) × (ℕ → α)))
    (d : ℕ) : α :=
  (kvs.map fun kv => exp (scale * dot dim q kv.1) * kv.2 d).sum /
    (kvs.map fun kv => exp (scale * dot dim q kv.1)).sum

/-- The rows of query, key and value of a token. -/
structure PromptToken (α : Type) where
  query : Row α
  key : Row α
  value : Row α

/-- Causal attention: token `j` sees the tokens up to its own. -/
def causalAttention (exp : α → α) (scale : α) (dim : ℕ) (tokens : List (PromptToken α)) :
    List (Row α) :=
  tokens.zipIdx.map fun p h =>
    attend exp scale dim (p.1.query h) ((tokens.take (p.2 + 1)).map fun t => (t.key h, t.value h))

/-! ### The forward -/

/-- The query, the key and the value of a batch. -/
structure Inputs (α : Type) where
  numHeads : ℕ
  numKvHeads : ℕ
  headDim : ℕ
  tokens : List (PromptToken α)

def Inputs.key (x : Inputs α) : Rows α := ⟨x.numKvHeads, x.headDim, x.tokens.map (·.key)⟩

def Inputs.value (x : Inputs α) : Rows α := ⟨x.numKvHeads, x.headDim, x.tokens.map (·.value)⟩

/-- `scaled_dot_product_attention` with `is_causal`: scale, head dimension and tokens. -/
abbrev Sdpa (α : Type) := α → ℕ → List (PromptToken α) → List (Row α)

/-- `repeat_interleave` of the heads of key and value. -/
def repeatInterleave (head_ratio : ℕ) (t : PromptToken α) : PromptToken α where
  query := t.query
  key h := t.key (h / head_ratio)
  value h := t.value (h / head_ratio)

/-- `_prefill_forward` without FlashInfer. -/
def prefillForward (sdpa : Sdpa α) (scale : α) (x : Inputs α) : Except PyError (List (Row α)) :=
  if x.numKvHeads = 0 then
    .error (.zeroDivisionError "integer division or modulo by zero")
  else if x.numHeads % x.numKvHeads ≠ 0 then
    .error (.valueError "query num_heads must be divisible by num_kv_heads")
  else
    let head_ratio := x.numHeads / x.numKvHeads
    .ok (sdpa scale x.headDim (if head_ratio > 1 then x.tokens.map (repeatInterleave head_ratio)
      else x.tokens))

/-- `forward` in prefill mode without FlashInfer. -/
def forward (sdpa : Sdpa α) (scale : α) (x : Inputs α) (slot_mapping : Option (List ℤ)) :
    Prog PyError (PagedAttentionBackend α) (List (Row α)) :=
  match slot_mapping with
  | none => raise (.valueError "prefill requires slot_mapping")
  | some slots => do
    writeKv x.key x.value slots
    ofExcept (prefillForward sdpa scale x)

/-- Slots that the cache has. -/
def ValidSlots (b : PagedAttentionBackend α) (slots : List ℤ) : Prop :=
  ∀ s ∈ slots, 0 ≤ s ∧ s.toNat / b.spec.blockSize < b.numGpuBlocks

/-- A backend for a model with `numHeads` heads. -/
structure Fits (b : PagedAttentionBackend α) (numHeads : ℕ) : Prop where
  blockSize : 0 < b.spec.blockSize
  headDim : 0 < b.spec.headDim
  parts : 8 ∣ b.spec.headDim
  heads : 0 < numHeads
  ratio : b.spec.numKvHeads ∣ numHeads

variable {b : PagedAttentionBackend α} {numHeads : ℕ} {sdpa : Sdpa α} {exp : α → α} {scale : α}

/-- The inputs of a batch whose sequences have these tokens. -/
def inputs (b : PagedAttentionBackend α) (numHeads : ℕ) (seqs : List (List (PromptToken α))) :
    Inputs α :=
  ⟨numHeads, b.spec.numKvHeads, b.spec.headDim, seqs.flatten⟩

/-- Causal attention over one sequence, where heads of the query share a head of key and value. -/
def sequenceAttention (exp : α → α) (scale : α) (b : PagedAttentionBackend α) (numHeads : ℕ)
    (tokens : List (PromptToken α)) : List (Row α) :=
  causalAttention exp scale b.spec.headDim
    (tokens.map (repeatInterleave (numHeads / b.spec.numKvHeads)))

/-- Causal attention over the tokens of each sequence alone. -/
def ownAttention (exp : α → α) (scale : α) (b : PagedAttentionBackend α) (numHeads : ℕ)
    (seqs : List (List (PromptToken α))) : List (Row α) :=
  seqs.flatMap (sequenceAttention exp scale b numHeads)

omit [Field α] in
theorem wp_writeKv (h : Fits b numHeads) (seqs : List (List (PromptToken α))) {slots : List ℤ}
    (hlen : slots.length = seqs.flatten.length) (hslots : ValidSlots b slots) :
    wp (writeKv (inputs b numHeads seqs).key (inputs b numHeads seqs).value slots) (fun _ _ => True)
      (fun _ _ => False) b := by
  unfold writeKv writeTokens
  simp only [wp_bind, wp_current, wp_ite, wp_raise]
  refine ⟨fun h => h ?_,
    fun _ => ⟨fun h => h ?_, fun _ => ⟨fun h => h rfl, fun _ => ⟨fun h => h rfl, fun _ => ?_⟩⟩⟩⟩
  · unfold Rows.shape Inputs.key Inputs.value inputs
    rw [List.length_map, List.length_map]
  · unfold Inputs.key inputs
    rw [List.length_map, hlen]
  refine wp_mono
    (wp_forEach (fun rest b' => b'.spec = b.spec ∧ ∀ p ∈ rest, p.1 ∈ slots) ?_ _ b ⟨rfl, ?_⟩)
    (fun _ _ _ => trivial) fun _ _ h => h
  · rintro p rest b' ⟨hspec, hrest⟩
    obtain ⟨hnonneg, hlt⟩ := hslots p.1 (hrest p List.mem_cons_self)
    obtain ⟨m, hm⟩ := h.parts
    simp only [wp_ite, wp_raise, wp_bind, wp_current, wp_update]
    refine ⟨fun h => absurd h (by omega), fun _ => ⟨fun h' => absurd h' h.blockSize.ne', fun _ =>
      ⟨fun h => absurd h (by omega), fun _ => ⟨fun h => absurd ?_ h, fun _ => ?_⟩⟩⟩⟩
    · rw [hspec, hm, Nat.mul_div_cancel_left m (by decide), Nat.mul_assoc, Nat.mul_comm m 8]
    · exact ⟨hspec, fun p' hp' => hrest p' (List.mem_cons_of_mem p hp')⟩
  · intro p hp
    exact (List.of_mem_zip hp).1

omit [Field α] in
theorem map_repeatInterleave_one (tokens : List (PromptToken α)) :
    tokens.map (repeatInterleave 1) = tokens := by
  have hone : repeatInterleave (α := α) 1 = id := by
    funext t
    unfold repeatInterleave
    simp only [Nat.div_one, id]
  rw [hone, List.map_id]

/-- **The prefill returns** causal attention over the packed tokens, as if they were one
sequence. -/
theorem forward_eq
    (hsdpa : ∀ scale dim tokens, sdpa scale dim tokens = causalAttention exp scale dim tokens)
    (h : Fits b numHeads) (seqs : List (List (PromptToken α))) {slots : List ℤ}
    (hlen : slots.length = seqs.flatten.length) (hslots : ValidSlots b slots) :
    ∃ b', (forward sdpa scale (inputs b numHeads seqs) (some slots)).run b =
      (b', .ok (sequenceAttention exp scale b numHeads seqs.flatten)) := by
  have hkv : 0 < b.spec.numKvHeads := Nat.pos_of_dvd_of_pos h.ratio h.heads
  have hprefill : prefillForward sdpa scale (inputs b numHeads seqs) =
      .ok (sequenceAttention exp scale b numHeads seqs.flatten) := by
    unfold prefillForward inputs
    dsimp only
    rw [if_neg hkv.ne', if_neg fun hne => hne (Nat.mod_eq_zero_of_dvd h.ratio), hsdpa]
    unfold sequenceAttention
    split
    · rfl
    · -- a ratio of one leaves the heads as they are
      have hpos := Nat.div_pos (Nat.le_of_dvd h.heads h.ratio) hkv
      have hone : numHeads / b.spec.numKvHeads = 1 := by omega
      rw [hone, map_repeatInterleave_one]
  have hwp : wp (forward sdpa scale (inputs b numHeads seqs) (some slots))
      (fun out _ => out = sequenceAttention exp scale b numHeads seqs.flatten)
        (fun _ _ => False) b := by
    unfold forward
    dsimp only
    rw [wp_bind, hprefill]
    exact wp_mono (wp_writeKv h seqs hlen hslots) (fun _ _ _ => (wp_ofExcept_ok _).mpr rfl)
      fun _ _ h => h
  obtain ⟨b', out, hrun, rfl⟩ := exists_of_wp hwp
  exact ⟨b', hrun⟩

/-! ### Which batches are kept apart -/

/-- Rows of the same entries, where the output has entries. -/
def Agree (b : PagedAttentionBackend α) (numHeads : ℕ) : List (Row α) → List (Row α) → Prop :=
  List.Forall₂ fun r r' => ∀ h < numHeads, ∀ d < b.spec.headDim, r h d = r' h d

/-- **Sequences are kept apart**: for all contents of sequences of these lengths, the prefill
returns for every token the attention over the tokens of its own sequence. -/
def KeptApart (sdpa : Sdpa α) (exp : α → α) (scale : α) (b : PagedAttentionBackend α) (numHeads : ℕ)
    (slots : List ℤ) (lengths : List ℕ) : Prop :=
  ∀ seqs : List (List (PromptToken α)), seqs.map List.length = lengths →
    ∃ b' out, (forward sdpa scale (inputs b numHeads seqs) (some slots)).run b = (b', .ok out) ∧
      Agree b numHeads out (ownAttention exp scale b numHeads seqs)

/-- At most one sequence has tokens. -/
def AtMostOne (lengths : List ℕ) : Prop := (lengths.filter (0 < ·)).length ≤ 1

variable (exp scale b numHeads) in
theorem sequenceAttention_flatten {seqs : List (List (PromptToken α))}
    (h : AtMostOne (seqs.map List.length)) :
    sequenceAttention exp scale b numHeads seqs.flatten =
      ownAttention exp scale b numHeads seqs := by
  induction seqs with
  | nil => rfl
  | cons tokens seqs ih =>
    unfold ownAttention AtMostOne at *
    rw [List.flatten_cons, List.flatMap_cons]
    by_cases htokens : tokens = []
    · subst htokens
      exact ih h
    · -- all sequences after the first one with tokens are empty
      have hpos : 0 < tokens.length := List.length_pos_iff.mpr htokens
      rw [List.map_cons, List.filter_cons, if_pos (by simpa using hpos), List.length_cons] at h
      have hrest : ∀ tokens' ∈ seqs, tokens' = [] := by
        have hnil := List.length_eq_zero_iff.mp (Nat.le_zero.mp (Nat.le_of_succ_le_succ h))
        rw [List.filter_eq_nil_iff] at hnil
        intro tokens' htokens'
        have hzero := hnil tokens'.length (List.mem_map_of_mem htokens')
        simpa using hzero
      have hflatten : seqs.flatten = [] := List.flatten_eq_nil_iff.mpr hrest
      have hflatMap : seqs.flatMap (sequenceAttention exp scale b numHeads) = [] := by
        rw [List.flatMap_eq_nil_iff]
        intro tokens' htokens'
        rw [hrest tokens' htokens']
        rfl
      rw [hflatten, hflatMap, List.append_nil, List.append_nil]

/-- Otherwise a sequence with tokens stands behind other tokens. -/
theorem exists_behind : ∀ {lengths : List ℕ}, ¬ AtMostOne lengths →
    ∃ ls m ls', lengths = ls ++ (m + 1) :: ls' ∧ 0 < ls.sum
  | [], h => absurd (Nat.zero_le 1) h
  | l :: lengths, h => by
    unfold AtMostOne at h
    by_cases hl : 0 < l
    · rw [List.filter_cons, if_pos (by simpa using hl), List.length_cons] at h
      obtain ⟨m, hm⟩ := List.exists_mem_of_length_pos (l := lengths.filter (0 < ·)) (by omega)
      obtain ⟨hm, hpos⟩ := List.mem_filter.mp hm
      obtain ⟨ls, ls', rfl⟩ := List.append_of_mem hm
      have hpos : 0 < m := by simpa using hpos
      refine ⟨l :: ls, m - 1, ls', ?_, ?_⟩
      · rw [Nat.sub_add_cancel hpos]
        rfl
      · rw [List.sum_cons]
        omega
    · rw [List.filter_cons, if_neg (by simpa using hl)] at h
      obtain ⟨ls, m, ls', rfl, hsum⟩ := exists_behind h
      exact ⟨l :: ls, m, ls', rfl, by rw [List.sum_cons]; omega⟩

/-- A token whose query and key are zero, with a value that is everywhere `v`. -/
def flatToken (v : α) : PromptToken α := ⟨fun _ _ => 0, fun _ _ => 0, fun _ _ => v⟩

variable (exp scale b numHeads) in
/-- The row of a token: the attention of its query to the tokens up to it. -/
theorem getElem?_sequenceAttention (before after : List (PromptToken α)) (x : PromptToken α) :
    (sequenceAttention exp scale b numHeads (before ++ x :: after))[before.length]? =
      some fun h => attend exp scale b.spec.headDim (x.query h) ((before ++ [x]).map fun t =>
        (t.key (h / (numHeads / b.spec.numKvHeads)),
            t.value (h / (numHeads / b.spec.numKvHeads)))) := by
  have htake : (before ++ x :: after).take (before.length + 1) = before ++ [x] := by
    rw [List.take_length_add_append, List.take_succ_cons, List.take_zero]
  rw [sequenceAttention, causalAttention, List.getElem?_map, List.getElem?_zipIdx,
    List.getElem?_map, List.getElem?_append_right le_rfl, Nat.sub_self, List.getElem?_cons_zero,
    Option.map_some, Option.map_some,
    Option.map_some, Nat.zero_add]
  dsimp only
  rw [← List.map_take, htake]
  simp only [List.map_map, Function.comp_def]
  rfl

theorem length_sequenceAttention (tokens : List (PromptToken α)) :
    (sequenceAttention exp scale b numHeads tokens).length = tokens.length := by
  rw [sequenceAttention, causalAttention, List.length_map, List.length_zipIdx, List.length_map]

variable (exp scale b numHeads) in
theorem getElem?_own (before after : List (List (PromptToken α))) (x : PromptToken α)
    (tokens : List (PromptToken α)) :
    (ownAttention exp scale b numHeads (before ++ (x :: tokens) :: after))[before.flatten.length]? =
      some fun h => attend exp scale b.spec.headDim (x.query h) ([x].map fun t =>
        (t.key (h / (numHeads / b.spec.numKvHeads)),
            t.value (h / (numHeads / b.spec.numKvHeads)))) := by
  have hlen : (before.flatMap (sequenceAttention exp scale b numHeads)).length =
      before.flatten.length := by
    rw [List.length_flatMap, List.length_flatten]
    simp only [length_sequenceAttention]
  rw [ownAttention, List.flatMap_append, List.getElem?_append_right hlen.le, hlen, Nat.sub_self,
    List.flatMap_cons,
    List.getElem?_append_left (by rw [length_sequenceAttention]; exact Nat.succ_pos _)]
  exact getElem?_sequenceAttention b numHeads exp scale [] tokens x

/-- Where sequences are kept apart, the tokens before the first one of a sequence make no difference
for it. -/
theorem KeptApart.attend_eq {slots : List ℤ} {lengths : List ℕ}
    (hsdpa : ∀ scale dim tokens, sdpa scale dim tokens = causalAttention exp scale dim tokens)
    (hapart : KeptApart sdpa exp scale b numHeads slots lengths) (hfits : Fits b numHeads)
    (hslots : ValidSlots b slots) (hlen : slots.length = lengths.sum)
    {before after : List (List (PromptToken α))} {x : PromptToken α} {tokens : List (PromptToken α)}
    (hseqs : (before ++ (x :: tokens) :: after).map List.length = lengths) {h d : ℕ}
    (hh : h < numHeads) (hd : d < b.spec.headDim) :
    attend exp scale b.spec.headDim (x.query h) ((before.flatten ++ [x]).map fun t =>
        (t.key (h / (numHeads / b.spec.numKvHeads)),
          t.value (h / (numHeads / b.spec.numKvHeads)))) d =
      attend exp scale b.spec.headDim (x.query h) ([x].map fun t =>
        (t.key (h / (numHeads / b.spec.numKvHeads)),
            t.value (h / (numHeads / b.spec.numKvHeads)))) d := by
  obtain ⟨b', out, hrun, hagree⟩ := hapart _ hseqs
  obtain ⟨b'', hrun'⟩ := forward_eq hsdpa hfits _ (by rw [hlen, List.length_flatten, hseqs]) hslots
  rw [hrun', Prod.mk.injEq, Except.ok.injEq] at hrun
  have hout :=
    getElem?_sequenceAttention b numHeads exp scale before.flatten (tokens ++ after.flatten) x
  rw [← List.cons_append, ← List.flatten_cons, ← List.flatten_append, hrun.2] at hout
  have hown := getElem?_own b numHeads exp scale before after x tokens
  obtain ⟨hlt, hout⟩ := List.getElem?_eq_some_iff.mp hout
  obtain ⟨hlt', hown⟩ := List.getElem?_eq_some_iff.mp hown
  have hentry := hagree.get hlt hlt' h hh d hd
  rw [List.get_eq_getElem, List.get_eq_getElem] at hentry
  dsimp only at hentry
  rwa [hout, hown] at hentry

/-- In the attention of each sequence alone, the outputs of a sequence depend on no other one, and
on the order in which they are packed by their place only. -/
theorem own_slice {seqs : List (List (PromptToken α))} {k : ℕ} {tokens : List (PromptToken α)}
    (hk : seqs[k]? = some tokens) :
    slice (ownAttention exp scale b numHeads seqs) (((seqs.map List.length).take k).sum)
      (((seqs.map List.length).take (k + 1)).sum) =
      sequenceAttention exp scale b numHeads tokens := by
  have hlengths : (seqs.map (sequenceAttention exp scale b numHeads)).map List.length =
      seqs.map List.length := by
    rw [List.map_map]
    exact List.map_congr_left fun tokens _ => length_sequenceAttention tokens
  have hget : (seqs.map (sequenceAttention exp scale b numHeads))[k]? =
      some (sequenceAttention exp scale b numHeads tokens) := by
    rw [List.getElem?_map, hk]
    rfl
  have hslice := slice_flatten hget
  rwa [hlengths, ← List.flatMap_def] at hslice

variable (exp scale) in
/-- Equal scores: the values are averaged. -/
theorem attend_flat (dim : ℕ) (vs : List α) (d : ℕ) :
    attend exp scale dim (fun _ => 0) (vs.map fun v => (fun _ => 0, fun _ => v)) d =
      exp 0 * vs.sum / (vs.length * exp 0) := by
  have hdot : ∀ k : ℕ → α, dot dim (fun _ => 0) k = 0 := by
    intro k
    unfold dot
    simp only [zero_mul, List.map_const', List.sum_replicate, smul_zero]
  unfold attend
  simp only [hdot, mul_zero, List.map_map, Function.comp_def, List.map_const', List.sum_replicate,
    nsmul_eq_mul]
  rw [List.sum_map_mul_left vs (fun v => v) (exp 0), List.map_id']

section Order

variable [LinearOrder α] [IsStrictOrderedRing α]

/-- Behind other tokens, the first token of a sequence sees them: where their values are one and its
own is zero, its output is not zero. -/
theorem not_keptApart
    (hsdpa : ∀ scale dim tokens, sdpa scale dim tokens = causalAttention exp scale dim tokens)
    (hexp : ∀ x, 0 < exp x) (hfits : Fits b numHeads) {slots : List ℤ} {ls ls' : List ℕ} {m : ℕ}
    (hsum : 0 < ls.sum) (hlen : slots.length = (ls ++ (m + 1) :: ls').sum)
    (hslots : ValidSlots b slots) :
    ¬ KeptApart sdpa exp scale b numHeads slots (ls ++ (m + 1) :: ls') := by
  intro hapart
  have hbefore : (ls.map fun l => (List.replicate l (1 : α)).map flatToken).flatten =
      (List.replicate ls.sum (1 : α)).map flatToken := by
    clear hsum hlen hapart
    induction ls with
    | nil => rfl
    | cons l ls ih =>
      rw [List.map_cons, List.flatten_cons, ih, List.sum_cons, ← List.map_append,
        List.replicate_append_replicate]
  have hlengths : ((ls.map fun l => (List.replicate l (1 : α)).map flatToken) ++
      (flatToken 0 :: List.replicate m (flatToken 0)) :: ls'.map fun l =>
      List.replicate l (flatToken 0)).map
        List.length = ls ++ (m + 1) :: ls' := by
    simp [Function.comp_def]
  have heq := hapart.attend_eq hsdpa hfits hslots hlen hlengths hfits.heads hfits.headDim
  rw [hbefore, ← List.map_singleton, ← List.map_append, List.map_map, List.map_map] at heq
  have hpacked := attend_flat exp scale b.spec.headDim (List.replicate ls.sum (1 : α) ++ [0]) 0
  have hown := attend_flat exp scale b.spec.headDim [(0 : α)] 0
  have hzero := hpacked.symm.trans (heq.trans hown)
  rw [List.sum_append, List.sum_replicate, List.sum_singleton, add_zero, nsmul_eq_mul,
    mul_one, mul_zero, zero_div, List.length_append, List.length_replicate,
    List.length_singleton] at hzero
  have hpos : 0 < exp 0 * (ls.sum : α) / (((ls.sum + 1 : ℕ) : α) * exp 0) := by
    have hcast : (0 : α) < ls.sum := Nat.cast_pos.mpr hsum
    have hcast' : (0 : α) < ((ls.sum + 1 : ℕ) : α) := Nat.cast_pos.mpr (Nat.succ_pos _)
    exact div_pos (mul_pos (hexp 0) hcast) (mul_pos hcast' (hexp 0))
  exact hpos.ne' hzero

/-- **Exactly the batches in which at most one sequence has tokens are kept apart.** -/
theorem own_iff
    (hsdpa : ∀ scale dim tokens, sdpa scale dim tokens = causalAttention exp scale dim tokens)
    (hexp : ∀ x, 0 < exp x) (h : Fits b numHeads) {slots : List ℤ} {lengths : List ℕ}
    (hlen : slots.length = lengths.sum) (hslots : ValidSlots b slots) :
    KeptApart sdpa exp scale b numHeads slots lengths ↔ AtMostOne lengths := by
  constructor
  · intro hapart
    by_contra hmost
    obtain ⟨ls, m, ls', rfl, hsum⟩ := exists_behind hmost
    exact not_keptApart hsdpa hexp h hsum hlen hslots hapart
  · rintro hmost seqs rfl
    obtain ⟨b', hrun⟩ := forward_eq hsdpa h seqs (by rw [hlen, List.length_flatten]) hslots
    refine ⟨b', _, hrun, ?_⟩
    rw [sequenceAttention_flatten b numHeads exp scale hmost]
    exact List.forall₂_same.mpr fun _ _ _ _ _ _ => rfl

end Order

/-! ### Two prompts -/

/-- A cache of four blocks of two tokens without entries. -/
def blank (α : Type) [Zero α] : PagedAttentionBackend α :=
  ⟨⟨1, 8, 2⟩, 4, fun _ _ _ _ _ => 0, fun _ _ _ _ => 0, none⟩

theorem fits_blank : Fits (blank ℝ) 1 := ⟨by decide, by decide, by decide, by decide, by decide⟩

theorem validSlots_blank : ValidSlots (blank ℝ) [0, 2] := by
  intro s hs
  simp only [List.mem_cons, List.not_mem_nil, or_false] at hs
  rcases hs with rfl | rfl <;> decide

theorem own_iff_single : KeptApart (causalAttention Real.exp) Real.exp 1 (blank ℝ) 1 [0, 2] [2, 0] ↔
    AtMostOne [2, 0] :=
  own_iff (fun _ _ _ => rfl) Real.exp_pos fits_blank rfl validSlots_blank

/-- Two prompts of one token each: the output of the second one changes with the value of the first
one. -/
theorem second_sees_first : ∃ b₁ b₂ out₁ out₂ r₁ r₂,
    (forward (causalAttention Real.exp) 1 (inputs (blank ℝ) 1 [[flatToken 2], [flatToken 0]])
      (some [0, 2])).run (blank ℝ) = (b₁, .ok out₁) ∧
    (forward (causalAttention Real.exp) 1 (inputs (blank ℝ) 1 [[flatToken 0], [flatToken 0]])
    (some [0, 2])).run
      (blank ℝ) = (b₂, .ok out₂) ∧
    out₁[1]? = some r₁ ∧ out₂[1]? = some r₂ ∧ r₁ 0 0 = 1 ∧ r₂ 0 0 = 0 := by
  have hsdpa : ∀ scale dim (tokens : List (PromptToken ℝ)),
      causalAttention Real.exp scale dim tokens = causalAttention Real.exp scale dim tokens :=
        fun _ _ _ => rfl
  obtain ⟨b₁, hrun₁⟩ := forward_eq hsdpa fits_blank [[flatToken 2], [flatToken 0]] rfl
    validSlots_blank
  obtain ⟨b₂, hrun₂⟩ := forward_eq hsdpa fits_blank [[flatToken 0], [flatToken 0]] rfl
    validSlots_blank
  refine ⟨b₁, b₂, _, _, _, _, hrun₁, hrun₂, getElem?_sequenceAttention _ _ _ _ [flatToken 2] [] _,
    getElem?_sequenceAttention _ _ _ _ [flatToken 0] [] _, ?_, ?_⟩
  · refine (attend_flat Real.exp 1 _ [2, 0] 0).trans ?_
    rw [Real.exp_zero]
    norm_num
  · refine (attend_flat Real.exp 1 _ [0, 0] 0).trans ?_
    rw [Real.exp_zero]
    norm_num

end MoeInfinity.Runtime.PrefillIsolation
