import MoeInfinity.Kernel.Triton
import MoeInfinity.Runtime.PrefillIsolation

/-! # The fused decode attention

`kernel/fused_decode_attn.py`: a program for each sequence and each head goes over the cached tokens
of the sequence in tiles of `BLOCK_KV`, finds them by the block table, and keeps the running
softmax.

* `tile_tracks`: a round of the loop keeps the mass and the sum of the tokens seen so far.
* `kernel_eq`: a program loads only what is in the tensors, meets no number that is not finite, and
  stores the attention of its head over the tokens of its sequence.
* `fused_attends`: so does the launch for all of them, in whatever order the programs store. -/

namespace MoeInfinity.Kernel.DecodeAttention

open MoeInfinity.Python MoeInfinity.Lib.Grid MoeInfinity.Lib.OnlineSoftmax MoeInfinity.Lib.Strided
open MoeInfinity.Kernel.Triton MoeInfinity.Runtime.PrefillIsolation

variable {α : Type} [Field α] [LinearOrder α]

/-! ### The kernel -/

/-- The arguments of the kernel. -/
structure Args (α : Type) where
  query : Tensor α
  key : Tensor α
  value : Tensor α
  blockTables : Tensor ℤ
  seqLens : Tensor ℤ
  outShape : List ℕ
  scale : α
  headDim : ℕ
  blockSize : ℕ
  queryGroupSize : ℕ
  HEAD_DIM : ℕ
  BLOCK_KV : ℕ

/-- What the loop keeps. -/
structure Running (α : Type) where
  m_i : WithBot α
  l_i : α
  acc : ℕ → α

/-- The tile of a cache at the tokens from `token_start * BLOCK_KV` on. -/
def loadKv (k : Args α) (cache : Tensor α) (kv_head_idx seq_len token_start : ℕ)
    (physical_block_idx : ℕ → ℤ) :
    Option (ℕ → ℕ → α) :=
  loadTile k.BLOCK_KV k.HEAD_DIM fun t d =>
    if token_start * k.BLOCK_KV + t < seq_len ∧ d < k.headDim then
      cache.load [physical_block_idx t, ((token_start * k.BLOCK_KV + t) % k.blockSize : ℕ),
        kv_head_idx, d]
    else some 0

/-- A round of the loop. -/
def tile (exp : α → α) (k : Args α) (batch_idx kv_head_idx seq_len : ℕ) (q : ℕ → α) (r : Running α)
    (token_start : ℕ) : Option (Running α) := do
  let physical_block_idx ← loadLanes k.BLOCK_KV fun t =>
    if token_start * k.BLOCK_KV + t < seq_len then
      k.blockTables.load [batch_idx, ((token_start * k.BLOCK_KV + t) / k.blockSize : ℕ)]
    else some 0
  let key ← loadKv k k.key kv_head_idx seq_len token_start physical_block_idx
  let logits : ℕ → WithBot α := fun t =>
    if token_start * k.BLOCK_KV + t < seq_len then
      ((sumLanes k.HEAD_DIM fun d => key t d * q d) * k.scale : α)
    else ⊥
  let m_new := max r.m_i (maxLanes k.BLOCK_KV logits)
  let alpha ← expSub exp r.m_i m_new
  let p ← loadLanes k.BLOCK_KV fun t => expSub exp (logits t) m_new
  let p := fun t => if token_start * k.BLOCK_KV + t < seq_len then p t else 0
  let value ← loadKv k k.value kv_head_idx seq_len token_start physical_block_idx
  some
    { m_i := m_new
      l_i := r.l_i * alpha + sumLanes k.BLOCK_KV p
      acc := fun d => r.acc d * alpha + sumLanes k.BLOCK_KV fun t => value t d * p t }

/-- `_fused_decode_attention_kernel`, for the program of a sequence and a head: the cells it
stores. -/
def fusedDecodeAttentionKernel (exp bf16 : α → α) (k : Args α) (program : ℕ × ℕ) :
    Option (List (ℕ × α)) := do
  let batch_idx := program.1
  let head_idx := program.2
  let seq_len ← k.seqLens.load [batch_idx]
  if seq_len ≤ 0 then
    storeLanes k.HEAD_DIM k.headDim k.outShape (fun d => [batch_idx, head_idx, d]) fun _ => 0
  else
    let q ← loadLanes k.HEAD_DIM fun d =>
      if d < k.headDim then k.query.load [batch_idx, 0, head_idx, d] else some 0
    let r ← (List.range (cdiv seq_len.toNat k.BLOCK_KV)).foldlM
      (tile exp k batch_idx (head_idx / k.queryGroupSize) seq_len.toNat q) ⟨⊥, 0, fun _ => 0⟩
    storeLanes k.HEAD_DIM k.headDim k.outShape (fun d => [batch_idx, head_idx, d]) fun d =>
      bf16 (if 0 < r.l_i then r.acc d / r.l_i else 0)

/-! ### The launch -/

/-- The arguments of `fused_decode_attention`. -/
structure Inputs (α : Type) where
  query : Tensor α
  keyCache : Tensor α
  valueCache : Tensor α
  blockTables : Tensor ℤ
  seqLens : Tensor ℤ
  scale : α

namespace Inputs

variable (x : Inputs α)

def batch : ℕ := x.query.shape.getD 0 0

def numHeads : ℕ := x.query.shape.getD 2 0

def headDim : ℕ := x.query.shape.getD 3 0

def numBlocks : ℕ := x.keyCache.shape.getD 0 0

def blockSize : ℕ := x.keyCache.shape.getD 1 0

def numKvHeads : ℕ := x.keyCache.shape.getD 2 0

def maxBlocksPerSeq : ℕ := x.blockTables.shape.getD 1 0

/-- `seq_lens.max().item()`. -/
def maxSeqLen : Except PyError ℤ :=
  match (ravel x.seqLens.shape x.seqLens.entry).max? with
  | none =>
    .error (.runtimeError
      ("max(): Expected reduction dim to be specified for input.numel() == 0. " ++
        "Specify the reduction dim with the 'dim' argument."))
  | some n => .ok n

/-- The checks of `fused_decode_attention`. -/
def check : Except PyError Unit := do
  refuse (x.query.shape.length ≠ 4)
    (.valueError "query must have shape [batch, 1, num_heads, head_dim]")
  refuse (x.query.shape.getD 1 0 ≠ 1)
    (.valueError "decode attention expects exactly one query token")
  refuse (x.keyCache.shape.length ≠ 4 ∨ x.valueCache.shape.length ≠ 4)
    (.valueError
      "key_cache and value_cache must have shape [num_blocks, block_size, num_kv_heads, head_dim]")
  refuse (x.keyCache.shape ≠ x.valueCache.shape)
    (.valueError "key_cache and value_cache must have identical shapes")
  refuse (x.blockTables.shape.length ≠ 2)
    (.valueError "block_tables must have shape [batch, max_blocks_per_seq]")
  refuse (x.seqLens.shape.length ≠ 1) (.valueError "seq_lens must have shape [batch]")
  refuse (!(x.query.isCuda && x.keyCache.isCuda && x.valueCache.isCuda && x.blockTables.isCuda &&
    x.seqLens.isCuda)) (.valueError "fused_decode_attention requires CUDA tensors")
  refuse (x.query.dtype ≠ .bfloat16) (.valueError s!"query must be bf16, got {x.query.dtype.str}")
  refuse (x.keyCache.dtype ≠ .bfloat16 ∨ x.valueCache.dtype ≠ .bfloat16)
    (.valueError "key_cache and value_cache must be bf16")
  refuse (x.blockTables.dtype ≠ .int32) (.valueError "block_tables must be int32")
  refuse (x.seqLens.dtype ≠ .int32) (.valueError "seq_lens must be int32")
  refuse (x.keyCache.shape.getD 3 0 ≠ x.headDim)
    (.valueError "query and KV cache head_dim must match")
  refuse (x.blockTables.shape.getD 0 0 ≠ x.batch)
    (.valueError "block_tables batch dimension must match query")
  refuse (x.seqLens.shape.getD 0 0 ≠ x.batch)
    (.valueError "seq_lens batch dimension must match query")
  refuse (x.numKvHeads = 0) (.zeroDivisionError "integer division or modulo by zero")
  refuse (x.numHeads % x.numKvHeads ≠ 0) (.valueError "num_heads must be divisible by num_kv_heads")
  refuse (¬(x.headDim = 64 ∨ x.headDim = 128))
    (.valueError s!"head_dim must be 64 or 128, got {x.headDim}")
  refuse (x.numBlocks = 0) (.valueError "key_cache must contain at least one block")
  refuse (x.maxBlocksPerSeq = 0) (.valueError "block_tables must contain at least one block slot")
  let max_seq_len ← x.maxSeqLen
  refuse (max_seq_len > x.maxBlocksPerSeq * x.blockSize)
    (.valueError "seq_lens exceed block_tables capacity for the provided block_size")

/-- The arguments of the launch. -/
def args (BLOCK_KV : ℕ) : Args α where
  query := x.query
  key := x.keyCache
  value := x.valueCache
  blockTables := x.blockTables
  seqLens := x.seqLens
  outShape := [x.batch, x.numHeads, x.headDim]
  scale := x.scale
  headDim := x.headDim
  blockSize := x.blockSize
  queryGroupSize := x.numHeads / x.numKvHeads
  HEAD_DIM := x.headDim
  BLOCK_KV := BLOCK_KV

end Inputs

/-- `fused_decode_attention`, with the order in which the programs store, and what `torch.empty`
has. -/
def fusedDecodeAttention (exp bf16 : α → α) (schedule : List (ℕ × α) → List (ℕ × α)) (empty : ℕ → α)
    (BLOCK_KV : ℕ) (x : Inputs α) : Except PyError (Option (Tensor α)) := do
  x.check
  let shape := [x.batch, x.numHeads, x.headDim]
  if shape.prod = 0 then
    .ok (some ⟨shape, fun idx => empty (offset (strides shape) idx), x.query.dtype, x.query.device⟩)
  else
    let cells :=
      (grid2 x.batch x.numHeads).mapM (fusedDecodeAttentionKernel exp bf16 (x.args BLOCK_KV))
    .ok (cells.map fun cells =>
      ⟨shape, fun idx => stored empty (schedule cells.flatten) (offset (strides shape) idx),
        x.query.dtype, x.query.device⟩)

/-! ### What it computes -/

namespace Inputs

variable (x : Inputs α)

/-- What the checks say. -/
structure Checked : Prop where
  query : x.query.shape = [x.batch, 1, x.numHeads, x.headDim]
  key : x.keyCache.shape = [x.numBlocks, x.blockSize, x.numKvHeads, x.headDim]
  value : x.valueCache.shape = [x.numBlocks, x.blockSize, x.numKvHeads, x.headDim]
  tables : x.blockTables.shape = [x.batch, x.maxBlocksPerSeq]
  lens : x.seqLens.shape = [x.batch]
  kvHeads : 0 < x.numKvHeads
  ratio : x.numKvHeads ∣ x.numHeads
  covered : ∀ b < x.batch, x.seqLens.entry [b] ≤ x.maxBlocksPerSeq * x.blockSize

/-- The tensors have fewer than 2³¹ entries, and the caches have the blocks of the tokens. -/
structure Fits : Prop where
  query : x.query.shape.prod < 2 ^ 31
  cache : x.keyCache.shape.prod < 2 ^ 31
  tables : x.blockTables.shape.prod < 2 ^ 31
  lens : x.seqLens.shape.prod < 2 ^ 31
  blocks : ∀ b < x.batch, ∀ i < x.maxBlocksPerSeq, ((i * x.blockSize : ℕ) : ℤ) <
    x.seqLens.entry [b] → 0 ≤ x.blockTables.entry [b, i] ∧ x.blockTables.entry [b, i] < x.numBlocks

/-- The block of a token. -/
def block (b i : ℕ) : ℕ := (x.blockTables.entry [b, i / x.blockSize]).toNat

/-- The key and the value of a token. -/
def cached (b kv_head_idx i : ℕ) : (ℕ → α) × (ℕ → α) :=
  (fun d => x.keyCache.entry [x.block b i, i % x.blockSize, kv_head_idx, d],
    fun d => x.valueCache.entry [x.block b i, i % x.blockSize, kv_head_idx, d])

/-- Attention of a head over the tokens of a sequence. -/
def attention (exp bf16 : α → α) (b h d : ℕ) : α :=
  if x.seqLens.entry [b] ≤ 0 then 0
  else
    bf16 (attend exp x.scale x.headDim (fun d => x.query.entry [b, 0, h, d])
      ((List.range (x.seqLens.entry [b]).toNat).map (x.cached b (h / (x.numHeads / x.numKvHeads))))
      d)

end Inputs

section Checks

omit [Field α] [LinearOrder α]

theorem mem_ravel {β : Type} {shape idx : List ℕ} {entry : List ℕ → β} (h : Inside idx shape) :
    entry idx ∈ ravel shape entry :=
  List.mem_of_getElem? (getElem?_ravel entry h)

theorem le_of_maxSeqLen {x : Inputs α} {n : ℤ} (h : x.maxSeqLen = .ok n) {idx : List ℕ}
    (hidx : Inside idx x.seqLens.shape) : x.seqLens.entry idx ≤ n := by
  unfold Inputs.maxSeqLen at h
  split at h
  · cases h
  · rename_i m hm
    cases h
    exact (List.max?_eq_some_iff.mp hm).2 _ (mem_ravel hidx)

theorem checked_of_check {x : Inputs α} (h : x.check = .ok ()) : x.Checked := by
  unfold Inputs.check at h
  simp only [refuse_bind_eq_ok, not_not, not_or] at h
  obtain ⟨hquery, hone, ⟨hkey, -⟩, hsame, htables, hlens, -, -, -, -, -, hdim, hbatch, hlen, hkv,
    hratio, -, -, -, hrest⟩ := h
  have hkey : x.keyCache.shape = [x.numBlocks, x.blockSize, x.numKvHeads, x.headDim] :=
    (eq_of_length_four hkey).trans (by rw [hdim]; rfl)
  refine ⟨?_, hkey, hsame ▸ hkey, ?_, ?_, Nat.pos_of_ne_zero hkv, Nat.dvd_of_mod_eq_zero hratio,
    fun b hb => ?_⟩
  · exact (eq_of_length_four hquery).trans (by rw [hone]; rfl)
  · exact (eq_of_length_two htables).trans (by rw [hbatch]; rfl)
  · exact (eq_of_length_one hlens).trans (by rw [hlen])
  · cases hmax : x.maxSeqLen with
    | error e =>
      rw [hmax] at hrest
      cases hrest
    | ok n =>
      rw [hmax] at hrest
      have hn : ¬n > x.maxBlocksPerSeq * x.blockSize := refuse_eq_ok.mp hrest
      have hinside : Inside [b] x.seqLens.shape := by
        rw [eq_of_length_one hlens, hlen]
        exact .cons hb .nil
      exact (le_of_maxSeqLen hmax hinside).trans (Int.not_lt.mp hn)

end Checks

/-! ### A program -/

omit [LinearOrder α] in
/-- Attention is the mean of the values. -/
theorem attend_eq_mean (exp : α → α) (scale : α) (dim : ℕ) (q : ℕ → α)
    (kvs : List ((ℕ → α) × (ℕ → α))) (d : ℕ) :
    attend exp scale dim q kvs d =
      mean exp (kvs.map fun kv => (((dot dim q kv.1 * scale : α) : WithBot α), kv.2 d)) := by
  unfold attend mean mass total
  simp only [List.map_map, Function.comp_def, weight_coe, smul_eq_mul]
  rw [div_eq_mul_inv, mul_comm]
  simp only [mul_comm scale]

omit [LinearOrder α] in
theorem attend_congr {exp : α → α} {scale : α} {dim : ℕ} {q q' : ℕ → α} (h : ∀ d < dim, q d = q' d)
    (kvs : List ((ℕ → α) × (ℕ → α))) (d : ℕ) :
    attend exp scale dim q kvs d = attend exp scale dim q' kvs d := by
  have hdot : dot dim q = dot dim q' := by
    funext k
    refine congrArg List.sum (List.map_congr_left fun d hd => ?_)
    rw [h d (List.mem_range.mp hd)]
  unfold attend
  rw [hdot]

section Program

variable {x : Inputs α} {BLOCK_KV b kv n : ℕ} {exp bf16 : α → α}

/-- The tokens up to `m`, for one dimension of the value: those from `n` on are masked. -/
def seen (x : Inputs α) (b kv n : ℕ) (q : ℕ → α) (d m : ℕ) : List (WithBot α × α) :=
  (List.range m).map fun i =>
    (if i < n then ((dot x.headDim q (x.cached b kv i).1 * x.scale : α) : WithBot α) else ⊥,
      if i < n then (x.cached b kv i).2 d else 0)

/-- What the loop keeps is right for the tokens up to `m`. -/
def Kept (exp : α → α) (x : Inputs α) (b kv n : ℕ) (q : ℕ → α) (m : ℕ) (r : Running α) : Prop :=
  ∀ d < x.headDim, Tracks exp (seen x b kv n q d m) r.m_i r.l_i (r.acc d)

omit [Field α] [LinearOrder α] in
theorem load_block (h : x.Checked) (hfits : x.Fits) (hb : b < x.batch) {i : ℕ}
    (hi : (i : ℤ) < x.seqLens.entry [b]) :
    x.blockTables.load [b, (i / x.blockSize : ℕ)] = some (x.block b i : ℤ) ∧
    x.block b i < x.numBlocks ∧
      0 < x.blockSize := by
  have hlt : i < x.maxBlocksPerSeq * x.blockSize := by
    have := h.covered b hb
    omega
  have hbs : 0 < x.blockSize := by
    refine Nat.pos_of_ne_zero fun hzero => ?_
    rw [hzero, Nat.mul_zero] at hlt
    exact Nat.not_lt_zero i hlt
  have hplace : i / x.blockSize < x.maxBlocksPerSeq :=
    Nat.div_lt_of_lt_mul (Nat.mul_comm _ x.blockSize ▸ hlt)
  have hle : i / x.blockSize * x.blockSize ≤ i := Nat.div_mul_le_self i x.blockSize
  obtain ⟨hnonneg, hblock⟩ := hfits.blocks b hb _ hplace (by omega)
  have hinside : Inside [b, i / x.blockSize] x.blockTables.shape :=
    h.tables ▸ .cons hb (.cons hplace .nil)
  unfold Inputs.block
  refine ⟨?_, by omega, hbs⟩
  rw [Int.toNat_of_nonneg hnonneg]
  exact Tensor.load_eq hinside hfits.tables

omit [Field α] [LinearOrder α] in
theorem load_cache (h : x.Checked) (hsmall : x.keyCache.shape.prod < 2 ^ 31) {cache : Tensor α}
    (hcache : cache.shape = x.keyCache.shape) (hkv : kv < x.numKvHeads) {block i d : ℕ}
    (hblock : block < x.numBlocks) (hbs : 0 < x.blockSize) (hd : d < x.headDim) :
    cache.load [(block : ℤ), (i % x.blockSize : ℕ), kv, d] =
      some (cache.entry [block, i % x.blockSize, kv, d]) := by
  have hinside : Inside [block, i % x.blockSize, kv, d] cache.shape := by
    rw [hcache, h.key]
    exact .cons hblock (.cons (Nat.mod_lt i hbs) (.cons hkv (.cons hd .nil)))
  exact Tensor.load_eq hinside (by rw [hcache]; exact hsmall)

omit [LinearOrder α] in
/-- A tile of a cache has the entries of its tokens. -/
theorem loadKv_eq (h : x.Checked) (hfits : x.Fits) {cache : Tensor α}
    (hcache : cache.shape = x.keyCache.shape) (hb : b < x.batch) (hkv : kv < x.numKvHeads)
    (hn : (n : ℤ) = x.seqLens.entry [b]) (T : ℕ) {phys : ℕ → ℤ}
    (hphys : ∀ t < BLOCK_KV, T * BLOCK_KV + t < n → phys t = x.block b (T * BLOCK_KV + t)) :
    ∃ v, loadKv (x.args BLOCK_KV) cache kv n T phys = some v ∧
      ∀ t < BLOCK_KV, ∀ d < x.headDim, v t d = if T * BLOCK_KV + t < n then
        cache.entry [x.block b (T * BLOCK_KV + t), (T * BLOCK_KV + t) % x.blockSize, kv, d]
      else 0 := by
  refine loadTile_eq fun t ht d hd => ?_
  have hd : d < x.headDim := hd
  show (if T * BLOCK_KV + t < n ∧ d < x.headDim then _ else some (0 : α)) = _
  by_cases hi : T * BLOCK_KV + t < n
  · obtain ⟨-, hblock, hbs⟩ := load_block h hfits hb (i := T * BLOCK_KV + t) (by omega)
    rw [if_pos ⟨hi, hd⟩, if_pos hi, hphys t ht hi]
    exact load_cache h hfits.cache hcache hkv hblock hbs hd
  · rw [if_neg fun hand => hi hand.1, if_neg hi]

omit [LinearOrder α] in
theorem seen_add (q : ℕ → α) (d m B : ℕ) : seen x b kv n q d (m + B) = seen x b kv n q d m ++
    (List.range B).map fun t =>
      (if m + t < n
        then ((dot x.headDim q (x.cached b kv (m + t)).1 * x.scale : α) : WithBot α) else ⊥,
        if m + t < n then (x.cached b kv (m + t)).2 d else 0) := by
  unfold seen
  rw [List.range_add, List.map_append, List.map_map]
  rfl

/-- **A round** keeps what the loop keeps, of the tokens up to its own. -/
theorem tile_tracks (hexp : IsExp exp) (h : x.Checked) (hfits : x.Fits) (hB : 0 < BLOCK_KV)
    (hb : b < x.batch) (hkv : kv < x.numKvHeads) (hn : (n : ℤ) = x.seqLens.entry [b]) (q : ℕ → α)
    {T : ℕ} (hT : T < cdiv n BLOCK_KV) {r : Running α} (hr : Kept exp x b kv n q (T * BLOCK_KV) r) :
    ∃ r', tile exp (x.args BLOCK_KV) b kv n q r T = some r' ∧
      Kept exp x b kv n q ((T + 1) * BLOCK_KV) r' := by
  have hfirst : T * BLOCK_KV + 0 < n := mul_lt_of_lt_cdiv hT
  obtain ⟨phys, hphys, hphys'⟩ := loadLanes_eq (n := BLOCK_KV)
    (f := fun t => if T * BLOCK_KV + t < n
      then x.blockTables.load [b, ((T * BLOCK_KV + t) / x.blockSize : ℕ)] else some 0)
    (g := fun t => if T * BLOCK_KV + t < n then (x.block b (T * BLOCK_KV + t) : ℤ) else 0)
        fun t _ => by
      by_cases hi : T * BLOCK_KV + t < n
      · rw [if_pos hi, if_pos hi]
        exact (load_block h hfits hb (by omega)).1
      · rw [if_neg hi, if_neg hi]
  have hblock : ∀ t < BLOCK_KV, T * BLOCK_KV + t < n → phys t = x.block b (T * BLOCK_KV + t) := by
    intro t ht hi
    rw [hphys' t ht, if_pos hi]
  obtain ⟨key, hkey, hkey'⟩ := loadKv_eq h hfits (Eq.refl x.keyCache.shape) hb hkv hn T hblock
  obtain ⟨value, hvalue, hvalue'⟩ := loadKv_eq h hfits (h.value.trans h.key.symm) hb hkv hn T hblock
  let logits : ℕ → WithBot α := fun t =>
    if T * BLOCK_KV + t < n then ((sumLanes x.headDim fun d => key t d * q d) * x.scale : α) else ⊥
  have hlogits : ∀ t < BLOCK_KV, logits t =
      if T * BLOCK_KV + t < n then
        ((dot x.headDim q (x.cached b kv (T * BLOCK_KV + t)).1 * x.scale : α) : WithBot α)
      else ⊥ := by
    intro t ht
    show (if _ then _ else _) = _
    by_cases hi : T * BLOCK_KV + t < n
    · rw [if_pos hi, if_pos hi, WithBot.coe_inj, sumLanes, dot]
      refine congrArg (· * x.scale) (congrArg List.sum (List.map_congr_left fun d hd => ?_))
      rw [hkey' t ht d (List.mem_range.mp hd), if_pos hi, mul_comm]
      rfl
    · rw [if_neg hi, if_neg hi]
  have hmax : logits 0 ≤ max r.m_i (maxLanes BLOCK_KV logits) :=
    (le_maxLanes logits hB).trans (le_max_right _ _)
  obtain ⟨c, hc⟩ : ∃ c : α, (c : WithBot α) = max r.m_i (maxLanes BLOCK_KV logits) := by
    refine WithBot.ne_bot_iff_exists.mp fun hbot => ?_
    rw [hbot, hlogits 0 hB, if_pos hfirst] at hmax
    exact WithBot.not_coe_le_bot _ hmax
  have halpha : expSub exp r.m_i (max r.m_i (maxLanes BLOCK_KV logits)) =
      some (weight exp (shift c r.m_i)) := by
    rw [← hc, expSub_coe]
  obtain ⟨p, hp, hp'⟩ := loadLanes_eq (n := BLOCK_KV)
    (f := fun t => expSub exp (logits t) (max r.m_i (maxLanes BLOCK_KV logits)))
    (g := fun t => weight exp (shift c (logits t))) fun t _ => by rw [← hc, expSub_coe]
  refine ⟨_, Option.bind_eq_some_iff.mpr ⟨phys, hphys, Option.bind_eq_some_iff.mpr ⟨key, hkey,
    Option.bind_eq_some_iff.mpr ⟨_, halpha, Option.bind_eq_some_iff.mpr ⟨p, hp,
      Option.bind_eq_some_iff.mpr ⟨value, hvalue, rfl⟩⟩⟩⟩⟩, fun d hd => ?_⟩
  let tokens : List (WithBot α × α) := (List.range BLOCK_KV).map fun t =>
    (if T * BLOCK_KV + t < n
      then ((dot x.headDim q (x.cached b kv (T * BLOCK_KV + t)).1 * x.scale : α) : WithBot α)
        else ⊥, if T * BLOCK_KV + t < n then (x.cached b kv (T * BLOCK_KV + t)).2 d else 0)
  have hmass : (sumLanes BLOCK_KV fun t => if T * BLOCK_KV + t < n then p t else 0) =
      mass exp (shifted c tokens) := by
    unfold sumLanes mass shifted
    rw [List.map_map, List.map_map]
    refine congrArg List.sum (List.map_congr_left fun t ht => ?_)
    have ht := List.mem_range.mp ht
    rw [Function.comp_apply, Function.comp_apply, ← hlogits t ht, hp' t ht]
    split_ifs with hi
    · rfl
    · rw [hlogits t ht, if_neg hi]
      rfl
  have htotal : (sumLanes BLOCK_KV fun t => value t d * if T * BLOCK_KV + t < n then p t else 0) =
      total exp (shifted c tokens) := by
    unfold sumLanes total shifted
    rw [List.map_map, List.map_map]
    refine congrArg List.sum (List.map_congr_left fun t ht => ?_)
    have ht := List.mem_range.mp ht
    rw [Function.comp_apply, Function.comp_apply, ← hlogits t ht, hp' t ht, hvalue' t ht d hd,
      smul_eq_mul, mul_comm]
    split_ifs with hi
    · rfl
    · rw [zero_mul, mul_zero]
  have happend := (hr d hd).append hexp c tokens
  rw [← seen_add, ← Nat.succ_mul, hc, ← hmass, ← htotal, smul_eq_mul, mul_comm _ (r.acc d)]
    at happend
  exact happend

/-- **The loop** ends with the attention of the head. -/
theorem loop_eq [IsStrictOrderedRing α] (hexp : IsExp exp) (h : x.Checked) (hfits : x.Fits)
    (hB : 0 < BLOCK_KV) (hb : b < x.batch) (hkv : kv < x.numKvHeads)
    (hn : (n : ℤ) = x.seqLens.entry [b]) (hpos : 0 < n) (q : ℕ → α) :
    ∃ r, (List.range (cdiv n BLOCK_KV)).foldlM (tile exp (x.args BLOCK_KV) b kv n q)
      ⟨⊥, 0, fun _ => 0⟩ = some r ∧
      ∀ d < x.headDim, (if 0 < r.l_i then r.acc d / r.l_i else 0) =
        attend exp x.scale x.headDim q ((List.range n).map (x.cached b kv)) d := by
  obtain ⟨r, hrun, hkept⟩ := foldlM_range_inv
    (P := fun T r => Kept exp x b kv n q (T * BLOCK_KV) r) (b := (⟨⊥, 0, fun _ => 0⟩ : Running α))
    (fun d _ => by rw [Nat.zero_mul]; exact tracks_nil)
    fun T hT r hr => tile_tracks hexp h hfits hB hb hkv hn q hT hr
  refine ⟨r, hrun, fun d hd => ?_⟩
  have hseen : mean exp (seen x b kv n q d (cdiv n BLOCK_KV * BLOCK_KV)) =
      attend exp x.scale x.headDim q ((List.range n).map (x.cached b kv)) d := by
    unfold seen
    rw [mean_masked (le_cdiv_mul hB), attend_eq_mean, List.map_map]
    refine congrArg (mean exp) (List.map_congr_left fun i hi => ?_)
    rw [if_pos (List.mem_range.mp hi)]
    rfl
  have hsome : ∃ y ∈ seen x b kv n q d (cdiv n BLOCK_KV * BLOCK_KV), y.1 ≠ ⊥ := by
    refine ⟨_, List.mem_map_of_mem (List.mem_range.mpr (hpos.trans_le (le_cdiv_mul hB))), ?_⟩
    rw [if_pos hpos]
    exact WithBot.coe_ne_bot
  obtain ⟨hl, hmean⟩ := (hkept d hd).mean_eq hexp hsome
  rw [if_pos hl, div_eq_mul_inv, mul_comm, ← hseen, ← hmean, smul_eq_mul]

/-- **A program** returns, and stores the attention of its head. -/
theorem kernel_eq [IsStrictOrderedRing α] (hexp : IsExp exp) (h : x.Checked) (hfits : x.Fits)
    (hB : 0 < BLOCK_KV) {head : ℕ} (hb : b < x.batch) (hhead : head < x.numHeads) :
    fusedDecodeAttentionKernel exp bf16 (x.args BLOCK_KV) (b, head) =
      some ((List.range x.headDim).map fun d =>
      (offset (strides [x.batch, x.numHeads, x.headDim]) [b, head, d],
        x.attention exp bf16 b head d)) := by
  have hlen : x.seqLens.load [(b : ℤ)] = some (x.seqLens.entry [b]) := by
    have hinside : Inside [b] x.seqLens.shape := h.lens ▸ .cons hb .nil
    exact Tensor.load_eq hinside hfits.lens
  have hout : ∀ v : ℕ → α, storeLanes x.headDim x.headDim [x.batch, x.numHeads, x.headDim]
      (fun d => [(b : ℤ), (head : ℤ), (d : ℤ)]) v = some ((List.range x.headDim).map fun d =>
        (offset (strides [x.batch, x.numHeads, x.headDim]) [b, head, d], v d)) := by
    intro v
    have hinside : ∀ d < x.headDim, Inside [b, head, d] [x.batch, x.numHeads, x.headDim] :=
      fun d hd => .cons hb (.cons hhead (.cons hd .nil))
    refine storeLanes_eq v hinside (lt_of_eq_of_lt ?_ hfits.query)
    rw [h.query]
    simp
  unfold fusedDecodeAttentionKernel
  refine Option.bind_eq_some_iff.mpr ⟨_, hlen, ?_⟩
  by_cases hle : x.seqLens.entry [b] ≤ 0
  · rw [if_pos hle]
    refine (hout _).trans (congrArg some (List.map_congr_left fun d _ => ?_))
    rw [Inputs.attention, if_pos hle]
  · have hkv : head / (x.numHeads / x.numKvHeads) < x.numKvHeads :=
      Nat.div_lt_of_lt_mul (by rwa [Nat.div_mul_cancel h.ratio])
    obtain ⟨q, hq, hq'⟩ := loadLanes_eq (n := x.headDim)
      (f := fun d => if d < x.headDim then x.query.load [(b : ℤ), 0, head, d] else some 0)
      (g := fun d => x.query.entry [b, 0, head, d]) fun d hd => by
        have hinside : Inside [b, 0, head, d] x.query.shape :=
          h.query ▸ .cons hb (.cons Nat.one_pos (.cons hhead (.cons hd .nil)))
        rw [if_pos hd]
        exact Tensor.load_eq hinside hfits.query
    obtain ⟨r, hr, hr'⟩ := loop_eq hexp h hfits hB hb hkv (n := (x.seqLens.entry [b]).toNat)
      (by omega) (by omega) q
    rw [if_neg hle]
    refine Option.bind_eq_some_iff.mpr ⟨q, hq, Option.bind_eq_some_iff.mpr ⟨r, hr, ?_⟩⟩
    refine (hout _).trans (congrArg some (List.map_congr_left fun d hd => ?_))
    rw [hr' d (List.mem_range.mp hd), Inputs.attention, if_neg hle, attend_congr hq']

end Program

/-- **The decode attention.** Where the checks pass, all tensors have fewer than 2³¹ entries and the
block tables name blocks of the caches for all tokens, the launch loads nothing outside the tensors
and meets no number that is not finite. In whatever order its programs store, and for every size of
the tiles, it gives for each head the attention of the query over the cached tokens of its sequence,
rounded, and zeros for a sequence without tokens. -/
theorem fused_attends [IsStrictOrderedRing α] {exp bf16 : α → α} (hexp : IsExp exp)
    {schedule : List (ℕ × α) → List (ℕ × α)} (hschedule : ∀ cells, (schedule cells).Perm cells)
    (empty : ℕ → α) {BLOCK_KV : ℕ} (hB : 0 < BLOCK_KV) {x : Inputs α} (hcheck : x.check = .ok ())
    (hfits : x.Fits) :
    ∃ out, fusedDecodeAttention exp bf16 schedule empty BLOCK_KV x = .ok (some out) ∧
      out.shape = [x.batch, x.numHeads, x.headDim] ∧
      ∀ b < x.batch, ∀ h < x.numHeads, ∀ d < x.headDim,
        out.entry [b, h, d] = x.attention exp bf16 b h d := by
  have hchecked := checked_of_check hcheck
  unfold fusedDecodeAttention
  rw [hcheck]
  by_cases hzero : [x.batch, x.numHeads, x.headDim].prod = 0
  · refine ⟨_, if_pos hzero, rfl, fun b hb h hh d hd => ?_⟩
    simp only [List.prod_cons, List.prod_nil, mul_one, mul_eq_zero] at hzero
    omega
  · have hcells : (grid2 x.batch x.numHeads).mapM
        (fusedDecodeAttentionKernel exp bf16 (x.args BLOCK_KV)) =
          some ((grid2 x.batch x.numHeads).map fun p => (List.range x.headDim).map fun d =>
          (offset (strides [x.batch, x.numHeads, x.headDim]) [p.1, p.2, d],
            x.attention exp bf16 p.1 p.2 d)) :=
      mapM_eq_pure fun p hp => kernel_eq hexp hchecked hfits hB (mem_grid2.mp hp).1
        (mem_grid2.mp hp).2
    exact ⟨_, (if_neg hzero).trans (congrArg (fun c => Except.ok (Option.map _ c)) hcells), rfl,
      fun b hb h hh d hd => stored_rows hschedule empty (x.attention exp bf16) hb hh hd⟩

/-- One sequence of two tokens with values 1 and 3, in block 1 of two. -/
def twoTokens : Inputs ℝ where
  query := ⟨[1, 1, 2, 64], fun _ => 1, .bfloat16, .cuda 0⟩
  keyCache := ⟨[2, 2, 1, 64], fun _ => 0, .bfloat16, .cuda 0⟩
  valueCache :=
    ⟨[2, 2, 1, 64], fun idx => ((if idx.getD 1 0 = 0 then 1 else 3 : ℕ) : ℝ), .bfloat16, .cuda 0⟩
  blockTables := ⟨[1, 1], fun _ => 1, .int32, .cuda 0⟩
  seqLens := ⟨[1], fun _ => 2, .int32, .cuda 0⟩
  scale := 1

theorem fused_attends_twoTokens :
    ∃ out, fusedDecodeAttention Real.exp id List.reverse (fun _ => 0) 32 twoTokens =
      .ok (some out) ∧ ∀ h < 2, ∀ d < 64, out.entry [0, h, d] = 2 := by
  obtain ⟨out, hout, -, hentry⟩ :=
    @fused_attends ℝ _ _ _ Real.exp id ⟨Real.exp_pos, Real.exp_add⟩ List.reverse List.reverse_perm
      (fun _ => 0) 32 (by decide) twoTokens rfl
    ⟨by decide, by decide, by decide, by decide, fun _ _ _ _ _ => ⟨Int.one_nonneg, Int.lt_succ 1⟩⟩
  refine ⟨out, hout, fun h hh d hd => ?_⟩
  have hdot : dot 64 (fun _ => (1 : ℝ)) (fun _ => 0) = 0 := by
    unfold dot
    simp
  have hattend : attend Real.exp 1 64 (fun _ => 1)
      [(fun _ => 0, fun _ => ((1 : ℕ) : ℝ)), (fun _ => 0, fun _ => ((3 : ℕ) : ℝ))] d = 2 := by
    unfold attend
    simp only [List.map_cons, List.map_nil, List.sum_cons, List.sum_nil, hdot, mul_zero,
      Real.exp_zero]
    norm_num
  rw [hentry 0 Nat.one_pos h hh d hd, Inputs.attention, if_neg (by decide)]
  exact hattend

end MoeInfinity.Kernel.DecodeAttention
