import MoeInfinity.Kernel.DecodeAttention

/-! # Paged attention

`kernel/paged_attention_ops.py` and the kernel of `extensions/kernel/paged_attention.cu` that it
calls where the module is there and all tensors are on a GPU: one thread for each sequence and each
head goes over the tokens three times, for the maximum of the scores, for the sum of their
exponentials, and for each dimension of the value. Otherwise the blocks are gathered and
`scaled_dot_product_attention` is called, which is a parameter. `_decode_forward` of
`runtime/attention_backend.py` calls it with the caches of the backend, which have the dtype of the
device; the query is converted to it.

* `kernel_eq`, `fallback_eq`: both compute attention over the cached tokens.
* `decode_own`: so that, with either of them, a decode attends to the tokens of its own sequence, as
  they were written last, whatever was written for other sequences. -/

namespace MoeInfinity.Kernel.PagedAttentionOps

open MoeInfinity.Python MoeInfinity.Lib.Grid MoeInfinity.Lib.OnlineSoftmax MoeInfinity.Lib.Strided
open MoeInfinity.Kernel.Triton MoeInfinity.Kernel.DecodeAttention
  MoeInfinity.Runtime.PrefillIsolation
open MoeInfinity.Runtime.KvLayout MoeInfinity.Lib.Imperative

variable {α : Type} [Field α] [LinearOrder α]

/-- The arguments of `paged_attention_v1`, and of the fallback. -/
structure Call (α : Type) where
  query : Tensor α
  keyCache : Tensor α
  valueCache : Tensor α
  numKvHeads : ℕ
  scale : α
  blockTables : Tensor ℤ
  seqLens : Tensor ℤ
  blockSize : ℕ
  maxSeqLen : ℤ

namespace Call

variable (c : Call α)

def numSeqs : ℕ := c.query.shape.getD 0 0

def numHeads : ℕ := c.query.shape.getD 1 0

def headSize : ℕ := c.query.shape.getD 2 0

/-- The last dimension of the cache of keys: the length of the parts of the head dimension. -/
def x : ℕ := c.keyCache.shape.getD 4 0

def numBlocks : ℕ := c.keyCache.shape.getD 0 0

def maxNumBlocksPerSeq : ℕ := c.blockTables.shape.getD 1 0

end Call

/-! ### The kernel -/

section Kernel

variable (exp cast : α → α) (c : Call α)

/-- The block of a token: the table is read without strides, at a place in 32 bits. -/
def physicalBlock (seq_idx token_idx : ℕ) : Option ℤ :=
  load (ravel c.blockTables.shape c.blockTables.entry)
    (((seq_idx * c.maxNumBlocksPerSeq + token_idx / c.blockSize : ℕ) : ℤ).bmod (2 ^ 32))

/-- The product of the query and the key of a token, which each pass computes anew. -/
def qk (seq_idx head_idx kv_head_idx token_idx : ℕ) : Option α := do
  let physical_block ← physicalBlock c seq_idx token_idx
  (List.range c.headSize).foldlM (fun qk (d : ℕ) => do
    let q ← c.query.load64 [seq_idx, head_idx, d]
    let k ← c.keyCache.load64
      [physical_block, kv_head_idx, (d / c.x : ℕ), (token_idx % c.blockSize : ℕ), (d % c.x : ℕ)]
    some (qk + q * k)) 0

/-- The first pass. -/
def maxLogit (seq_idx head_idx kv_head_idx seq_len : ℕ) : Option (WithBot α) :=
  (List.range seq_len).foldlM (fun max_logit token_idx => do
    let qk ← qk c seq_idx head_idx kv_head_idx token_idx
    some (max max_logit ((qk * c.scale : α) : WithBot α))) ⊥

/-- The second pass. -/
def denominator (seq_idx head_idx kv_head_idx seq_len : ℕ) (max_logit : WithBot α) : Option α :=
  (List.range seq_len).foldlM (fun denom token_idx => do
    let qk ← qk c seq_idx head_idx kv_head_idx token_idx
    let e ← expSub exp ((qk * c.scale : α) : WithBot α) max_logit
    some (denom + e)) 0

/-- The last pass, for one dimension of the value. -/
def accumulate (seq_idx head_idx kv_head_idx seq_len : ℕ) (max_logit : WithBot α) (denom : α)
    (d_out : ℕ) :
    Option α :=
  (List.range seq_len).foldlM (fun acc token_idx => do
    let physical_block ← physicalBlock c seq_idx token_idx
    let qk ← qk c seq_idx head_idx kv_head_idx token_idx
    let e ← expSub exp ((qk * c.scale : α) : WithBot α) max_logit
    let v ← c.valueCache.load64 [physical_block, kv_head_idx, d_out, (token_idx % c.blockSize : ℕ)]
    some (acc + e / denom * v)) 0

/-- `paged_attention_v1_kernel`, for the first thread of a block: the cells it stores. -/
def pagedAttentionV1Kernel (outShape : List ℕ) (block : ℕ × ℕ) : Option (List (ℕ × α)) := do
  let seq_idx := block.1
  let head_idx := block.2
  let seq_len ← load (ravel c.seqLens.shape c.seqLens.entry) (seq_idx : ℤ)
  if seq_len ≤ 0 then
    (List.range c.headSize).mapM fun (d : ℕ) => store64 outShape [seq_idx, head_idx, d] 0
  else
    let kv_head_idx := head_idx / (c.numHeads / c.numKvHeads)
    let max_logit ← maxLogit c seq_idx head_idx kv_head_idx seq_len.toNat
    let denom ← denominator exp c seq_idx head_idx kv_head_idx seq_len.toNat max_logit
    if denom ≤ 0 then
      (List.range c.headSize).mapM fun (d : ℕ) => store64 outShape [seq_idx, head_idx, d] 0
    else
      (List.range c.headSize).mapM fun (d_out : ℕ) => do
        let acc ← accumulate exp c seq_idx head_idx kv_head_idx seq_len.toNat max_logit denom d_out
        store64 outShape [seq_idx, head_idx, d_out] (cast acc)

/-- The checks of `paged_attention_v1` before the launch. -/
def checkV1 (out : Tensor α) : Except PyError Unit := do
  refuse (!out.isCuda) (.runtimeError "out must be CUDA tensor")
  refuse (!c.query.isCuda) (.runtimeError "query must be CUDA tensor")
  refuse (!c.keyCache.isCuda) (.runtimeError "key_cache must be CUDA tensor")
  refuse (!c.valueCache.isCuda) (.runtimeError "value_cache must be CUDA tensor")
  refuse (!c.blockTables.isCuda) (.runtimeError "block_tables must be CUDA tensor")
  refuse (!c.seqLens.isCuda) (.runtimeError "seq_lens must be CUDA tensor")
  refuse (c.query.shape.length ≠ 3) (.runtimeError "query must be [num_seqs, num_heads, head_size]")
  refuse (c.keyCache.shape.length ≠ 5)
    (.runtimeError "key_cache must be [num_blocks, num_kv_heads, head_size/x, block_size, x]")
  refuse (c.valueCache.shape.length ≠ 4)
    (.runtimeError "value_cache must be [num_blocks, num_kv_heads, head_size, block_size]")
  refuse (c.blockTables.shape.length ≠ 2)
    (.runtimeError "block_tables must be [num_seqs, max_num_blocks_per_seq]")
  refuse (c.seqLens.shape.length ≠ 1) (.runtimeError "seq_lens must be [num_seqs]")
  refuse (c.query.dtype ≠ c.keyCache.dtype) (.runtimeError "query and key_cache dtypes must match")
  refuse (c.query.dtype ≠ c.valueCache.dtype)
    (.runtimeError "query and value_cache dtypes must match")
  refuse (c.blockTables.dtype ≠ .int32) (.runtimeError "block_tables must be int32")
  refuse (c.seqLens.dtype ≠ .int32) (.runtimeError "seq_lens must be int32")
  refuse (c.numHeads % c.numKvHeads ≠ 0)
    (.runtimeError "num_heads must be divisible by num_kv_heads")
  refuse (c.keyCache.shape.getD 1 0 ≠ c.numKvHeads)
    (.runtimeError "key_cache num_kv_heads mismatch")
  refuse (c.valueCache.shape.getD 1 0 ≠ c.numKvHeads)
    (.runtimeError "value_cache num_kv_heads mismatch")
  refuse (c.keyCache.shape.getD 3 0 ≠ c.blockSize)
    (.runtimeError "key_cache block_size mismatch with block_size argument")
  refuse (c.valueCache.shape.getD 3 0 ≠ c.blockSize)
    (.runtimeError "value_cache block_size mismatch with block_size argument")
  refuse (c.keyCache.shape.getD 2 0 * c.x ≠ c.headSize)
    (.runtimeError "key_cache head_size/x * x must equal query head_size")
  refuse (c.valueCache.shape.getD 2 0 ≠ c.headSize) (.runtimeError "value_cache head_size mismatch")
  refuse (c.blockTables.shape.getD 0 0 ≠ c.numSeqs)
    (.runtimeError "block_tables first dimension must equal num_seqs")
  refuse (c.seqLens.shape.getD 0 0 ≠ c.numSeqs) (.runtimeError "seq_lens size must equal num_seqs")
  refuse (c.maxSeqLen < 0) (.runtimeError "max_seq_len must be non-negative")
  refuse (c.maxNumBlocksPerSeq = 0) (.runtimeError "max_num_blocks_per_seq must be > 0")
  refuse (out.shape.getD 0 0 ≠ c.numSeqs ∨ out.shape.getD 1 0 ≠ c.numHeads ∨
    out.shape.getD 2 0 ≠ c.headSize) (.runtimeError "out shape must match query shape")

/-- `paged_attention_v1`, with the order in which the threads store: `out` afterwards. A launch
fails without heads or sequences, and with more sequences than a grid has rows. -/
def pagedAttentionV1 (schedule : List (ℕ × α) → List (ℕ × α)) (out : Tensor α) :
    Except PyError (Option (Tensor α)) := do
  checkV1 c out
  let cells := (grid2 c.numSeqs c.numHeads).mapM (pagedAttentionV1Kernel exp cast c out.shape)
  refuse (c.numHeads = 0 ∨ c.numSeqs = 0 ∨ 65535 < c.numSeqs)
    (.runtimeError "paged_attention_v1 launch failed: invalid configuration argument")
  refuse (c.numBlocks = 0) (.runtimeError "key_cache must have at least one block")
  .ok (cells.map fun cells =>
    { out with
      entry :=
        fun idx => stored (fun a => (ravel out.shape out.entry).getD a 0) (schedule cells.flatten)
          (offset (strides out.shape) idx) })

end Kernel

/-! ### The fallback -/

/-- `scaled_dot_product_attention` for one head: scale, head dimension, query and the rows of keys
and values. -/
abbrev Sdpa (α : Type) := α → ℕ → (ℕ → α) → List ((ℕ → α) × (ℕ → α)) → ℕ → α

/-- An index of a dimension of a tensor: a negative one counts from the end. -/
def pyIndex (dim size : ℕ) (i : ℤ) : Except PyError ℕ :=
  if 0 ≤ i ∧ i < size then .ok i.toNat
  else if -size ≤ i ∧ i < 0 then .ok (i + size).toNat
  else .error (.indexError s!"index {i} is out of bounds for dimension {dim} with size {size}")

section Fallback

variable (sdpa : Sdpa α) (c : Call α)

/-- The keys and values of a block up to `tokens_in_block`, after the permutation of the
dimensions. -/
def gatherBlock (seq_idx seq_len b : ℕ) : Except PyError (List (Row α × Row α)) := do
  let slot ← pyIndex 1 c.maxNumBlocksPerSeq b
  let phys_block ← pyIndex 0 c.numBlocks (c.blockTables.entry [seq_idx, slot])
  refuse (c.keyCache.shape.getD 3 0 ≠ c.blockSize)
    (.runtimeError "shape is invalid for input of size")
  .ok ((List.range (min c.blockSize (seq_len - b * c.blockSize))).map fun t =>
    (fun h d => c.keyCache.entry [phys_block, h, d / c.x, t, d % c.x],
      fun h d => c.valueCache.entry [phys_block, h, d, t]))

/-- The output for one sequence. -/
def attendSequence (seq_idx : ℕ) : Except PyError (Row α) := do
  let i ← pyIndex 0 (c.seqLens.shape.getD 0 0) seq_idx
  let seq_len := c.seqLens.entry [i]
  if seq_len ≤ 0 then .ok fun _ _ => 0
  else if c.blockSize = 0 then .error (.zeroDivisionError "integer division or modulo by zero")
  else
    let blocks ← (List.range ((seq_len.toNat + c.blockSize - 1) / c.blockSize)).mapM
      (gatherBlock c seq_idx seq_len.toNat)
    let head_ratio := c.numHeads / c.numKvHeads
    .ok fun h => sdpa c.scale c.headSize (fun d => c.query.entry [seq_idx, h, d])
      (blocks.flatten.map fun row => (row.1 (h / head_ratio), row.2 (h / head_ratio)))

/-- `_paged_attention_sdpa_fallback`. -/
def fallback : Except PyError (Tensor α) := do
  refuse (c.numKvHeads = 0) (.zeroDivisionError "integer division or modulo by zero")
  refuse (c.numHeads % c.numKvHeads ≠ 0) (.valueError "num_heads must be divisible by num_kv_heads")
  let outputs ← (List.range c.numSeqs).mapM (attendSequence sdpa c)
  refuse (outputs = []) (.runtimeError "torch.cat(): expected a non-empty list of Tensors")
  .ok { c.query with
    entry := fun idx => (outputs.getD (idx.getD 0 0) fun _ _ => 0) (idx.getD 1 0) (idx.getD 2 0) }

end Fallback

/-! ### What they compute -/

namespace Call

variable (c : Call α)

/-- The number of the parts of the head dimension. -/
def chunks : ℕ := c.keyCache.shape.getD 2 0

/-- Tensors of the right shapes, where the block tables name blocks of the caches for all tokens. -/
structure Valid : Prop where
  query : c.query.shape = [c.numSeqs, c.numHeads, c.headSize]
  key : c.keyCache.shape = [c.numBlocks, c.numKvHeads, c.chunks, c.blockSize, c.x]
  value : c.valueCache.shape = [c.numBlocks, c.numKvHeads, c.headSize, c.blockSize]
  tables : c.blockTables.shape = [c.numSeqs, c.maxNumBlocksPerSeq]
  lens : c.seqLens.shape = [c.numSeqs]
  parts : c.chunks * c.x = c.headSize
  kvHeads : 0 < c.numKvHeads
  ratio : c.numKvHeads ∣ c.numHeads
  blockSize : 0 < c.blockSize
  blocks : ∀ s < c.numSeqs, ∀ i : ℕ, (i : ℤ) < c.seqLens.entry [s] →
    i / c.blockSize < c.maxNumBlocksPerSeq ∧ 0 ≤ c.blockTables.entry [s, i / c.blockSize] ∧
    c.blockTables.entry [s, i / c.blockSize] < c.numBlocks

/-- A grid that can be launched, and a block table whose places fit 32 bits. -/
structure Launches : Prop where
  heads : 0 < c.numHeads
  seqs : 0 < c.numSeqs ∧ c.numSeqs ≤ 65535
  table : c.numSeqs * c.maxNumBlocksPerSeq ≤ 2 ^ 31

/-- The block of a token. -/
def block (s i : ℕ) : ℕ := (c.blockTables.entry [s, i / c.blockSize]).toNat

/-- The key and the value of a token. -/
def cached (s kv_head_idx i : ℕ) : (ℕ → α) × (ℕ → α) :=
  (fun d => c.keyCache.entry [c.block s i, kv_head_idx, d / c.x, i % c.blockSize, d % c.x],
    fun d => c.valueCache.entry [c.block s i, kv_head_idx, d, i % c.blockSize])

/-- Attention of a head over the tokens of a sequence. -/
def attention (exp cast : α → α) (s h d : ℕ) : α :=
  if c.seqLens.entry [s] ≤ 0 then 0
  else
    cast (attend exp c.scale c.headSize (fun d => c.query.entry [s, h, d])
      ((List.range (c.seqLens.entry [s]).toNat).map (c.cached s (h / (c.numHeads / c.numKvHeads))))
      d)

end Call

section Kernel

variable {exp cast : α → α} {c : Call α} {s h kv n : ℕ}

/-- The score of a token. -/
def score (c : Call α) (s h kv i : ℕ) : α :=
  dot c.headSize (fun d => c.query.entry [s, h, d]) (c.cached s kv i).1 * c.scale

/-- The tokens of a sequence with their scores. -/
def scored (c : Call α) (s h kv n : ℕ) (value : ℕ → α) : List (WithBot α × α) :=
  (List.range n).map fun i => (((score c s h kv i : α) : WithBot α), value i)

omit [Field α] [LinearOrder α] in
theorem physicalBlock_eq (hc : c.Valid) (hl : c.Launches) (hs : s < c.numSeqs) {i : ℕ}
    (hi : (i : ℤ) < c.seqLens.entry [s]) :
    physicalBlock c s i = some (c.block s i : ℤ) ∧ c.block s i < c.numBlocks := by
  obtain ⟨hlt, hnonneg, hblock⟩ := hc.blocks s hs i hi
  have hinside : Inside [s, i / c.blockSize] c.blockTables.shape :=
    hc.tables ▸ .cons hs (.cons hlt .nil)
  have hplace : offset (strides c.blockTables.shape) [s, i / c.blockSize] =
      s * c.maxNumBlocksPerSeq + i / c.blockSize := by
    rw [hc.tables]
    simp [offset, strides]
  have hsmall : s * c.maxNumBlocksPerSeq + i / c.blockSize < 2 ^ 31 := by
    refine lt_of_lt_of_le ?_ (le_trans (Nat.mul_le_mul_right c.maxNumBlocksPerSeq hs) hl.table)
    rw [Nat.succ_mul]
    omega
  have hmod : ((s * c.maxNumBlocksPerSeq + i / c.blockSize : ℕ) : ℤ).bmod (2 ^ 32) =
      (s * c.maxNumBlocksPerSeq + i / c.blockSize : ℕ) := Int.bmod_eq_of_le (by omega) (by omega)
  have hload : physicalBlock c s i = load (ravel c.blockTables.shape c.blockTables.entry)
      (s * c.maxNumBlocksPerSeq + i / c.blockSize : ℕ) := congrArg (load _) hmod
  unfold Call.block
  rw [hload, load_natCast, ← hplace, getElem?_ravel _ hinside, Int.toNat_of_nonneg hnonneg]
  exact ⟨rfl, by omega⟩

omit [LinearOrder α] in
theorem qk_eq (hc : c.Valid) (hl : c.Launches) (hs : s < c.numSeqs) (hh : h < c.numHeads)
    (hkv : kv < c.numKvHeads) {i : ℕ} (hi : (i : ℤ) < c.seqLens.entry [s]) :
    qk c s h kv i =
      some (dot c.headSize (fun d => c.query.entry [s, h, d]) (c.cached s kv i).1) := by
  obtain ⟨hphys, hblock⟩ := physicalBlock_eq hc hl hs hi
  unfold qk
  rw [hphys]
  refine Option.bind_eq_some_iff.mpr ⟨_, rfl, foldlM_add fun d hd acc => ?_⟩
  have hx : 0 < c.x := Nat.pos_of_ne_zero fun hzero => by
    have hparts := hc.parts
    rw [hzero, Nat.mul_zero] at hparts
    omega
  have hpart : d / c.x < c.chunks := Nat.div_lt_of_lt_mul (by rwa [Nat.mul_comm, hc.parts])
  have hquery : Inside [s, h, d] c.query.shape := hc.query ▸ .cons hs (.cons hh (.cons hd .nil))
  have hkey : Inside [c.block s i, kv, d / c.x, i % c.blockSize, d % c.x] c.keyCache.shape :=
    hc.key ▸ .cons hblock
      (.cons hkv (.cons hpart (.cons (Nat.mod_lt i hc.blockSize) (.cons (Nat.mod_lt d hx) .nil))))
  exact Option.bind_eq_some_iff.mpr ⟨_, Tensor.load64_eq hquery,
    Option.bind_eq_some_iff.mpr ⟨_, Tensor.load64_eq hkey, rfl⟩⟩

section Passes

variable (hc : c.Valid) (hl : c.Launches) (hs : s < c.numSeqs) (hh : h < c.numHeads)
  (hkv : kv < c.numKvHeads) (hn : (n : ℤ) = c.seqLens.entry [s])

include hc hl hs hh hkv hn

/-- The first pass meets a score. -/
theorem maxLogit_eq (hpos : 0 < n) : ∃ m : α, maxLogit c s h kv n = some (m : WithBot α) := by
  obtain ⟨m, hrun, hm⟩ := foldlM_range_inv (P := fun i (m : WithBot α) => i ≠ 0 → m ≠ ⊥)
    (b := ⊥) (n := n) (f := fun max_logit token_idx => do
      let qk ← qk c s h kv token_idx
      some (max max_logit ((qk * c.scale : α) : WithBot α)))
    (fun hne => absurd rfl hne) fun i hi m _ =>
      ⟨_, Option.bind_eq_some_iff.mpr ⟨_, qk_eq hc hl hs hh hkv (by omega), rfl⟩, fun _ hbot =>
        WithBot.not_coe_le_bot _ ((le_max_right _ _).trans_eq hbot)⟩
  obtain ⟨m, rfl⟩ := WithBot.ne_bot_iff_exists.mp (hm hpos.ne')
  exact ⟨m, hrun⟩

omit [LinearOrder α] in
/-- The second pass has the mass of the tokens. -/
theorem denominator_eq (exp : α → α) (m : α) (value : ℕ → α) :
    denominator exp c s h kv n
      (m : WithBot α) = some (mass exp (shifted m (scored c s h kv n value))) := by
  have hmass : mass exp (shifted m (scored c s h kv n value)) =
      ((List.range n).map fun i =>
        weight exp (shift m ((score c s h kv i : α) : WithBot α))).sum := by
    unfold mass shifted scored
    rw [List.map_map, List.map_map]
    rfl
  rw [hmass]
  refine foldlM_add fun i hi acc => ?_
  exact Option.bind_eq_some_iff.mpr ⟨_, qk_eq hc hl hs hh hkv (by omega), rfl⟩

/-- The last pass has the mean. -/
theorem accumulate_eq (hexp : IsExp exp) (m : α) {d : ℕ} (hd : d < c.headSize) :
    accumulate exp c s h kv n (m : WithBot α)
        (mass exp (shifted m (scored c s h kv n fun i => (c.cached s kv i).2 d))) d =
      some (mean exp (scored c s h kv n fun i => (c.cached s kv i).2 d)) := by
  have hmean : mean exp (scored c s h kv n fun i => (c.cached s kv i).2 d) =
      ((List.range n).map fun i =>
      weight exp (shift m ((score c s h kv i : α) : WithBot α)) /
        mass exp (shifted m (scored c s h kv n fun i => (c.cached s kv i).2 d)) *
          (c.cached s kv i).2 d).sum := by
    rw [← mean_shifted hexp m, mean, smul_eq_mul, total, ← List.sum_map_mul_left]
    conv_lhs => rw [shifted, scored, List.map_map, List.map_map]
    refine congrArg List.sum (List.map_congr_left fun i _ => ?_)
    rw [div_eq_mul_inv, mul_comm (weight exp _), mul_assoc]
    rfl
  rw [hmean]
  refine foldlM_add fun i hi acc => ?_
  obtain ⟨hphys, hblock⟩ := physicalBlock_eq hc hl hs (i := i) (by omega)
  have hvalue : Inside [c.block s i, kv, d, i % c.blockSize] c.valueCache.shape :=
    hc.value ▸ .cons hblock (.cons hkv (.cons hd (.cons (Nat.mod_lt i hc.blockSize) .nil)))
  exact Option.bind_eq_some_iff.mpr
    ⟨_, hphys,
      Option.bind_eq_some_iff.mpr
        ⟨_, qk_eq hc hl hs hh hkv (by omega),
          Option.bind_eq_some_iff.mpr
            ⟨_, rfl, Option.bind_eq_some_iff.mpr ⟨_, Tensor.load64_eq hvalue, rfl⟩⟩⟩⟩

end Passes

/-- **A program** returns, and stores the attention of its head. -/
theorem kernel_eq [IsStrictOrderedRing α] (hexp : IsExp exp) (hc : c.Valid) (hl : c.Launches)
    {outShape : List ℕ} (hshape : outShape = [c.numSeqs, c.numHeads, c.headSize])
    (hs : s < c.numSeqs) (hh : h < c.numHeads) :
    pagedAttentionV1Kernel exp cast c outShape (s, h) = some ((List.range c.headSize).map fun d =>
      (offset (strides outShape) [s, h, d], c.attention exp cast s h d)) := by
  have hout : ∀ v : ℕ → α, ∀ d ∈ List.range c.headSize,
      store64 outShape [(s : ℤ), (h : ℤ), (d : ℤ)] (v d) =
        some (offset (strides outShape) [s, h, d], v d) := by
    intro v d hd
    have hinside : Inside [s, h, d] outShape :=
      hshape ▸ .cons hs (.cons hh (.cons (List.mem_range.mp hd) .nil))
    exact store64_eq hinside (v d)
  have hlen : load (ravel c.seqLens.shape c.seqLens.entry) (s : ℤ) =
      some (c.seqLens.entry [s]) := by
    have hinside : Inside [s] c.seqLens.shape := hc.lens ▸ .cons hs .nil
    have hplace : offset (strides c.seqLens.shape) [s] = s := by
      rw [hc.lens]
      simp [offset, strides]
    rw [load_natCast]
    conv_lhs => rw [← hplace]
    exact getElem?_ravel _ hinside
  unfold pagedAttentionV1Kernel
  refine Option.bind_eq_some_iff.mpr ⟨_, hlen, ?_⟩
  by_cases hle : c.seqLens.entry [s] ≤ 0
  · rw [if_pos hle]
    refine (mapM_eq_pure (hout fun _ => 0)).trans
      (congrArg some (List.map_congr_left fun d _ => ?_))
    rw [Call.attention, if_pos hle]
  · have hkv : h / (c.numHeads / c.numKvHeads) < c.numKvHeads :=
      Nat.div_lt_of_lt_mul (by rwa [Nat.div_mul_cancel hc.ratio])
    have hn : ((c.seqLens.entry [s]).toNat : ℤ) = c.seqLens.entry [s] :=
      Int.toNat_of_nonneg (by omega)
    obtain ⟨m, hm⟩ := maxLogit_eq hc hl hs hh hkv hn (by omega)
    have hdenom := denominator_eq hc hl hs hh hkv hn exp m
    have hmass : ∀ value, 0 < mass exp (shifted m (scored c s h (h / (c.numHeads / c.numKvHeads))
        (c.seqLens.entry [s]).toNat value)) := by
      intro value
      have hzero : 0 < (c.seqLens.entry [s]).toNat := by omega
      exact mass_pos hexp ⟨_, List.mem_map_of_mem (List.mem_map_of_mem (List.mem_range.mpr hzero)),
        WithBot.coe_ne_bot⟩
    rw [if_neg hle]
    refine Option.bind_eq_some_iff.mpr
      ⟨_, hm, Option.bind_eq_some_iff.mpr ⟨_, hdenom fun _ => 0, ?_⟩⟩
    rw [if_neg (not_le.mpr (hmass _))]
    refine mapM_eq_pure fun d hd => ?_
    have hacc := accumulate_eq hc hl hs hh hkv hn hexp m (List.mem_range.mp hd)
    rw [Option.some_inj.mp ((hdenom _).symm.trans (hdenom fun _ => 0))] at hacc
    have hattend : c.attention exp cast s h d =
        cast (mean exp (scored c s h (h / (c.numHeads / c.numKvHeads)) (c.seqLens.entry [s]).toNat
          fun i => (c.cached s (h / (c.numHeads / c.numKvHeads)) i).2 d)) := by
      rw [Call.attention, if_neg hle, attend_eq_mean, List.map_map]
      rfl
    rw [hattend]
    exact Option.bind_eq_some_iff.mpr ⟨_, hacc, hout (fun _ => cast _) d hd⟩

/-- **The launch** gives the attention of all heads. -/
theorem v1_eq [IsStrictOrderedRing α] (hexp : IsExp exp) {schedule : List (ℕ × α) → List (ℕ × α)}
    (hschedule : ∀ cells, (schedule cells).Perm cells) (hc : c.Valid) (hl : c.Launches)
    {out : Tensor α} (hcheck : checkV1 c out = .ok ())
    (hout : out.shape = [c.numSeqs, c.numHeads, c.headSize]) (hblocks : 0 < c.numBlocks) :
    ∃ t, pagedAttentionV1 exp cast c schedule out = .ok (some t) ∧
      ∀ s < c.numSeqs, ∀ h < c.numHeads, ∀ d < c.headSize,
        t.entry [s, h, d] = c.attention exp cast s h d := by
  have hcells : (grid2 c.numSeqs c.numHeads).mapM (pagedAttentionV1Kernel exp cast c out.shape) =
      some ((grid2 c.numSeqs c.numHeads).map fun p => (List.range c.headSize).map fun d =>
        (offset (strides out.shape) [p.1, p.2, d], c.attention exp cast p.1 p.2 d)) :=
    mapM_eq_pure fun p hp => kernel_eq hexp hc hl hout (mem_grid2.mp hp).1 (mem_grid2.mp hp).2
  unfold pagedAttentionV1
  rw [hcheck, hcells]
  have hlaunch : ¬ (c.numHeads = 0 ∨ c.numSeqs = 0 ∨ 65535 < c.numSeqs) := by
    have := hl.heads
    have := hl.seqs
    omega
  refine ⟨_, refuse_bind_eq_ok.mpr ⟨hlaunch, refuse_bind_eq_ok.mpr ⟨hblocks.ne', rfl⟩⟩,
    fun s hs h hh d hd => ?_⟩
  dsimp only
  rw [hout]
  exact stored_rows hschedule _ (c.attention exp cast) hs hh hd

end Kernel

section Fallback

variable {exp cast : α → α} {sdpa : Sdpa α} {c : Call α} {s h kv n : ℕ}

theorem pyIndex_natCast {dim size i : ℕ} (h : i < size) : pyIndex dim size (i : ℤ) = .ok i := by
  unfold pyIndex
  rw [if_pos ⟨Int.natCast_nonneg i, Int.ofNat_lt.mpr h⟩, Int.toNat_natCast]

omit [Field α] [LinearOrder α] in
theorem gatherBlock_eq (hc : c.Valid) (hs : s < c.numSeqs)
    (hn : (n : ℤ) = c.seqLens.entry [s]) {b : ℕ} (hb : b * c.blockSize < n) : gatherBlock c s n b =
      .ok ((List.range (min c.blockSize (n - b * c.blockSize))).map fun t =>
        (fun h d => c.keyCache.entry [(c.blockTables.entry [s, b]).toNat, h, d / c.x, t, d % c.x],
          fun h d => c.valueCache.entry [(c.blockTables.entry [s, b]).toNat, h, d, t])) := by
  obtain ⟨hlt, hnonneg, hblock⟩ := hc.blocks s hs (b * c.blockSize) (by omega)
  rw [Nat.mul_div_cancel b hc.blockSize] at hlt hnonneg hblock
  have hphys := @pyIndex_natCast 0 c.numBlocks (c.blockTables.entry [s, b]).toNat (by omega)
  rw [Int.toNat_of_nonneg hnonneg] at hphys
  have hsize : c.keyCache.shape.getD 3 0 = c.blockSize := by
    rw [hc.key]
    rfl
  unfold gatherBlock
  rw [pyIndex_natCast hlt]
  show (pyIndex 0 c.numBlocks (c.blockTables.entry [s, b]) >>= _) = _
  rw [hphys]
  exact refuse_bind_eq_ok.mpr ⟨not_not.mpr hsize, rfl⟩

omit [LinearOrder α] in
/-- The output for a sequence is the attention of its heads. -/
theorem attendSequence_eq
    (hsdpa : ∀ scale dim q kvs d, sdpa scale dim q kvs d = cast (attend exp scale dim q kvs d))
    (hc : c.Valid) (hs : s < c.numSeqs) :
    attendSequence sdpa c s = .ok (c.attention exp cast s) := by
  have hlen : c.seqLens.shape.getD 0 0 = c.numSeqs := by
    rw [hc.lens]
    rfl
  unfold attendSequence
  rw [hlen, pyIndex_natCast hs]
  show (if c.seqLens.entry [s] ≤ 0 then _ else _) = _
  by_cases hle : c.seqLens.entry [s] ≤ 0
  · rw [if_pos hle]
    refine congrArg Except.ok (funext fun h => funext fun d => ?_)
    rw [Call.attention, if_pos hle]
  · have hblocks : (List.range (((c.seqLens.entry [s]).toNat + c.blockSize - 1) / c.blockSize)).mapM
        (gatherBlock c s (c.seqLens.entry [s]).toNat) = pure ((List.range
          (((c.seqLens.entry [s]).toNat + c.blockSize - 1) / c.blockSize)).map fun b =>
            (List.range (min c.blockSize ((c.seqLens.entry [s]).toNat - b * c.blockSize))).map
                fun t =>
              (fun h d =>
                c.keyCache.entry [(c.blockTables.entry [s, b]).toNat, h, d / c.x, t, d % c.x],
                fun h d => c.valueCache.entry [(c.blockTables.entry [s, b]).toNat, h, d, t])) :=
      mapM_eq_pure fun b hb => gatherBlock_eq hc hs (Int.toNat_of_nonneg (by omega))
        (mul_lt_of_lt_cdiv (List.mem_range.mp hb))
    rw [if_neg hle, if_neg hc.blockSize.ne', hblocks]
    refine congrArg Except.ok (funext fun h => funext fun d => ?_)
    rw [hsdpa, ← List.flatMap_def, flatMap_blocks hc.blockSize, List.map_map,
      Call.attention, if_neg hle]
    rfl

omit [LinearOrder α] in
/-- **The fallback** gives the attention of all heads. -/
theorem fallback_eq
    (hsdpa : ∀ scale dim q kvs d, sdpa scale dim q kvs d = cast (attend exp scale dim q kvs d))
    (hc : c.Valid) (hseqs : 0 < c.numSeqs) : ∃ t, fallback sdpa c = .ok t ∧
      ∀ s < c.numSeqs, ∀ h d, t.entry [s, h, d] = c.attention exp cast s h d := by
  have hrows : (List.range c.numSeqs).mapM (attendSequence sdpa c) =
      pure ((List.range c.numSeqs).map (c.attention exp cast)) :=
    mapM_eq_pure fun s hs => attendSequence_eq hsdpa hc (List.mem_range.mp hs)
  have hne : (List.range c.numSeqs).map (c.attention exp cast) ≠ [] := by
    rw [ne_eq, List.map_eq_nil_iff, List.range_eq_nil]
    exact hseqs.ne'
  unfold fallback
  rw [hrows]
  refine ⟨_, refuse_bind_eq_ok.mpr ⟨hc.kvHeads.ne', refuse_bind_eq_ok.mpr
    ⟨not_not.mpr (Nat.mod_eq_zero_of_dvd hc.ratio), refuse_bind_eq_ok.mpr ⟨hne, rfl⟩⟩⟩,
    fun s hs h d => ?_⟩
  show ((List.range c.numSeqs).map (c.attention exp cast)).getD s _ h d = _
  rw [List.getD_eq_getElem _ _ (by simpa using hs), List.getElem_map, List.getElem_range]

end Fallback

/-! ### Decoding -/

/-- `x.int()`. -/
def toInt (t : Tensor ℤ) : Tensor ℤ :=
  { t with entry := fun idx => (t.entry idx).bmod (2 ^ 32), dtype := .int32 }

/-- `paged_attention_fwd`: `none` is a fault of the kernel. -/
def pagedAttentionFwd (exp cast : α → α) (sdpa : Sdpa α) (schedule : List (ℕ × α) → List (ℕ × α))
    (hasPagedAttn : Bool) (query key_cache value_cache : Tensor α)
    (block_tables seq_lens : Tensor ℤ) (scale : α) (num_kv_heads block_size : ℕ)
    (max_seq_len : Option ℤ) : Except PyError (Option (Tensor α)) := do
  refuse (query.shape.length ≠ 3)
    (.valueError "query must have shape [num_seqs, num_heads, head_dim]")
  refuse (block_tables.shape.length ≠ 2)
    (.valueError "block_tables must have shape [num_seqs, max_blocks_per_seq]")
  refuse (seq_lens.shape.length ≠ 1) (.valueError "seq_lens must have shape [num_seqs]")
  let max_seq_len := max_seq_len.getD (((ravel seq_lens.shape seq_lens.entry).max?).getD 0)
  if hasPagedAttn &&
      (query.isCuda && key_cache.isCuda && value_cache.isCuda && block_tables.isCuda &&
        seq_lens.isCuda) then
    pagedAttentionV1 exp cast ⟨query, key_cache, value_cache, num_kv_heads, scale,
      toInt block_tables, toInt seq_lens, block_size,
      max_seq_len⟩ schedule { query with entry := fun _ => 0 }
  else
    (fallback sdpa ⟨query, key_cache, value_cache, num_kv_heads, scale, block_tables,
      seq_lens, block_size, max_seq_len⟩).map some

/-- What `_decode_forward` reads of the metadata. -/
structure AttentionMetadata where
  blockTables : Option (Tensor ℤ)
  seqLens : Option (Tensor ℤ)
  maxSeqLen : Option ℤ

/-- The GPU side of a backend: its device, the dtype of its caches, and whether the module is
there. -/
structure Device where
  device : TorchDevice
  dtype : Dtype
  hasPagedAttn : Bool

/-- The kernel is called. -/
def Device.usesKernel (dev : Device) : Bool := dev.hasPagedAttn && dev.device.isCuda

section Decode

variable (dev : Device) (b : PagedAttentionBackend α)

/-- `k_cache` and `v_cache`. -/
def kCacheTensor : Tensor α where
  shape := [b.numGpuBlocks, b.spec.numKvHeads, b.spec.headDim / 8, b.spec.blockSize, 8]
  entry idx := b.kCache (idx.getD 0 0) (idx.getD 1 0) (idx.getD 2 0) (idx.getD 3 0) (idx.getD 4 0)
  dtype := dev.dtype
  device := dev.device

def vCacheTensor : Tensor α where
  shape := [b.numGpuBlocks, b.spec.numKvHeads, b.spec.headDim, b.spec.blockSize]
  entry idx := b.vCache (idx.getD 0 0) (idx.getD 1 0) (idx.getD 2 0) (idx.getD 3 0)
  dtype := dev.dtype
  device := dev.device

/-- `x.to(self.device)`. -/
def toDevice {β : Type} (t : Tensor β) : Tensor β := { t with device := dev.device }

/-- `query.unsqueeze(0)` of two dimensions. -/
def unsqueeze (t : Tensor α) : Tensor α :=
  { t with shape := 1 :: t.shape, entry := fun idx => t.entry idx.tail }

/-- `_decode_forward` without FlashInfer. -/
def decodeForward (exp cast sqrt : α → α) (sdpa : Sdpa α) (schedule : List (ℕ × α) → List (ℕ × α))
    (query : Tensor α) (metadata : AttentionMetadata) (scale : Option α) :
    Except PyError (Option (Tensor α)) := do
  let query := if query.shape.length = 2 then unsqueeze query else query
  refuse (query.shape.length ≠ 3)
    (.valueError "decode query must have shape [batch_size, num_heads, head_dim]")
  match metadata.blockTables, metadata.seqLens with
  | some block_tables, some seq_lens =>
    let max_seq_len := metadata.maxSeqLen.getD (((ravel seq_lens.shape seq_lens.entry).max?).getD 0)
    pagedAttentionFwd exp cast sdpa schedule dev.hasPagedAttn
      { toDevice dev query with entry := fun idx => cast (query.entry idx), dtype := dev.dtype }
      (kCacheTensor dev b) (vCacheTensor dev b) (toDevice dev block_tables) (toDevice dev seq_lens)
      (scale.getD (1 / sqrt (b.spec.headDim : α))) b.spec.numKvHeads b.spec.blockSize
      (some max_seq_len)
  | _, _ => .error (.valueError "decode requires block_tables and seq_lens")

end Decode

section Own

variable {numGpuBlocks width : ℕ} {spec : KVCacheSpec} {T : Tables numGpuBlocks}
  {tokens : List (Token α spec.blockSize T.table)} {batch : List (ℕ × ℕ × List ℕ)}

/-- A batch of sequences, each with its length and its padded block table, whose tokens have all
been written. -/
structure DecodeBatch (T : Tables numGpuBlocks) (tokens : List (Token α spec.blockSize T.table))
    (width : ℕ) (batch : List (ℕ × ℕ × List ℕ)) : Prop where
  nonempty : batch ≠ []
  table : ∀ x ∈ batch, T.table x.1 <+: x.2.2
  width_eq : ∀ x ∈ batch, x.2.2.length = width
  short : ∀ x ∈ batch, x.2.1 < 2 ^ 31
  written_all : ∀ x ∈ batch, ∀ i < x.2.1, (written T tokens (x.1, i)).isSome

/-- The block tables and the lengths of a batch. -/
def tablesOf (width : ℕ) (batch : List (ℕ × ℕ × List ℕ)) (dtype : Dtype) : Tensor ℤ :=
  ⟨[batch.length, width],
    fun idx => ((batch.getD (idx.getD 0 0) (0, 0, [])).2.2.getD (idx.getD 1 0) 0 : ℕ), dtype, .cpu⟩

def lensOf (batch : List (ℕ × ℕ × List ℕ)) (dtype : Dtype) : Tensor ℤ :=
  ⟨[batch.length], fun idx => ((batch.getD (idx.getD 0 0) (0, 0, [])).2.1 : ℕ), dtype, .cpu⟩

/-- The key and the value of a token as they were written last, for one head. -/
def ownRow (T : Tables numGpuBlocks) (tokens : List (Token α spec.blockSize T.table)) (q kv i : ℕ) :
    (ℕ → α) × (ℕ → α) :=
  let row := (written T tokens (q, i)).getD (fun _ _ => 0, fun _ _ => 0)
  (row.1 kv, row.2 kv)

omit [Field α] [LinearOrder α] in
/-- What has been written has its block. -/
theorem covered_of_written {q i : ℕ} (h : (written T tokens (q, i)).isSome) :
    i / spec.blockSize < (T.table q).length := by
  have hgen : ∀ (tokens : List (Token α spec.blockSize T.table)) (own : ℕ × ℕ →
      Option (Row α × Row α)), (∀ p, (own p).isSome → p.2 / spec.blockSize < (T.table p.1).length) →
      ∀ p, (tokens.foldl (fun own t => Function.update own (t.seq, t.pos) (some t.row))
        own p).isSome → p.2 / spec.blockSize < (T.table p.1).length := by
    intro tokens
    induction tokens with
    | nil => exact fun _ h => h
    | cons t tokens ih =>
      intro own hown
      refine ih _ fun p hp => ?_
      by_cases heq : p = (t.seq, t.pos)
      · subst heq
        exact t.covered
      · dsimp only at hp
        rw [Function.update_of_ne heq] at hp
        exact hown p hp
  exact hgen tokens (fun _ => none) (fun _ h => by cases h) (q, i) h

omit [Field α] [LinearOrder α] in
theorem lensOf_entry (dtype : Dtype) {j q n : ℕ} {row : List ℕ}
    (hj : batch[j]? = some (q, n, row)) :
    (lensOf batch dtype).entry [j] = n := by
  show ((batch.getD j (0, 0, [])).2.1 : ℤ) = n
  rw [List.getD_eq_getElem?_getD, hj, Option.getD_some]

omit [Field α] [LinearOrder α] in
theorem tablesOf_entry (hbatch : DecodeBatch T tokens width batch) (dtype : Dtype) {j q n i : ℕ}
    {row : List ℕ} (hj : batch[j]? = some (q, n, row)) (hi : i < (T.table q).length) :
    (tablesOf width batch dtype).entry [j, i] = ((T.table q).getD i 0 : ℕ) := by
  obtain ⟨pad, hpad⟩ := hbatch.table _ (List.mem_of_getElem? hj)
  have hpad : T.table q ++ pad = row := hpad
  have hrow : batch.getD j (0, 0, []) = (q, n, row) := by
    rw [List.getD_eq_getElem?_getD, hj, Option.getD_some]
  show (((batch.getD j (0, 0, [])).2.2.getD i 0 : ℕ) : ℤ) = _
  rw [hrow, ← hpad, List.getD_append _ _ _ _ hi]

/-- What a call has to do with a batch. -/
structure Serves (c : Call α) (b : PagedAttentionBackend α) (dev : Device) (T : Tables numGpuBlocks)
    (batch : List (ℕ × ℕ × List ℕ)) (width numHeads : ℕ) : Prop where
  query : c.query.shape = [batch.length, numHeads, b.spec.headDim]
  key : c.keyCache = kCacheTensor dev b
  value : c.valueCache = vCacheTensor dev b
  kvHeads : c.numKvHeads = b.spec.numKvHeads
  blockSize : c.blockSize = b.spec.blockSize
  tables : c.blockTables.shape = [batch.length, width]
  lens : c.seqLens.shape = [batch.length]
  len : ∀ (j q n : ℕ) (row : List ℕ), batch[j]? = some (q, n, row) → c.seqLens.entry [j] = n
  block : ∀ (j q n : ℕ) (row : List ℕ), batch[j]? = some (q, n, row) → ∀ i < (T.table q).length,
    c.blockTables.entry [j, i] = ((T.table q).getD i 0 : ℕ)

section Serves

variable {c : Call α} {b : PagedAttentionBackend α} {dev : Device} {numHeads : ℕ}

omit [Field α] [LinearOrder α] in
theorem Serves.valid (h : Serves c b dev T batch width numHeads)
    (hbatch : DecodeBatch T tokens width batch) (hspec : b.spec = spec)
    (hgpu : b.numGpuBlocks = numGpuBlocks) (hbs : 0 < spec.blockSize) (hdim : 8 ∣ spec.headDim)
    (hkv : 0 < spec.numKvHeads) (hratio : spec.numKvHeads ∣ numHeads) : c.Valid := by
  have hseqs : c.numSeqs = batch.length := by rw [Call.numSeqs, h.query]; rfl
  have hheads : c.numHeads = numHeads := by rw [Call.numHeads, h.query]; rfl
  have hsize : c.headSize = spec.headDim := by rw [Call.headSize, h.query, hspec]; rfl
  have hparts : c.chunks = spec.headDim / 8 := by rw [Call.chunks, h.key, ← hspec]; rfl
  have hblocks : c.numBlocks = numGpuBlocks := by rw [Call.numBlocks, h.key, ← hgpu]; rfl
  have hx : c.x = 8 := by rw [Call.x, h.key]; rfl
  have hwidth : c.maxNumBlocksPerSeq = width := by rw [Call.maxNumBlocksPerSeq, h.tables]; rfl
  have hc := h.blockSize
  rw [hspec] at hc
  refine ⟨?_, ?_, ?_, ?_, ?_, ?_, ?_, ?_, hc ▸ hbs, fun s hs i hi => ?_⟩
  · rw [h.query, hseqs, hheads, hsize, hspec]
  · rw [hparts, hblocks, hx, h.kvHeads, h.blockSize, h.key, hspec, ← hgpu, kCacheTensor, hspec]
  · rw [hblocks, hsize, h.kvHeads, h.blockSize, h.value, hspec, ← hgpu, vCacheTensor, hspec]
  · rw [h.tables, hseqs, hwidth]
  · rw [h.lens, hseqs]
  · rw [hparts, hx, hsize, Nat.div_mul_cancel hdim]
  · rw [h.kvHeads, hspec]
    exact hkv
  · rw [h.kvHeads, hspec, hheads]
    exact hratio
  · rw [hseqs] at hs
    obtain ⟨⟨q, n, row⟩, hrow⟩ : ∃ y, batch[s]? = some y := ⟨_, List.getElem?_eq_getElem hs⟩
    have hmem := List.mem_of_getElem? hrow
    rw [h.len s q n row hrow] at hi
    have hcovered := covered_of_written (hbatch.written_all _ hmem i (Int.ofNat_lt.mp hi))
    rw [h.blockSize, hspec, h.block s q n row hrow _ hcovered, hwidth, hblocks]
    refine ⟨hcovered.trans_le ?_, Int.natCast_nonneg _, Int.ofNat_lt.mpr ?_⟩
    · rw [← hbatch.width_eq _ hmem]
      exact (hbatch.table _ hmem).length_le
    · rw [List.getD_eq_getElem _ _ hcovered]
      exact T.lt q _ (List.getElem_mem hcovered)

omit [LinearOrder α] in
/-- **A call attends to the tokens as they were written last.** -/
theorem Serves.attention_eq (h : Serves c b dev T batch width numHeads)
    (hbatch : DecodeBatch T tokens width batch) (hspec : b.spec = spec) (hbs : 0 < spec.blockSize)
    {rows : ℕ → Row α × Row α} (hrows : slotRows b = fill T tokens rows) (exp cast : α → α)
    {j q n : ℕ} {row : List ℕ} (hj : batch[j]? = some (q, n, row)) (head d : ℕ) :
    c.attention exp cast j head d =
      if n = 0 then 0
      else cast (attend exp c.scale spec.headDim (fun d => c.query.entry [j, head, d])
        ((List.range n).map (ownRow T tokens q (head / (numHeads / spec.numKvHeads)))) d) := by
  have hheads : c.numHeads = numHeads := by rw [Call.numHeads, h.query]; rfl
  have hsize : c.headSize = spec.headDim := by rw [Call.headSize, h.query, hspec]; rfl
  have hx : c.x = 8 := by rw [Call.x, h.key]; rfl
  have hcached : ∀ kv, (List.range n).map (c.cached j kv) =
      (List.range n).map (ownRow T tokens q kv) := by
    intro kv
    refine List.map_congr_left fun i hi => ?_
    have hwritten := hbatch.written_all _ (List.mem_of_getElem? hj) i (List.mem_range.mp hi)
    have hcovered := covered_of_written hwritten
    have hslot := fill_slot T hbs tokens rows hcovered
    rw [← hrows, slotRows, hspec, slot_div hbs, slot_mod] at hslot
    obtain ⟨r, hr⟩ := Option.isSome_iff_exists.mp hwritten
    unfold Call.cached Call.block ownRow
    rw [h.blockSize, hspec, h.block j q n row hj _ hcovered, hx, h.key, h.value,
      Int.toNat_natCast, hr]
    rw [hr] at hslot
    show (_, _) = (r.1 kv, r.2 kv)
    rw [show r = rowAt b ((T.table q).getD (i / spec.blockSize) 0) (i % spec.blockSize)
      from hslot.symm]
    rfl
  unfold Call.attention
  rw [h.len j q n row hj, hheads, hsize, h.kvHeads, hspec, Int.toNat_natCast, hcached]
  by_cases hn : n = 0
  · rw [if_pos (by omega), if_pos hn]
  · rw [if_neg (by omega), if_neg hn]

omit [Field α] [LinearOrder α] in
theorem Serves.launches (h : Serves c b dev T batch width numHeads)
    (hbatch : DecodeBatch T tokens width batch) (hheads : 0 < numHeads)
    (hseqs : batch.length ≤ 65535) (htable : batch.length * width ≤ 2 ^ 31) : c.Launches := by
  have hlen : c.numSeqs = batch.length := by rw [Call.numSeqs, h.query]; rfl
  refine ⟨?_, ?_, ?_⟩
  · rw [Call.numHeads, h.query]
    exact hheads
  · rw [hlen]
    exact ⟨List.length_pos_iff.mpr hbatch.nonempty, hseqs⟩
  · rw [hlen, Call.maxNumBlocksPerSeq, h.tables]
    exact htable

end Serves

/-- A model on the caches. -/
structure Fits (b : PagedAttentionBackend α) (numHeads : ℕ) : Prop where
  blocks : 0 < b.numGpuBlocks
  small : b.numGpuBlocks ≤ 2 ^ 31
  blockSize : 0 < b.spec.blockSize
  headDim : 8 ∣ b.spec.headDim
  kvHeads : 0 < b.spec.numKvHeads
  ratio : b.spec.numKvHeads ∣ numHeads

/-- A batch for which the kernel can be launched. -/
structure FitsGrid (batch : List (ℕ × ℕ × List ℕ)) (width numHeads : ℕ) : Prop where
  heads : 0 < numHeads
  seqs : batch.length ≤ 65535
  table : batch.length * width ≤ 2 ^ 31

omit [Field α] [LinearOrder α] in
/-- A batch has no negative length. -/
theorem max_lensOf_nonneg (batch : List (ℕ × ℕ × List ℕ)) (dtype : Dtype) :
    0 ≤ ((ravel (lensOf batch dtype).shape (lensOf batch dtype).entry).max?).getD 0 := by
  cases hmax : (ravel (lensOf batch dtype).shape (lensOf batch dtype).entry).max? with
  | none => exact le_rfl
  | some m =>
    obtain ⟨i, -, rfl⟩ := List.mem_map.mp (List.max?_mem hmax)
    exact Int.natCast_nonneg _

theorem toInt_entry {t : Tensor ℤ} {idx : List ℕ} {n : ℕ} (h : t.entry idx = n) (hn : n < 2 ^ 31) :
    (toInt t).entry idx = n := by
  unfold toInt
  dsimp only
  rw [h]
  exact Int.bmod_eq_of_le (by omega) (by omega)

omit [Field α] [LinearOrder α] in
/-- A call on a GPU whose tensors fit passes the checks. -/
theorem checkV1_eq {c : Call α} (hc : c.Valid) (out : Tensor α)
    (hcuda : out.isCuda ∧ c.query.isCuda ∧ c.keyCache.isCuda ∧ c.valueCache.isCuda ∧
      c.blockTables.isCuda ∧ c.seqLens.isCuda)
    (hdtype : c.keyCache.dtype = c.query.dtype ∧ c.valueCache.dtype = c.query.dtype)
    (hint : c.blockTables.dtype = .int32 ∧ c.seqLens.dtype = .int32) (hmax : 0 ≤ c.maxSeqLen)
    (hwidth : 0 < c.maxNumBlocksPerSeq) (hout : out.shape = [c.numSeqs, c.numHeads, c.headSize]) :
    checkV1 c out = .ok () := by
  have hratio := Nat.mod_eq_zero_of_dvd hc.ratio
  simp [checkV1, refuse, hc.query, hc.key, hc.value, hc.tables, hc.lens, hc.parts, hratio,
    hcuda, hdtype, hint, not_lt.mpr hmax, hwidth.ne', hout]
  rfl

end Own

/-- **Decoding attends to the own tokens.** After calls that write tokens of any sequences in any
order, a decode of a batch whose tokens have all been written gives for each sequence and head the
attention of its query over the keys and values that were written last for the positions of that
sequence, whatever was written for other sequences: through the CUDA kernel, where it can be
launched and in whatever order its threads store, as through the fallback. -/
theorem decode_own [IsStrictOrderedRing α] {exp cast sqrt : α → α} (hexp : IsExp exp)
    {sdpa : Sdpa α}
    (hsdpa : ∀ scale dim q kvs d, sdpa scale dim q kvs d = cast (attend exp scale dim q kvs d))
    {schedule : List (ℕ × α) → List (ℕ × α)} (hschedule : ∀ cells, (schedule cells).Perm cells)
    (dev : Device) {b : PagedAttentionBackend α} {numHeads : ℕ} (hfits : Fits b numHeads)
    (T : Tables b.numGpuBlocks) (ws : List (Write α b.spec.blockSize T.table))
    (hfi : ∀ w ∈ ws, w.cache = .flashinfer → b.fiKvCache.isSome) {width : ℕ} (hwidth : 0 < width)
    {batch : List (ℕ × ℕ × List ℕ)} (hbatch : DecodeBatch T (tokensOf T .kv ws) width batch)
    (hgrid : dev.usesKernel → FitsGrid batch width numHeads) {query : Tensor α}
    (hquery : query.shape = [batch.length, numHeads, b.spec.headDim]) (dtype : Dtype)
    {max_seq_len : Option ℤ} (hmax : ∀ m ∈ max_seq_len, 0 ≤ m) (scale : Option α) :
    ∃ b', (forEach (fun w => w.run T b.spec) ws).run b = (b', .ok ()) ∧ ∃ out,
      decodeForward dev b' exp cast sqrt sdpa schedule query ⟨some (tablesOf width batch dtype),
          some (lensOf batch dtype), max_seq_len⟩ scale = .ok (some out) ∧
      ∀ j q n row, batch[j]? = some (q, n, row) → ∀ h < numHeads, ∀ d < b.spec.headDim,
        out.entry [j, h, d] = if n = 0 then 0
        else cast (attend exp (scale.getD (1 / sqrt (b.spec.headDim : α))) b.spec.headDim
          (fun d => cast (query.entry [j, h, d]))
          ((List.range n).map (ownRow T (tokensOf T .kv ws) q (h / (numHeads / b.spec.numKvHeads))))
          d) := by
  obtain ⟨b', _, hrun, hafter⟩ :=
    exists_of_wp (wp_writes T hfits.blockSize hfits.headDim rfl rfl ws hfi)
  refine ⟨b', hrun, ?_⟩
  have hrows : slotRows b' = fill T (tokensOf T .kv ws) (slotRows b) := hafter.kv
  let m :=
    max_seq_len.getD (((ravel (lensOf batch dtype).shape (lensOf batch dtype).entry).max?).getD 0)
  have hm : 0 ≤ m := by
    cases hsome : max_seq_len with
    | none =>
      simp only [m, hsome]
      exact max_lensOf_nonneg batch dtype
    | some n =>
      simp only [m, hsome]
      exact hmax n hsome
  let call : Tensor ℤ → Tensor ℤ → Call α := fun block_tables seq_lens =>
    ⟨{ toDevice dev query with entry := fun idx => cast (query.entry idx), dtype := dev.dtype },
      kCacheTensor dev b', vCacheTensor dev b', b'.spec.numKvHeads,
      scale.getD (1 / sqrt (b'.spec.headDim : α)), block_tables, seq_lens,
      b'.spec.blockSize, m⟩
  have hforward : decodeForward dev b' exp cast sqrt sdpa schedule query
      ⟨some (tablesOf width batch dtype), some (lensOf batch dtype), max_seq_len⟩ scale =
        if dev.usesKernel then
        pagedAttentionV1 exp cast
          (call (toInt (toDevice dev (tablesOf width batch dtype)))
            (toInt (toDevice dev (lensOf batch dtype)))) schedule
          { toDevice dev query with entry := fun _ => 0, dtype := dev.dtype }
        else
          (fallback sdpa
            (call (toDevice dev (tablesOf width batch dtype))
              (toDevice dev (lensOf batch dtype)))).map some := by
    have hlen : query.shape.length = 3 := by
      rw [hquery]
      rfl
    unfold decodeForward
    rw [if_neg (by omega), refuse_bind (by omega)]
    show pagedAttentionFwd _ _ _ _ _ _ _ _ _ _ _ _ _ _ = _
    refine (refuse_bind (fun h => h hlen) _ _).trans ((refuse_bind (fun h => h rfl) _ _).trans
      ((refuse_bind (fun h => h rfl) _ _).trans ?_))
    show (if dev.hasPagedAttn &&
      (dev.device.isCuda && dev.device.isCuda && dev.device.isCuda && dev.device.isCuda &&
        dev.device.isCuda) then _ else _) = _
    rw [Bool.and_self, Bool.and_self, Bool.and_self, Bool.and_self]
    rfl
  have hserves : ∀ bt sl : Tensor ℤ, bt.shape = [batch.length, width] → sl.shape = [batch.length] →
      (∀ (j q n : ℕ) (row : List ℕ), batch[j]? = some (q, n, row) → sl.entry [j] = n) →
      (∀ (j q n : ℕ) (row : List ℕ), batch[j]? = some (q, n, row) → ∀ i < (T.table q).length,
        bt.entry [j, i] = ((T.table q).getD i 0 : ℕ)) →
        Serves (call bt sl) b' dev T batch width numHeads := by
    intro bt sl hbt hsl hlen hblock
    refine ⟨?_, rfl, rfl, rfl, rfl, hbt, hsl, hlen, hblock⟩
    rw [hafter.spec]
    exact hquery
  have hattends : ∀ bt sl, Serves (call bt sl) b' dev T batch width numHeads → ∀ t : Tensor α,
      (∀ s < batch.length, ∀ h < numHeads, ∀ d < b.spec.headDim,
        t.entry [s, h, d] = (call bt sl).attention exp cast s h d) →
      ∀ j q n row, batch[j]? = some (q, n, row) → ∀ h < numHeads, ∀ d < b.spec.headDim,
        t.entry [j, h, d] = if n = 0 then 0
        else cast (attend exp (scale.getD (1 / sqrt (b.spec.headDim : α))) b.spec.headDim
          (fun d => cast (query.entry [j, h, d]))
          ((List.range n).map (ownRow T (tokensOf T .kv ws) q (h / (numHeads / b.spec.numKvHeads))))
            d) := by
    intro bt sl hs t ht j q n row hj h hh d hd
    rw [ht j (List.getElem?_eq_some_iff.mp hj).1 h hh d hd,
      hs.attention_eq hbatch hafter.spec hfits.blockSize hrows exp cast hj]
    show (if n = 0 then 0
      else cast (attend exp (scale.getD (1 / sqrt (b'.spec.headDim : α))) _ _ _ _)) = _
    rw [hafter.spec]
  have hvalid : ∀ bt sl, Serves (call bt sl) b' dev T batch width numHeads →
      (call bt sl).Valid := fun bt sl hs =>
    hs.valid hbatch hafter.spec hafter.blocks hfits.blockSize hfits.headDim
      hfits.kvHeads hfits.ratio
  have hseqs : query.shape.getD 0 0 = batch.length := by rw [hquery]; rfl
  have hheads : query.shape.getD 1 0 = numHeads := by rw [hquery]; rfl
  have hsize : query.shape.getD 2 0 = b.spec.headDim := by rw [hquery]; rfl
  rw [hforward]
  by_cases hcuda : dev.usesKernel = true
  · have hs :=
      hserves (toInt (toDevice dev (tablesOf width batch dtype)))
        (toInt (toDevice dev (lensOf batch dtype))) rfl rfl
        (fun j q n row hj => toInt_entry (t := toDevice dev (lensOf batch dtype))
          (lensOf_entry dtype hj) (hbatch.short _ (List.mem_of_getElem? hj)))
      (fun j q n row hj i hi => toInt_entry (t := toDevice dev (tablesOf width batch dtype))
        (tablesOf_entry hbatch dtype hj hi) (by
        rw [List.getD_eq_getElem _ _ hi]
        exact (T.lt q _ (List.getElem_mem hi)).trans_le hfits.small))
    have hc := hvalid _ _ hs
    rw [if_pos hcuda]
    have hdev := (Bool.and_eq_true_iff.mp hcuda).2
    have hcheck := checkV1_eq hc
      { toDevice dev query with entry := fun _ => (0 : α), dtype := dev.dtype }
        ⟨hdev, hdev, hdev, hdev, hdev, hdev⟩ ⟨rfl, rfl⟩ ⟨rfl, rfl⟩ hm hwidth hc.query
    have hl := hs.launches hbatch (hgrid hcuda).heads (hgrid hcuda).seqs (hgrid hcuda).table
    obtain ⟨t, ht, hentries⟩ := v1_eq hexp hschedule hc hl hcheck hc.query
      (hfits.blocks.trans_eq hafter.blocks.symm)
    refine ⟨t, ht, hattends _ _ hs t fun s hs h hh d hd => ?_⟩
    exact hentries s (hs.trans_eq hseqs.symm) h (hh.trans_eq hheads.symm) d (hd.trans_eq hsize.symm)
  · have hs :=
      hserves (toDevice dev (tablesOf width batch dtype)) (toDevice dev (lensOf batch dtype)) rfl
        rfl (fun j q n row hj => lensOf_entry dtype hj)
          (fun j q n row hj i hi => tablesOf_entry hbatch dtype hj hi)
    rw [if_neg hcuda]
    obtain ⟨t, ht, hentries⟩ := fallback_eq hsdpa (hvalid _ _ hs)
      ((List.length_pos_iff.mpr hbatch.nonempty).trans_eq hseqs.symm)
    rw [ht]
    refine ⟨t, rfl, hattends _ _ hs t fun s hs h hh d hd => hentries s (hs.trans_eq hseqs.symm) h d⟩

/-- Four blocks of two tokens, all zero, one head of 8 dimensions. -/
def zeroCaches : PagedAttentionBackend ℝ :=
  ⟨⟨1, 8, 2⟩, 4, fun _ _ _ _ _ => 0, fun _ _ _ _ => 0, none⟩

theorem covered_twoTables : ∀ q i : Fin 2, i.val / 2 < (twoTables.table q).length := by
  decide

/-- A token whose key has all entries `k` and whose value has all entries `v`. -/
def constToken (q i : Fin 2) (k v : ℕ) : Token ℝ 2 twoTables.table :=
  ⟨q, i, (fun _ _ => k, fun _ _ => v), covered_twoTables q i⟩

/-- Tokens of two sequences: two of sequence 0, with keys zero and values 1 and 3, and one of
sequence 1. -/
def threeWrites : List (Write ℝ 2 twoTables.table) :=
  [⟨.kv, [constToken 0 1 0 3, constToken 1 0 21 22]⟩, ⟨.kv, [constToken 0 0 0 1]⟩]

theorem written_threeWrites :
    ∀ i < 2, written twoTables (tokensOf twoTables .kv threeWrites) (0, i) =
      some (fun _ _ => ((0 : ℕ) : ℝ), fun _ _ => ((if i = 0 then 1 else 3 : ℕ) : ℝ)) := by
  intro i hi
  obtain rfl | rfl : i = 0 ∨ i = 1 := by omega
  · rfl
  · rfl

theorem decode_own_threeWrites :
    ∃ b', (forEach (fun w => w.run twoTables zeroCaches.spec) threeWrites).run zeroCaches =
      (b', .ok ()) ∧
      ∃ out, decodeForward ⟨.cuda 0, .bfloat16, true⟩ b' Real.exp id Real.sqrt (attend Real.exp)
        List.reverse ⟨[1, 1, 8], fun _ => 1, .bfloat16, .cuda 0⟩
          ⟨some (tablesOf 2 [(0, 2, [2, 0])] .int64), some (lensOf [(0, 2, [2, 0])] .int64), none⟩
            none = .ok (some out) ∧
      ∀ d < 8, out.entry [0, 0, d] = 2 := by
  obtain ⟨b', hrun, out, hout, hentry⟩ :=
    @decode_own ℝ _ _ _ Real.exp id Real.sqrt ⟨Real.exp_pos, Real.exp_add⟩ (attend Real.exp)
      (fun _ _ _ _ _ => rfl) List.reverse List.reverse_perm ⟨.cuda 0, .bfloat16, true⟩ zeroCaches 1
    ⟨by decide, by decide, by decide, by decide, by decide, by decide⟩ twoTables threeWrites
    (fun w hw h => by
      rcases List.mem_pair.mp hw with rfl | rfl
      · cases h
      · cases h)
    2 (by decide) [(0, 2, [2, 0])]
    ⟨by decide, by decide, by decide, by decide, fun x hx i hi => by
      obtain rfl := List.mem_singleton.mp hx
      exact Option.isSome_of_eq_some (written_threeWrites i hi)⟩
    (fun _ => ⟨by decide, by decide, by decide⟩) ⟨[1, 1, 8], fun _ => 1, .bfloat16, .cuda 0⟩ rfl
      .int64 none (fun _ h => absurd h (Option.not_mem_none _)) none
  refine ⟨b', hrun, out, hout, fun d hd => ?_⟩
  have hdot : dot 8 (fun _ => (1 : ℝ)) (fun _ => 0) = 0 := by
    unfold dot
    simp
  have hattend : ∀ scale : ℝ,
      attend Real.exp scale 8 (fun _ => 1) [(fun _ => ((0 : ℕ) : ℝ), fun _ => ((1 : ℕ) : ℝ)),
        (fun _ => ((0 : ℕ) : ℝ), fun _ => ((3 : ℕ) : ℝ))] d = 2 := by
    intro scale
    unfold attend
    simp only [List.map_cons, List.map_nil, List.sum_cons, List.sum_nil, Nat.cast_zero, hdot,
      mul_zero, Real.exp_zero]
    norm_num
  rw [hentry 0 0 2 [2, 0] rfl 0 Nat.one_pos d hd, if_neg (by decide)]
  exact hattend _

end MoeInfinity.Kernel.PagedAttentionOps
