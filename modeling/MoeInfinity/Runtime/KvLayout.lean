import Mathlib.Data.List.GetD
import MoeInfinity.Lib.Packed
import MoeInfinity.Python

/-! # The layouts of the cache

The two caches of `runtime/attention_backend.py` as tensors: `k_cache` with the head dimension split
in parts of 8, `v_cache` and the FlashInfer cache. A row has the entries of one token, by head and
dimension; entries outside the shapes mean nothing. Tokens are written slot by slot, and read
through block tables by the fallback of `kernel/paged_attention_ops.py` and through page lists by
FlashInfer. The keys and values that are written are those after `key.to(device=…, dtype=…)`, so
already of the cache's dtype.

* `slotRows_putKv`, `fiSlotRows_putFi`: in both layouts a write changes the rows of one slot.
* `gather_eq`: the fallback reads the rows of the slots of the positions in order, with the last
  block cut off.
* `build_eq`, `positions_eq`: so do the page lists, except that a sequence without tokens gets one
  page of one.
* `kv_positions`: what is read is what was written last, whatever was written for other
  sequences. -/

namespace MoeInfinity.Runtime.KvLayout

open MoeInfinity.Python MoeInfinity.Lib.Imperative MoeInfinity.Lib.Packed

variable {β : Type}

/-- The entries of a token, by head and dimension. -/
abbrev Row (β : Type) := ℕ → ℕ → β

/-- A tensor of shape `[num_tokens, num_heads, head_dim]`. -/
structure Rows (β : Type) where
  numHeads : ℕ
  headDim : ℕ
  rows : List (Row β)

def Rows.shape (t : Rows β) : ℕ × ℕ × ℕ := (t.rows.length, t.numHeads, t.headDim)

structure KVCacheSpec where
  numKvHeads : ℕ
  headDim : ℕ
  blockSize : ℕ
deriving DecidableEq, Repr

/-- `k_cache` is indexed by block, head, part of 8 dimensions, token and place in the part,
`v_cache` by block, head, dimension and token, the FlashInfer cache by block, whether the row is a
value, and token. -/
structure PagedAttentionBackend (β : Type) where
  spec : KVCacheSpec
  numGpuBlocks : ℕ
  kCache : ℕ → ℕ → ℕ → ℕ → ℕ → β
  vCache : ℕ → ℕ → ℕ → ℕ → β
  fiKvCache : Option (ℕ → Bool → ℕ → Row β)

/-! ### Writing -/

/-- The assignments of `write_kv` for one token: `k_cache[block_id, :, :, token_offset, :]` and
`v_cache[block_id, :, :, token_offset]`. -/
def putKv (block_id token_offset : ℕ) (row : Row β × Row β) (b : PagedAttentionBackend β) :
    PagedAttentionBackend β :=
  { b with
    kCache := fun block h part t x =>
      if block = block_id ∧ t = token_offset then
        row.1 h (8 * part + x) else b.kCache block h part t x
    vCache := fun block h d t => if block = block_id ∧
      t = token_offset then row.2 h d else b.vCache block h d t }

/-- The assignments of `write_kv_flashinfer` for one token. -/
def putFi (block_id token_offset : ℕ) (row : Row β × Row β) (b : PagedAttentionBackend β) :
    PagedAttentionBackend β :=
  { b with
    fiKvCache := b.fiKvCache.map fun cache block isValue t =>
      if block = block_id ∧
        t = token_offset then (if isValue then row.2 else row.1) else cache block isValue t }

/-- The body that `write_kv` and `write_kv_flashinfer` share; `key` and `value` are `k_src` and
`v_src`. -/
def writeTokens (put : ℕ → ℕ → Row β × Row β → Prog PyError (PagedAttentionBackend β) Unit)
    (key value : Rows β) (slotMapping : List ℤ) : Prog PyError (PagedAttentionBackend β) Unit := do
  let b ← current
  if key.shape ≠ value.shape then raise (.valueError "key and value must have the same shape")
  else if slotMapping.length ≠ key.rows.length then
    raise (.valueError "slot_mapping must have shape [num_tokens]")
  else if key.numHeads ≠ b.spec.numKvHeads then
    raise (.valueError "num_kv_heads mismatch with cache spec")
  else if key.headDim ≠ b.spec.headDim then raise (.valueError "head_dim mismatch with cache spec")
  else
    forEach (fun p : ℤ × Row β × Row β =>
      if p.1 < 0 then raise (.valueError "slot_mapping contains negative slot index")
      else if b.spec.blockSize = 0 then
        raise (.zeroDivisionError "integer division or modulo by zero")
      else if b.numGpuBlocks ≤ p.1.toNat / b.spec.blockSize then
        raise (.valueError "slot_mapping points past allocated GPU blocks")
      else put (p.1.toNat / b.spec.blockSize) (p.1.toNat % b.spec.blockSize) p.2)
      (slotMapping.zip (key.rows.zip value.rows))

/-- The keys of a token are reshaped to parts of 8 dimensions, which raises if some are left
over. -/
def writeKv : Rows β → Rows β → List ℤ → Prog PyError (PagedAttentionBackend β) Unit :=
  writeTokens fun block_id token_offset row => do
    let b ← current
    if b.spec.numKvHeads * (b.spec.headDim / 8) * 8 ≠ b.spec.numKvHeads * b.spec.headDim then
      raise (.runtimeError "shape is invalid for input of size")
    else update (putKv block_id token_offset row)

def writeKvFlashinfer (key value : Rows β) (slotMapping : List ℤ) :
    Prog PyError (PagedAttentionBackend β) Unit := do
  let b ← current
  if b.fiKvCache.isNone then raise (.runtimeError "FlashInfer KV cache is not initialized")
  else writeTokens (fun block_id token_offset row =>
    update (putFi block_id token_offset row)) key value slotMapping

/-! ### Reading -/

/-- The entries of `key_cache` and `value_cache` for a token of a block, after the permutation of
the dimensions. -/
def rowAt (b : PagedAttentionBackend β) (block t : ℕ) : Row β × Row β :=
  (fun h d => b.kCache block h (d / 8) t (d % 8), fun h d => b.vCache block h d t)

/-- The blocks that `_paged_attention_sdpa_fallback` gathers for one sequence, the last one cut
off. -/
def gather (b : PagedAttentionBackend β) (block_table : List ℕ) (seq_len : ℕ) :
    Option (List (Row β × Row β)) := do
  let blocks ← (List.range ((seq_len + b.spec.blockSize - 1) / b.spec.blockSize)).mapM fun i => do
    let phys_block ← block_table[i]?
    guard (phys_block < b.numGpuBlocks)
    some ((List.range (min b.spec.blockSize (seq_len - i * b.spec.blockSize))).map
      (rowAt b phys_block))
  some blocks.flatten

/-- A tensor of block tables, padded to one width. -/
structure BlockTables where
  width : ℕ
  rows : List (List ℕ)

structure PageLists where
  qoIndptr : List ℕ
  kvIndptr : List ℕ
  kvIndices : List ℕ
  kvLastPageLen : List ℕ
deriving DecidableEq, Repr

/-- The accumulators of the loop of `_build_flashinfer_metadata`. -/
structure PageAcc where
  kvIndptrVals : List ℕ
  kvLastPageLen : List ℕ
  kvIndicesPerSeq : List (List ℕ)
  totalPages : ℕ

def numPages (blockSize seq_len : ℕ) : ℕ := max ((seq_len + blockSize - 1) / blockSize) 1

def lastPageLen (blockSize seq_len : ℕ) : ℕ :=
  if seq_len = 0 then 1 else if seq_len % blockSize = 0 then blockSize else seq_len % blockSize

/-- One round of the loop, for the sequence `i` of length `seq_len`. -/
def pageStep (blockSize : ℕ) (block_tables : BlockTables) (acc : PageAcc) (p : ℕ × ℕ) :
    Except PyError PageAcc :=
  let (seq_len, i) := p
  if blockSize = 0 then
    .error (.zeroDivisionError "integer division or modulo by zero")
  else if block_tables.width < numPages blockSize seq_len then
    .error (.valueError "block_tables does not have enough page indices")
  else
    match block_tables.rows[i]? with
    | none => .error (.indexError "index is out of bounds")
    | some row => .ok {
        kvIndptrVals := acc.kvIndptrVals ++ [acc.totalPages + numPages blockSize seq_len]
        kvLastPageLen := acc.kvLastPageLen ++ [lastPageLen blockSize seq_len]
        kvIndicesPerSeq := acc.kvIndicesPerSeq ++ [row.take (numPages blockSize seq_len)]
        totalPages := acc.totalPages + numPages blockSize seq_len }

def buildFlashinferMetadata (blockSize : ℕ) (block_tables : BlockTables) (seq_lens : List ℕ) :
    Except PyError PageLists := do
  let acc ← seq_lens.zipIdx.foldlM (pageStep blockSize block_tables) ⟨[0], [], [], 0⟩
  .ok ⟨offsets 0 seq_lens, acc.kvIndptrVals, acc.kvIndicesPerSeq.flatten, acc.kvLastPageLen⟩

/-- The places of the cache that the page lists have for the sequence `i`: its pages are full but
for the last. -/
def positions (blockSize : ℕ) (p : PageLists) (i : ℕ) : List (ℕ × ℕ) :=
  let pages := slice p.kvIndices (p.kvIndptr.getD i 0) (p.kvIndptr.getD (i + 1) 0)
  (pages.dropLast.flatMap fun page => (List.range blockSize).map fun t => (page, t)) ++
    pages.getLast?.toList.flatMap fun page => (List.range (p.kvLastPageLen.getD i 0)).map
      fun t => (page, t)

/-! ### Slots -/

/-- The rows of `k_cache` and `v_cache` by slot. -/
def slotRows (b : PagedAttentionBackend β) (s : ℕ) : Row β × Row β :=
  rowAt b (s / b.spec.blockSize) (s % b.spec.blockSize)

/-- The rows of the FlashInfer cache by block and token. -/
def fiRowAt (cache : ℕ → Bool → ℕ → Row β) (block t : ℕ) : Row β × Row β :=
  (cache block false t, cache block true t)

/-- The rows of the FlashInfer cache by slot. -/
def fiSlotRows (b : PagedAttentionBackend β) : Option (ℕ → Row β × Row β) :=
  b.fiKvCache.map fun cache s => fiRowAt cache (s / b.spec.blockSize) (s % b.spec.blockSize)

theorem slot_eq_iff (blockSize s s' : ℕ) :
    (s' / blockSize = s / blockSize ∧ s' % blockSize = s % blockSize) ↔ s' = s := by
  constructor
  · rintro ⟨hdiv, hmod⟩
    rw [← Nat.div_add_mod s' blockSize, hdiv, hmod, Nat.div_add_mod]
  · rintro rfl
    exact ⟨rfl, rfl⟩

theorem slotRows_putKv (b : PagedAttentionBackend β) (s : ℕ) (row : Row β × Row β) :
    slotRows (putKv (s / b.spec.blockSize) (s % b.spec.blockSize) row b) =
      Function.update (slotRows b) s row := by
  funext s'
  have heq := slot_eq_iff b.spec.blockSize s s'
  unfold slotRows rowAt putKv
  by_cases hs : s' = s
  · subst hs
    simp only [and_self, if_true, Nat.div_add_mod, Function.update_self]
  · simp only [heq, hs, if_false, Function.update_of_ne hs]

theorem fiSlotRows_putFi (b : PagedAttentionBackend β) (s : ℕ) (row : Row β × Row β) :
    fiSlotRows (putFi (s / b.spec.blockSize) (s % b.spec.blockSize) row b) =
      (fiSlotRows b).map fun rows => Function.update rows s row := by
  unfold fiSlotRows putFi
  dsimp only
  rw [Option.map_map, Option.map_map]
  congr 1
  funext cache s'
  have heq := slot_eq_iff b.spec.blockSize s s'
  dsimp only [Function.comp, fiRowAt]
  by_cases hs : s' = s
  · subst hs
    simp only [and_self, if_true, Bool.false_eq_true, if_false, Function.update_self]
  · simp only [heq, hs, if_false, Function.update_of_ne hs]

/-- The block tables of all sequences: no block twice, and none of two sequences. -/
structure Tables (numGpuBlocks : ℕ) where
  table : ℕ → List ℕ
  nodup : ∀ q, (table q).Nodup
  disjoint : ∀ q q', q ≠ q' → List.Disjoint (table q) (table q')
  lt : ∀ q, ∀ block ∈ table q, block < numGpuBlocks

/-- A token of a sequence at a position that its block table covers. -/
structure Token (β : Type) (blockSize : ℕ) (table : ℕ → List ℕ) where
  seq : ℕ
  pos : ℕ
  row : Row β × Row β
  covered : pos / blockSize < (table seq).length

section Slots

variable {numGpuBlocks blockSize : ℕ} (T : Tables numGpuBlocks)

/-- The slot of a position. -/
def slot (blockSize : ℕ) (table : List ℕ) (pos : ℕ) : ℕ :=
  table.getD (pos / blockSize) 0 * blockSize + pos % blockSize

theorem slot_div (hbs : 0 < blockSize) (table : List ℕ) (pos : ℕ) :
    slot blockSize table pos / blockSize = table.getD (pos / blockSize) 0 := by
  rw [slot, Nat.mul_comm, Nat.mul_add_div hbs, Nat.div_eq_of_lt (Nat.mod_lt _ hbs), Nat.add_zero]

theorem slot_mod (table : List ℕ) (pos : ℕ) :
    slot blockSize table pos % blockSize = pos % blockSize := by
  rw [slot, Nat.mul_add_mod_self_right, Nat.mod_mod]

/-- **Positions have different slots**, of one sequence or of two. -/
theorem slot_inj (hbs : 0 < blockSize) {q q' i i' : ℕ} (hi : i / blockSize < (T.table q).length)
    (hi' : i' / blockSize < (T.table q').length)
    (h : slot blockSize (T.table q) i = slot blockSize (T.table q') i') : q = q' ∧ i = i' := by
  have hdiv := congrArg (· / blockSize) h
  have hmod := congrArg (· % blockSize) h
  simp only [slot_div hbs] at hdiv
  simp only [slot_mod] at hmod
  rw [List.getD_eq_getElem _ _ hi, List.getD_eq_getElem _ _ hi'] at hdiv
  have hq : q = q' := by
    by_contra hne
    exact T.disjoint q q' hne (List.getElem_mem hi) (hdiv ▸ List.getElem_mem hi')
  subst hq
  have hblock : i / blockSize = i' / blockSize := ((T.nodup q).getElem_inj_iff).mp hdiv
  exact ⟨rfl, by rw [← Nat.div_add_mod i blockSize, ← Nat.div_add_mod i' blockSize, hblock, hmod]⟩

theorem slot_block_lt (hbs : 0 < blockSize) {q i : ℕ} (hi : i / blockSize < (T.table q).length) :
    slot blockSize (T.table q) i / blockSize < numGpuBlocks := by
  rw [slot_div hbs, List.getD_eq_getElem _ _ hi]
  exact T.lt q _ (List.getElem_mem hi)

/-- The rows by slot after tokens have been written. -/
def fill (tokens : List (Token β blockSize T.table)) (rows : ℕ → Row β × Row β) :
    ℕ → Row β × Row β :=
  tokens.foldl
    (fun rows t => Function.update rows (slot blockSize (T.table t.seq) t.pos) t.row) rows

/-- The row that was written last for a position. -/
def written (tokens : List (Token β blockSize T.table)) : ℕ × ℕ → Option (Row β × Row β) :=
  tokens.foldl (fun own t => Function.update own (t.seq, t.pos) (some t.row)) fun _ => none

/-- **The slot of a position has the row that was written last for it.** -/
theorem fill_slot (hbs : 0 < blockSize) (tokens : List (Token β blockSize T.table))
    (rows : ℕ → Row β × Row β) {q i : ℕ} (hi : i / blockSize < (T.table q).length) :
    fill T tokens rows (slot blockSize (T.table q) i) =
      (written T tokens (q, i)).getD (rows (slot blockSize (T.table q) i)) := by
  have hgen : ∀ (tokens : List (Token β blockSize T.table)) (m : ℕ → Row β × Row β)
      (own : ℕ × ℕ → Option (Row β × Row β)) (d : Row β × Row β),
      m (slot blockSize (T.table q) i) = (own (q, i)).getD d →
      fill T tokens m (slot blockSize (T.table q) i) =
        (tokens.foldl (fun own t => Function.update own (t.seq, t.pos) (some t.row)) own
          (q, i)).getD d := by
    intro tokens
    induction tokens with
    | nil => exact fun _ _ _ h => h
    | cons t tokens ih =>
      intro m own d h
      refine ih _ _ d ?_
      dsimp only
      by_cases heq : (q, i) = (t.seq, t.pos)
      · obtain ⟨rfl, rfl⟩ := Prod.mk.inj heq
        rw [Function.update_self, Function.update_self, Option.getD_some]
      · have hslot : slot blockSize (T.table q) i ≠
            slot blockSize (T.table t.seq) t.pos := fun h => by
          obtain ⟨rfl, rfl⟩ := slot_inj T hbs hi t.covered h
          exact heq rfl
        rw [Function.update_of_ne heq, Function.update_of_ne hslot, h]
  exact hgen tokens rows (fun _ => none) _ rfl

end Slots

/-! ### Runs of writes -/

inductive Cache where
  | kv
  | flashinfer
deriving DecidableEq, Repr

/-- One call of `write_kv` or of `write_kv_flashinfer`. -/
structure Write (β : Type) (blockSize : ℕ) (table : ℕ → List ℕ) where
  cache : Cache
  tokens : List (Token β blockSize table)

section Writes

variable {b b' : PagedAttentionBackend β} {numGpuBlocks blockSize : ℕ} (T : Tables numGpuBlocks)

/-- The keys, the values and the slots of tokens. -/
def keyRows (spec : KVCacheSpec) (tokens : List (Token β blockSize T.table)) : Rows β :=
  ⟨spec.numKvHeads, spec.headDim, tokens.map (·.row.1)⟩

def valueRows (spec : KVCacheSpec) (tokens : List (Token β blockSize T.table)) : Rows β :=
  ⟨spec.numKvHeads, spec.headDim, tokens.map (·.row.2)⟩

def slotMapping (tokens : List (Token β blockSize T.table)) : List ℤ :=
  tokens.map fun t => (slot blockSize (T.table t.seq) t.pos : ℤ)

def Write.run (spec : KVCacheSpec) (w : Write β blockSize T.table) :
    Prog PyError (PagedAttentionBackend β) Unit :=
  match w.cache with
  | .kv => writeKv (keyRows T spec w.tokens) (valueRows T spec w.tokens) (slotMapping T w.tokens)
  | .flashinfer =>
    writeKvFlashinfer (keyRows T spec w.tokens) (valueRows T spec w.tokens) (slotMapping T w.tokens)

/-- The tokens that were written to a cache, in order. -/
def tokensOf (cache : Cache) (ws : List (Write β blockSize T.table)) :
    List (Token β blockSize T.table) :=
  (ws.filter (·.cache = cache)).flatMap (·.tokens)

/-- The tokens are put in one after the other. -/
def putAll (put : ℕ → ℕ → Row β × Row β → PagedAttentionBackend β → PagedAttentionBackend β)
    (tokens : List (Token β blockSize T.table)) (b : PagedAttentionBackend β) :
    PagedAttentionBackend β :=
  tokens.foldl (fun b t => put (slot blockSize (T.table t.seq) t.pos / blockSize)
    (slot blockSize (T.table t.seq) t.pos % blockSize) t.row b) b

/-- A call writes its tokens one after the other, if no `put` raises. -/
theorem wp_writeTokens {put : ℕ → ℕ → Row β × Row β → Prog PyError (PagedAttentionBackend β) Unit}
    (g : ℕ → ℕ → Row β × Row β → PagedAttentionBackend β → PagedAttentionBackend β)
    (hspec : ∀ block t row b, (g block t row b).spec = b.spec)
    (hput : ∀ block t row b', b'.spec = b.spec →
      wp (put block t row) (fun _ b'' => b'' = g block t row b') (fun _ _ => False) b')
    (hbs : 0 < b.spec.blockSize) (hblocks : numGpuBlocks = b.numGpuBlocks)
    (tokens : List (Token β b.spec.blockSize T.table)) :
    wp (writeTokens put (keyRows T b.spec tokens) (valueRows T b.spec tokens)
    (slotMapping T tokens))
      (fun _ b' => b' = putAll T g tokens b) (fun _ _ => False) b := by
  have hzip : (slotMapping T tokens).zip
      ((keyRows T b.spec tokens).rows.zip (valueRows T b.spec tokens).rows) = tokens.map fun t =>
        ((slot b.spec.blockSize (T.table t.seq) t.pos : ℤ), t.row) := by
    unfold slotMapping keyRows valueRows
    rw [List.zip_map', List.zip_map']
  unfold writeTokens
  simp only [wp_bind, wp_current, wp_ite, wp_raise]
  refine ⟨fun h => h ?_,
    fun _ => ⟨fun h => h ?_, fun _ => ⟨fun h => h rfl, fun _ => ⟨fun h => h rfl, fun _ => ?_⟩⟩⟩⟩
  · unfold Rows.shape keyRows valueRows
    rw [List.length_map, List.length_map]
  · unfold slotMapping keyRows
    rw [List.length_map, List.length_map]
  rw [hzip]
  -- the loop has written the tokens before those that are left
  refine wp_mono (wp_forEach (fun rest b' => ∃ done left, tokens = done ++ left ∧
    rest = left.map (fun t => ((slot b.spec.blockSize (T.table t.seq) t.pos : ℤ), t.row)) ∧
    b'.spec = b.spec ∧
    b' = putAll T g done b) ?_ _ b
    ⟨[], tokens, rfl, rfl, rfl, rfl⟩) ?_ fun _ _ h => h
  · rintro x rest b₁ ⟨done, left, htokens, hrest, hb₁, hfold⟩
    obtain ⟨t, left, rfl⟩ : ∃ t left', left = t :: left' := by
      refine List.exists_cons_of_ne_nil ?_
      rintro rfl
      cases hrest
    rw [List.map_cons, List.cons.injEq] at hrest
    obtain ⟨rfl, rfl⟩ := hrest
    have hlt := slot_block_lt T hbs t.covered
    simp only [wp_ite, wp_raise, Int.toNat_natCast]
    refine ⟨fun h => absurd h (by omega), fun _ => ⟨fun h => absurd h hbs.ne', fun _ =>
      ⟨fun h => absurd h (by omega), fun _ => ?_⟩⟩⟩
    refine wp_mono (hput _ _ t.row b₁ hb₁) ?_ fun _ _ h => h
    rintro - b₂ rfl
    refine ⟨done ++ [t], left,
      by rw [htokens, List.append_assoc]; rfl, rfl, (hspec _ _ _ _).trans hb₁, ?_⟩
    rw [putAll, List.foldl_append, hfold]
    rfl
  · rintro - b₁ ⟨done, left, htokens, hrest, -, hfold⟩
    rw [List.map_eq_nil_iff.mp hrest.symm, List.append_nil] at htokens
    rw [htokens]
    exact hfold

/-- What calls leave: the caches have the tokens written to them. -/
structure After (spec : KVCacheSpec) (T : Tables numGpuBlocks) (b : PagedAttentionBackend β)
    (kv fi : List (Token β spec.blockSize T.table)) (b' : PagedAttentionBackend β) : Prop where
  spec : b'.spec = spec
  blocks : b'.numGpuBlocks = b.numGpuBlocks
  kv : slotRows b' = fill T kv (slotRows b)
  fi : fiSlotRows b' = (fiSlotRows b).map (fill T fi)

variable {spec : KVCacheSpec}

theorem after_putKv (tokens : List (Token β spec.blockSize T.table)) (hb : b.spec = spec) :
    After spec T b tokens [] (putAll T putKv tokens b) := by
  induction tokens generalizing b with
  | nil => exact ⟨hb, rfl, rfl, by rw [show fill T [] = id from rfl, Option.map_id]; rfl⟩
  | cons t tokens ih =>
    subst hb
    have h := ih (b := putKv (slot b.spec.blockSize (T.table t.seq) t.pos / b.spec.blockSize)
      (slot b.spec.blockSize (T.table t.seq) t.pos % b.spec.blockSize) t.row b) rfl
    refine ⟨h.spec, h.blocks, ?_, h.fi⟩
    refine h.kv.trans ?_
    rw [slotRows_putKv]
    rfl

theorem after_putFi (tokens : List (Token β spec.blockSize T.table)) (hb : b.spec = spec) :
    After spec T b [] tokens (putAll T putFi tokens b) := by
  induction tokens generalizing b with
  | nil => exact ⟨hb, rfl, rfl, by rw [show fill T [] = id from rfl, Option.map_id]; rfl⟩
  | cons t tokens ih =>
    subst hb
    have h := ih (b := putFi (slot b.spec.blockSize (T.table t.seq) t.pos / b.spec.blockSize)
      (slot b.spec.blockSize (T.table t.seq) t.pos % b.spec.blockSize) t.row b) rfl
    refine ⟨h.spec, h.blocks, h.kv, ?_⟩
    refine h.fi.trans ?_
    rw [fiSlotRows_putFi, Option.map_map]
    rfl

theorem fill_append (tokens tokens' : List (Token β blockSize T.table)) (rows : ℕ → Row β × Row β) :
    fill T (tokens ++ tokens') rows = fill T tokens' (fill T tokens rows) := List.foldl_append

theorem After.trans {kv fi kv' fi' : List (Token β spec.blockSize T.table)}
    {b'' : PagedAttentionBackend β} (h : After spec T b kv fi b')
    (h' : After spec T b' kv' fi' b'') :
    After spec T b (kv ++ kv') (fi ++ fi') b'' where
  spec := h'.spec
  blocks := h'.blocks.trans h.blocks
  kv := by rw [h'.kv, h.kv, fill_append]
  fi := by
    rw [h'.fi, h.fi, Option.map_map]
    congr 1
    funext rows
    exact (fill_append T fi fi' rows).symm

theorem After.isSome {kv fi : List (Token β spec.blockSize T.table)} (h : After spec T b kv fi b')
    (hfi : b.fiKvCache.isSome) : b'.fiKvCache.isSome := by
  have heq := congrArg Option.isSome h.fi
  unfold fiSlotRows at heq
  rwa [Option.isSome_map, Option.isSome_map, Option.isSome_map, hfi] at heq

/-- **A call writes its tokens** and returns, to a cache that exists. -/
theorem wp_write (hbs : 0 < spec.blockSize) (hdim : 8 ∣ spec.headDim) (hb : b.spec = spec)
    (hblocks : numGpuBlocks = b.numGpuBlocks) (w : Write β spec.blockSize T.table)
    (hfi : w.cache = .flashinfer → b.fiKvCache.isSome) :
    wp (w.run T spec)
      (fun _ b' => After spec T b (tokensOf T .kv [w]) (tokensOf T .flashinfer [w]) b')
      (fun _ _ => False) b := by
  obtain ⟨cache, tokens⟩ := w
  subst hb
  unfold Write.run tokensOf
  cases cache with
  | kv =>
    simp only [List.filter_cons, List.filter_nil, decide_true, if_true, List.flatMap_cons,
      List.flatMap_nil, List.append_nil, reduceCtorEq, decide_false, Bool.false_eq_true, if_false]
    refine wp_mono
      (wp_writeTokens T putKv (fun _ _ _ _ => rfl) (fun block t row b₁ hb₁ => ?_) hbs hblocks
        tokens) ?_ fun _ _ h => h
    · obtain ⟨m, hm⟩ := hdim
      simp only [wp_bind, wp_current, wp_ite, wp_raise, wp_update]
      refine ⟨fun h => absurd ?_ h, fun _ => trivial⟩
      rw [hb₁, hm, Nat.mul_div_cancel_left m (by decide), Nat.mul_assoc, Nat.mul_comm m 8]
    · rintro - b' rfl
      exact after_putKv T tokens rfl
  | flashinfer =>
    simp only [List.filter_cons, List.filter_nil, decide_true, if_true, List.flatMap_cons,
      List.flatMap_nil, List.append_nil, reduceCtorEq, decide_false, Bool.false_eq_true, if_false]
    unfold writeKvFlashinfer
    simp only [wp_bind, wp_current, wp_ite, wp_raise]
    refine ⟨fun h => ?_, fun _ => ?_⟩
    · rw [Option.isNone_iff_eq_none] at h
      have hsome := hfi rfl
      rw [h] at hsome
      cases hsome
    · refine wp_mono
        (wp_writeTokens T putFi (fun _ _ _ _ => rfl) (fun _ _ _ _ _ => (wp_update _).mpr rfl) hbs
          hblocks tokens) ?_
        fun _ _ h => h
      rintro - b' rfl
      exact after_putFi T tokens rfl

/-- **A run of calls writes their tokens**, and none of them raises. -/
theorem wp_writes (hbs : 0 < spec.blockSize) (hdim : 8 ∣ spec.headDim) (hb : b.spec = spec)
    (hblocks : numGpuBlocks = b.numGpuBlocks) (ws : List (Write β spec.blockSize T.table))
    (hfi : ∀ w ∈ ws, w.cache = .flashinfer → b.fiKvCache.isSome) :
    wp (forEach (fun w => w.run T spec) ws) (fun _ b' =>
      After spec T b (tokensOf T .kv ws) (tokensOf T .flashinfer ws) b') (fun _ _ => False) b := by
  refine wp_mono (wp_forEach (fun rest b' => ∃ done, ws = done ++ rest ∧
    After spec T b (tokensOf T .kv done) (tokensOf T .flashinfer done) b') ?_ ws b
    ⟨[], rfl,
      ⟨hb, rfl, rfl,
        by rw [show fill T (tokensOf T .flashinfer []) = id from rfl, Option.map_id]; rfl⟩⟩) ?_
    fun _ _ h => h
  · rintro w rest b₁ ⟨done, hws, hafter⟩
    have hmem : w ∈ ws := by
      rw [hws]
      exact List.mem_append_right _ List.mem_cons_self
    refine wp_mono (wp_write T hbs hdim hafter.spec (hblocks.trans hafter.blocks.symm) w
      fun h => hafter.isSome T (hfi w hmem h)) ?_ fun _ _ h => h
    rintro - b₂ hwrite
    refine ⟨done ++ [w], by rw [hws, List.append_assoc]; rfl, ?_⟩
    have htrans := hafter.trans T hwrite
    unfold tokensOf at htrans ⊢
    rwa [List.filter_append, List.filter_append, List.flatMap_append, List.flatMap_append]
  · rintro - b₁ ⟨done, hws, hafter⟩
    rw [hws, List.append_nil]
    exact hafter

end Writes

/-! ### Gathering -/

/-- Blocks of which the last is cut off have the places up to `n` in order. -/
theorem flatMap_blocks {γ : Type} {bs : ℕ} (hbs : 0 < bs) (n : ℕ) (f : ℕ → ℕ → γ) :
    ((List.range ((n + bs - 1) / bs)).flatMap fun i =>
      (List.range (min bs (n - i * bs))).map (f i)) =
      (List.range n).map fun p => f (p / bs) (p % bs) := by
  have hgen : ∀ m, ((List.range m).flatMap fun i => (List.range (min bs (n - i * bs))).map (f i)) =
      (List.range (min (m * bs) n)).map fun p => f (p / bs) (p % bs) := by
    intro m
    induction m with
    | zero => simp
    | succ m ih =>
      rw [List.range_succ, List.flatMap_append, ih, List.flatMap_singleton]
      have hsum : min ((m + 1) * bs) n = min (m * bs) n + min bs (n - m * bs) := by
        rw [Nat.succ_mul]
        omega
      rw [hsum, List.range_add, List.map_append, List.map_map]
      congr 1
      by_cases hn : n ≤ m * bs
      · rw [Nat.sub_eq_zero_of_le hn, Nat.min_zero]
        rfl
      · refine List.map_congr_left fun t ht => ?_
        have ht : t < bs := (List.mem_range.mp ht).trans_le (Nat.min_le_left _ _)
        rw [Function.comp_apply, Nat.min_eq_left (by omega), Nat.mul_comm, Nat.mul_add_div hbs,
          Nat.div_eq_of_lt ht, Nat.add_zero, Nat.mul_add_mod, Nat.mod_eq_of_lt ht]
  have hall : n ≤ (n + bs - 1) / bs * bs := by
    have hdiv := Nat.div_add_mod (n + bs - 1) bs
    have hmod := Nat.mod_lt (n + bs - 1) hbs
    rw [Nat.mul_comm] at hdiv
    omega
  rw [hgen, Nat.min_eq_right hall]

theorem div_lt_of_covered {bs n len p : ℕ} (hbs : 0 < bs) (hlen : (n + bs - 1) / bs ≤ len)
    (hp : p < n) :
    p / bs < len := by
  refine lt_of_lt_of_le ?_ hlen
  rw [Nat.div_lt_iff_lt_mul hbs]
  have hdiv := Nat.div_add_mod (n + bs - 1) bs
  have hmod := Nat.mod_lt (n + bs - 1) hbs
  rw [Nat.mul_comm] at hdiv
  omega

theorem mapM_eq_some {γ δ : Type} {f : γ → Option δ} {g : γ → δ} :
    ∀ {xs : List γ}, (∀ x ∈ xs, f x = some (g x)) → xs.mapM f = some (xs.map g)
  | [], _ => rfl
  | x :: xs, h => by
    rw [List.mapM_cons, h x List.mem_cons_self,
      mapM_eq_some fun y hy => h y (List.mem_cons_of_mem x hy)]
    rfl

/-- **The fallback reads the rows of the slots in order.** -/
theorem gather_eq {b : PagedAttentionBackend β} {table row : List ℕ} {n : ℕ}
    (hbs : 0 < b.spec.blockSize) (hrow : table <+: row)
    (hlt : ∀ block ∈ table, block < b.numGpuBlocks)
    (hlen : (n + b.spec.blockSize - 1) / b.spec.blockSize ≤ table.length) :
    gather b row n =
      some ((List.range n).map fun p => slotRows b (slot b.spec.blockSize table p)) := by
  have hblock : ∀ i < (n + b.spec.blockSize - 1) / b.spec.blockSize,
      row[i]? = some (table.getD i 0) ∧ table.getD i 0 < b.numGpuBlocks := by
    intro i hi
    have hi : i < table.length := hi.trans_le hlen
    rw [List.getD_eq_getElem _ _ hi]
    refine ⟨?_, hlt _ (List.getElem_mem hi)⟩
    obtain ⟨pad, rfl⟩ := hrow
    rw [List.getElem?_append_left hi, List.getElem?_eq_getElem hi]
  rw [gather,
    mapM_eq_some
      (g := fun i => (List.range (min b.spec.blockSize (n - i * b.spec.blockSize))).map
        (rowAt b (table.getD i 0))) fun i hi => ?_]
  · rw [Option.bind_eq_bind, Option.bind_some, ← List.flatMap_def, flatMap_blocks hbs]
    refine congrArg some (List.map_congr_left fun p _ => ?_)
    rw [slotRows, slot_div hbs, slot_mod]
  · obtain ⟨hphys, hlt⟩ := hblock i (List.mem_range.mp hi)
    rw [hphys, Option.bind_eq_bind, Option.bind_some, guard, if_pos hlt]
    rfl

/-! ### Page lists -/

theorem offsets_eq_cons (s : ℕ) (ls : List ℕ) : offsets s ls = s :: (offsets s ls).tail := by
  cases ls <;> rfl

/-- The loop, from the sequence `i` on. -/
theorem foldlM_pageStep {blockSize : ℕ} (hbs : 0 < blockSize) {bt : BlockTables}
    (seq_lens : List ℕ) :
    ∀ (i : ℕ) (acc : PageAcc),
      (∀ p ∈ seq_lens.zipIdx i, numPages blockSize p.1 ≤ bt.width ∧ p.2 < bt.rows.length) →
      ∃ total, (seq_lens.zipIdx i).foldlM (pageStep blockSize bt) acc = .ok
        ⟨acc.kvIndptrVals ++ (offsets acc.totalPages (seq_lens.map (numPages blockSize))).tail,
          acc.kvLastPageLen ++ seq_lens.map (lastPageLen blockSize),
          acc.kvIndicesPerSeq ++ (seq_lens.zipIdx i).map fun p =>
            (bt.rows.getD p.2 []).take (numPages blockSize p.1), total⟩ := by
  induction seq_lens with
  | nil =>
    intro i acc _
    refine ⟨acc.totalPages, ?_⟩
    simp only [List.zipIdx_nil, List.foldlM_nil, List.map_nil, List.append_nil, offsets,
      List.tail_cons]
    rfl
  | cons n seq_lens ih =>
    intro i acc hall
    obtain ⟨hwidth, hi⟩ := hall (n, i) List.mem_cons_self
    have hstep : pageStep blockSize bt acc (n, i) = .ok
        ⟨acc.kvIndptrVals ++ [acc.totalPages + numPages blockSize n],
          acc.kvLastPageLen ++ [lastPageLen blockSize n],
          acc.kvIndicesPerSeq ++ [(bt.rows.getD i []).take (numPages blockSize n)],
          acc.totalPages + numPages blockSize n⟩ := by
      unfold pageStep
      dsimp only
      rw [if_neg hbs.ne', if_neg (Nat.not_lt.mpr hwidth), List.getElem?_eq_getElem hi,
        List.getD_eq_getElem _ _ hi]
    obtain ⟨total, hrest⟩ := ih (i + 1) _ fun p hp => hall p (List.mem_cons_of_mem _ hp)
    refine ⟨total, ?_⟩
    rw [List.zipIdx_cons, List.foldlM_cons, hstep]
    refine hrest.trans ?_
    simp only [List.map_cons, List.append_assoc, List.singleton_append, offsets, List.tail_cons,
      ← offsets_eq_cons]

/-- **What `_build_flashinfer_metadata` gives.** -/
theorem build_eq {blockSize : ℕ} (hbs : 0 < blockSize) {bt : BlockTables} (seq_lens : List ℕ)
    (hall : ∀ p ∈ seq_lens.zipIdx, numPages blockSize p.1 ≤ bt.width ∧ p.2 < bt.rows.length) :
    buildFlashinferMetadata blockSize bt seq_lens = .ok ⟨offsets 0 seq_lens,
      offsets 0 (seq_lens.map (numPages blockSize)),
      (seq_lens.zipIdx.map fun p => (bt.rows.getD p.2 []).take (numPages blockSize p.1)).flatten,
      seq_lens.map (lastPageLen blockSize)⟩ := by
  obtain ⟨total, hloop⟩ := foldlM_pageStep hbs seq_lens 0 ⟨[0], [], [], 0⟩ hall
  rw [buildFlashinferMetadata, hloop]
  simp only [List.singleton_append, ← offsets_eq_cons, List.nil_append]
  rfl

/-- The blocks of a sequence, full but for the last, have its positions in order. -/
theorem pages_eq {blockSize n : ℕ} (hbs : 0 < blockSize) (hn : n ≠ 0) {table row : List ℕ}
    (hrow : table <+: row) (hlen : numPages blockSize n ≤ table.length) :
    ((row.take (numPages blockSize n)).dropLast.flatMap fun page => (List.range blockSize).map
      fun t => (page, t)) ++ ((row.take (numPages blockSize n)).getLast?.toList.flatMap fun page =>
        (List.range (lastPageLen blockSize n)).map fun t => (page, t)) =
      (List.range n).map fun p => (table.getD (p / blockSize) 0, p % blockSize) := by
  have hpos : 0 < (n + blockSize - 1) / blockSize := Nat.div_pos (by omega) hbs
  obtain ⟨m, hm⟩ : ∃ m, (n + blockSize - 1) / blockSize = m + 1 :=
    ⟨_, (Nat.succ_pred_eq_of_pos hpos).symm⟩
  have hpages : numPages blockSize n = m + 1 := by
    rw [numPages, hm]; exact Nat.max_eq_left (by omega)
  rw [hpages] at hlen ⊢
  have htake : row.take (m + 1) = (List.range (m + 1)).map fun i => table.getD i 0 := by
    obtain ⟨pad, rfl⟩ := hrow
    refine List.ext_getElem (by simp; omega) fun i hi hi' => ?_
    have hi : i < m + 1 := by simpa using hi'
    rw [List.getElem_take, List.getElem_map, List.getElem_range,
      List.getElem_append_left (by omega), List.getD_eq_getElem _ _ (by omega)]
  have hdiv := Nat.div_add_mod (n + blockSize - 1) blockSize
  have hmod := Nat.mod_lt (n + blockSize - 1) hbs
  rw [hm, Nat.mul_comm, Nat.succ_mul] at hdiv
  have hlast : lastPageLen blockSize n = min blockSize (n - m * blockSize) := by
    have hle : n - m * blockSize ≤ blockSize := by omega
    have hn' : n = blockSize * m + (n - m * blockSize) := by rw [Nat.mul_comm]; omega
    rw [lastPageLen, if_neg hn, Nat.min_eq_right hle]
    rcases hle.lt_or_eq with hlt | heq
    · have hrem : n % blockSize = n - m * blockSize := by
        conv_lhs => rw [hn']
        rw [Nat.mul_add_mod, Nat.mod_eq_of_lt hlt]
      rw [hrem, if_neg (by omega)]
    · have hrem : n % blockSize = 0 := by
        rw [hn', heq, Nat.mul_add_mod, Nat.mod_self]
      rw [if_pos hrem, heq]
  rw [htake, List.range_succ, List.map_append, List.map_singleton, List.dropLast_concat,
    List.getLast?_concat, Option.toList_some, List.flatMap_singleton, hlast, List.flatMap_map,
    ← flatMap_blocks hbs n fun i t => (table.getD i 0, t), hm, List.range_succ, List.flatMap_append,
    List.flatMap_singleton]
  congr 1
  refine List.flatMap_congr fun i hi => ?_
  have hi : i + 1 ≤ m := List.mem_range.mp hi
  have hmul := Nat.mul_le_mul_right blockSize hi
  rw [Nat.succ_mul] at hmul
  rw [Nat.min_eq_left (by omega)]

theorem pages_empty {blockSize : ℕ} {table row : List ℕ} (hrow : table <+: row)
    (hlen : numPages blockSize 0 ≤ table.length) :
    ((row.take 1).dropLast.flatMap fun page => (List.range blockSize).map fun t => (page, t)) ++
      ((row.take 1).getLast?.toList.flatMap fun page => (List.range (lastPageLen blockSize 0)).map
        fun t => (page, t)) =
      [(table.getD 0 0, 0)] := by
  obtain ⟨pad, rfl⟩ := hrow
  obtain ⟨block, table, rfl⟩ : ∃ block table', table = block :: table' := by
    refine List.exists_cons_of_ne_nil ?_
    rintro rfl
    exact absurd ((Nat.le_max_right _ 1).trans hlen) (by simp)
  rfl

/-- A batch of sequences, each with its length and its padded block table. -/
structure Batch {numGpuBlocks : ℕ} (blockSize : ℕ) (T : Tables numGpuBlocks) (width : ℕ)
    (batch : List (ℕ × ℕ × List ℕ)) : Prop where
  table : ∀ x ∈ batch, T.table x.1 <+: x.2.2
  width : ∀ x ∈ batch, x.2.2.length = width
  covered : ∀ x ∈ batch, numPages blockSize x.2.1 ≤ (T.table x.1).length

section Batch

variable {numGpuBlocks blockSize width : ℕ} {T : Tables numGpuBlocks}
  {batch : List (ℕ × ℕ × List ℕ)}

/-- The pages of the sequences, sequence by sequence. -/
def pages (blockSize : ℕ) (batch : List (ℕ × ℕ × List ℕ)) : List (List ℕ) :=
  (batch.map (·.2.1)).zipIdx.map fun p =>
  ((batch.map (·.2.2)).getD p.2 []).take (numPages blockSize p.1)

theorem getElem?_pages {k q n : ℕ} {row : List ℕ} (hk : batch[k]? = some (q, n, row)) :
    (pages blockSize batch)[k]? = some (row.take (numPages blockSize n)) := by
  rw [pages, List.getElem?_map, List.getElem?_zipIdx, List.getElem?_map, hk]
  simp only [Option.map_some, Nat.zero_add, List.getD_eq_getElem?_getD, List.getElem?_map, hk,
    Option.getD_some]

theorem Batch.length_pages (h : Batch blockSize T width batch) :
    (pages blockSize batch).map List.length = (batch.map (·.2.1)).map (numPages blockSize) := by
  refine List.ext_getElem (by simp [pages]) fun j hj hj' => ?_
  have hj : j < batch.length := by simpa using hj'
  have hmem := List.getElem_mem hj
  have hwidth := (h.covered _ hmem).trans (h.table _ hmem).length_le
  simp only [pages, List.getElem_map, List.getElem_zipIdx, Nat.zero_add, List.length_take]
  rw [List.getD_eq_getElem _ _ (by simpa using hj), List.getElem_map, Nat.min_eq_left hwidth]

theorem Batch.fits (h : Batch blockSize T width batch) (p : ℕ × ℕ)
    (hp : p ∈ (batch.map (·.2.1)).zipIdx) :
    numPages blockSize p.1 ≤ width ∧ p.2 < (batch.map (·.2.2)).length := by
  obtain ⟨n, i⟩ := p
  have hn := List.mem_zipIdx_iff_getElem?.mp hp
  rw [List.getElem?_map, Option.map_eq_some_iff] at hn
  obtain ⟨x, hx, rfl⟩ := hn
  have hmem := List.mem_of_getElem? hx
  refine ⟨(h.covered x hmem).trans ?_, ?_⟩
  · rw [← h.width x hmem]
    exact (h.table x hmem).length_le
  · rw [List.length_map]
    exact (List.getElem?_eq_some_iff.mp hx).1

theorem getD_indptr (batch : List (ℕ × ℕ × List ℕ)) {j : ℕ} (hj : j ≤ batch.length) :
    (offsets 0 ((batch.map (·.2.1)).map (numPages blockSize))).getD j 0 =
      (((batch.map (·.2.1)).map (numPages blockSize)).take j).sum := by
  rw [List.getD_eq_getElem?_getD, getElem?_offsets 0 _ (by simpa using hj), Option.getD_some,
    Nat.zero_add]

/-- **The page lists have the positions of every sequence in order**, and one position for a
sequence without tokens. -/
theorem positions_eq (hbs : 0 < blockSize) (h : Batch blockSize T width batch) : ∃ p,
    buildFlashinferMetadata blockSize ⟨width, batch.map (·.2.2)⟩ (batch.map (·.2.1)) = .ok p ∧
    ∀ k q n row, batch[k]? = some (q, n, row) → positions blockSize p k =
      if n = 0 then [((T.table q).getD 0 0, 0)]
      else (List.range n).map fun i => ((T.table q).getD (i / blockSize) 0, i % blockSize) := by
  refine ⟨_, build_eq hbs _ h.fits, fun k q n row hk => ?_⟩
  have hmem := List.mem_of_getElem? hk
  have htable : T.table q <+: row := h.table _ hmem
  have hcovered : numPages blockSize n ≤ (T.table q).length := h.covered _ hmem
  have hklt : k < batch.length := (List.getElem?_eq_some_iff.mp hk).1
  have hslice := slice_flatten (@getElem?_pages blockSize _ _ _ _ _ hk)
  rw [h.length_pages] at hslice
  have hlast : ((batch.map (·.2.1)).map (lastPageLen blockSize)).getD k 0 =
      lastPageLen blockSize n := by
    simp only [List.getD_eq_getElem?_getD, List.getElem?_map, hk, Option.map_some, Option.getD_some]
  unfold positions
  dsimp only
  rw [getD_indptr batch hklt.le, getD_indptr batch hklt, ← pages, hslice, hlast]
  by_cases hn : n = 0
  · subst hn
    have hone : numPages blockSize 0 = 1 := by
      rw [numPages, Nat.zero_add, Nat.div_eq_of_lt (Nat.sub_lt hbs Nat.one_pos)]
      rfl
    rw [if_pos rfl, hone]
    exact pages_empty htable hcovered
  · rw [if_neg hn]
    exact pages_eq hbs hn htable hcovered

end Batch

/-! ### What is read -/

/-- **The caches read back what was written.** After calls that write tokens of any sequences in any
order, the fallback gathers for the first `n` positions of a sequence the rows that `write_kv` wrote
for them last, whatever was written for other sequences; the page lists have the same positions, and
there the FlashInfer cache has the rows that `write_kv_flashinfer` wrote for them last. A sequence
without tokens has one position in its page list. -/
theorem kv_positions {b : PagedAttentionBackend β} (T : Tables b.numGpuBlocks)
    (hbs : 0 < b.spec.blockSize) (hdim : 8 ∣ b.spec.headDim)
    (ws : List (Write β b.spec.blockSize T.table))
    (hfi : ∀ w ∈ ws, w.cache = .flashinfer → b.fiKvCache.isSome) :
    ∃ b', (forEach (fun w => w.run T b.spec) ws).run b = (b', .ok ()) ∧
      (∀ q n row, T.table q <+: row → (n + b.spec.blockSize - 1) / b.spec.blockSize ≤
        (T.table q).length → gather b' row n = some ((List.range n).map fun i =>
          (written T (tokensOf T .kv ws) (q, i)).getD
            (slotRows b (slot b.spec.blockSize (T.table q) i)))) ∧
      ∀ width batch, Batch b.spec.blockSize T width batch → ∃ p,
        buildFlashinferMetadata b.spec.blockSize ⟨width, batch.map (·.2.2)⟩
          (batch.map (·.2.1)) = .ok p ∧
        ∀ k q n row, batch[k]? = some (q, n, row) →
          (n = 0 → positions b.spec.blockSize p k = [((T.table q).getD 0 0, 0)]) ∧
          (n ≠ 0 → positions b.spec.blockSize p k = (List.range n).map (fun i =>
              ((T.table q).getD (i / b.spec.blockSize) 0, i % b.spec.blockSize)) ∧
            ∀ cache cache', b.fiKvCache = some cache → b'.fiKvCache = some cache' →
              (positions b.spec.blockSize p k).map (fun x => fiRowAt cache' x.1 x.2) =
                (List.range n).map fun i =>
                (written T (tokensOf T .flashinfer ws) (q, i)).getD
                  (fiRowAt cache ((T.table q).getD (i / b.spec.blockSize) 0)
                    (i % b.spec.blockSize))) := by
  obtain ⟨b', _, hrun, hafter⟩ := exists_of_wp (wp_writes T hbs hdim rfl rfl ws hfi)
  refine ⟨b', hrun, fun q n row hrow hlen => ?_, fun width batch hbatch => ?_⟩
  · have hbs' : 0 < b'.spec.blockSize := by rwa [hafter.spec]
    rw [gather_eq hbs' hrow (by rw [hafter.blocks]; exact T.lt q) (by rwa [hafter.spec]),
      hafter.spec]
    refine congrArg some (List.map_congr_left fun i hi => ?_)
    rw [hafter.kv]
    exact fill_slot T hbs _ _ (div_lt_of_covered hbs hlen (List.mem_range.mp hi))
  · obtain ⟨p, hbuild, hpositions⟩ := positions_eq hbs hbatch
    refine ⟨p, hbuild, fun k q n row hk => ⟨fun hn => ?_, fun hn => ?_⟩⟩
    · rw [hpositions k q n row hk, if_pos hn]
    · have hpos := hpositions k q n row hk
      rw [if_neg hn] at hpos
      refine ⟨hpos, fun cache cache' hcache hcache' => ?_⟩
      rw [hpos, List.map_map]
      refine List.map_congr_left fun i hi => ?_
      have hcovered : numPages b.spec.blockSize n ≤ (T.table q).length :=
        hbatch.covered _ (List.mem_of_getElem? hk)
      have hilt :=
        div_lt_of_covered hbs ((Nat.le_max_left _ 1).trans hcovered) (List.mem_range.mp hi)
      have hfill := hafter.fi
      unfold fiSlotRows at hfill
      rw [hcache, hcache', Option.map_some, Option.map_some, Option.map_some, Option.some_inj,
        hafter.spec] at hfill
      have hread := congrFun hfill (slot b.spec.blockSize (T.table q) i)
      rw [fill_slot T hbs _ _ hilt] at hread
      simp only [slot_div hbs, slot_mod] at hread
      exact hread

/-- A cache of four blocks of two tokens, all entries zero. -/
def zeroBackend : PagedAttentionBackend ℕ :=
  ⟨⟨1, 8, 2⟩, 4, fun _ _ _ _ _ => 0, fun _ _ _ _ => 0, some fun _ _ _ _ _ => 0⟩

/-- Two blocks for sequence 0 and one for sequence 1. -/
def twoTables : Tables 4 where
  table q := if q = 0 then [2, 0] else if q = 1 then [3] else []
  nodup q := by split_ifs <;> decide
  disjoint q q' hne := by split_ifs <;> simp_all [List.Disjoint]
  lt q := by split_ifs <;> decide

/-- Tokens of the two sequences, written in turn. -/
def inTurn : List (Write ℕ 2 twoTables.table) :=
  [⟨.kv, [⟨0, 1, (fun _ _ => 11, fun _ _ => 12), by decide⟩,
    ⟨1, 0, (fun _ _ => 21, fun _ _ => 22), by decide⟩]⟩, ⟨.flashinfer,
    [⟨1, 0, (fun _ _ => 21, fun _ _ => 22), by decide⟩]⟩,
    ⟨.kv, [⟨0, 0, (fun _ _ => 13, fun _ _ => 14), by decide⟩,
      ⟨0, 2, (fun _ _ => 15, fun _ _ => 16), by decide⟩]⟩]

/-- Both sequences, with padded block tables. -/
def bothSequences : List (ℕ × ℕ × List ℕ) := [(0, 3, [2, 0]), (1, 1, [3, 0])]

theorem batch_bothSequences : Batch 2 twoTables 2 bothSequences where
  table x hx := by
    rcases List.mem_pair.mp hx with rfl | rfl
    · exact List.prefix_rfl
    · exact ⟨[0], rfl⟩
  width x hx := by rcases List.mem_pair.mp hx with rfl | rfl <;> rfl
  covered x hx := by rcases List.mem_pair.mp hx with rfl | rfl <;> decide

theorem kv_positions_inTurn :
    ∃ b', (forEach (fun w => w.run twoTables zeroBackend.spec) inTurn).run zeroBackend =
      (b', .ok ()) ∧
      gather b' [2, 0] 3 =
        some [(fun _ _ => 13, fun _ _ => 14), (fun _ _ => 11, fun _ _ => 12),
          (fun _ _ => 15, fun _ _ => 16)] ∧
    ∃ p, buildFlashinferMetadata 2 ⟨2, [[2, 0], [3, 0]]⟩ [3, 1] = .ok p ∧
      positions 2 p 0 = [(2, 0), (2, 1), (0, 0)] ∧ ∀ cache', b'.fiKvCache = some cache' →
        (positions 2 p 1).map (fun x => fiRowAt cache' x.1 x.2) =
        [(fun _ _ => 21, fun _ _ => 22)] := by
  obtain ⟨b', hrun, hgather, hpages⟩ :=
    @kv_positions ℕ zeroBackend twoTables (by decide) (by decide) inTurn fun _ _ _ => rfl
  obtain ⟨p, hbuild, hread⟩ := hpages 2 bothSequences batch_bothSequences
  refine ⟨b', hrun, (hgather 0 3 [2, 0] List.prefix_rfl (by decide)).trans rfl, p, hbuild, ?_,
    fun cache' h => ?_⟩
  · exact ((hread 0 0 3 [2, 0] rfl).2 (by decide)).1
  · exact (((hread 1 1 1 [3, 0] rfl).2 (by decide)).2 _ cache' rfl h).trans rfl

/-- A sequence without tokens: the fallback gathers nothing, the page list has one position. -/
theorem positions_empty : gather zeroBackend [3] 0 = some [] ∧
    ∃ p, buildFlashinferMetadata 2 ⟨1, [[3]]⟩ [0] = .ok p ∧ positions 2 p 0 = [(3, 0)] :=
  ⟨rfl, _, rfl, by decide⟩

end MoeInfinity.Runtime.KvLayout
