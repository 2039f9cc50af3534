import Mathlib.Algebra.Ring.Nat
import Mathlib.Data.Finset.Sort
import Mathlib.Logic.Function.Basic
import MoeInfinity.Python

/-! # The paged KV cache (`serving/kv_cache.py`)

The cache is split into blocks; a sequence owns the blocks its table lists. The allocator hands out
the free block with the least id. The KV tensor is a map from block ids to the contents of a block
(over all layers, heads and slots of the block), of an arbitrary type `β`.

`savedAtSwapOut` is a history variable: it records what `swap_out` last copied for a sequence and is
read by no operation. -/

namespace MoeInfinity.Serving.KvCache

open MoeInfinity.Python MoeInfinity.Lib.Imperative

/-! ### The allocator -/

/-- The sizes a cache is built with; `__post_init__` refuses sizes that are not positive. -/
structure KvConfig where
  numBlocks : ℕ
  blockSize : ℕ
  numBlocks_pos : 0 < numBlocks
  blockSize_pos : 0 < blockSize

structure BlockAllocator where
  cfg : KvConfig
  freeBlockHeap : List ℕ
  freeBlockSet : Finset ℕ

namespace BlockAllocator

def new (cfg : KvConfig) : BlockAllocator :=
  ⟨cfg, List.range cfg.numBlocks, Finset.range cfg.numBlocks⟩

def numFreeBlocks (a : BlockAllocator) : ℕ := a.freeBlockHeap.length

/-- `heapq.heappop(self._free_block_heap)`. -/
def heappop : Prog PyError BlockAllocator ℕ := do
  let a ← current
  match a.freeBlockHeap with
  | [] => raise (.indexError "index out of range")
  | b :: rest =>
    update fun a => { a with freeBlockHeap := rest }
    return b

/-- `self._free_block_set.remove(block_id)`. -/
def setRemove (b : ℕ) : Prog PyError BlockAllocator Unit := do
  let a ← current
  if b ∈ a.freeBlockSet then
    update fun a => { a with freeBlockSet := a.freeBlockSet.erase b }
  else raise (.keyError s!"{b}")

/-- The `for` loop of `allocate`. -/
def allocateLoop : ℕ → Prog PyError BlockAllocator (List ℕ)
  | 0 => pure []
  | n + 1 => do
    let b ← heappop
    setRemove b
    let bs ← allocateLoop n
    return b :: bs

def allocate (numBlocks : ℕ) : Prog PyError BlockAllocator (List ℕ) := do
  let a ← current
  if numBlocks = 0 then return []
  else if a.numFreeBlocks < numBlocks then
    raise (.runtimeError
      s!"BlockAllocator exhausted: requested {numBlocks} blocks but only {a.numFreeBlocks} available")
  else allocateLoop numBlocks

/-- One iteration of `free`. -/
def freeOne (b : ℕ) : Prog PyError BlockAllocator Unit := do
  let a ← current
  if a.cfg.numBlocks ≤ b then
    raise (.valueError s!"invalid block id {b}; expected [0, {a.cfg.numBlocks})")
  else if b ∈ a.freeBlockSet then
    raise (.valueError s!"block id {b} is already free")
  else update fun a => { a with
    freeBlockHeap := heappush (· ≤ ·) a.freeBlockHeap b
    freeBlockSet := insert b a.freeBlockSet }

def free (blockIds : List ℕ) : Prog PyError BlockAllocator Unit := forEach freeOne blockIds

end BlockAllocator

/-! ### Block tables -/

structure BlockTable where
  blockIds : List ℕ := []
  numTokens : ℕ := 0
deriving DecidableEq, Repr

/-- `BlockTable.append_token`: a new block is taken when the last one is full. -/
def BlockTable.appendToken (t : BlockTable) : Prog PyError BlockAllocator BlockTable := do
  let a ← current
  if t.numTokens % a.cfg.blockSize = 0 then
    let newBlockIds ← BlockAllocator.allocate 1
    return ⟨t.blockIds ++ newBlockIds.take 1, t.numTokens + 1⟩
  else return ⟨t.blockIds, t.numTokens + 1⟩

/-- `append_token` called `n` times on a table that is not stored yet. -/
def BlockTable.appendTokensLoop : ℕ → BlockTable → Prog PyError BlockAllocator BlockTable
  | 0, t => pure t
  | n + 1, t => do
    let t' ← t.appendToken
    appendTokensLoop n t'

/-! ### The cache -/

structure PagedKVCache (β : Type) where
  blockAllocator : BlockAllocator
  sequenceTables : ℕ → Option BlockTable
  swappedCpuBuffers : ℕ → Option (List β)
  swappedNumTokens : ℕ → Option ℕ
  swappedOutSequences : Finset ℕ
  kvCache : ℕ → β
  /-- The block record of the installed `ContextPilotKVManager`, if there is one. -/
  cpKvManager : Option (ℕ → List ℕ)
  savedAtSwapOut : ℕ → Option (List β)

/-- `self._kv_cache[:, block_ids, ...]`. -/
def gather {β : Type} (kv : ℕ → β) (blockIds : List ℕ) : List β := blockIds.map kv

/-- `self._kv_cache[:, block_ids, ...] = rows`, for as many rows as block ids. -/
def scatter {β : Type} (kv : ℕ → β) : List ℕ → List β → ℕ → β
  | b :: bs, r :: rs => scatter (Function.update kv b r) bs rs
  | _, _ => kv

namespace PagedKVCache

variable {β : Type}

/-- The state after `__post_init__`; `kv` is the tensor's initial contents. -/
def new (cfg : KvConfig) (kv : ℕ → β) : PagedKVCache β :=
  ⟨BlockAllocator.new cfg, fun _ => none, fun _ => none, fun _ => none, ∅, kv, none, fun _ => none⟩

def blockSize (c : PagedKVCache β) : ℕ := c.blockAllocator.cfg.blockSize

/-- Run an allocator method. -/
def onAllocator {α : Type} (m : Prog PyError BlockAllocator α) : Prog PyError (PagedKVCache β) α :=
  zoom blockAllocator (fun a c => { c with blockAllocator := a }) m

def setTable (seqId : ℕ) (t : Option BlockTable) (c : PagedKVCache β) : PagedKVCache β :=
  { c with sequenceTables := Function.update c.sequenceTables seqId t }

def requireSequence (seqId : ℕ) : Prog PyError (PagedKVCache β) BlockTable := do
  let c ← current
  match c.sequenceTables seqId with
  | none => raise (.keyError s!"unknown sequence id: {seqId}")
  | some t => return t

/-- `ContextPilotKVManager.notify_blocks_allocated`, if a manager is installed. -/
def notifyBlocksAllocated (seqId : ℕ) (blockHashes : List ℕ) (c : PagedKVCache β) :
    PagedKVCache β :=
  { c with cpKvManager := c.cpKvManager.map fun m => Function.update m seqId blockHashes }

/-- `ContextPilotKVManager.notify_blocks_freed`, if a manager is installed. -/
def notifyBlocksFreed (seqId : ℕ) (blockHashes : List ℕ) (c : PagedKVCache β) : PagedKVCache β :=
  { c with cpKvManager := c.cpKvManager.map fun m =>
      Function.update m seqId ((m seqId).filter (· ∉ blockHashes)) }

/-- `set_cp_kv_manager`, for a manager that has recorded nothing yet. -/
def setCpKvManager (c : PagedKVCache β) : PagedKVCache β :=
  { c with cpKvManager := some fun _ => [] }

/-- If the pool runs out halfway, the table is not stored and the blocks taken stay taken. -/
def allocateSequence (seqId numTokens : ℕ) : Prog PyError (PagedKVCache β) Unit := do
  let c ← current
  if (c.sequenceTables seqId).isSome then
    raise (.valueError s!"sequence {seqId} already exists")
  else
    let t ← onAllocator (BlockTable.appendTokensLoop numTokens {})
    update (setTable seqId (some t))
    update (notifyBlocksAllocated seqId t.blockIds)

/-- `append_tokens`: each token is stored in the table before the next one is tried. -/
def appendTokens (seqId : ℕ) : ℕ → Prog PyError (PagedKVCache β) Unit
  | 0 => do
    let _ ← requireSequence seqId
  | n + 1 => do
    let t ← requireSequence seqId
    let t' ← onAllocator t.appendToken
    update (setTable seqId (some t'))
    appendTokens seqId n

/-- `BlockTable.release`, on a table that is no longer stored. -/
def release (t : BlockTable) : Prog PyError (PagedKVCache β) Unit :=
  if t.blockIds ≠ [] then onAllocator (BlockAllocator.free t.blockIds) else pure ()

/-- The bookkeeping of a swapped-out sequence is dropped. -/
def dropSwapped (seqId : ℕ) (c : PagedKVCache β) : PagedKVCache β :=
  { c with
    swappedCpuBuffers := Function.update c.swappedCpuBuffers seqId none
    swappedNumTokens := Function.update c.swappedNumTokens seqId none
    swappedOutSequences := c.swappedOutSequences.erase seqId }

def freeSequence (seqId : ℕ) : Prog PyError (PagedKVCache β) Unit := do
  let c ← current
  match c.sequenceTables seqId with
  | none => return
  | some t =>
    update (setTable seqId none)
    update (notifyBlocksFreed seqId t.blockIds)
    release t
    update (dropSwapped seqId)

/-- The blocks go back to the allocator; the table keeps its token count. -/
def freeGpuBlocks (seqId : ℕ) : Prog PyError (PagedKVCache β) Unit := do
  let c ← current
  match c.sequenceTables seqId with
  | none => return
  | some t =>
    if t.blockIds ≠ [] then
      onAllocator (BlockAllocator.free t.blockIds)
      update (setTable seqId (some { t with blockIds := [] }))
    else return

def getBlockTable (seqId : ℕ) : Prog PyError (PagedKVCache β) (List ℕ) := do
  let t ← requireSequence seqId
  return t.blockIds

/-- The state `swap_out` leaves for a sequence with table `t` that is not swapped out yet. -/
def saveBlocks (seqId : ℕ) (t : BlockTable) (c : PagedKVCache β) : PagedKVCache β :=
  { c with
    swappedNumTokens := Function.update c.swappedNumTokens seqId (some t.numTokens)
    swappedCpuBuffers :=
      if t.blockIds ≠ [] then
        Function.update c.swappedCpuBuffers seqId (some (gather c.kvCache t.blockIds))
      else c.swappedCpuBuffers
    swappedOutSequences := insert seqId c.swappedOutSequences
    savedAtSwapOut :=
      Function.update c.savedAtSwapOut seqId (some (gather c.kvCache t.blockIds)) }

def swapOut (seqId : ℕ) : Prog PyError (PagedKVCache β) Unit := do
  let t ← requireSequence seqId
  let c ← current
  if seqId ∈ c.swappedOutSequences then return
  else update (saveBlocks seqId t)

/-- Both CPU entries are popped before the blocks are asked for. -/
def popSaved (seqId : ℕ) (c : PagedKVCache β) : PagedKVCache β :=
  { c with
    swappedCpuBuffers := Function.update c.swappedCpuBuffers seqId none
    swappedNumTokens := Function.update c.swappedNumTokens seqId none }

/-- The assignment to the KV tensor; a single saved block is broadcast over the block ids. -/
def writeBlocks (blockIds : List ℕ) (rows : List β) : Prog PyError (PagedKVCache β) Unit :=
  match rows with
  | [r] => update fun c => { c with
      kvCache := scatter c.kvCache blockIds (blockIds.map fun _ => r) }
  | rows =>
    if rows.length = blockIds.length then
      update fun c => { c with kvCache := scatter c.kvCache blockIds rows }
    else raise (.runtimeError "shape mismatch")

def swapIn (seqId : ℕ) : Prog PyError (PagedKVCache β) Unit := do
  let t ← requireSequence seqId
  let c ← current
  if seqId ∉ c.swappedOutSequences then return
  else
    let savedNumTokens := (c.swappedNumTokens seqId).getD 0
    update (popSaved seqId)
    match c.swappedCpuBuffers seqId with
    | none => pure ()
    | some cpuBuffer =>
      if t.blockIds = [] then
        let restored ← onAllocator (BlockAllocator.allocate cpuBuffer.length)
        update (setTable seqId (some ⟨restored, savedNumTokens⟩))
        if restored ≠ [] then writeBlocks restored cpuBuffer else pure ()
      else writeBlocks t.blockIds cpuBuffer
    update fun c => { c with swappedOutSequences := c.swappedOutSequences.erase seqId }

end PagedKVCache

end MoeInfinity.Serving.KvCache
