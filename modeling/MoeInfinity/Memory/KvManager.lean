import Mathlib.Data.Finset.Basic
import MoeInfinity.Memory.Blocks

/-! # The KV cache manager (`memory/kv_cache_manager.py`)

The manager keeps the block tables of the sequences over a GPU pool and a CPU pool. A swap-out gives
a CPU block to every GPU block of the table and releases the GPU blocks; a swap-in takes new GPU
blocks and frees the CPU blocks. The pairs in between are kept in one map from GPU ids to CPU ids
for all sequences.

`givenAtSwapOut` is a history variable: it records the CPU blocks that the last swap-out gave to a
sequence and is read by no operation. -/

namespace MoeInfinity.Memory.KvManager

open MoeInfinity.Python MoeInfinity.Lib.Imperative
open MoeInfinity.Memory.Blocks

structure KVCacheManager where
  blockSize : ℕ
  gpuPool : BlockPool
  cpuPool : BlockPool
  seqToGpuBlocks : String → Option (List ℕ)
  swapMapGpuToCpu : ℕ → Option ℕ
  seqToSwappedGpuBlocks : String → Option (List ℕ)
  gpuAllocatedBlocks : Finset ℕ
  cpuAllocatedBlocks : Finset ℕ
  givenAtSwapOut : String → Option (List ℕ)

namespace KVCacheManager

def new (numGpuBlocks numCpuBlocks blockSize : ℕ) : KVCacheManager :=
  ⟨blockSize, BlockPool.new numGpuBlocks, BlockPool.new numCpuBlocks, fun _ => none, fun _ => none,
    fun _ => none, ∅, ∅, fun _ => none⟩

/-- Run a method of the GPU pool. -/
def onGpu {α : Type} (m : Prog PyError BlockPool α) : Prog PyError KVCacheManager α :=
  zoom gpuPool (fun p k => { k with gpuPool := p }) m

/-- Run a method of the CPU pool. -/
def onCpu {α : Type} (m : Prog PyError BlockPool α) : Prog PyError KVCacheManager α :=
  zoom cpuPool (fun p k => { k with cpuPool := p }) m

def getBlockTable (k : KVCacheManager) (seqId : String) : List ℕ := (k.seqToGpuBlocks seqId).getD []

def setBlockTable (seqId : String) (blockIds : List ℕ) (k : KVCacheManager) : KVCacheManager :=
  { k with seqToGpuBlocks := Function.update k.seqToGpuBlocks seqId (some blockIds) }

/-- `self._gpu_allocated_blocks[block_id] = block`. -/
def track (b : ℕ) (k : KVCacheManager) : KVCacheManager :=
  { k with gpuAllocatedBlocks := insert b k.gpuAllocatedBlocks }

/-- `self._gpu_allocated_blocks.pop(block_id, None)`. -/
def untrack (b : ℕ) (k : KVCacheManager) : KVCacheManager :=
  { k with gpuAllocatedBlocks := k.gpuAllocatedBlocks.erase b }

/-- `self._cpu_allocated_blocks[block_id] = block`. -/
def trackCpu (c : ℕ) (k : KVCacheManager) : KVCacheManager :=
  { k with cpuAllocatedBlocks := insert c k.cpuAllocatedBlocks }

/-- `self._cpu_allocated_blocks.pop(block_id, None)`. -/
def untrackCpu (c : ℕ) (k : KVCacheManager) : KVCacheManager :=
  { k with cpuAllocatedBlocks := k.cpuAllocatedBlocks.erase c }

/-- `self._swap_map_gpu_to_cpu[gpu_id] = cpu_id`, or the key is deleted. -/
def setSwap (g : ℕ) (c : Option ℕ) (k : KVCacheManager) : KVCacheManager :=
  { k with swapMapGpuToCpu := Function.update k.swapMapGpuToCpu g c }

/-! ### GPU blocks -/

def allocateGpuBlock : Prog PyError KVCacheManager (Option ℕ) := do
  let block ← onGpu BlockPool.allocateBlock
  match block with
  | none => return none
  | some b =>
    update (track b)
    return some b

def getCachedGpuBlock (blockHash : ℤ) : Prog PyError KVCacheManager (Option ℕ) := do
  let block ← onGpu (BlockPool.getCachedBlock blockHash)
  match block with
  | none => return none
  | some b =>
    update (track b)
    return some b

/-- The block stays tracked while it has references. -/
def releaseGpuBlock (b : ℕ) : Prog PyError KVCacheManager Unit := do
  onGpu (BlockPool.freeBlock b)
  let k ← current
  if (k.gpuPool.blocks b).refCnt = 0 then update (untrack b) else pure ()

/-- The loop of `allocate_blocks_for_sequence`: `n` more blocks; `blocks` are those taken so far. -/
def allocateBlocksLoop : ℕ → List ℕ → Prog PyError KVCacheManager (Option (List ℕ))
  | 0, blocks => pure (some blocks)
  | n + 1, blocks => do
    let block ← allocateGpuBlock
    match block with
    | none =>
      forEach releaseGpuBlock blocks
      return none
    | some b => allocateBlocksLoop n (blocks ++ [b])

def allocateBlocksForSequence (seqId : String) (numTokens : ℕ) :
    Prog PyError KVCacheManager Bool := do
  let k ← current
  if k.blockSize = 0 then raise (.zeroDivisionError "division by zero")
  else
    let blocks ← allocateBlocksLoop (ceilDiv numTokens k.blockSize) []
    match blocks with
    | none => return false
    | some blockIds =>
      update (setBlockTable seqId blockIds)
      return true

def appendTokenBlock (seqId : String) : Prog PyError KVCacheManager Bool := do
  let block ← allocateGpuBlock
  match block with
  | none => return false
  | some b =>
    update fun k => setBlockTable seqId (k.getBlockTable seqId ++ [b]) k
    return true

def cacheGpuBlock (b : ℕ) (blockHash : ℤ) (k : KVCacheManager) : KVCacheManager :=
  { k with gpuPool := k.gpuPool.cacheFullBlock b blockHash }

/-- Release a block that is looked up among the tracked ones; an unknown one is skipped. -/
def releaseTracked (b : ℕ) : Prog PyError KVCacheManager Unit := do
  let k ← current
  if b ∈ k.gpuAllocatedBlocks then releaseGpuBlock b else pure ()

/-- Free a block that is looked up among the allocated CPU blocks; an unknown one is skipped. -/
def freeTrackedCpu (c : ℕ) : Prog PyError KVCacheManager Unit := do
  let k ← current
  if c ∈ k.cpuAllocatedBlocks then
    update (untrackCpu c)
    onCpu (BlockPool.freeBlock c)
  else pure ()

/-! ### Freeing a sequence -/

/-- The second loop of `free_sequence`. -/
def freeSwapped (swappedGpuId : ℕ) : Prog PyError KVCacheManager Unit := do
  let k ← current
  match k.swapMapGpuToCpu swappedGpuId with
  | none => pure ()
  | some cpuId =>
    update (setSwap swappedGpuId none)
    freeTrackedCpu cpuId

def freeSequence (seqId : String) : Prog PyError KVCacheManager Unit := do
  let k ← current
  update fun k => { k with seqToGpuBlocks := Function.update k.seqToGpuBlocks seqId none }
  forEach releaseTracked (k.getBlockTable seqId)
  let k ← current
  update fun k => { k with
    seqToSwappedGpuBlocks := Function.update k.seqToSwappedGpuBlocks seqId none }
  forEach freeSwapped ((k.seqToSwappedGpuBlocks seqId).getD [])

/-! ### Swapping out -/

/-- The CPU blocks taken so far go back. -/
def undoSwapOut (pairs : List (ℕ × ℕ)) : Prog PyError KVCacheManager Unit :=
  forEach (fun pair => do
    update (untrackCpu pair.2)
    onCpu (BlockPool.freeBlock pair.2)) pairs

/-- The loop of `prepare_swap_out`; `pairs` are the pairs made so far. -/
def prepareSwapOutLoop : List ℕ → List (ℕ × ℕ) → Prog PyError KVCacheManager (List (ℕ × ℕ))
  | [], pairs => pure pairs
  | g :: gs, pairs => do
    let block ← onCpu BlockPool.allocateBlock
    match block with
    | none =>
      undoSwapOut pairs
      return []
    | some c =>
      update (trackCpu c)
      prepareSwapOutLoop gs (pairs ++ [(g, c)])

def prepareSwapOut (seqId : String) : Prog PyError KVCacheManager (List (ℕ × ℕ)) := do
  let k ← current
  prepareSwapOutLoop (k.getBlockTable seqId) []

def commitSwapOut (seqId : String) (pairs : List (ℕ × ℕ)) : Prog PyError KVCacheManager Unit := do
  forEach (fun pair => do
    update (setSwap pair.1 (some pair.2))
    releaseTracked pair.1) pairs
  if pairs ≠ [] then
    update fun k => { k with
      seqToSwappedGpuBlocks :=
        Function.update k.seqToSwappedGpuBlocks seqId (some (pairs.map (·.1)))
      givenAtSwapOut := Function.update k.givenAtSwapOut seqId (some (pairs.map (·.2))) }
  else pure ()
  update fun k => { k with seqToGpuBlocks := Function.update k.seqToGpuBlocks seqId none }

/-! ### Swapping in -/

/-- The new GPU blocks go back when a GPU id has no CPU block. -/
def undoSwapIn (pairs : List (ℕ × ℕ)) : Prog PyError KVCacheManager Unit :=
  forEach (fun pair => do
    update (untrack pair.2)
    onGpu (BlockPool.freeBlock pair.2)) pairs

/-- The loop of `prepare_swap_in`; `pairs` are the pairs made so far. -/
def prepareSwapInLoop : List ℕ → List (ℕ × ℕ) → Prog PyError KVCacheManager (List (ℕ × ℕ))
  | [], pairs => pure pairs
  | g :: gs, pairs => do
    let k ← current
    match k.swapMapGpuToCpu g with
    | none =>
      undoSwapIn pairs
      return []
    | some cpuId =>
      let block ← onGpu BlockPool.allocateBlock
      match block with
      | none =>
        forEach (fun pair => releaseGpuBlock pair.2) pairs
        return []
      | some b =>
        update (track b)
        prepareSwapInLoop gs (pairs ++ [(cpuId, b)])

def prepareSwapIn (_seqId : String) (swappedGpuBlockIds : List ℕ) :
    Prog PyError KVCacheManager (List (ℕ × ℕ)) :=
  prepareSwapInLoop swappedGpuBlockIds []

def commitSwapIn (seqId : String) (origGpuBlockIds : List ℕ) (pairs : List (ℕ × ℕ)) :
    Prog PyError KVCacheManager Unit := do
  forEach (fun z => do
    freeTrackedCpu z.2.1
    update (setSwap z.1 none)) (origGpuBlockIds.zip pairs)
  update fun k => { k with
    seqToSwappedGpuBlocks := Function.update k.seqToSwappedGpuBlocks seqId none
    seqToGpuBlocks := Function.update k.seqToGpuBlocks seqId
      (some ((origGpuBlockIds.zip pairs).map (·.2.2))) }

end KVCacheManager

end MoeInfinity.Memory.KvManager
