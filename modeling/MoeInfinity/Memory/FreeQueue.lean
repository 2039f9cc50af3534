import MoeInfinity.Lib.LinkedList
import MoeInfinity.Lib.Runs
import MoeInfinity.Memory.BlockHashes

/-! # The free queue (`memory/block_pool.py`)

The pool with its doubly linked free queue: a block has pointers to the block before and after it in
the queue. Every operation does to the linked queue what `Memory.Blocks` does to the list of the ids
in it (`simulates`), so that in every run the queue is a well-formed list of the blocks without
references, and the hash map and the hashes of the blocks are inverse to each other (`pool_run`). -/

namespace MoeInfinity.Memory.FreeQueue

open MoeInfinity.Python MoeInfinity.Lib MoeInfinity.Lib.Imperative MoeInfinity.Lib.LinkedList
  MoeInfinity.Lib.Runs

structure KVCacheBlock where
  refCnt : ℕ := 0
  blockHash : Option ℤ := none
  prev : Option ℕ := none
  next : Option ℕ := none

structure FreeBlockQueue where
  head : Option ℕ := none
  tail : Option ℕ := none
  size : ℤ := 0

structure BlockPool where
  numBlocks : ℕ
  blocks : ℕ → KVCacheBlock
  freeQueue : FreeBlockQueue
  hashMap : ℤ → Option ℕ

namespace BlockPool

/-! ### Assignments -/

def modifyBlock (b : ℕ) (f : KVCacheBlock → KVCacheBlock) (p : BlockPool) : BlockPool :=
  { p with blocks := Function.update p.blocks b (f (p.blocks b)) }

def setPrev (b : ℕ) (v : Option ℕ) : BlockPool → BlockPool :=
  modifyBlock b fun k => { k with prev := v }

def setNext (b : ℕ) (v : Option ℕ) : BlockPool → BlockPool :=
  modifyBlock b fun k => { k with next := v }

def setRefCnt (b n : ℕ) : BlockPool → BlockPool := modifyBlock b fun k => { k with refCnt := n }

def setBlockHash (b : ℕ) (h : Option ℤ) : BlockPool → BlockPool :=
  modifyBlock b fun k => { k with blockHash := h }

def setHead (v : Option ℕ) (p : BlockPool) : BlockPool :=
  { p with freeQueue := { p.freeQueue with head := v } }

def setTail (v : Option ℕ) (p : BlockPool) : BlockPool :=
  { p with freeQueue := { p.freeQueue with tail := v } }

def addSize (n : ℤ) (p : BlockPool) : BlockPool :=
  { p with freeQueue := { p.freeQueue with size := p.freeQueue.size + n } }

/-! ### The queue -/

/-- `FreeBlockQueue.append`. -/
def append (b : ℕ) (p : BlockPool) : BlockPool :=
  let p := setPrev b p.freeQueue.tail p
  let p := setNext b none p
  let p := match p.freeQueue.tail with
    | some t => setNext t (some b) p
    | none => setHead (some b) p
  addSize 1 (setTail (some b) p)

/-- The assignments of `popleft`, where `b` is the head. -/
def unlinkHead (b : ℕ) (p : BlockPool) : BlockPool :=
  let p := setHead (p.blocks b).next p
  let p := match p.freeQueue.head with
    | some h => setPrev h none p
    | none => setTail none p
  addSize (-1) (setNext b none (setPrev b none p))

def popleft : Prog PyError BlockPool (Option ℕ) := do
  let p ← current
  match p.freeQueue.head with
  | none => return none
  | some b =>
    update (unlinkHead b)
    return some b

/-- `FreeBlockQueue.remove`. -/
def remove (b : ℕ) (p : BlockPool) : BlockPool :=
  let p := match (p.blocks b).prev with
    | some m => setNext m (p.blocks b).next p
    | none => setHead (p.blocks b).next p
  let p := match (p.blocks b).next with
    | some n => setPrev n (p.blocks b).prev p
    | none => setTail (p.blocks b).prev p
  addSize (-1) (setNext b none (setPrev b none p))

/-! ### The pool -/

def new (numBlocks : ℕ) : BlockPool :=
  (List.range numBlocks).foldl (fun p b => append b p) ⟨numBlocks, fun _ => {}, {}, fun _ => none⟩

/-- `del self._hash_map[h]` if the map holds the block `b` there. -/
def unmap (b : ℕ) (h : ℤ) (p : BlockPool) : BlockPool :=
  if p.hashMap h = some b then { p with hashMap := Function.update p.hashMap h none } else p

/-- The block taken from the free queue loses its hash. -/
def dropHash (b : ℕ) (p : BlockPool) : BlockPool :=
  match (p.blocks b).blockHash with
  | none => p
  | some h => setBlockHash b none (unmap b h p)

def allocateBlock : Prog PyError BlockPool (Option ℕ) := do
  let block ← popleft
  match block with
  | none => return none
  | some b =>
    update (dropHash b)
    update (setRefCnt b 1)
    return some b

def freeBlock (b : ℕ) : Prog PyError BlockPool Unit := do
  let p ← current
  if (p.blocks b).refCnt = 0 then
    raise (.valueError s!"block {b} has non-positive ref_cnt={(p.blocks b).refCnt}")
  else
    update fun p => setRefCnt b ((p.blocks b).refCnt - 1) p
    let p ← current
    if (p.blocks b).refCnt = 0 then update (append b) else pure ()

def getCachedBlock (blockHash : ℤ) : Prog PyError BlockPool (Option ℕ) := do
  let p ← current
  match p.hashMap blockHash with
  | none => return none
  | some b =>
    if (p.blocks b).refCnt = 0 then update (remove b) else pure ()
    update fun p => setRefCnt b ((p.blocks b).refCnt + 1) p
    return some b

/-- The map entry of the block's former hash is dropped. -/
def forgetHash (b : ℕ) (blockHash : ℤ) (p : BlockPool) : BlockPool :=
  match (p.blocks b).blockHash with
  | none => p
  | some h => if h = blockHash then p else unmap b h p

/-- Another block under the same hash loses it. -/
def evictColliding (b : ℕ) (blockHash : ℤ) (p : BlockPool) : BlockPool :=
  match p.hashMap blockHash with
  | none => p
  | some c => if c = b then p else setBlockHash c none p

def cacheFullBlock (b : ℕ) (blockHash : ℤ) (p : BlockPool) : BlockPool :=
  let p := evictColliding b blockHash (forgetHash b blockHash p)
  let p := setBlockHash b (some blockHash) p
  { p with hashMap := Function.update p.hashMap blockHash (some b) }

end BlockPool

open BlockPool

/-! ### The pointers -/

variable {p : BlockPool} {xs : List ℕ}

/-- The pointers of the blocks and of the queue. -/
def links (p : BlockPool) : Links ℕ where
  prev b := (p.blocks b).prev
  next b := (p.blocks b).next
  head := p.freeQueue.head
  tail := p.freeQueue.tail

theorem links_modifyBlock (b : ℕ) (f : KVCacheBlock → KVCacheBlock) (p : BlockPool) :
    links (modifyBlock b f p) = { links p with
      prev := Function.update (links p).prev b (f (p.blocks b)).prev
      next := Function.update (links p).next b (f (p.blocks b)).next } := by
  have hfield : ∀ g : KVCacheBlock → Option ℕ, (fun c => g ((modifyBlock b f p).blocks c)) =
      Function.update (fun c => g (p.blocks c)) b (g (f (p.blocks b))) := by
    intro g
    funext c
    by_cases hc : c = b
    · subst hc
      simp [modifyBlock]
    · simp [modifyBlock, hc]
  unfold links
  rw [hfield KVCacheBlock.prev, hfield KVCacheBlock.next]
  rfl

@[simp] theorem links_setPrev (b : ℕ) (v : Option ℕ) (p : BlockPool) :
    links (setPrev b v p) = { links p with prev := Function.update (links p).prev b v } := by
  rw [setPrev, links_modifyBlock]
  change (⟨Function.update (links p).prev b v, Function.update (links p).next b ((links p).next b),
    (links p).head, (links p).tail⟩ : Links ℕ) = _
  rw [Function.update_eq_self]

@[simp] theorem links_setNext (b : ℕ) (v : Option ℕ) (p : BlockPool) :
    links (setNext b v p) = { links p with next := Function.update (links p).next b v } := by
  rw [setNext, links_modifyBlock]
  change (⟨Function.update (links p).prev b ((links p).prev b), Function.update (links p).next b v,
    (links p).head, (links p).tail⟩ : Links ℕ) = _
  rw [Function.update_eq_self]

/-- An assignment to a block that keeps its pointers. -/
theorem links_kept {b : ℕ} {f : KVCacheBlock → KVCacheBlock} (hprev : ∀ k, (f k).prev = k.prev)
    (hnext : ∀ k, (f k).next = k.next) (p : BlockPool) : links (modifyBlock b f p) = links p := by
  rw [links_modifyBlock, hprev, hnext]
  change (⟨Function.update (links p).prev b ((links p).prev b),
    Function.update (links p).next b ((links p).next b), _, _⟩ : Links ℕ) = _
  rw [Function.update_eq_self, Function.update_eq_self]

@[simp] theorem links_setRefCnt (b n : ℕ) (p : BlockPool) : links (setRefCnt b n p) = links p :=
  links_kept (f := fun k => { k with refCnt := n }) (fun _ => rfl) (fun _ => rfl) p

@[simp] theorem links_setBlockHash (b : ℕ) (h : Option ℤ) (p : BlockPool) :
    links (setBlockHash b h p) = links p :=
  links_kept (f := fun k => { k with blockHash := h }) (fun _ => rfl) (fun _ => rfl) p

@[simp] theorem links_setHead (v : Option ℕ) (p : BlockPool) :
    links (setHead v p) = { links p with head := v } := rfl

@[simp] theorem links_setTail (v : Option ℕ) (p : BlockPool) :
    links (setTail v p) = { links p with tail := v } := rfl

@[simp] theorem links_addSize (n : ℤ) (p : BlockPool) : links (addSize n p) = links p := rfl

theorem prev_links (b : ℕ) (p : BlockPool) : (links p).prev b = (p.blocks b).prev := rfl

theorem next_links (b : ℕ) (p : BlockPool) : (links p).next b = (p.blocks b).next := rfl

/-- **The methods of the queue** are the operations on linked lists. -/
theorem links_append (b : ℕ) (p : BlockPool) :
    links (append b p) = LinkedList.append b (links p) := by
  have htail : (setNext b none (setPrev b p.freeQueue.tail p)).freeQueue.tail =
    (links p).tail := rfl
  unfold BlockPool.append LinkedList.append
  simp only [links_addSize, links_setTail, htail]
  cases h : (links p).tail with
  | none =>
    simp only [links_setHead, links_setNext, links_setPrev]
    rw [show p.freeQueue.tail = none from h]
  | some t =>
    simp only [links_setNext, links_setPrev]
    rw [show p.freeQueue.tail = some t from h]

/-- The first two assignments of `remove`. -/
theorem links_bypass (b : ℕ) (p : BlockPool) {q : BlockPool}
    (hq : q = match (p.blocks b).prev with
      | some m => setNext m (p.blocks b).next p
      | none => setHead (p.blocks b).next p) :
    (q.blocks b).prev = (p.blocks b).prev ∧ (q.blocks b).next = (p.blocks b).next := by
  subst hq
  cases hp : (p.blocks b).prev with
  | none => exact ⟨hp, rfl⟩
  | some m =>
    have hl := links_setNext m (p.blocks b).next p
    refine ⟨(congrFun (congrArg Links.prev hl) b).trans hp,
      (congrFun (congrArg Links.next hl) b).trans ?_⟩
    by_cases hm : b = m
    · simp [hm]
    · exact Function.update_of_ne hm _ _

theorem links_remove (b : ℕ) (p : BlockPool) :
    links (remove b p) = LinkedList.remove b (links p) := by
  unfold BlockPool.remove LinkedList.remove
  obtain ⟨hprev, hnext⟩ := links_bypass b p rfl
  simp only [links_addSize, links_setNext, links_setPrev, hprev, hnext, prev_links, next_links]
  cases hp : (p.blocks b).prev <;> cases hn : (p.blocks b).next <;>
    simp only [links_setNext, links_setPrev, links_setHead, links_setTail]

/-- Taking out the head is taking out a node without a node before it. -/
theorem links_unlinkHead {b : ℕ} (hprev : (p.blocks b).prev = none) :
    links (unlinkHead b p) = LinkedList.remove b (links p) := by
  unfold BlockPool.unlinkHead LinkedList.remove
  have hhead : (setHead (p.blocks b).next p).freeQueue.head = (p.blocks b).next := rfl
  simp only [links_addSize, links_setNext, links_setPrev, hhead, hprev, prev_links, next_links]
  cases hn : (p.blocks b).next <;> simp only [links_setPrev, links_setHead, links_setTail]

/-! ### The list of the free blocks -/

/-- The queue is the list of the blocks `xs`, and counts them. -/
structure Queued (p : BlockPool) (xs : List ℕ) : Prop where
  linked : Linked (links p) xs
  size : p.freeQueue.size = xs.length

/-- The pool with the list in the place of the pointers. -/
def listed (xs : List ℕ) (p : BlockPool) : Blocks.BlockPool :=
  ⟨p.numBlocks, fun b => ⟨(p.blocks b).refCnt, (p.blocks b).blockHash⟩, xs, p.hashMap⟩

theorem listed_modifyBlock (b : ℕ) (f : KVCacheBlock → KVCacheBlock) (p : BlockPool) :
    listed xs (modifyBlock b f p) =
      Blocks.BlockPool.setBlock b ⟨(f (p.blocks b)).refCnt, (f (p.blocks b)).blockHash⟩
        (listed xs p) := by
  have hblocks : (listed xs (modifyBlock b f p)).blocks =
      Function.update (listed xs p).blocks b
        ⟨(f (p.blocks b)).refCnt, (f (p.blocks b)).blockHash⟩ := by
    funext c
    by_cases hc : c = b
    · subst hc
      simp [listed, modifyBlock]
    · simp [listed, modifyBlock, hc]
  unfold Blocks.BlockPool.setBlock
  rw [← hblocks]
  rfl

/-- Assignments to the pointers of a block. -/
theorem listed_kept {b : ℕ} {f : KVCacheBlock → KVCacheBlock} (hcnt : ∀ k, (f k).refCnt = k.refCnt)
    (hhash : ∀ k, (f k).blockHash = k.blockHash) (p : BlockPool) :
    listed xs (modifyBlock b f p) = listed xs p := by
  rw [listed_modifyBlock, hcnt, hhash]
  change ({ listed xs p with
    blocks := Function.update (listed xs p).blocks b ((listed xs p).blocks b) } :
    Blocks.BlockPool) = _
  rw [Function.update_eq_self]

@[simp] theorem listed_setPrev (b : ℕ) (v : Option ℕ) (p : BlockPool) :
    listed xs (setPrev b v p) = listed xs p :=
  listed_kept (f := fun k => { k with prev := v }) (fun _ => rfl) (fun _ => rfl) p

@[simp] theorem listed_setNext (b : ℕ) (v : Option ℕ) (p : BlockPool) :
    listed xs (setNext b v p) = listed xs p :=
  listed_kept (f := fun k => { k with next := v }) (fun _ => rfl) (fun _ => rfl) p

@[simp] theorem listed_setHead (v : Option ℕ) (p : BlockPool) :
    listed xs (setHead v p) = listed xs p := rfl

@[simp] theorem listed_setTail (v : Option ℕ) (p : BlockPool) :
    listed xs (setTail v p) = listed xs p := rfl

@[simp] theorem listed_addSize (n : ℤ) (p : BlockPool) :
    listed xs (addSize n p) = listed xs p := rfl

theorem listed_append (b : ℕ) (p : BlockPool) : listed xs (append b p) = listed xs p := by
  unfold BlockPool.append
  simp only [listed_addSize, listed_setTail]
  split <;> simp only [listed_setNext, listed_setPrev, listed_setHead]

theorem listed_remove (b : ℕ) (p : BlockPool) : listed xs (remove b p) = listed xs p := by
  unfold BlockPool.remove
  simp only [listed_addSize, listed_setNext, listed_setPrev]
  split <;> split <;> simp only [listed_setNext, listed_setPrev, listed_setHead, listed_setTail]

theorem listed_unlinkHead (b : ℕ) (p : BlockPool) : listed xs (unlinkHead b p) = listed xs p := by
  unfold BlockPool.unlinkHead
  simp only [listed_addSize, listed_setNext, listed_setPrev]
  split <;> simp only [listed_setPrev, listed_setHead, listed_setTail]

theorem Queued.append (h : Queued p xs) {b : ℕ} (hb : b ∉ xs) :
    Queued (append b p) (xs ++ [b]) := by
  refine ⟨by rw [links_append]; exact h.linked.append hb, ?_⟩
  have hsize : (BlockPool.append b p).freeQueue.size = p.freeQueue.size + 1 := by
    unfold BlockPool.append
    simp only
    split <;> rfl
  rw [hsize, h.size]
  simp

theorem Queued.remove {ys zs : List ℕ} {b : ℕ} (h : Queued p (ys ++ b :: zs)) :
    Queued (remove b p) (ys ++ zs) := by
  refine ⟨by rw [links_remove]; exact h.linked.remove, ?_⟩
  have hsize : (BlockPool.remove b p).freeQueue.size = p.freeQueue.size + -1 := by
    unfold BlockPool.remove
    simp only
    split <;> split <;> rfl
  rw [hsize, h.size]
  simp only [List.length_append, List.length_cons]
  omega

theorem Queued.unlinkHead {b : ℕ} (h : Queued p (b :: xs)) : Queued (unlinkHead b p) xs := by
  have hlinked : Linked (LinkedList.remove b (links p)) ([] ++ xs) := Linked.remove h.linked
  refine ⟨by rw [links_unlinkHead h.linked.prev_head]; exact hlinked, ?_⟩
  have hsize : (BlockPool.unlinkHead b p).freeQueue.size = p.freeQueue.size + -1 := by
    unfold BlockPool.unlinkHead
    simp only
    split <;> rfl
  rw [hsize, h.size]
  simp only [List.length_cons]
  omega

/-- **A new pool** has all blocks in its queue, in order. -/
theorem queued_new (n : ℕ) :
    Queued (new n) (List.range n) ∧ listed (List.range n) (new n) = Blocks.BlockPool.new n := by
  have hloop : ∀ m, Queued ((List.range m).foldl (fun p b => BlockPool.append b p)
        ⟨n, fun _ => {}, {}, fun _ => none⟩) (List.range m) ∧
      ∀ ys, listed ys
        ((List.range m).foldl (fun p b => BlockPool.append b p) ⟨n, fun _ => {}, {}, fun _ => none⟩)
          = ⟨n, fun _ => {}, ys, fun _ => none⟩ := by
    intro m
    induction m with
    | zero => exact ⟨⟨linked_nil, rfl⟩, fun _ => rfl⟩
    | succ m ih =>
      rw [List.range_succ, List.foldl_append]
      refine ⟨ih.1.append (by simp), fun ys => ?_⟩
      exact (listed_append m _).trans (ih.2 ys)
  exact ⟨(hloop n).1, (hloop n).2 _⟩

/-! ### The operations on the list -/

theorem Queued.kept {p' : BlockPool} (h : Queued p xs) (hlinks : links p' = links p)
    (hqueue : p'.freeQueue = p.freeQueue) : Queued p' xs :=
  ⟨hlinks ▸ h.linked, by rw [hqueue]; exact h.size⟩

theorem links_unmap (b : ℕ) (h : ℤ) (p : BlockPool) : links (unmap b h p) = links p ∧
    (unmap b h p).freeQueue = p.freeQueue ∧
    listed xs (unmap b h p) = Blocks.BlockPool.unmap b h (listed xs p) := by
  unfold unmap Blocks.BlockPool.unmap
  by_cases hm : p.hashMap h = some b
  · rw [if_pos hm, if_pos (show (listed xs p).hashMap h = some b from hm)]
    exact ⟨rfl, rfl, rfl⟩
  · rw [if_neg hm, if_neg (show ¬ (listed xs p).hashMap h = some b from hm)]
    exact ⟨rfl, rfl, rfl⟩

theorem blocks_unmap (b : ℕ) (h : ℤ) (p : BlockPool) : (unmap b h p).blocks = p.blocks := by
  unfold unmap
  split <;> rfl

/-- An operation on the hashes does not see the queue. -/
structure Hashes (f : BlockPool → BlockPool) (g : Blocks.BlockPool → Blocks.BlockPool) : Prop where
  links : ∀ p, links (f p) = links p
  freeQueue : ∀ p, (f p).freeQueue = p.freeQueue
  listed : ∀ p xs, listed xs (f p) = g (listed xs p)

theorem hashes_setRefCnt (b n : ℕ) : Hashes (setRefCnt b n)
    fun q => Blocks.BlockPool.setBlock b { q.blocks b with refCnt := n } q :=
  ⟨links_setRefCnt b n, fun _ => rfl,
    fun p _ => listed_modifyBlock b (fun k => { k with refCnt := n }) p⟩

theorem hashes_dropHash (b : ℕ) : Hashes (dropHash b) (Blocks.BlockPool.dropHash b) := by
  have hcases : ∀ p xs, FreeQueue.links (dropHash b p) = FreeQueue.links p ∧
      (dropHash b p).freeQueue = p.freeQueue ∧
      FreeQueue.listed xs (dropHash b p) = Blocks.BlockPool.dropHash b (FreeQueue.listed xs p) := by
    intro p xs
    unfold dropHash Blocks.BlockPool.dropHash
    rw [show ((FreeQueue.listed xs p).blocks b).blockHash = (p.blocks b).blockHash from rfl]
    cases (p.blocks b).blockHash with
    | none => exact ⟨rfl, rfl, rfl⟩
    | some h =>
      obtain ⟨hl, hq, hlist⟩ := @links_unmap xs b h p
      refine ⟨by rw [links_setBlockHash, hl], hq, ?_⟩
      rw [setBlockHash, listed_modifyBlock, hlist, blocks_unmap]
      rfl
  exact ⟨fun p => (hcases p []).1, fun p => (hcases p []).2.1, fun p xs => (hcases p xs).2.2⟩

theorem hashes_forgetHash (b : ℕ) (h : ℤ) :
    Hashes (forgetHash b h) (Blocks.BlockPool.forgetHash b h) := by
  have hcases : ∀ p xs, FreeQueue.links (forgetHash b h p) = FreeQueue.links p ∧
      (forgetHash b h p).freeQueue = p.freeQueue ∧
      FreeQueue.listed xs (forgetHash b h p) =
        Blocks.BlockPool.forgetHash b h (FreeQueue.listed xs p) := by
    intro p xs
    unfold forgetHash Blocks.BlockPool.forgetHash
    rw [show ((FreeQueue.listed xs p).blocks b).blockHash = (p.blocks b).blockHash from rfl]
    cases (p.blocks b).blockHash with
    | none => exact ⟨rfl, rfl, rfl⟩
    | some h' =>
      by_cases hh : h' = h
      · simp only [if_pos hh, true_and]
      · simp only [if_neg hh]
        exact links_unmap b h' p
  exact ⟨fun p => (hcases p []).1, fun p => (hcases p []).2.1, fun p xs => (hcases p xs).2.2⟩

theorem hashes_evictColliding (b : ℕ) (h : ℤ) :
    Hashes (evictColliding b h) (Blocks.BlockPool.evictColliding b h) := by
  have hcases : ∀ p xs, FreeQueue.links (evictColliding b h p) = FreeQueue.links p ∧
      (evictColliding b h p).freeQueue = p.freeQueue ∧
      FreeQueue.listed xs (evictColliding b h p) =
        Blocks.BlockPool.evictColliding b h (FreeQueue.listed xs p) := by
    intro p xs
    unfold evictColliding Blocks.BlockPool.evictColliding
    rw [show (FreeQueue.listed xs p).hashMap h = p.hashMap h from rfl]
    cases p.hashMap h with
    | none => exact ⟨rfl, rfl, rfl⟩
    | some c =>
      by_cases hc : c = b
      · simp only [if_pos hc, true_and]
      · simp only [if_neg hc]
        exact ⟨links_setBlockHash c none p, rfl,
          listed_modifyBlock c (fun k => { k with blockHash := none }) p⟩
  exact ⟨fun p => (hcases p []).1, fun p => (hcases p []).2.1, fun p xs => (hcases p xs).2.2⟩

theorem hashes_cacheFullBlock (b : ℕ) (h : ℤ) :
    Hashes (cacheFullBlock b h) (Blocks.BlockPool.cacheFullBlock b h) := by
  have hf := hashes_forgetHash b h
  have he := hashes_evictColliding b h
  refine ⟨fun p => ?_, fun p => ?_, fun p xs => ?_⟩
  · exact (links_setBlockHash b (some h) _).trans ((he.links _).trans (hf.links p))
  · exact (he.freeQueue _).trans (hf.freeQueue p)
  · have hset := @listed_modifyBlock xs b (fun k => { k with blockHash := some h })
      (evictColliding b h (forgetHash b h p))
    have hold : listed xs (evictColliding b h (forgetHash b h p)) =
        Blocks.BlockPool.evictColliding b h (Blocks.BlockPool.forgetHash b h (listed xs p)) :=
      (he.listed _ xs).trans (congrArg _ (hf.listed p xs))
    unfold cacheFullBlock Blocks.BlockPool.cacheFullBlock
    rw [← hold]
    exact congrArg (fun q : Blocks.BlockPool =>
      { q with hashMap := Function.update q.hashMap h (some b) }) hset

theorem Hashes.queued {f : BlockPool → BlockPool} {g : Blocks.BlockPool → Blocks.BlockPool}
    (h : Hashes f g) (hq : Queued p xs) : Queued (f p) xs := hq.kept (h.links p) (h.freeQueue p)

variable {R : PyError → BlockPool → Prop}

/-- **Simulation**: the operation on the list gives the same result, and the list of the queue
afterwards. -/
theorem simulates_allocateBlock (h : Queued p xs) :
    wp allocateBlock (fun r p' => ∃ ys, Queued p' ys ∧
      Blocks.BlockPool.allocateBlock.run (listed xs p) = (listed ys p', .ok r)) R p := by
  have hhead : p.freeQueue.head = xs.head? := h.linked.head
  simp only [allocateBlock, popleft, wp_bind, wp_current]
  cases xs with
  | nil =>
    rw [hhead]
    exact ⟨[], h, rfl⟩
  | cons b rest =>
    rw [hhead]
    simp only [List.head?_cons, wp_bind, wp_update, wp_pure]
    have h₁ := h.unlinkHead
    have h₂ := (hashes_dropHash b).queued h₁
    refine ⟨rest, (hashes_setRefCnt b 1).queued h₂, ?_⟩
    rw [(hashes_setRefCnt b 1).listed, (hashes_dropHash b).listed, listed_unlinkHead]
    rfl

theorem simulates_freeBlock (h : Queued p xs) (hwf : Blocks.Wf (listed xs p)) (b : ℕ) :
    wp (freeBlock b) (fun _ p' => ∃ ys, Queued p' ys ∧
        (Blocks.BlockPool.freeBlock b).run (listed xs p) = (listed ys p', .ok ()))
      (fun _ p' => p' = p ∧ (p.blocks b).refCnt = 0) p := by
  simp only [freeBlock, wp_bind, wp_current, wp_ite, wp_update, wp_pure]
  refine ⟨fun h0 => ⟨rfl, h0⟩, fun h0 => ?_⟩
  have h₁ := (hashes_setRefCnt b ((p.blocks b).refCnt - 1)).queued h
  have hlist := (hashes_setRefCnt b ((p.blocks b).refCnt - 1)).listed p xs
  have hcount : ((setRefCnt b ((p.blocks b).refCnt - 1) p).blocks b).refCnt =
      (p.blocks b).refCnt - 1 := by
    simp [setRefCnt, modifyBlock]
  have hb : b ∉ xs := fun hmem => h0 ((hwf.free b).mp hmem).2
  have hrun : (Blocks.BlockPool.freeBlock b).run (listed xs p) =
      (if ((p.blocks b).refCnt - 1 = 0) then update fun q =>
        { q with freeQueue := q.freeQueue ++ [b] }
        else pure () : Prog PyError Blocks.BlockPool Unit).run
          (listed xs (setRefCnt b ((p.blocks b).refCnt - 1) p)) := by
    rw [hlist]
    change (if (p.blocks b).refCnt = 0 then raise _ else _ : Prog PyError Blocks.BlockPool Unit).run
      (listed xs p) = _
    rw [if_neg h0]
    change (if ((Blocks.BlockPool.setBlock b _ (listed xs p)).blocks b).refCnt = 0 then update _
      else pure () : Prog PyError Blocks.BlockPool Unit).run _ = _
    rw [Blocks.refCnt_setBlock, if_pos rfl]
    rfl
  rw [hcount]
  refine ⟨fun hz => ⟨xs ++ [b], h₁.append hb, ?_⟩, fun hz => ⟨xs, h₁, ?_⟩⟩
  · rw [hrun, if_pos hz, listed_append]
    rfl
  · rw [hrun, if_neg hz]
    rfl

theorem simulates_getCachedBlock (h : Queued p xs) (hwf : Blocks.Wf (listed xs p)) (k : ℤ) :
    wp (getCachedBlock k) (fun r p' => ∃ ys, Queued p' ys ∧
      (Blocks.BlockPool.getCachedBlock k).run (listed xs p) = (listed ys p', .ok r)) R p := by
  simp only [getCachedBlock, wp_bind, wp_current]
  cases hm : p.hashMap k with
  | none =>
    refine ⟨xs, h, ?_⟩
    change (match (listed xs p).hashMap k with
      | none => pure none
      | some b => _ : Prog PyError Blocks.BlockPool (Option ℕ)).run (listed xs p) = _
    rw [show (listed xs p).hashMap k = none from hm]
    rfl
  | some b =>
    have hstep : ∀ {q : BlockPool} {ys : List ℕ}, Queued q ys →
        Queued (setRefCnt b ((q.blocks b).refCnt + 1) q) ys ∧
          listed ys (setRefCnt b ((q.blocks b).refCnt + 1) q) = Blocks.BlockPool.setBlock b
            { (listed ys q).blocks b with refCnt := ((listed ys q).blocks b).refCnt + 1 }
              (listed ys q) :=
      fun {q ys} hq => ⟨(hashes_setRefCnt b _).queued hq, (hashes_setRefCnt b _).listed q ys⟩
    have hrun : (Blocks.BlockPool.getCachedBlock k).run (listed xs p) = (do
        if (p.blocks b).refCnt = 0 then update fun p => { p with freeQueue := p.freeQueue.erase b }
        else pure ()
        update fun p =>
          Blocks.BlockPool.setBlock b { p.blocks b with refCnt := (p.blocks b).refCnt + 1 } p
        return some b : Prog PyError Blocks.BlockPool (Option ℕ)).run (listed xs p) := by
      change (match (listed xs p).hashMap k with
        | none => pure none
        | some b => _ : Prog PyError Blocks.BlockPool (Option ℕ)).run (listed xs p) = _
      rw [show (listed xs p).hashMap k = some b from hm]
      rfl
    simp only [wp_bind, wp_ite, wp_update, wp_pure]
    refine ⟨fun h0 => ?_, fun h0 => ?_⟩
    · have hb : b ∈ xs := (hwf.free b).mpr ⟨hwf.mapped k b hm, h0⟩
      obtain ⟨ys, zs, rfl⟩ := List.append_of_mem hb
      obtain ⟨hq, hlist⟩ := hstep h.remove
      refine ⟨ys ++ zs, hq, ?_⟩
      have herase : (ys ++ b :: zs).erase b = ys ++ zs := by
        rw [List.erase_append_right _ (ne_of_split h.linked.nodup).1, List.erase_cons_head]
      rw [hrun, if_pos h0, hlist, listed_remove]
      change (Blocks.BlockPool.setBlock b _ { listed (ys ++ b :: zs) p with
        freeQueue := (ys ++ b :: zs).erase b }, _) = _
      rw [herase]
      rfl
    · obtain ⟨hq, hlist⟩ := hstep h
      refine ⟨xs, hq, ?_⟩
      rw [hrun, if_neg h0, hlist]
      rfl

/-! ### Runs -/

/-- A call of a method of the pool. -/
inductive Op where
  | allocateBlock
  | freeBlock (b : ℕ)
  | getCachedBlock (blockHash : ℤ)
  | cacheFullBlock (b : ℕ) (blockHash : ℤ)

/-- The state that a call leaves. -/
def step (p : BlockPool) : Op → BlockPool
  | .allocateBlock => allocateBlock.state p
  | .freeBlock b => (freeBlock b).state p
  | .getCachedBlock h => (getCachedBlock h).state p
  | .cacheFullBlock b h => cacheFullBlock b h p

/-- Only a block with a reference is freed or registered. -/
def OnReferenced (p : BlockPool) : Op → Prop
  | .freeBlock b => 0 < (p.blocks b).refCnt
  | .cacheFullBlock b _ => 0 < (p.blocks b).refCnt
  | _ => True

instance (p : BlockPool) : ∀ o : Op, Decidable (OnReferenced p o)
  | .freeBlock b => inferInstanceAs (Decidable (0 < (p.blocks b).refCnt))
  | .cacheFullBlock b _ => inferInstanceAs (Decidable (0 < (p.blocks b).refCnt))
  | .allocateBlock => isTrue trivial
  | .getCachedBlock _ => isTrue trivial

/-- The pool is, up to the pointers, a pool with a list of its free blocks. -/
structure Pooled (p : BlockPool) (xs : List ℕ) : Prop where
  queued : Queued p xs
  wf : Blocks.Wf (listed xs p)
  unambiguous : BlockHashes.Unambiguous (listed xs p)
  registered : BlockHashes.Registered (listed xs p)

theorem pooled_new (n : ℕ) : Pooled (new n) (List.range n) := by
  obtain ⟨hqueued, hlisted⟩ := queued_new n
  refine ⟨hqueued, ?_, ?_, ?_⟩
  · rw [hlisted]
    exact Blocks.wf_new n
  · rw [hlisted]
    exact fun _ _ h => by cases h
  · rw [hlisted]
    exact fun _ _ h => by cases h

/-- An operation that changes no hash. -/
theorem Pooled.of_leaves {α : Type} {m : Prog PyError Blocks.BlockPool α} (h : Pooled p xs)
    {p' : BlockPool} {ys : List ℕ} {r : Except PyError α} (hqueued : Queued p' ys)
    (hrun : m.run (listed xs p) = (listed ys p', r)) (hwf : Blocks.Wf (listed ys p'))
    (hleaves :
      Leaves (fun q : Blocks.BlockPool => (q.hashMap, fun c => (q.blocks c).blockHash)) m) :
    Pooled p' ys := by
  have hstate : m.state (listed xs p) = listed ys p' := by rw [Prog.state, hrun]
  obtain ⟨hmap, hhash⟩ := Prod.mk.inj (hleaves (listed xs p))
  rw [hstate] at hmap hhash
  refine ⟨hqueued, hwf, fun k c hc => ?_, fun c k hk => ?_⟩
  · rw [hmap] at hc
    exact (congrFun hhash c).trans (h.unambiguous k c hc)
  · rw [hmap]
    exact h.registered c k ((congrFun hhash c).symm.trans hk)

theorem Pooled.step (h : Pooled p xs) {o : Op} (hok : OnReferenced p o) :
    ∃ ys, Pooled (step p o) ys := by
  cases o with
  | allocateBlock =>
    obtain ⟨p', r, hrun, ys, hqueued, hlist⟩ := exists_of_wp (simulates_allocateBlock h.queued)
    have hstate : FreeQueue.step p .allocateBlock = p' := congrArg Prod.fst hrun
    rw [hstate]
    refine ⟨ys, hqueued, ?_, ?_, ?_⟩
    · exact (wp_ok (Blocks.wp_allocateBlock (R := fun _ _ => True) h.wf) hlist).1
    · exact (wp_ok
        (BlockHashes.wp_allocateBlock_hashes (R := fun _ _ => True) h.unambiguous) hlist).1
    · exact wp_ok
        (BlockHashes.wp_allocateBlock_registered (R := fun _ _ => True) h.registered) hlist
  | freeBlock b =>
    have hfree : wp (freeBlock b) (fun _ p' => ∃ ys, Queued p' ys ∧
        (Blocks.BlockPool.freeBlock b).run (listed xs p) = (listed ys p', .ok ())) (fun _ _ =>
          False) p :=
      wp_mono (simulates_freeBlock h.queued h.wf b) (fun _ _ h0 => h0) fun _ _ h0 => by
        have hpos : 0 < (p.blocks b).refCnt := hok
        omega
    obtain ⟨p', r, hrun, ys, hqueued, hlist⟩ := exists_of_wp hfree
    have hstate : FreeQueue.step p (.freeBlock b) = p' := congrArg Prod.fst hrun
    rw [hstate]
    exact ⟨ys, h.of_leaves hqueued hlist (wp_ok (Blocks.wp_freeBlock h.wf b) hlist).2.1
      (BlockHashes.leaves_freeBlock b)⟩
  | getCachedBlock k =>
    obtain ⟨p', r, hrun, ys, hqueued, hlist⟩ :=
      exists_of_wp (simulates_getCachedBlock h.queued h.wf k)
    have hstate : FreeQueue.step p (.getCachedBlock k) = p' := congrArg Prod.fst hrun
    rw [hstate]
    exact ⟨ys,
      h.of_leaves hqueued hlist
        (wp_ok (Blocks.wp_getCachedBlock (R := fun _ _ => True) h.wf k) hlist).1
        (BlockHashes.leaves_getCachedBlock k)⟩
  | cacheFullBlock b k =>
    have hb : b < p.numBlocks := by
      by_contra h0
      have hzero := h.wf.out b (Nat.le_of_not_lt h0)
      have hpos : 0 < (p.blocks b).refCnt := hok
      have hzero : (p.blocks b).refCnt = 0 := hzero
      omega
    have hlist := (hashes_cacheFullBlock b k).listed p xs
    refine ⟨xs, (hashes_cacheFullBlock b k).queued h.queued, ?_, ?_, ?_⟩
    · rw [FreeQueue.step, hlist]
      exact (Blocks.cacheFullBlock_spec h.wf hb k).1
    · rw [FreeQueue.step, hlist]
      exact (BlockHashes.cacheFullBlock_hashes h.unambiguous b k).1
    · rw [FreeQueue.step, hlist]
      exact BlockHashes.registered_cacheFullBlock h.registered b k

/-- What holds in every state: the queue is a doubly linked list of the blocks without references,
each once, from head to tail, and `map[h]` is `b` exactly if `b.block_hash` is `h`. -/
structure WellFormed (p : BlockPool) : Prop where
  inverse : ∀ a b, (p.blocks a).next = some b ↔ (p.blocks b).prev = some a
  queue : ∃ xs : List ℕ, xs.Nodup ∧ p.freeQueue.head = xs.head? ∧ p.freeQueue.tail = xs.getLast? ∧
    follow (fun b => (p.blocks b).next) xs.length p.freeQueue.head = xs ∧
    (∀ b ∈ p.freeQueue.tail, (p.blocks b).next = none) ∧ p.freeQueue.size = xs.length ∧
    ∀ b, b ∈ xs ↔ b < p.numBlocks ∧ (p.blocks b).refCnt = 0
  hashes : ∀ h b, p.hashMap h = some b ↔ (p.blocks b).blockHash = some h

theorem Pooled.wellFormed (h : Pooled p xs) : WellFormed p := by
  have hl := h.queued.linked
  refine ⟨fun a b => hl.next_eq_some,
    ⟨xs, hl.nodup, hl.head, hl.tail, hl.follow_head, fun b hb => ?_, h.queued.size, h.wf.free⟩,
    fun k b => ⟨h.unambiguous k b, h.registered b k⟩⟩
  have hlast : xs.getLast? = some b := hl.tail.symm.trans hb
  obtain ⟨ys, rfl⟩ := List.getLast?_eq_some_iff.mp hlast
  exact (hl.node ys b [] rfl).2

/-- **The pool** in every run. -/
theorem pool_run (n : ℕ) (ops : List Op) (h : Along step OnReferenced (new n) ops) :
    WellFormed (exec step (new n) ops) := by
  obtain ⟨xs, hpooled⟩ := inv_exec (I := fun p => ∃ xs, Pooled p xs)
    (fun p o ⟨_, hp⟩ hok => hp.step hok) ops (new n) ⟨_, pooled_new n⟩ h
  exact hpooled.wellFormed

/-- A block comes back out of the middle of the queue, and a hash moves to another block. -/
def reused : List Op :=
  [.allocateBlock, .allocateBlock, .cacheFullBlock 0 7, .cacheFullBlock 1 8, .freeBlock 0,
    .freeBlock 1, .getCachedBlock 7, .cacheFullBlock 0 8, .allocateBlock]

theorem pool_run_reused :
    Along step OnReferenced (new 3) reused ∧ WellFormed (exec step (new 3) reused) ∧
    (exec step (new 3) reused).freeQueue.size = 1 ∧
    (exec step (new 3) reused).freeQueue.head = some 1 ∧
    (exec step (new 3) reused).hashMap 8 = some 0 :=
  ⟨by decide +kernel, pool_run 3 reused (by
    decide +kernel), by decide +kernel, by decide +kernel, by decide +kernel⟩

end MoeInfinity.Memory.FreeQueue
