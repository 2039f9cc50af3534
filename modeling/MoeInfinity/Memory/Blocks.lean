import Mathlib.Data.List.Nodup
import Mathlib.Logic.Function.Basic
import MoeInfinity.Python

/-! # The block pool (`memory/block_pool.py`)

A pool owns blocks with reference counts. A block whose count drops to zero goes to the end of the
free queue and keeps its hash, so that a later request with the same prefix can take it back; the
hash is dropped when the block is allocated anew.

A block object is known by its `block_id`, and the free queue is the list of the ids in it. -/

namespace MoeInfinity.Memory.Blocks

open MoeInfinity.Python MoeInfinity.Lib.Imperative

structure KVCacheBlock where
  refCnt : ℕ := 0
  blockHash : Option ℤ := none
deriving DecidableEq, Repr

structure BlockPool where
  numBlocks : ℕ
  blocks : ℕ → KVCacheBlock
  freeQueue : List ℕ
  hashMap : ℤ → Option ℕ

namespace BlockPool

def new (numBlocks : ℕ) : BlockPool :=
  ⟨numBlocks, fun _ => {}, List.range numBlocks, fun _ => none⟩

def numFreeBlocks (p : BlockPool) : ℕ := p.freeQueue.length

def setBlock (b : ℕ) (block : KVCacheBlock) (p : BlockPool) : BlockPool :=
  { p with blocks := Function.update p.blocks b block }

/-- `del self._hash_map[h]` if the map holds the block `b` there. -/
def unmap (b : ℕ) (h : ℤ) (p : BlockPool) : BlockPool :=
  if p.hashMap h = some b then { p with hashMap := Function.update p.hashMap h none } else p

/-- The block taken from the free queue loses its hash. -/
def dropHash (b : ℕ) (p : BlockPool) : BlockPool :=
  match (p.blocks b).blockHash with
  | none => p
  | some h => setBlock b { p.blocks b with blockHash := none } (unmap b h p)

def allocateBlock : Prog PyError BlockPool (Option ℕ) := do
  let p ← current
  match p.freeQueue with
  | [] => return none
  | b :: rest =>
    update fun p => { p with freeQueue := rest }
    update (dropHash b)
    update fun p => setBlock b { p.blocks b with refCnt := 1 } p
    return some b

def freeBlock (b : ℕ) : Prog PyError BlockPool Unit := do
  let p ← current
  if (p.blocks b).refCnt = 0 then
    raise (.valueError s!"block {b} has non-positive ref_cnt={(p.blocks b).refCnt}")
  else
    update fun p => setBlock b { p.blocks b with refCnt := (p.blocks b).refCnt - 1 } p
    let p ← current
    if (p.blocks b).refCnt = 0 then update fun p => { p with freeQueue := p.freeQueue ++ [b] }
    else pure ()

def getCachedBlock (blockHash : ℤ) : Prog PyError BlockPool (Option ℕ) := do
  let p ← current
  match p.hashMap blockHash with
  | none => return none
  | some b =>
    if (p.blocks b).refCnt = 0 then update fun p => { p with freeQueue := p.freeQueue.erase b }
    else pure ()
    update fun p => setBlock b { p.blocks b with refCnt := (p.blocks b).refCnt + 1 } p
    return some b

/-- The map entry of the block's former hash is dropped. -/
def forgetHash (b : ℕ) (blockHash : ℤ) (p : BlockPool) : BlockPool :=
  match (p.blocks b).blockHash with
  | none => p
  | some h => if h = blockHash then p else unmap b h p

/-- Another block under the same hash loses it. -/
def evictColliding (b : ℕ) (blockHash : ℤ) (p : BlockPool) : BlockPool :=
  match p.hashMap blockHash with
  | none => p
  | some c => if c = b then p else setBlock c { p.blocks c with blockHash := none } p

def cacheFullBlock (b : ℕ) (blockHash : ℤ) (p : BlockPool) : BlockPool :=
  let p := evictColliding b blockHash (forgetHash b blockHash p)
  let p := setBlock b { p.blocks b with blockHash := some blockHash } p
  { p with hashMap := Function.update p.hashMap blockHash (some b) }

end BlockPool

open BlockPool

/-! ### Well-formed pools -/

/-- The free queue lists the blocks without references, once each; only blocks of the pool have
references or are in the hash map. -/
structure Wf (p : BlockPool) : Prop where
  nodup : p.freeQueue.Nodup
  free : ∀ b, b ∈ p.freeQueue ↔ b < p.numBlocks ∧ (p.blocks b).refCnt = 0
  mapped : ∀ h b, p.hashMap h = some b → b < p.numBlocks
  out : ∀ b, p.numBlocks ≤ b → (p.blocks b).refCnt = 0

theorem wf_new (n : ℕ) : Wf (BlockPool.new n) where
  nodup := List.nodup_range
  free := fun b => by simp [BlockPool.new]
  mapped := fun h b hb => by cases hb
  out := fun _ _ => rfl

/-- `p'` has the blocks of `p` up to hashes, and maps fewer hashes. -/
structure Rehashed (p p' : BlockPool) : Prop where
  numBlocks : p'.numBlocks = p.numBlocks
  freeQueue : p'.freeQueue = p.freeQueue
  refCnt : ∀ b, (p'.blocks b).refCnt = (p.blocks b).refCnt
  mapped : ∀ h b, p'.hashMap h = some b → p.hashMap h = some b

theorem Rehashed.refl (p : BlockPool) : Rehashed p p := ⟨rfl, rfl, fun _ => rfl, fun _ _ h => h⟩

theorem Rehashed.trans {p p' p'' : BlockPool} (h : Rehashed p p') (h' : Rehashed p' p'') :
    Rehashed p p'' :=
  ⟨h'.numBlocks.trans h.numBlocks, h'.freeQueue.trans h.freeQueue,
    fun b => (h'.refCnt b).trans (h.refCnt b), fun k b hb => h.mapped k b (h'.mapped k b hb)⟩

theorem refCnt_setBlock (b : ℕ) (block : KVCacheBlock) (p : BlockPool) (c : ℕ) :
    ((setBlock b block p).blocks c).refCnt = if c = b then block.refCnt
    else (p.blocks c).refCnt := by
  change (Function.update p.blocks b block c).refCnt = _
  by_cases h : c = b
  · rw [if_pos h, h, Function.update_self]
  · rw [if_neg h, Function.update_of_ne h]

theorem rehashed_setBlock {b : ℕ} {block : KVCacheBlock} {p : BlockPool}
    (h : block.refCnt = (p.blocks b).refCnt) : Rehashed p (setBlock b block p) := by
  refine ⟨rfl, rfl, fun c => ?_, fun _ _ hb => hb⟩
  rw [refCnt_setBlock]
  split_ifs with hc
  · rw [h, hc]
  · rfl

theorem rehashed_unmap (b : ℕ) (h : ℤ) (p : BlockPool) : Rehashed p (unmap b h p) := by
  unfold unmap
  split_ifs with hm
  · refine ⟨rfl, rfl, fun _ => rfl, fun k c hc => ?_⟩
    by_cases hk : k = h
    · subst hk; simp at hc
    · simpa [Function.update_of_ne hk] using hc
  · exact Rehashed.refl p

theorem rehashed_dropHash (b : ℕ) (p : BlockPool) : Rehashed p (dropHash b p) := by
  unfold dropHash
  split
  · exact Rehashed.refl p
  · next h _ =>
    exact (rehashed_unmap b h p).trans (rehashed_setBlock ((rehashed_unmap b h p).refCnt b).symm)

theorem rehashed_evictColliding (b : ℕ) (h : ℤ) (p : BlockPool) :
    Rehashed p (evictColliding b h (forgetHash b h p)) := by
  have h1 : Rehashed p (forgetHash b h p) := by
    unfold forgetHash
    split
    · exact Rehashed.refl p
    · split_ifs
      · exact Rehashed.refl p
      · exact rehashed_unmap _ _ p
  refine h1.trans ?_
  unfold evictColliding
  split
  · exact Rehashed.refl _
  · split_ifs
    · exact Rehashed.refl _
    · exact rehashed_setBlock rfl

/-- The number of references of a block after an operation on `b`, where the count of `b` is `n`. -/
structure Counted (b n : ℕ) (p p' : BlockPool) : Prop where
  numBlocks : p'.numBlocks = p.numBlocks
  self : (p'.blocks b).refCnt = n
  other : ∀ c, c ≠ b → (p'.blocks c).refCnt = (p.blocks c).refCnt
  mapped : ∀ h c, p'.hashMap h = some c → p.hashMap h = some c

theorem Rehashed.counted {p p' : BlockPool} (h : Rehashed p p') (b n : ℕ) :
    Counted b n p (setBlock b { p'.blocks b with refCnt := n } p') := by
  refine ⟨h.numBlocks, ?_, fun c hc => ?_, h.mapped⟩
  · rw [refCnt_setBlock, if_pos rfl]
  · rw [refCnt_setBlock, if_neg hc, h.refCnt]

/-! ### The operations -/

variable {p : BlockPool}

/-- **Allocation**: the head of the free queue with one reference, or nothing if the queue is
empty. -/
theorem wp_allocateBlock (h : Wf p) {R : PyError → BlockPool → Prop} :
    wp allocateBlock (fun r p' => Wf p' ∧
      ((r = none ∧ p.freeQueue = [] ∧ p' = p) ∨
        ∃ b, r = some b ∧ p.freeQueue = b :: p'.freeQueue ∧ Counted b 1 p p')) R p := by
  simp only [allocateBlock, wp_bind, wp_current]
  split
  · next hq => exact ⟨h, Or.inl ⟨rfl, hq, rfl⟩⟩
  · next b rest hq =>
    simp only [wp_bind, wp_update, wp_pure]
    set p₁ := dropHash b { p with freeQueue := rest }
    have hre : Rehashed { p with freeQueue := rest } p₁ := rehashed_dropHash b _
    obtain ⟨hn, hself, hother, hmap⟩ := hre.counted b 1
    have hnd := h.nodup
    rw [hq] at hnd
    obtain ⟨hb, hrest⟩ := List.nodup_cons.mp hnd
    have hbn : b < p.numBlocks := ((h.free b).mp (by rw [hq]; exact List.mem_cons_self)).1
    refine ⟨⟨?_, fun c => ?_, fun k c hc => ?_, fun c hc => ?_⟩,
      Or.inr ⟨b, rfl, ?_, hn, hself, hother, hmap⟩⟩
    · change p₁.freeQueue.Nodup
      rw [hre.freeQueue]; exact hrest
    · change c ∈ p₁.freeQueue ↔ _
      rw [hre.freeQueue, hn]
      by_cases hc : c = b
      · subst hc
        rw [hself]
        exact ⟨fun hc => absurd hc hb, fun hc => absurd hc.2 (by omega)⟩
      · rw [hother c hc, ← h.free c, hq, List.mem_cons]
        exact ⟨Or.inr, fun h0 => h0.resolve_left hc⟩
    · rw [hn]; exact h.mapped k c (hmap k c hc)
    · have hnc : p.numBlocks ≤ c := by rw [hn] at hc; exact hc
      rw [hother c (by omega)]
      exact h.out c hnc
    · change p.freeQueue = b :: p₁.freeQueue
      rw [hre.freeQueue, hq]

/-- **Freeing** a block: it is put at the end of the free queue when the last reference goes;
without references the call raises. -/
theorem wp_freeBlock (h : Wf p) (b : ℕ) :
    wp (freeBlock b) (fun _ p' => 0 < (p.blocks b).refCnt ∧ Wf p' ∧
        Counted b ((p.blocks b).refCnt - 1) p p' ∧
        p'.freeQueue = if (p.blocks b).refCnt = 1 then p.freeQueue ++ [b] else p.freeQueue)
      (fun _ p' => p' = p ∧ (p.blocks b).refCnt = 0) p := by
  have hc := (Rehashed.refl p).counted b ((p.blocks b).refCnt - 1)
  simp only [freeBlock, wp_bind, wp_current, wp_ite, wp_update, wp_pure]
  refine ⟨fun h0 => ⟨rfl, h0⟩, fun hr => ?_⟩
  have hr : 0 < (p.blocks b).refCnt := by omega
  have hb : b < p.numBlocks := by
    by_contra h0
    have := h.out b (by omega)
    omega
  have hout : ∀ c, p.numBlocks ≤ c →
      ((setBlock b { p.blocks b with refCnt := (p.blocks b).refCnt - 1 } p).blocks c).refCnt =
        0 := by
    intro c hnc
    rw [hc.other c (by omega)]
    exact h.out c hnc
  refine ⟨fun h0 => ⟨hr, ?_⟩, fun h0 => ⟨hr, ?_⟩⟩
  · rw [hc.self] at h0
    have hfree : b ∉ p.freeQueue := fun hm => absurd ((h.free b).mp hm).2 (by omega)
    refine ⟨⟨?_, fun c => ?_, h.mapped, hout⟩, ⟨rfl, hc.self, hc.other, fun _ _ h => h⟩, ?_⟩
    · refine List.Nodup.append h.nodup (List.nodup_singleton b) ?_
      intro c hc hcb
      rw [List.mem_singleton.mp hcb] at hc
      exact hfree hc
    · change c ∈ p.freeQueue ++ [b] ↔ c < p.numBlocks ∧ _
      by_cases hcb : c = b
      · subst hcb
        exact ⟨fun _ => ⟨hb, hc.self.trans h0⟩, fun _ => by simp⟩
      · rw [List.mem_append, List.mem_singleton, h.free c]
        change _ ↔ _ ∧ ((setBlock b _ p).blocks c).refCnt = 0
        rw [hc.other c hcb]
        exact ⟨fun h1 => h1.resolve_right hcb, Or.inl⟩
    · rw [if_pos (by omega)]; rfl
  · rw [hc.self] at h0
    refine ⟨⟨h.nodup, fun c => ?_, h.mapped, hout⟩, hc, ?_⟩
    · change c ∈ p.freeQueue ↔ c < p.numBlocks ∧ _
      by_cases hcb : c = b
      · subst hcb
        rw [hc.self, h.free c]
        exact ⟨fun h1 => absurd h1.2 (by omega), fun h1 => absurd h1.2 h0⟩
      · rw [hc.other c hcb, h.free c]
    · rw [if_neg (by omega)]; rfl

/-- **A prefix hit** takes one more reference, out of the free queue if it is the first. -/
theorem wp_getCachedBlock (h : Wf p) (k : ℤ) {R : PyError → BlockPool → Prop} :
    wp (getCachedBlock k) (fun r p' => Wf p' ∧
      ((r = none ∧ p.hashMap k = none ∧ p' = p) ∨
        ∃ b, r = some b ∧ p.hashMap k = some b ∧ b < p.numBlocks ∧
          Counted b ((p.blocks b).refCnt + 1) p p')) R p := by
  simp only [getCachedBlock, wp_bind, wp_current]
  split
  · next hm => exact ⟨h, Or.inl ⟨rfl, hm, rfl⟩⟩
  · next b hm =>
    have hc := (Rehashed.refl p).counted b ((p.blocks b).refCnt + 1)
    have hb := h.mapped k b hm
    have hwf : ∀ q : List ℕ, q.Nodup → (∀ c, c ∈ q ↔ c ∈ p.freeQueue ∧ c ≠ b) →
        Wf { setBlock b { p.blocks b with
          refCnt := (p.blocks b).refCnt + 1 } p with freeQueue := q } := by
      intro q hq hmem
      refine ⟨hq, fun c => ?_, h.mapped, fun c hnc => ?_⟩
      swap
      · change ((setBlock b _ p).blocks c).refCnt = 0
        have hnc : p.numBlocks ≤ c := hnc
        rw [hc.other c (by omega)]
        exact h.out c hnc
      change c ∈ q ↔ c < p.numBlocks ∧ ((setBlock b _ p).blocks c).refCnt = 0
      by_cases hcb : c = b
      · subst hcb
        rw [hc.self, hmem c]
        exact ⟨fun h1 => absurd rfl h1.2, fun h1 => absurd h1.2 (by omega)⟩
      · rw [hc.other c hcb, hmem c, h.free c]
        exact ⟨fun h1 => h1.1, fun h1 => ⟨h1, hcb⟩⟩
    simp only [wp_ite, wp_bind, wp_update, wp_pure]
    refine ⟨fun h0 => ⟨?_, Or.inr ⟨b, rfl, hm, hb, rfl, hc.self, hc.other, fun _ _ h => h⟩⟩,
      fun h0 => ⟨?_, Or.inr ⟨b, rfl, hm, hb, hc⟩⟩⟩
    · refine hwf (p.freeQueue.erase b) (h.nodup.erase b) fun c => ?_
      rw [h.nodup.mem_erase_iff, and_comm]
    · refine hwf p.freeQueue h.nodup fun c => ⟨fun hc' => ⟨hc', ?_⟩, fun h1 => h1.1⟩
      rintro rfl
      exact h0 ((h.free c).mp hc').2

/-- **Registering** a block of the pool changes no count. -/
theorem cacheFullBlock_spec (h : Wf p) {b : ℕ} (hb : b < p.numBlocks) (k : ℤ) :
    Wf (cacheFullBlock b k p) ∧ (cacheFullBlock b k p).numBlocks = p.numBlocks ∧
      ∀ c, ((cacheFullBlock b k p).blocks c).refCnt = (p.blocks c).refCnt := by
  have h1 := rehashed_evictColliding b k p
  set q := evictColliding b k (forgetHash b k p)
  have h2 : Rehashed q (setBlock b { q.blocks b with blockHash := some k } q) :=
    rehashed_setBlock rfl
  have h3 := h1.trans h2
  refine ⟨⟨?_, fun c => ?_, fun j c hc => ?_, fun c hc => ?_⟩, h3.numBlocks, h3.refCnt⟩
  · change q.freeQueue.Nodup
    rw [h1.freeQueue]; exact h.nodup
  · change c ∈ q.freeQueue ↔ c < q.numBlocks ∧ ((setBlock b _ q).blocks c).refCnt = 0
    rw [h1.freeQueue, h1.numBlocks, h3.refCnt, h.free c]
  · change c < q.numBlocks
    rw [h1.numBlocks]
    change Function.update q.hashMap k (some b) j = some c at hc
    by_cases hj : j = k
    · subst hj
      rw [Function.update_self] at hc
      rw [← Option.some.inj hc]; exact hb
    · rw [Function.update_of_ne hj] at hc
      exact h.mapped j c (h1.mapped j c hc)
  · have hc : q.numBlocks ≤ c := hc
    rw [h1.numBlocks] at hc
    exact (h3.refCnt c).trans (h.out c hc)

/-! ### The size of the pool -/

theorem leaves_allocateBlock : Leaves BlockPool.numBlocks allocateBlock := by
  refine leaves_bind leaves_current fun p => ?_
  split
  · exact leaves_pure _
  · refine leaves_bind (leaves_update fun _ => rfl) fun _ => leaves_bind (leaves_update fun p => ?_)
      fun _ => leaves_bind (leaves_update fun _ => rfl) fun _ => leaves_pure _
    exact (rehashed_dropHash _ p).numBlocks

theorem leaves_getCachedBlock (blockHash : ℤ) :
    Leaves BlockPool.numBlocks (getCachedBlock blockHash) := by
  refine leaves_bind leaves_current fun p => ?_
  split
  · exact leaves_pure _
  · split
    · exact leaves_bind (leaves_update fun _ => rfl) fun _ =>
        leaves_bind (leaves_update fun _ => rfl) fun _ => leaves_pure _
    · exact leaves_bind (leaves_update fun _ => rfl) fun _ => leaves_pure _

theorem leaves_freeBlock (b : ℕ) : Leaves BlockPool.numBlocks (freeBlock b) :=
  leaves_bind leaves_current fun _ => leaves_ite (leaves_raise _)
    (leaves_bind (leaves_update fun _ => rfl) fun _ => leaves_bind leaves_current fun _ =>
      leaves_ite (leaves_update fun _ => rfl) (leaves_pure _))

end MoeInfinity.Memory.Blocks
