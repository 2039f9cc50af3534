import MoeInfinity.Lib.Runs
import MoeInfinity.Memory.RefCounts

/-! # The calls of a manager

The users of a manager may call its methods in any order and with any arguments. `Reachable` says
that a state is left by such calls, raising ones included; the references of the GPU blocks can be
listed in all of them (`Reachable.holds`).

A sequence that is in no record of the manager may take blocks, and give them back in the end.
`Owns` says what it has in between: a table of distinct blocks that nobody else holds, all else as
before. -/

namespace MoeInfinity.Memory.KvCalls

open MoeInfinity.Python MoeInfinity.Lib.Imperative MoeInfinity.Lib.Runs
open MoeInfinity.Memory.Blocks MoeInfinity.Memory.KvManager
  MoeInfinity.Memory.KvManager.KVCacheManager
open MoeInfinity.Memory.KvManagerSpec MoeInfinity.Memory.RefCounts

/-! ### Calls -/

inductive KvCall where
  | allocateBlocksForSequence (seqId : String) (numTokens : ℕ)
  | appendTokenBlock (seqId : String)
  | allocateGpuBlock
  | getCachedGpuBlock (blockHash : ℤ)
  | releaseGpuBlock (block : ℕ)
  | setBlockTable (seqId : String) (blockIds : List ℕ)
  | cacheGpuBlock (block : ℕ) (blockHash : ℤ)
  | freeSequence (seqId : String)
  | prepareSwapOut (seqId : String)
  | commitSwapOut (seqId : String) (pairs : List (ℕ × ℕ))
  | prepareSwapIn (seqId : String) (swappedGpuBlockIds : List ℕ)
  | commitSwapIn (seqId : String) (origGpuBlockIds : List ℕ) (pairs : List (ℕ × ℕ))

/-- The state that a call leaves. A block that is registered is one of the pool. -/
def runCall (k : KVCacheManager) : KvCall → KVCacheManager
  | .allocateBlocksForSequence i n => (allocateBlocksForSequence i n).state k
  | .appendTokenBlock i => (appendTokenBlock i).state k
  | .allocateGpuBlock => allocateGpuBlock.state k
  | .getCachedGpuBlock h => (getCachedGpuBlock h).state k
  | .releaseGpuBlock b => (releaseGpuBlock b).state k
  | .setBlockTable i ids => setBlockTable i ids k
  | .cacheGpuBlock b h => if b < k.gpuPool.numBlocks then k.cacheGpuBlock b h else k
  | .freeSequence i => (KVCacheManager.freeSequence i).state k
  | .prepareSwapOut i => (prepareSwapOut i).state k
  | .commitSwapOut i pairs => (commitSwapOut i pairs).state k
  | .prepareSwapIn i ids => (prepareSwapIn i ids).state k
  | .commitSwapIn i ids pairs => (commitSwapIn i ids pairs).state k

/-- Some calls have led from a new manager to this state. -/
def Reachable (k : KVCacheManager) : Prop :=
  ∃ (numGpuBlocks numCpuBlocks blockSize : ℕ) (calls : List KvCall),
    k = exec runCall (KVCacheManager.new numGpuBlocks numCpuBlocks blockSize) calls

variable {k k₀ k' : KVCacheManager} {held : Multiset ℕ}

/-! ### Allocating for a sequence -/

/-- The loop takes blocks that nobody holds, or gives all of them back. -/
theorem wp_allocateBlocksLoop {R : PyError → KVCacheManager → Prop} : ∀ (n : ℕ) (blocks : List ℕ)
    {k : KVCacheManager}, Holds k ((blocks : Multiset ℕ) + held) → blocks.Nodup →
    (∀ b ∈ blocks, b ∉ held) →
    wp (allocateBlocksLoop n blocks) (fun r k' => GpuOnly k k' ∧
      ((r = none ∧ Holds k' held) ∨ ∃ ids : List ℕ, r = some ids ∧ ids.length = blocks.length + n ∧
        ids.Nodup ∧ (∀ b ∈ ids, b ∉ held) ∧ Holds k' ((ids : Multiset ℕ) + held))) R k
  | 0, blocks, k, h, hnd, hnew =>
    ⟨GpuOnly.refl h.sound, Or.inr ⟨blocks, rfl, rfl, hnd, hnew, h⟩⟩
  | n + 1, blocks, k, h, hnd, hnew => by
    rw [allocateBlocksLoop, wp_bind]
    refine wp_mono (h.wp_allocateGpuBlock (R := fun _ _ => False)) ?_ fun _ _ h0 => h0.elim
    rintro _ k₁ ⟨hg, ⟨rfl, -, h₁⟩ | ⟨b, rfl, hb, h₁⟩⟩
    · simp only [wp_bind, wp_pure]
      exact wp_mono (h₁.wp_releaseAll blocks)
        (fun _ _ h₂ => ⟨hg.trans h₂.1, Or.inl ⟨trivial, h₂.2⟩⟩) fun _ _ h0 => h0
    · rw [Multiset.mem_add, not_or, Multiset.mem_coe] at hb
      have hmove : b ::ₘ ((blocks : Multiset ℕ) + held) =
        ((blocks ++ [b] : List ℕ) : Multiset ℕ) + held := by
        rw [← Multiset.cons_add, Multiset.cons_coe]
        exact congrArg (· + held)
          (Multiset.coe_eq_coe.mpr (List.perm_append_singleton b blocks).symm)
      rw [hmove] at h₁
      refine wp_mono (wp_allocateBlocksLoop n (blocks ++ [b]) h₁ ?_ ?_) ?_ fun _ _ h0 => h0
      · exact List.Nodup.append hnd (List.nodup_singleton b) fun c hc hcb =>
          hb.1 (List.mem_singleton.mp hcb ▸ hc)
      · intro c hc
        rcases List.mem_append.mp hc with hc | hc
        · exact hnew c hc
        · rw [List.mem_singleton.mp hc]; exact hb.2
      · rintro r k₂ ⟨hg₂, hcase⟩
        refine ⟨hg.trans hg₂, hcase.imp_right ?_⟩
        rintro ⟨ids, hr, hlen, hrest⟩
        refine ⟨ids, hr, ?_, hrest⟩
        rw [hlen, List.length_append, List.length_singleton]
        omega

/-! ### The size of a manager -/

/-- What no method changes. -/
def size (k : KVCacheManager) : ℕ × ℕ := (k.blockSize, k.gpuPool.numBlocks)

theorem leaves_onGpu {α : Type} {m : Prog PyError BlockPool α} (h : Leaves BlockPool.numBlocks m) :
    Leaves size (onGpu m) := by
  refine leaves_zoom fun k t ht => ?_
  subst ht
  exact Prod.ext rfl (h k.gpuPool)

theorem leaves_allocateGpuBlock : Leaves size allocateGpuBlock := by
  refine leaves_bind (leaves_onGpu leaves_allocateBlock) fun block => ?_
  cases block with
  | none => exact leaves_pure _
  | some b => exact leaves_bind (leaves_update fun _ => rfl) fun _ => leaves_pure _

theorem leaves_releaseGpuBlock (b : ℕ) : Leaves size (releaseGpuBlock b) :=
  leaves_bind (leaves_onGpu (leaves_freeBlock b)) fun _ => leaves_bind leaves_current fun _ =>
    leaves_ite (leaves_update fun _ => rfl) (leaves_pure _)

theorem leaves_releaseTracked (b : ℕ) : Leaves size (releaseTracked b) :=
  leaves_bind leaves_current fun _ => leaves_ite (leaves_releaseGpuBlock b) (leaves_pure _)

theorem leaves_allocateBlocksLoop :
    ∀ (n : ℕ) (blocks : List ℕ), Leaves size (allocateBlocksLoop n blocks)
  | 0, _ => leaves_pure _
  | n + 1, blocks => by
    refine leaves_bind leaves_allocateGpuBlock fun block => ?_
    cases block with
    | none =>
      exact leaves_bind (leaves_forEach leaves_releaseGpuBlock blocks) fun _ => leaves_pure _
    | some b => exact leaves_allocateBlocksLoop n _

/-! ### A sequence with blocks of its own -/

/-- Tables, records, references and free blocks are as in `k`. -/
structure Unchanged (k k' : KVCacheManager) (held : Multiset ℕ) : Prop where
  holds : Holds k' held
  tables : k'.seqToGpuBlocks = k.seqToGpuBlocks
  records : records k' = records k
  cpuPool : k'.cpuPool = k.cpuPool
  size : size k' = size k

/-- The sequence has taken the blocks of its table, and nothing else has changed since `k₀`. -/
structure Owns (k₀ : KVCacheManager) (held : Multiset ℕ) (seqId : String) (table : List ℕ)
    (k : KVCacheManager) : Prop where
  holds : Holds k ((table : Multiset ℕ) + held)
  nodup : table.Nodup
  apart : ∀ b ∈ table, b ∉ held
  tables : k.seqToGpuBlocks = Function.update k₀.seqToGpuBlocks seqId (some table)
  records : records k = records k₀
  cpuPool : k.cpuPool = k₀.cpuPool
  size : size k = size k₀

/-- No record of the manager is about the sequence. -/
structure NotInUse (seqId : String) (k : KVCacheManager) : Prop where
  noTable : k.seqToGpuBlocks seqId = none
  noCopy : k.seqToSwappedGpuBlocks seqId = none

variable {seqId : String} {table : List ℕ}

theorem Unchanged.refl (h : Holds k held) : Unchanged k k held := ⟨h, rfl, rfl, rfl, rfl⟩

theorem Unchanged.trans {k'' : KVCacheManager} (h : Unchanged k k' held)
    (h' : Unchanged k' k'' held) :
    Unchanged k k'' held :=
  ⟨h'.holds, h'.tables.trans h.tables, h'.records.trans h.records, h'.cpuPool.trans h.cpuPool,
    h'.size.trans h.size⟩

theorem Unchanged.free (h : Unchanged k k' held) (hk : Holds k held) (b : ℕ) :
    b ∈ k'.gpuPool.freeQueue ↔ b ∈ k.gpuPool.freeQueue := by
  have hn : k'.gpuPool.numBlocks = k.gpuPool.numBlocks := congrArg Prod.snd h.size
  rw [h.holds.free, hk.free, hn]

theorem Unchanged.refCnt (h : Unchanged k k' held) (hk : Holds k held) (b : ℕ) :
    (k'.gpuPool.blocks b).refCnt = (k.gpuPool.blocks b).refCnt :=
  (h.holds.count b).trans (hk.count b).symm

theorem Owns.getBlockTable (h : Owns k₀ held seqId table k) : k.getBlockTable seqId = table := by
  unfold KVCacheManager.getBlockTable
  rw [h.tables, Function.update_self, Option.getD_some]

/-- Where no block is free, the table has all blocks that were free before. -/
theorem Owns.exhausted (h : Owns k₀ held seqId table k) (hk : Holds k₀ held)
    (hq : k.gpuPool.freeQueue = []) : k₀.gpuPool.numFreeBlocks ≤ table.length := by
  refine (List.subperm_of_subset hk.sound.gpu.nodup fun b hb => ?_).length_le
  obtain ⟨hlt, h0⟩ := hk.free.mp hb
  by_contra hnot
  have hfree : b ∈ k.gpuPool.freeQueue := by
    have hn : k.gpuPool.numBlocks = k₀.gpuPool.numBlocks := congrArg Prod.snd h.size
    rw [h.holds.free, hn, Multiset.count_add, h0, Multiset.count_eq_zero.mpr fun h1 =>
      hnot (Multiset.mem_coe.mp h1)]
    exact ⟨hlt, rfl⟩
  rw [hq] at hfree
  cases hfree

theorem wp_allocateBlocksForSequence (h : Holds k held) (numTokens : ℕ) :
    wp (allocateBlocksForSequence seqId numTokens) (fun r k' => k.blockSize ≠ 0 ∧
        ((r = false ∧ Unchanged k k' held) ∨ (r = true ∧ ∃ table : List ℕ,
          table.length = ceilDiv numTokens k.blockSize ∧ Owns k held seqId table k')))
      (fun _ k' => k' = k) k := by
  simp only [allocateBlocksForSequence, wp_bind, wp_current, wp_ite, wp_raise]
  refine ⟨fun _ => trivial, fun hbs => ?_⟩
  have h₀ : Holds k ((([] : List ℕ) : Multiset ℕ) + held) := by rwa [Multiset.coe_nil, zero_add]
  refine wp_mono (wp_and (wp_allocateBlocksLoop (R := fun _ _ => False) _ [] h₀ List.nodup_nil
      fun _ hb => absurd hb List.not_mem_nil)
    ((leaves_allocateBlocksLoop (ceilDiv numTokens k.blockSize) []).wp k)) ?_
      fun _ _ h0 => h0.1.elim
  rintro _ k₁ ⟨⟨hg, ⟨rfl, h₁⟩ | ⟨ids, rfl, hlen, hnd, hnew, h₁⟩⟩, hsize⟩
  · exact ⟨hbs, Or.inl ⟨rfl, h₁, hg.tables, hg.records, hg.cpuPool, hsize⟩⟩
  · simp only [wp_bind, wp_update, wp_pure]
    refine ⟨hbs, Or.inr ⟨trivial, ids, ?_, ?_, hnd, hnew, ?_, hg.records, hg.cpuPool, hsize⟩⟩
    · rw [hlen, List.length_nil, Nat.zero_add]
    · exact h₁.congr ⟨h₁.sound.gpu, h₁.sound.held, h₁.sound.cpu⟩ rfl rfl
    · change Function.update k₁.seqToGpuBlocks seqId (some ids) = _
      rw [hg.tables]

theorem Owns.wp_appendTokenBlock (h : Owns k₀ held seqId table k)
    {R : PyError → KVCacheManager → Prop} :
    wp (appendTokenBlock seqId) (fun r k' =>
      (r = false ∧ k'.gpuPool.freeQueue = [] ∧ Owns k₀ held seqId table k') ∨
        (r = true ∧ ∃ b, Owns k₀ held seqId (table ++ [b]) k')) R k := by
  simp only [appendTokenBlock, wp_bind]
  refine wp_mono (wp_and (h.holds.wp_allocateGpuBlock (R := fun _ _ => False))
    (leaves_allocateGpuBlock.wp k)) ?_ fun _ _ h0 => h0.1.elim
  rintro _ k₁ ⟨⟨hg, ⟨rfl, hq, h₁⟩ | ⟨b, rfl, hb, h₁⟩⟩, hsize⟩
  · have ho : Owns k₀ held seqId table k₁ := ⟨h₁, h.nodup, h.apart, hg.tables.trans h.tables,
      hg.records.trans h.records, hg.cpuPool.trans h.cpuPool, hsize.trans h.size⟩
    refine Or.inl ⟨rfl, ?_, ho⟩
    refine List.eq_nil_iff_forall_not_mem.mpr fun c hc => ?_
    have hn : k₁.gpuPool.numBlocks = k.gpuPool.numBlocks := congrArg Prod.snd hsize
    rw [h₁.free, hn, ← h.holds.free, hq] at hc
    cases hc
  · simp only [wp_bind, wp_update, wp_pure]
    rw [Multiset.mem_add, not_or, Multiset.mem_coe] at hb
    have htab : k₁.getBlockTable seqId = table := by
      unfold KVCacheManager.getBlockTable
      rw [hg.tables, h.tables, Function.update_self, Option.getD_some]
    refine Or.inr ⟨trivial, b, ?_, ?_, ?_, ?_, hg.records.trans h.records,
      hg.cpuPool.trans h.cpuPool, hsize.trans h.size⟩
    · have hmove : b ::ₘ ((table : Multiset ℕ) + held) =
          ((table ++ [b] : List ℕ) : Multiset ℕ) + held := by
        rw [← Multiset.cons_add, Multiset.cons_coe]
        exact congrArg (· + held)
          (Multiset.coe_eq_coe.mpr (List.perm_append_singleton b table).symm)
      rw [hmove] at h₁
      exact h₁.congr ⟨h₁.sound.gpu, h₁.sound.held, h₁.sound.cpu⟩ rfl rfl
    · exact List.Nodup.append h.nodup (List.nodup_singleton b) fun c hc hcb =>
        hb.1 (List.mem_singleton.mp hcb ▸ hc)
    · intro c hc
      rcases List.mem_append.mp hc with hc | hc
      · exact h.apart c hc
      · rw [List.mem_singleton.mp hc]; exact hb.2
    · change Function.update k₁.seqToGpuBlocks seqId (some (k₁.getBlockTable seqId ++ [b])) = _
      rw [htab, hg.tables, h.tables, Function.update_idem]

/-- **Freeing the sequence** gives everything back. -/
theorem Owns.wp_freeSequence (h : Owns k₀ held seqId table k) (hid : NotInUse seqId k₀)
    {R : PyError → KVCacheManager → Prop} :
    wp (KVCacheManager.freeSequence seqId) (fun _ => fun k' => Unchanged k₀ k' held) R k := by
  have hsw : k.seqToSwappedGpuBlocks = k₀.seqToSwappedGpuBlocks :=
    congrArg SwapRecords.Records.swapped h.records
  simp only [KVCacheManager.freeSequence, wp_bind, wp_current, wp_update]
  rw [h.getBlockTable]
  set k₁ :
    KVCacheManager := { k with seqToGpuBlocks := Function.update k.seqToGpuBlocks seqId none }
  have h₁ : Holds k₁ ((table : Multiset ℕ) + held) :=
    h.holds.congr ⟨h.holds.sound.gpu, h.holds.sound.held, h.holds.sound.cpu⟩ rfl rfl
  refine wp_mono (wp_and (Holds.wp_releaseAllTracked (R := fun _ _ => False) table h₁)
    ((leaves_forEach leaves_releaseTracked table).wp k₁)) ?_ fun _ _ h0 => h0.1.elim
  rintro _ k₂ ⟨⟨hg, h₂⟩, hsize⟩
  have hsw₂ : k₂.seqToSwappedGpuBlocks = k₀.seqToSwappedGpuBlocks :=
    (congrArg SwapRecords.Records.swapped hg.records).trans hsw
  rw [add_tsub_cancel_left] at h₂
  rw [hsw₂, hid.noCopy, Option.getD_none, forEach, wp_pure]
  refine ⟨h₂.congr ⟨h₂.sound.gpu, h₂.sound.held, h₂.sound.cpu⟩ rfl rfl, ?_, ?_,
    hg.cpuPool.trans h.cpuPool, hsize.trans h.size⟩
  · change k₂.seqToGpuBlocks = k₀.seqToGpuBlocks
    rw [hg.tables]
    change Function.update k.seqToGpuBlocks seqId none = _
    rw [h.tables, Function.update_idem, ← hid.noTable, Function.update_eq_self]
  · rw [← hg.records.trans h.records]
    rw [← hid.noCopy, Function.update_eq_self, ← hsw₂]

/-! ### Reachable states -/

/-- Giving back CPU blocks in whatever order keeps the state sound. -/
theorem wp_commitSwapIn_sound (h : Sound k) (i : String) (ids : List ℕ) (pairs : List (ℕ × ℕ))
    {R : PyError → KVCacheManager → Prop} : wp (commitSwapIn i ids pairs) (fun _ => Sound) R k := by
  simp only [commitSwapIn, wp_bind]
  refine wp_mono (wp_forEach (fun _ => Sound) (fun z rest t ht => ?_) _ k h) ?_ fun _ _ h0 => h0
  · simp only [wp_bind, wp_update]
    exact wp_mono (wp_freeTrackedCpu ht z.2.1)
      (fun _ _ h' => ⟨h'.sound.gpu, h'.sound.held, h'.sound.cpu⟩) fun _ _ h0 => h0
  · exact fun _ _ h' => ⟨h'.gpu, h'.held, h'.cpu⟩

theorem exists_holds_of_wp {α : Type} {m : Prog PyError KVCacheManager α}
    (h : wp m (fun _ k' => ∃ held, Holds k' held) (fun _ k' => ∃ held, Holds k' held) k) :
    ∃ held, Holds (m.state k) held := inv_of_wp h

/-- **The references can be listed** after every call. -/
theorem exists_holds_runCall (h : Holds k held) : ∀ c : KvCall, ∃ held', Holds (runCall k c) held'
  | .allocateBlocksForSequence i n => by
    refine exists_holds_of_wp (wp_mono (@wp_allocateBlocksForSequence k held i h n) ?_ ?_)
    · rintro _ k' ⟨-, ⟨-, h'⟩ | ⟨-, _, -, h'⟩⟩
      · exact ⟨_, h'.holds⟩
      · exact ⟨_, h'.holds⟩
    · rintro _ _ rfl
      exact ⟨_, h⟩
  | .appendTokenBlock i => by
    refine exists_holds_of_wp ?_
    simp only [appendTokenBlock, wp_bind]
    refine wp_mono (h.wp_allocateGpuBlock (R := fun _ _ => False)) ?_ fun _ _ h0 => h0.elim
    rintro _ k₁ ⟨-, ⟨rfl, -, h₁⟩ | ⟨b, rfl, -, h₁⟩⟩
    · exact ⟨_, h₁⟩
    · exact ⟨_, h₁.congr ⟨h₁.sound.gpu, h₁.sound.held, h₁.sound.cpu⟩ rfl rfl⟩
  | .allocateGpuBlock => by
    refine exists_holds_of_wp
      (wp_mono (h.wp_allocateGpuBlock (R := fun _ _ => False)) ?_ fun _ _ h0 => h0.elim)
    rintro _ _ ⟨-, ⟨-, -, h'⟩ | ⟨_, -, -, h'⟩⟩
    · exact ⟨_, h'⟩
    · exact ⟨_, h'⟩
  | .getCachedGpuBlock x => by
    refine exists_holds_of_wp (wp_mono (h.wp_getCachedGpuBlock x (R := fun _ _ => False)) ?_
      fun _ _ h0 => h0.elim)
    rintro _ _ ⟨-, ⟨-, h'⟩ | ⟨_, -, h'⟩⟩
    · exact ⟨_, h'⟩
    · exact ⟨_, h'⟩
  | .releaseGpuBlock b => by
    refine exists_holds_of_wp ?_
    by_cases hb : b ∈ held
    · exact wp_mono (h.wp_releaseGpuBlock hb (R := fun _ _ => False)) (fun _ _ h' => ⟨_, h'.2⟩)
        fun _ _ h0 => h0.elim
    · have h0 : (k.gpuPool.blocks b).refCnt = 0 := by rw [h.count, Multiset.count_eq_zero.mpr hb]
      simp only [releaseGpuBlock, onGpu, wp_bind, wp_zoom]
      refine wp_mono (wp_freeBlock h.sound.gpu b) ?_ ?_
      · rintro _ p ⟨hpos, -⟩
        omega
      · rintro _ p ⟨rfl, -⟩
        exact ⟨_, h⟩
  | .setBlockTable _ _ => ⟨_, h.congr ⟨h.sound.gpu, h.sound.held, h.sound.cpu⟩ rfl rfl⟩
  | .cacheGpuBlock b x => by
    simp only [runCall]
    split_ifs with hb
    · obtain ⟨hwf, -, hcnt⟩ := cacheFullBlock_spec h.sound.gpu hb x
      refine ⟨held, ⟨hwf, fun c hc => ?_, h.sound.cpu⟩,
        fun c => (hcnt c).trans (h.count c), h.tracked⟩
      exact (hcnt c).symm ▸ h.sound.held c hc
    · exact ⟨_, h⟩
  | .freeSequence i => exists_holds_of_wp (wp_mono (h.wp_freeSequence i (R := fun _ _ => False))
      (fun _ _ h' => ⟨_, h'.2.2.2⟩) fun _ _ h0 => h0.elim)
  | .prepareSwapOut i => by
    refine exists_holds_of_wp (wp_mono (wp_and (wp_prepareSwapOut h.sound i (R := fun _ _ => False))
      ((leaves_prepareSwapOut i).wp k)) ?_ fun _ _ h0 => h0.1.elim)
    rintro _ _ ⟨⟨-, -, h'⟩ | ⟨-, -, h'⟩, hside⟩
    · exact ⟨_, h.of_gpuSide h'.sound hside⟩
    · exact ⟨_, h.of_gpuSide h'.sound hside⟩
  | .commitSwapOut i pairs =>
    exists_holds_of_wp (wp_mono (h.wp_commitSwapOut i pairs (R := fun _ _ => False))
      (fun _ _ h' => ⟨_, h'⟩) fun _ _ h0 => h0.elim)
  | .prepareSwapIn i ids =>
    exists_holds_of_wp (wp_mono (h.wp_prepareSwapIn i ids (R := fun _ _ => False))
      (fun _ _ h' => ⟨_, h'⟩) fun _ _ h0 => h0.elim)
  | .commitSwapIn i ids pairs => exists_holds_of_wp (wp_mono
      (wp_and (wp_commitSwapIn_sound h.sound i ids pairs (R := fun _ _ => False))
        ((leaves_commitSwapIn i ids pairs).wp k))
      (fun _ _ h' => ⟨_, h.of_gpuSide h'.1 h'.2⟩) fun _ _ h0 => h0.1.elim)

theorem Reachable.holds (h : Reachable k) : ∃ held, Holds k held := by
  obtain ⟨numGpu, numCpu, blockSize, calls, rfl⟩ := h
  refine inv_exec_all (I := fun k => ∃ held, Holds k held) ?_ calls _
    ⟨0, holds_new numGpu numCpu blockSize⟩
  rintro k c ⟨held, h⟩
  exact exists_holds_runCall h c

end MoeInfinity.Memory.KvCalls
