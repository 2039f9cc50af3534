import Mathlib.Algebra.Order.Group.Multiset
import MoeInfinity.Memory.KvManagerSpec

/-! # Who holds the GPU blocks

The references of the GPU blocks as a multiset: `Holds k H` says that `H` lists one entry for each
reference, and that the tracked blocks are those with references. Every method of the manager is
described by what it adds to the list or takes off it. Taking off more than is there is harmless,
since blocks are looked up among the tracked ones before they are released, so the difference of
multisets is the one that stops at zero. -/

namespace MoeInfinity.Memory.RefCounts

open MoeInfinity.Python MoeInfinity.Lib.Imperative
open MoeInfinity.Memory.Blocks MoeInfinity.Memory.KvManager
  MoeInfinity.Memory.KvManager.KVCacheManager
open MoeInfinity.Memory.KvManagerSpec

/-- `held` lists the references of the GPU blocks. -/
structure Holds (k : KVCacheManager) (held : Multiset ℕ) : Prop where
  sound : Sound k
  count : ∀ b, (k.gpuPool.blocks b).refCnt = held.count b
  tracked : ∀ b, b ∈ k.gpuAllocatedBlocks ↔ b ∈ held

variable {k k' : KVCacheManager} {held : Multiset ℕ}

theorem holds_new (numGpu numCpu blockSize : ℕ) :
    Holds (KVCacheManager.new numGpu numCpu blockSize) 0 where
  sound := sound_new numGpu numCpu blockSize
  count := fun _ => rfl
  tracked := fun b => by simp [KVCacheManager.new]

theorem Holds.unique {held' : Multiset ℕ} (h : Holds k held) (h' : Holds k held') : held' = held :=
  Multiset.ext' fun b => (h'.count b).symm.trans (h.count b)

theorem Holds.free (h : Holds k held) {b : ℕ} :
    b ∈ k.gpuPool.freeQueue ↔ b < k.gpuPool.numBlocks ∧ held.count b = 0 := by
  rw [h.sound.gpu.free b, h.count b]

theorem Holds.congr (h : Holds k held) (hs : Sound k') (hp : k'.gpuPool = k.gpuPool)
    (ha : k'.gpuAllocatedBlocks = k.gpuAllocatedBlocks) : Holds k' held := by
  refine ⟨hs, fun b => ?_, fun b => ?_⟩
  · rw [hp]; exact h.count b
  · rw [ha]; exact h.tracked b

/-! ### One block -/

/-- One more reference, and the block is tracked. -/
theorem Holds.take (h : Holds k held) {p : BlockPool} {b : ℕ} (hwf : Wf p)
    (hc : Counted b (held.count b + 1) k.gpuPool p) :
    GpuOnly k (track b { k with gpuPool := p }) ∧
    Holds (track b { k with gpuPool := p }) (b ::ₘ held) := by
  have hg : GpuOnly k (track b { k with gpuPool := p }) := GpuOnly.tracked h.sound hwf hc
  refine ⟨hg, hg.sound, fun c => ?_, fun c => ?_⟩
  · change (p.blocks c).refCnt = _
    by_cases hcb : c = b
    · rw [hcb, hc.self, Multiset.count_cons_self]
    · rw [hc.other c hcb, h.count c, Multiset.count_cons_of_ne hcb]
  · change c ∈ insert b k.gpuAllocatedBlocks ↔ _
    rw [Finset.mem_insert, Multiset.mem_cons, h.tracked c]

theorem Holds.wp_allocateGpuBlock (h : Holds k held) {R : PyError → KVCacheManager → Prop} :
    wp allocateGpuBlock (fun r k' => GpuOnly k k' ∧
      ((r = none ∧ k.gpuPool.freeQueue = [] ∧ Holds k' held) ∨
        ∃ b, r = some b ∧ b ∉ held ∧ Holds k' (b ::ₘ held))) R k := by
  simp only [allocateGpuBlock, onGpu, wp_bind, wp_zoom]
  refine wp_mono (wp_allocateBlock (R := fun _ _ => False) h.sound.gpu) ?_ fun _ _ h0 => h0.elim
  rintro _ p ⟨hwf, ⟨rfl, hq, rfl⟩ | ⟨b, rfl, hq, hc⟩⟩
  · exact ⟨GpuOnly.refl h.sound, Or.inl ⟨rfl, hq, h⟩⟩
  · have hfree : b ∈ k.gpuPool.freeQueue := by rw [hq]; exact List.mem_cons_self
    have h0 := (h.free.mp hfree).2
    obtain ⟨hg, hh⟩ := h.take hwf (by rw [h0]; exact hc)
    exact ⟨hg, Or.inr ⟨b, rfl, Multiset.count_eq_zero.mp h0, hh⟩⟩

theorem Holds.wp_getCachedGpuBlock (h : Holds k held) (blockHash : ℤ)
    {R : PyError → KVCacheManager → Prop} :
    wp (getCachedGpuBlock blockHash) (fun r k' => GpuOnly k k' ∧
      ((r = none ∧ Holds k' held) ∨ ∃ b, r = some b ∧ Holds k' (b ::ₘ held))) R k := by
  simp only [getCachedGpuBlock, onGpu, wp_bind, wp_zoom]
  refine wp_mono (wp_getCachedBlock (R := fun _ _ => False) h.sound.gpu blockHash) ?_
    fun _ _ h0 => h0.elim
  rintro _ p ⟨hwf, ⟨rfl, -, rfl⟩ | ⟨b, rfl, -, -, hc⟩⟩
  · exact ⟨GpuOnly.refl h.sound, Or.inl ⟨rfl, h⟩⟩
  · obtain ⟨hg, hh⟩ := h.take hwf (by rw [← h.count b]; exact hc)
    exact ⟨hg, Or.inr ⟨b, rfl, hh⟩⟩

theorem mem_erase_iff_count {held : Multiset ℕ} {b c : ℕ} :
    c ∈ held.erase b ↔ c ∈ held ∧ (c = b → held.count b ≠ 1) := by
  by_cases hcb : c = b
  · subst hcb
    rw [← Multiset.count_pos, Multiset.count_erase_self, ← Multiset.count_pos]
    simp only [true_imp_iff]
    omega
  · rw [Multiset.mem_erase_of_ne hcb]
    exact ⟨fun h => ⟨h, fun h0 => absurd h0 hcb⟩, fun h => h.1⟩

/-- One reference less, with the tracked blocks as they then have to be. -/
theorem Holds.give (h : Holds k held) {p : BlockPool} {b : ℕ} {a : Finset ℕ} (hwf : Wf p)
    (hc : Counted b ((k.gpuPool.blocks b).refCnt - 1) k.gpuPool p)
    (ha : ∀ c, c ∈ a ↔ c ∈ held.erase b) :
    GpuOnly k { k with gpuPool := p, gpuAllocatedBlocks := a } ∧
      Holds { k with gpuPool := p, gpuAllocatedBlocks := a } (held.erase b) := by
  have hcount : ∀ c, (p.blocks c).refCnt = (held.erase b).count c := by
    intro c
    by_cases hcb : c = b
    · rw [hcb, hc.self, h.count b, Multiset.count_erase_self]
    · rw [hc.other c hcb, h.count c, Multiset.count_erase_of_ne hcb]
  have hs : Sound { k with gpuPool := p, gpuAllocatedBlocks := a } := by
    refine ⟨hwf, fun c hcm => ?_, h.sound.cpu⟩
    change 0 < (p.blocks c).refCnt
    rw [hcount c]
    exact Multiset.count_pos.mpr ((ha c).mp hcm)
  exact ⟨⟨hs, rfl, rfl, rfl⟩, hs, hcount, ha⟩

theorem Holds.mem_erase (h : Holds k held) {b : ℕ} (hb : held.count b = 1) (c : ℕ) :
    c ∈ k.gpuAllocatedBlocks.erase b ↔ c ∈ held.erase b := by
  rw [Finset.mem_erase, h.tracked c, mem_erase_iff_count]
  constructor
  · rintro ⟨hcb, hc⟩
    exact ⟨hc, fun h1 => absurd h1 hcb⟩
  · rintro ⟨hc, h1⟩
    exact ⟨fun hcb => h1 hcb hb, hc⟩

/-- A reference that is there is given back. -/
theorem Holds.wp_releaseGpuBlock (h : Holds k held) {b : ℕ} (hb : b ∈ held)
    {R : PyError → KVCacheManager → Prop} :
    wp (releaseGpuBlock b) (fun _ k' => GpuOnly k k' ∧ Holds k' (held.erase b)) R k := by
  have hpos : 0 < held.count b := Multiset.count_pos.mpr hb
  simp only [releaseGpuBlock, onGpu, wp_bind, wp_zoom]
  refine wp_mono (wp_freeBlock h.sound.gpu b) ?_ ?_
  · rintro _ p ⟨-, hwf, hc, -⟩
    have hself : (p.blocks b).refCnt = held.count b - 1 := by rw [hc.self, h.count b]
    simp only [wp_current, wp_ite, wp_update, wp_pure]
    refine ⟨fun h0 => h.give hwf hc (h.mem_erase ?_), fun h0 => h.give hwf hc fun c => ?_⟩
    · have h0 : (p.blocks b).refCnt = 0 := h0
      omega
    · have h0 : (p.blocks b).refCnt ≠ 0 := h0
      change c ∈ k.gpuAllocatedBlocks ↔ _
      rw [h.tracked c, mem_erase_iff_count]
      refine ⟨fun hc => ⟨hc, fun _ => ?_⟩, fun hc => hc.1⟩
      omega
  · rintro e p ⟨-, h0⟩
    rw [h.count b] at h0
    omega

/-- The only reference of a block is given back, as the undo loop of a swap-in does it. -/
theorem Holds.wp_untrack_free (h : Holds k held) {b : ℕ} (hb : held.count b = 1)
    {R : PyError → KVCacheManager → Prop} :
    wp (do
      update (untrack b)
      onGpu (BlockPool.freeBlock b)) (fun _ k' => GpuOnly k k' ∧ Holds k' (held.erase b)) R k := by
  simp only [onGpu, wp_bind, wp_update, wp_zoom]
  refine wp_mono (wp_freeBlock h.sound.gpu b) ?_ ?_
  · rintro _ p ⟨-, hwf, hc, -⟩
    exact h.give hwf hc (h.mem_erase hb)
  · rintro e p ⟨-, h0⟩
    have h0 : (k.gpuPool.blocks b).refCnt = 0 := h0
    rw [h.count b] at h0
    omega

theorem Holds.wp_releaseTracked (h : Holds k held) (b : ℕ) {R : PyError → KVCacheManager → Prop} :
    wp (releaseTracked b) (fun _ k' => GpuOnly k k' ∧ Holds k' (held.erase b)) R k := by
  simp only [releaseTracked, wp_bind, wp_current, wp_ite, wp_pure]
  refine ⟨fun hb => h.wp_releaseGpuBlock ((h.tracked b).mp hb),
    fun hb => ⟨GpuOnly.refl h.sound, ?_⟩⟩
  rw [Multiset.erase_of_notMem fun h0 => hb ((h.tracked b).mpr h0)]
  exact h

theorem sub_cons_coe (held : Multiset ℕ) (b : ℕ) (bs : List ℕ) :
    held - ((b :: bs : List ℕ) : Multiset ℕ) = held.erase b - (bs : Multiset ℕ) := by
  rw [← Multiset.cons_coe, Multiset.sub_cons]

/-- Releasing blocks that are looked up among the tracked ones. -/
theorem Holds.wp_releaseAllTracked {R : PyError → KVCacheManager → Prop} : ∀ (bs : List ℕ)
    {k : KVCacheManager} {held : Multiset ℕ}, Holds k held →
    wp (forEach releaseTracked bs) (fun _ k' => GpuOnly k k' ∧
      Holds k' (held - (bs : Multiset ℕ))) R k
  | [], k, held, h => by
    rw [forEach, wp_pure, Multiset.coe_nil, Multiset.sub_zero]
    exact ⟨GpuOnly.refl h.sound, h⟩
  | b :: bs, k, held, h => by
    rw [forEach, wp_bind]
    refine wp_mono (h.wp_releaseTracked b) ?_ fun _ _ h0 => h0
    rintro _ k₁ ⟨hg₁, h₁⟩
    refine wp_mono (Holds.wp_releaseAllTracked bs h₁) ?_ fun _ _ h0 => h0
    rintro _ k₂ ⟨hg₂, h₂⟩
    rw [sub_cons_coe]
    exact ⟨hg₁.trans hg₂, h₂⟩

/-- Releasing blocks whose references are there. -/
theorem Holds.wp_releaseAll {R : PyError → KVCacheManager → Prop} : ∀ (bs : List ℕ)
    {k : KVCacheManager} {held : Multiset ℕ}, Holds k ((bs : Multiset ℕ) + held) →
    wp (forEach releaseGpuBlock bs) (fun _ k' => GpuOnly k k' ∧ Holds k' held) R k
  | [], k, held, h => by
    rw [forEach, wp_pure]
    rw [Multiset.coe_nil, zero_add] at h
    exact ⟨GpuOnly.refl h.sound, h⟩
  | b :: bs, k, held, h => by
    rw [forEach, wp_bind]
    rw [← Multiset.cons_coe, Multiset.cons_add] at h
    refine wp_mono (h.wp_releaseGpuBlock (Multiset.mem_cons_self b _)) ?_ fun _ _ h0 => h0
    rintro _ k₁ ⟨hg₁, h₁⟩
    rw [Multiset.erase_cons_head] at h₁
    refine wp_mono (Holds.wp_releaseAll bs h₁) ?_ fun _ _ h0 => h0
    rintro _ k₂ ⟨hg₂, h₂⟩
    exact ⟨hg₁.trans hg₂, h₂⟩

/-! ### What leaves the GPU blocks alone -/

/-- The GPU side of a manager, without the tables. -/
def gpuSide (k : KVCacheManager) : BlockPool × Finset ℕ := (k.gpuPool, k.gpuAllocatedBlocks)

theorem Holds.of_gpuSide (h : Holds k held) (hs : Sound k') (hg : gpuSide k' = gpuSide k) :
    Holds k' held := h.congr hs (congrArg Prod.fst hg) (congrArg Prod.snd hg)

theorem leaves_onCpu {α : Type} (m : Prog PyError BlockPool α) : Leaves gpuSide (onCpu m) :=
  leaves_zoom fun _ _ _ => rfl

theorem leaves_freeTrackedCpu (c : ℕ) : Leaves gpuSide (freeTrackedCpu c) :=
  leaves_bind leaves_current fun _ => leaves_ite
    (leaves_bind (leaves_update fun _ => rfl) fun _ => leaves_onCpu _) (leaves_pure _)

theorem leaves_freeSwapped (g : ℕ) : Leaves gpuSide (freeSwapped g) := by
  refine leaves_bind leaves_current fun k => ?_
  cases k.swapMapGpuToCpu g with
  | none => exact leaves_pure _
  | some c => exact leaves_bind (leaves_update fun _ => rfl) fun _ => leaves_freeTrackedCpu c

theorem leaves_undoSwapOut (pairs : List (ℕ × ℕ)) : Leaves gpuSide (undoSwapOut pairs) := by
  refine leaves_forEach (fun pair => ?_) pairs
  exact leaves_bind (leaves_update fun _ => rfl) fun _ => leaves_onCpu _

theorem leaves_prepareSwapOutLoop : ∀ (gs : List ℕ) (pairs : List (ℕ × ℕ)),
    Leaves gpuSide (prepareSwapOutLoop gs pairs)
  | [], _ => leaves_pure _
  | g :: gs, pairs => by
    rw [prepareSwapOutLoop]
    refine leaves_bind (leaves_onCpu _) fun block => ?_
    cases block with
    | none => exact leaves_bind (leaves_undoSwapOut pairs) fun _ => leaves_pure _
    | some c =>
      exact leaves_bind (leaves_update fun _ => rfl) fun _ => leaves_prepareSwapOutLoop gs _

theorem leaves_prepareSwapOut (i : String) : Leaves gpuSide (prepareSwapOut i) :=
  leaves_bind leaves_current fun _ => leaves_prepareSwapOutLoop _ _

theorem leaves_commitSwapIn (i : String) (ids : List ℕ) (pairs : List (ℕ × ℕ)) :
    Leaves gpuSide (commitSwapIn i ids pairs) := by
  refine leaves_bind (leaves_forEach (fun z => ?_) _) fun _ => leaves_update fun _ => rfl
  exact leaves_bind (leaves_freeTrackedCpu _) fun _ => leaves_update fun _ => rfl

/-! ### Sequences -/

/-- **Freeing a sequence** gives the references of its table back. -/
theorem Holds.wp_freeSequence (h : Holds k held) (i : String)
    {R : PyError → KVCacheManager → Prop} :
    wp (KVCacheManager.freeSequence i) (fun _ k' => Sound k' ∧
      SwapRecords.Records.swapped (records k') i = none ∧
      k'.seqToGpuBlocks = Function.update k.seqToGpuBlocks i none ∧
      Holds k' (held - (k.getBlockTable i : Multiset ℕ))) R k := by
  have hgpu : wp (KVCacheManager.freeSequence i) (fun _ k' => ∃ k₂,
      Holds k₂ (held - (k.getBlockTable i : Multiset ℕ)) ∧ gpuSide k' = gpuSide k₂)
      (fun _ _ => True) k := by
    simp only [KVCacheManager.freeSequence, wp_bind, wp_current, wp_update]
    set k₁ : KVCacheManager := { k with seqToGpuBlocks := Function.update k.seqToGpuBlocks i none }
    have h₁ : Holds k₁ held := h.congr ⟨h.sound.gpu, h.sound.held, h.sound.cpu⟩ rfl rfl
    refine wp_mono (Holds.wp_releaseAllTracked _ h₁) ?_ fun _ _ h0 => h0
    rintro _ k₂ ⟨-, h₂⟩
    refine wp_mono (Leaves.wp (leaves_forEach leaves_freeSwapped _) _) ?_ fun _ _ _ => trivial
    intro _ k₃ h₃
    exact ⟨k₂, h₂, h₃⟩
  refine wp_mono (wp_and (KvManagerSpec.wp_freeSequence (R := fun _ _ => False) h.sound i) hgpu) ?_
    fun _ _ h0 => h0.1.elim
  rintro _ k' ⟨⟨hs, hrec, htab⟩, k₂, h₂, hg⟩
  refine ⟨hs, ?_, htab, h₂.of_gpuSide hs hg⟩
  rw [hrec]
  exact Function.update_self _ _ _

/-- The loop of `commit_swap_out`. -/
theorem Holds.wp_storeAndRelease {R : PyError → KVCacheManager → Prop} : ∀ (pairs : List (ℕ × ℕ))
    {k : KVCacheManager} {held : Multiset ℕ}, Holds k held →
    wp (forEach (fun pair => do
      update (setSwap pair.1 (some pair.2))
      releaseTracked pair.1) pairs)
      (fun _ k' => Holds k' (held - (pairs.map (·.1) : Multiset ℕ))) R k
  | [], k, held, h => by
    rw [forEach, wp_pure, List.map_nil, Multiset.coe_nil, Multiset.sub_zero]
    exact h
  | pair :: pairs, k, held, h => by
    simp only [forEach, wp_bind, wp_update]
    have h₁ : Holds (setSwap pair.1 (some pair.2) k) held :=
      h.congr ⟨h.sound.gpu, h.sound.held, h.sound.cpu⟩ rfl rfl
    refine wp_mono (h₁.wp_releaseTracked pair.1) ?_ fun _ _ h0 => h0
    rintro _ k₂ ⟨-, h₂⟩
    refine wp_mono (Holds.wp_storeAndRelease pairs h₂) ?_ fun _ _ h0 => h0
    intro _ k₃ h₃
    rw [List.map_cons, sub_cons_coe]
    exact h₃

/-- **A swap-out** gives the references of the table back. -/
theorem Holds.wp_commitSwapOut (h : Holds k held) (i : String) (pairs : List (ℕ × ℕ))
    {R : PyError → KVCacheManager → Prop} :
    wp (commitSwapOut i pairs)
      (fun _ k' => Holds k' (held - (pairs.map (·.1) : Multiset ℕ))) R k := by
  simp only [commitSwapOut, wp_bind]
  refine wp_mono (Holds.wp_storeAndRelease pairs h) ?_ fun _ _ h0 => h0
  intro _ k₁ h₁
  simp only [wp_ite, wp_update, wp_bind]
  exact ⟨fun _ => h₁.congr ⟨h₁.sound.gpu, h₁.sound.held, h₁.sound.cpu⟩ rfl rfl,
    fun _ => h₁.congr ⟨h₁.sound.gpu, h₁.sound.held, h₁.sound.cpu⟩ rfl rfl⟩

/-- New blocks go back when a GPU id has no CPU block. -/
theorem Holds.wp_undoSwapIn {R : PyError → KVCacheManager → Prop} : ∀ (pairs : List (ℕ × ℕ))
    {k : KVCacheManager}, (pairs.map (·.2)).Nodup → (∀ b ∈ pairs.map (·.2), b ∉ held) →
    Holds k ((pairs.map (·.2) : Multiset ℕ) + held) →
    wp (undoSwapIn pairs) (fun _ k' => GpuOnly k k' ∧ Holds k' held) R k
  | [], k, _, _, h => by
    rw [List.map_nil, Multiset.coe_nil, zero_add] at h
    exact ⟨GpuOnly.refl h.sound, h⟩
  | pair :: pairs, k, hnd, hnew, h => by
    rw [List.map_cons, ← Multiset.cons_coe, Multiset.cons_add] at h
    rw [List.map_cons, List.nodup_cons] at hnd
    rw [List.map_cons, List.forall_mem_cons] at hnew
    have hone : (pair.2 ::ₘ ((pairs.map (·.2) : Multiset ℕ) + held)).count pair.2 = 1 := by
      rw [Multiset.count_cons_self, Multiset.count_add, Multiset.count_eq_zero.mpr hnew.1,
        Multiset.count_eq_zero.mpr fun h0 => hnd.1 (Multiset.mem_coe.mp h0)]
    rw [undoSwapIn, forEach, wp_bind]
    refine wp_mono (h.wp_untrack_free hone) ?_ fun _ _ h0 => h0
    rintro _ k₁ ⟨hg₁, h₁⟩
    rw [Multiset.erase_cons_head] at h₁
    refine wp_mono (Holds.wp_undoSwapIn pairs hnd.2 hnew.2 h₁) ?_ fun _ _ h0 => h0
    rintro _ k₂ ⟨hg₂, h₂⟩
    exact ⟨hg₁.trans hg₂, h₂⟩

theorem Holds.wp_releasePairs {R : PyError → KVCacheManager → Prop} : ∀ (pairs : List (ℕ × ℕ))
    {k : KVCacheManager}, Holds k ((pairs.map (·.2) : Multiset ℕ) + held) →
    wp (forEach (fun pair => releaseGpuBlock pair.2) pairs) (fun _ k' => GpuOnly k k' ∧
      Holds k' held) R k
  | [], k, h => by
    rw [List.map_nil, Multiset.coe_nil, zero_add] at h
    exact ⟨GpuOnly.refl h.sound, h⟩
  | pair :: pairs, k, h => by
    rw [List.map_cons, ← Multiset.cons_coe, Multiset.cons_add] at h
    rw [forEach, wp_bind]
    refine wp_mono (h.wp_releaseGpuBlock (Multiset.mem_cons_self _ _)) ?_ fun _ _ h0 => h0
    rintro _ k₁ ⟨hg₁, h₁⟩
    rw [Multiset.erase_cons_head] at h₁
    refine wp_mono (Holds.wp_releasePairs pairs h₁) ?_ fun _ _ h0 => h0
    rintro _ k₂ ⟨hg₂, h₂⟩
    exact ⟨hg₁.trans hg₂, h₂⟩

theorem Holds.wp_prepareSwapInLoop {R : PyError → KVCacheManager → Prop} : ∀ (gs : List ℕ)
    (pairs : List (ℕ × ℕ)) {k : KVCacheManager}, (pairs.map (·.2)).Nodup →
    (∀ b ∈ pairs.map (·.2), b ∉ held) → Holds k ((pairs.map (·.2) : Multiset ℕ) + held) →
    wp (prepareSwapInLoop gs pairs) (fun res k' =>
      Holds k' ((res.map (·.2) : Multiset ℕ) + held)) R k
  | [], _, _, _, _, h => h
  | g :: gs, pairs, k, hnd, hnew, h => by
    have hnone : ∀ k', Holds k' held → Holds k'
        ((([] : List (ℕ × ℕ)).map (·.2) : Multiset ℕ) + held) := by
      intro k' h'
      rw [List.map_nil, Multiset.coe_nil, zero_add]
      exact h'
    rw [prepareSwapInLoop]
    simp only [wp_bind, wp_current]
    split
    · simp only [wp_bind, wp_pure]
      exact wp_mono (Holds.wp_undoSwapIn pairs hnd hnew h) (fun _ k' h' => hnone k' h'.2)
        fun _ _ h0 => h0
    · next c _ =>
      have hbody := h.wp_allocateGpuBlock (R := fun _ _ => False)
      simp only [allocateGpuBlock, wp_bind] at hbody ⊢
      refine wp_mono hbody ?_ fun _ _ h0 => h0.elim
      intro block k₁ h₁
      cases block with
      | none =>
        simp only [wp_bind, wp_pure] at h₁ ⊢
        obtain ⟨-, ⟨-, -, h₁⟩ | ⟨b, h0, -⟩⟩ := h₁
        · exact wp_mono (Holds.wp_releasePairs pairs h₁) (fun _ k' h' => hnone k' h'.2)
            fun _ _ h0 => h0
        · cases h0
      | some b =>
        simp only [wp_bind, wp_pure, wp_update] at h₁ ⊢
        obtain ⟨-, ⟨h0, -⟩ | ⟨b', hb, hnot, h₁⟩⟩ := h₁
        · cases h0
        · cases hb
          rw [Multiset.mem_add, not_or] at hnot
          refine Holds.wp_prepareSwapInLoop gs _ ?_ ?_ ?_
          · rw [List.map_append]
            refine List.Nodup.append hnd (List.nodup_singleton b) fun d hd hdb => ?_
            rw [List.mem_singleton.mp hdb] at hd
            exact hnot.1 (Multiset.mem_coe.mpr hd)
          · intro d hd
            rw [List.map_append, List.mem_append] at hd
            rcases hd with hd | hd
            · exact hnew d hd
            · rw [List.mem_singleton.mp hd]; exact hnot.2
          · rw [List.map_append, ← Multiset.coe_add, add_assoc, add_left_comm]
            exact h₁

/-- **Preparing a swap-in** takes a reference on each block it returns. -/
theorem Holds.wp_prepareSwapIn (h : Holds k held) (i : String) (ids : List ℕ)
    {R : PyError → KVCacheManager → Prop} :
    wp (prepareSwapIn i ids)
      (fun res k' => Holds k' ((res.map (·.2) : Multiset ℕ) + held)) R k := by
  refine Holds.wp_prepareSwapInLoop ids [] List.nodup_nil (fun _ h0 => by cases h0) ?_
  rw [List.map_nil, Multiset.coe_nil, zero_add]
  exact h

end MoeInfinity.Memory.RefCounts
