import Mathlib.Data.Finset.Lattice.Lemmas
import MoeInfinity.Memory.KvManager
import MoeInfinity.Memory.SwapRecords

/-! # What the manager does to the records

The methods of the manager, seen from the CPU side: work on GPU blocks leaves the records as they
are, `free_sequence` and a swap-in drop a copy, a swap-out gives one. None of them raises. -/

namespace MoeInfinity.Memory.KvManagerSpec

open MoeInfinity.Python MoeInfinity.Lib.Imperative
open MoeInfinity.Memory.Blocks MoeInfinity.Memory.KvManager
  MoeInfinity.Memory.KvManager.KVCacheManager
open MoeInfinity.Memory.SwapRecords

/-! ### Sound states -/

/-- The CPU pool: the blocks in `a` have one reference, the others none. -/
structure Tracked (p : BlockPool) (a : Finset ℕ) : Prop where
  wf : Wf p
  count : ∀ c, (p.blocks c).refCnt = if c ∈ a then 1 else 0

theorem Tracked.lt {p : BlockPool} {a : Finset ℕ} (h : Tracked p a) {c : ℕ} (hc : c ∈ a) :
    c < p.numBlocks := by
  by_contra h0
  have h1 := h.wf.out c (by omega)
  rw [h.count c, if_pos hc] at h1
  omega

theorem Tracked.free {p : BlockPool} {a : Finset ℕ} (h : Tracked p a) {c : ℕ} :
    c ∈ p.freeQueue ↔ c < p.numBlocks ∧ c ∉ a := by
  rw [h.wf.free c, h.count c]
  split_ifs with hc <;> simp [hc]

/-- The pools are well formed and the tracked blocks have references. -/
structure Sound (k : KVCacheManager) : Prop where
  gpu : Wf k.gpuPool
  held : ∀ b ∈ k.gpuAllocatedBlocks, 0 < (k.gpuPool.blocks b).refCnt
  cpu : Tracked k.cpuPool k.cpuAllocatedBlocks

theorem sound_new (numGpu numCpu blockSize : ℕ) :
    Sound (KVCacheManager.new numGpu numCpu blockSize) where
  gpu := wf_new numGpu
  held := fun b hb => absurd hb (Finset.notMem_empty b)
  cpu := ⟨wf_new numCpu, fun c => by simp [KVCacheManager.new, BlockPool.new]⟩

/-- The records of a manager. -/
def records (k : KVCacheManager) : Records :=
  ⟨k.swapMapGpuToCpu, k.seqToSwappedGpuBlocks, k.cpuAllocatedBlocks, k.givenAtSwapOut⟩

/-- Only the GPU pool and its tracked blocks have changed. -/
structure GpuOnly (k k' : KVCacheManager) : Prop where
  sound : Sound k'
  records : records k' = records k
  cpuPool : k'.cpuPool = k.cpuPool
  tables : k'.seqToGpuBlocks = k.seqToGpuBlocks

variable {k k' k'' : KVCacheManager}

theorem GpuOnly.refl (h : Sound k) : GpuOnly k k := ⟨h, rfl, rfl, rfl⟩

theorem GpuOnly.trans (h : GpuOnly k k') (h' : GpuOnly k' k'') : GpuOnly k k'' :=
  ⟨h'.sound, h'.records.trans h.records, h'.cpuPool.trans h.cpuPool, h'.tables.trans h.tables⟩

/-! ### GPU blocks -/

/-- Taking a reference on a block and tracking it. -/
theorem GpuOnly.tracked (h : Sound k) {p : BlockPool} {b n : ℕ} (hwf : Wf p)
    (hc : Counted b (n + 1) k.gpuPool p) : GpuOnly k (track b { k with gpuPool := p }) := by
  refine ⟨⟨hwf, fun c hcm => ?_, h.cpu⟩, rfl, rfl, rfl⟩
  change 0 < (p.blocks c).refCnt
  by_cases hcb : c = b
  · rw [hcb, hc.self]; omega
  · rw [hc.other c hcb]
    exact h.held c ((Finset.mem_insert.mp hcm).resolve_left hcb)

theorem wp_allocateGpuBlock (h : Sound k) {R : PyError → KVCacheManager → Prop} :
    wp allocateGpuBlock (fun _ => GpuOnly k) R k := by
  simp only [allocateGpuBlock, onGpu, wp_bind, wp_zoom]
  refine wp_mono (wp_allocateBlock (R := fun _ _ => False) h.gpu) ?_ fun _ _ h0 => h0.elim
  rintro _ p ⟨hwf, ⟨rfl, -, rfl⟩ | ⟨b, rfl, -, hc⟩⟩
  · exact GpuOnly.refl h
  · exact GpuOnly.tracked h hwf hc

theorem wp_getCachedGpuBlock (h : Sound k) (blockHash : ℤ) {R : PyError → KVCacheManager → Prop} :
    wp (getCachedGpuBlock blockHash) (fun _ => GpuOnly k) R k := by
  simp only [getCachedGpuBlock, onGpu, wp_bind, wp_zoom]
  refine wp_mono (wp_getCachedBlock (R := fun _ _ => False) h.gpu blockHash) ?_
    fun _ _ h0 => h0.elim
  rintro _ p ⟨hwf, ⟨rfl, -, rfl⟩ | ⟨b, rfl, -, -, hc⟩⟩
  · exact GpuOnly.refl h
  · exact GpuOnly.tracked h hwf hc

/-- Giving a reference back raises only for a block that is not tracked. -/
theorem wp_releaseGpuBlock (h : Sound k) (b : ℕ) :
    wp (releaseGpuBlock b)
      (fun _ k' => GpuOnly k k' ∧ ∀ c ∈ k.gpuAllocatedBlocks, c ≠ b → c ∈ k'.gpuAllocatedBlocks)
      (fun _ k' => k' = k ∧ b ∉ k.gpuAllocatedBlocks) k := by
  simp only [releaseGpuBlock, onGpu, wp_bind, wp_zoom]
  refine wp_mono (wp_freeBlock h.gpu b) ?_ ?_
  · rintro _ p ⟨hr, hwf, hc, -⟩
    simp only [wp_current, wp_ite, wp_update, wp_pure]
    have hheld : ∀ c ∈ k.gpuAllocatedBlocks, c ≠ b → 0 < (p.blocks c).refCnt := fun c hcm hcb => by
      rw [hc.other c hcb]; exact h.held c hcm
    refine ⟨fun h0 => ⟨⟨⟨hwf, fun c hcm => ?_, h.cpu⟩, rfl, rfl, rfl⟩, fun c hcm hcb => ?_⟩,
      fun h0 => ⟨⟨⟨hwf, fun c hcm => ?_, h.cpu⟩, rfl, rfl, rfl⟩, fun c hcm _ => hcm⟩⟩
    · obtain ⟨hcb, hcm⟩ := Finset.mem_erase.mp hcm
      exact hheld c hcm hcb
    · exact Finset.mem_erase.mpr ⟨hcb, hcm⟩
    · by_cases hcb : c = b
      · subst hcb; exact Nat.pos_of_ne_zero h0
      · exact hheld c hcm hcb
  · rintro e p ⟨rfl, h0⟩
    refine ⟨rfl, fun hb => ?_⟩
    have := h.held b hb
    omega

theorem wp_releaseTracked (h : Sound k) (b : ℕ) {R : PyError → KVCacheManager → Prop} :
    wp (releaseTracked b) (fun _ => GpuOnly k) R k := by
  simp only [releaseTracked, wp_bind, wp_current, wp_ite, wp_pure]
  refine ⟨fun hb => ?_, fun _ => GpuOnly.refl h⟩
  exact wp_mono (wp_releaseGpuBlock h b) (fun _ _ h0 => h0.1) fun _ _ h0 => absurd hb h0.2

theorem GpuOnly.cacheGpuBlock (h : Sound k) {b : ℕ} (hb : b ∈ k.gpuAllocatedBlocks)
    (blockHash : ℤ) :
    GpuOnly k (k.cacheGpuBlock b blockHash) := by
  have hlt : b < k.gpuPool.numBlocks := by
    by_contra h0
    have h1 := h.gpu.out b (by omega)
    have h2 := h.held b hb
    omega
  obtain ⟨hwf, -, hcnt⟩ := cacheFullBlock_spec h.gpu hlt blockHash
  refine ⟨⟨hwf, fun c hc => ?_, h.cpu⟩, rfl, rfl, rfl⟩
  change 0 < ((k.gpuPool.cacheFullBlock b blockHash).blocks c).refCnt
  rw [hcnt c]
  exact h.held c hc

/-- **Loops over GPU blocks** change the GPU side only. -/
theorem wp_forEach_gpuOnly {α : Type} {body : α → Prog PyError KVCacheManager Unit}
    {R : PyError → KVCacheManager → Prop}
    (hbody : ∀ x k, Sound k → wp (body x) (fun _ => GpuOnly k) R k) (xs : List α) (h : Sound k) :
    wp (forEach body xs) (fun _ => GpuOnly k) R k := by
  refine wp_forEach (fun _ => GpuOnly k) (fun x _ t ht => ?_) xs k (GpuOnly.refl h)
  exact wp_mono (hbody x t ht.sound) (fun _ _ h0 => ht.trans h0) fun _ _ h0 => h0

/-! ### CPU blocks -/

theorem wp_allocateCpu (h : Sound k) {R : PyError → KVCacheManager → Prop} :
    wp (onCpu BlockPool.allocateBlock) (fun r k' =>
      (r = none ∧ k.cpuPool.freeQueue = [] ∧ k' = k) ∨
        ∃ c p, r = some c ∧ c ∉ k.cpuAllocatedBlocks ∧ k' = { k with cpuPool := p } ∧
          k.cpuPool.freeQueue = c :: p.freeQueue ∧ Sound (trackCpu c k')) R k := by
  simp only [onCpu, wp_zoom]
  refine wp_mono (wp_allocateBlock (R := fun _ _ => False) h.cpu.wf) ?_ fun _ _ h0 => h0.elim
  rintro _ p ⟨hwf, ⟨rfl, hq, rfl⟩ | ⟨c, rfl, hq, hc⟩⟩
  · exact Or.inl ⟨rfl, hq, rfl⟩
  · have hfree : c ∈ k.cpuPool.freeQueue := by rw [hq]; exact List.mem_cons_self
    refine Or.inr ⟨c, p, rfl, (h.cpu.free.mp hfree).2, rfl, hq, h.gpu, h.held, hwf, fun d => ?_⟩
    change (p.blocks d).refCnt = if d ∈ insert c k.cpuAllocatedBlocks then 1 else 0
    by_cases hd : d = c
    · rw [hd, hc.self, if_pos (Finset.mem_insert_self _ _)]
    · rw [hc.other d hd, h.cpu.count d]
      simp [hd]

/-- Freeing a tracked CPU block. -/
theorem wp_freeCpu (h : Sound k) {c : ℕ} (hc : c ∈ k.cpuAllocatedBlocks)
    {R : PyError → KVCacheManager → Prop} :
    wp (onCpu (BlockPool.freeBlock c))
      (fun _ k' => Sound k' ∧ ∃ p, k' = { untrackCpu c k with cpuPool := p }) R
      (untrackCpu c k) := by
  simp only [onCpu, wp_zoom]
  have hone : (k.cpuPool.blocks c).refCnt = 1 := by rw [h.cpu.count c, if_pos hc]
  refine wp_mono (wp_freeBlock h.cpu.wf c) ?_ ?_
  · rintro _ p ⟨-, hwf, hcnt, -⟩
    refine ⟨⟨h.gpu, h.held, hwf, fun d => ?_⟩, p, rfl⟩
    change (p.blocks d).refCnt = if d ∈ k.cpuAllocatedBlocks.erase c then 1 else 0
    by_cases hd : d = c
    · rw [hd, hcnt.self, hone, if_neg (Finset.notMem_erase c _)]
    · rw [hcnt.other d hd, h.cpu.count d]
      simp [hd]
  · rintro e p ⟨-, h0⟩
    rw [hone] at h0
    cases h0

/-- The records change as said, and the tables do not. -/
structure Becomes (r : Records) (k k' : KVCacheManager) : Prop where
  sound : Sound k'
  records : records k' = r
  tables : k'.seqToGpuBlocks = k.seqToGpuBlocks

theorem wp_freeTrackedCpu (h : Sound k) (c : ℕ) {R : PyError → KVCacheManager → Prop} :
    wp (freeTrackedCpu c) (fun _ => Becomes { records k with
      allocated := k.cpuAllocatedBlocks.erase c } k) R k := by
  simp only [freeTrackedCpu, wp_bind, wp_current, wp_ite, wp_update, wp_pure]
  refine ⟨fun hc => wp_mono (wp_freeCpu (R := fun _ _ => False) h hc) ?_ fun _ _ h0 => h0.elim,
    fun hc => ⟨h, ?_, rfl⟩⟩
  · rintro _ _ ⟨hs, p, rfl⟩
    exact ⟨hs, rfl, rfl⟩
  · rw [Finset.erase_eq_of_notMem hc]
    rfl

/-! ### Dropping a copy -/

/-- The records without some keys and their blocks, one key after the other. -/
def dropKeys (ids : List ℕ) (r : Records) : Records :=
  { r with
    map := fun g => if g ∈ ids then none else r.map g
    allocated := r.allocated.filter fun c => ∀ g ∈ ids, r.map g ≠ some c }

theorem dropKeys_nil (r : Records) : dropKeys [] r = r := by
  simp [dropKeys]

theorem dropKeys_cons (g : ℕ) (ids : List ℕ) (r : Records) :
    dropKeys (g :: ids) r = dropKeys ids (dropKeys [g] r) := by
  unfold dropKeys
  congr 1
  · funext x
    by_cases hx : x = g <;> simp [hx]
  · ext c
    simp only [List.mem_singleton, forall_eq, Finset.mem_filter, and_assoc]
    rw [List.forall_mem_cons]
    refine and_congr_right fun _ => and_congr_right fun hg => forall_congr' fun x => ?_
    refine imp_congr_right fun _ => ?_
    by_cases hx : x = g
    · subst hx
      simp [hg]
    · simp [hx]

theorem dropKeys_singleton_none {g : ℕ} {r : Records} (h : r.map g = none) :
    dropKeys [g] r = r := by
  have hmap : (fun x => if x ∈ [g] then none else r.map x) = r.map := by
    funext x
    by_cases hx : x = g
    · simp [hx, h]
    · simp [hx]
  have hall : r.allocated.filter (fun c => ∀ x ∈ [g], r.map x ≠ some c) = r.allocated := by
    refine Finset.filter_true_of_mem fun c _ x hx => ?_
    rw [List.mem_singleton.mp hx, h]
    simp
  unfold dropKeys
  rw [hmap, hall]

theorem dropKeys_singleton_some {g c : ℕ} {r : Records} (h : r.map g = some c) :
    dropKeys [g] r = { r with
      map := Function.update r.map g none
      allocated := r.allocated.erase c } := by
  have hmap : (fun x => if x ∈ [g] then none else r.map x) = Function.update r.map g none := by
    funext x
    by_cases hx : x = g
    · subst hx; simp
    · simp [hx]
  have hall : r.allocated.filter (fun d => ∀ x ∈ [g], r.map x ≠ some d) = r.allocated.erase c := by
    ext d
    simp only [List.mem_singleton, forall_eq, Finset.mem_filter, Finset.mem_erase, h]
    rw [and_comm]
    simp [eq_comm]
  unfold dropKeys
  rw [hmap, hall]

theorem drop_eq_dropKeys (i : String) (ids : List ℕ) (r : Records) :
    dropKeys ids { r with swapped := Function.update r.swapped i none } = drop i ids r := rfl

theorem wp_freeSwapped (h : Sound k) (g : ℕ) {R : PyError → KVCacheManager → Prop} :
    wp (freeSwapped g) (fun _ => Becomes (dropKeys [g] (records k)) k) R k := by
  simp only [freeSwapped, wp_bind, wp_current]
  split
  · next hg => exact ⟨h, (dropKeys_singleton_none hg).symm, rfl⟩
  · next c hg =>
    simp only [wp_bind, wp_update]
    have hs : Sound (setSwap g none k) := ⟨h.gpu, h.held, h.cpu⟩
    refine wp_mono (wp_freeTrackedCpu hs c) (fun _ k' h' => ⟨h'.sound, ?_, h'.tables⟩)
      fun _ _ h0 => h0
    rw [h'.records, dropKeys_singleton_some hg]
    rfl

/-- **Freeing a sequence** drops its copy. -/
theorem wp_freeSequence (h : Sound k) (i : String) {R : PyError → KVCacheManager → Prop} :
    wp (KVCacheManager.freeSequence i) (fun _ k' => Sound k' ∧
      records k' = drop i ((records k).keysOf i) (records k) ∧
      k'.seqToGpuBlocks = Function.update k.seqToGpuBlocks i none) R k := by
  simp only [KVCacheManager.freeSequence, wp_bind, wp_current, wp_update]
  set k₁ : KVCacheManager := { k with seqToGpuBlocks := Function.update k.seqToGpuBlocks i none }
  have hs₁ : Sound k₁ := ⟨h.gpu, h.held, h.cpu⟩
  refine wp_mono (wp_forEach_gpuOnly (fun b k hk => wp_releaseTracked hk b) _ hs₁) ?_
    fun _ _ h0 => h0
  intro _ k₂ h₂
  have hkeys : (k₂.seqToSwappedGpuBlocks i).getD [] = (records k).keysOf i :=
    congrArg (fun r : Records => (r.swapped i).getD []) h₂.records
  rw [hkeys]
  set k₃ : KVCacheManager := { k₂ with
    seqToSwappedGpuBlocks := Function.update k₂.seqToSwappedGpuBlocks i none }
  have hs₃ : Sound k₃ := ⟨h₂.sound.gpu, h₂.sound.held, h₂.sound.cpu⟩
  have hr₃ : records k₃ =
      { records k with swapped := Function.update (records k).swapped i none } := by
    have h2 := h₂.records
    change records k₂ = records k at h2
    rw [← h2]
    rfl
  -- the keys still to be dropped, from the records the loop has reached
  refine wp_mono (wp_forEach (fun rest t => Sound t ∧ t.seqToGpuBlocks = k₁.seqToGpuBlocks ∧
    dropKeys rest (records t) = dropKeys ((records k).keysOf i) (records k₃))
    (fun g rest t ht => ?_) _ k₃ ⟨hs₃, h₂.tables, rfl⟩) ?_ fun _ _ h0 => h0
  · refine wp_mono (wp_freeSwapped ht.1 g) (fun _ t' h' => ⟨h'.sound, h'.tables.trans ht.2.1, ?_⟩)
      fun _ _ h0 => h0
    rw [h'.records, ← dropKeys_cons]
    exact ht.2.2
  · rintro _ t ⟨hs, htab, hrec⟩
    refine ⟨hs, ?_, htab⟩
    rw [dropKeys_nil, hr₃, drop_eq_dropKeys] at hrec
    exact hrec

/-! ### Giving a copy -/

/-- `k'` has taken the CPU blocks of `pairs` since `k`. -/
structure Prepared (k : KVCacheManager) (pairs : List (ℕ × ℕ)) (k' : KVCacheManager) : Prop where
  sound : Sound k'
  records : records k' = { records k with
    allocated := k.cpuAllocatedBlocks ∪ (pairs.map (·.2)).toFinset }
  tables : k'.seqToGpuBlocks = k.seqToGpuBlocks
  nodup : (pairs.map (·.2)).Nodup
  fresh : ∀ c ∈ pairs.map (·.2), c ∉ k.cpuAllocatedBlocks

theorem Prepared.refl (h : Sound k) : Prepared k [] k :=
  ⟨h, by simp [KvManagerSpec.records], rfl, List.nodup_nil, fun _ h0 => by cases h0⟩

theorem Prepared.allocated {pairs : List (ℕ × ℕ)} (h : Prepared k pairs k') :
    k'.cpuAllocatedBlocks = k.cpuAllocatedBlocks ∪ (pairs.map (·.2)).toFinset :=
  congrArg Records.allocated h.records

theorem Prepared.snoc {pairs : List (ℕ × ℕ)} (h : Prepared k pairs k') {c : ℕ}
    {p : BlockPool} (g : ℕ) (hc : c ∉ k'.cpuAllocatedBlocks)
    (hs : Sound (trackCpu c { k' with cpuPool := p })) :
    Prepared k (pairs ++ [(g, c)]) (trackCpu c { k' with cpuPool := p }) := by
  have hall := h.allocated
  rw [hall, Finset.mem_union, not_or, List.mem_toFinset] at hc
  refine ⟨hs, ?_, h.tables, ?_, fun d hd => ?_⟩
  · have hset : insert c k'.cpuAllocatedBlocks =
        k.cpuAllocatedBlocks ∪ ((pairs ++ [(g, c)]).map (·.2)).toFinset := by
      rw [hall, List.map_append, List.toFinset_append, ← Finset.union_assoc]
      exact (Finset.insert_eq ..).trans (Finset.union_comm ..)
    change { KvManagerSpec.records k' with allocated := insert c k'.cpuAllocatedBlocks } = _
    rw [hset, h.records]
  · rw [List.map_append]
    refine List.Nodup.append h.nodup (List.nodup_singleton c) fun d hd hdc => ?_
    rw [List.mem_singleton.mp hdc] at hd
    exact hc.2 hd
  · rw [List.map_append, List.mem_append] at hd
    rcases hd with hd | hd
    · exact h.fresh d hd
    · rw [List.mem_singleton.mp hd]; exact hc.1

theorem wp_undoSwapOut {R : PyError → KVCacheManager → Prop} {pairs : List (ℕ × ℕ)}
    (h : Prepared k pairs k') : wp (undoSwapOut pairs) (fun _ => Prepared k []) R k' := by
  refine wp_forEach (Prepared k) (fun pair rest t ht => ?_) pairs k' h
  have hnd := List.nodup_cons.mp ht.nodup
  have hold := ht.fresh pair.2 List.mem_cons_self
  have hmem : pair.2 ∈ t.cpuAllocatedBlocks := by rw [ht.allocated]; simp
  simp only [wp_bind, wp_update]
  refine wp_mono (wp_freeCpu (R := fun _ _ => False) ht.sound hmem) ?_ fun _ _ h0 => h0.elim
  rintro _ _ ⟨hs, p, rfl⟩
  refine ⟨hs, ?_, ht.tables, hnd.2, fun c hc => ht.fresh c (List.mem_cons_of_mem _ hc)⟩
  have hset : t.cpuAllocatedBlocks.erase pair.2 =
      k.cpuAllocatedBlocks ∪ (rest.map (·.2)).toFinset := by
    have hins : t.cpuAllocatedBlocks =
        insert pair.2 (k.cpuAllocatedBlocks ∪ (rest.map (·.2)).toFinset) := by
      rw [ht.allocated, List.map_cons, List.toFinset_cons, Finset.union_insert]
    rw [hins, Finset.erase_insert]
    rw [Finset.mem_union, not_or, List.mem_toFinset]
    exact ⟨hold, hnd.1⟩
  change { KvManagerSpec.records t with allocated := t.cpuAllocatedBlocks.erase pair.2 } = _
  rw [hset, ht.records]

theorem wp_prepareSwapOutLoop {R : PyError → KVCacheManager → Prop} {k : KVCacheManager} :
    ∀ (gs : List ℕ) (pairs : List (ℕ × ℕ)) (k' : KVCacheManager), Prepared k pairs k' →
      k.cpuPool.freeQueue.length = pairs.length + k'.cpuPool.freeQueue.length →
      wp (prepareSwapOutLoop gs pairs) (fun res k'' =>
        (res.map (·.1) = pairs.map (·.1) ++ gs ∧ res.length ≤ k.cpuPool.numFreeBlocks ∧
          Prepared k res k'') ∨
          (res = [] ∧ k.cpuPool.numFreeBlocks < pairs.length + gs.length ∧ Prepared k [] k'')) R k'
  | [], pairs, k', h, hlen => Or.inl ⟨by simp, by change _ ≤ k.cpuPool.freeQueue.length; omega, h⟩
  | g :: gs, pairs, k', h, hlen => by
    rw [prepareSwapOutLoop, wp_bind]
    refine wp_mono (wp_allocateCpu (R := fun _ _ => False) h.sound) ?_ fun _ _ h0 => h0.elim
    rintro _ _ (⟨rfl, hq, rfl⟩ | ⟨c, p, rfl, hc, rfl, hq, hs⟩)
    · simp only [wp_bind, wp_pure]
      refine wp_mono (wp_undoSwapOut h) (fun _ t ht => Or.inr ⟨trivial, ?_, ht⟩) fun _ _ h0 => h0
      rw [hq] at hlen
      simp only [List.length_nil, List.length_cons] at hlen ⊢
      change k.cpuPool.freeQueue.length < _
      omega
    · simp only [wp_bind, wp_update]
      have hlen' : k.cpuPool.freeQueue.length =
        (pairs ++ [(g, c)]).length + p.freeQueue.length := by
        rw [hq] at hlen
        simp only [List.length_append, List.length_cons, List.length_nil] at hlen ⊢
        omega
      refine wp_mono (wp_prepareSwapOutLoop gs _ _ (h.snoc g hc hs) hlen') ?_ fun _ _ h0 => h0
      rintro res t (⟨hres, hle, ht⟩ | ⟨hres, hlt, ht⟩)
      · exact Or.inl ⟨by rw [hres]; simp, hle, ht⟩
      · refine Or.inr ⟨hres, ?_, ht⟩
        simp only [List.length_append, List.length_cons, List.length_nil] at hlt ⊢
        omega

theorem wp_prepareSwapOut (h : Sound k) (i : String) {R : PyError → KVCacheManager → Prop} :
    wp (prepareSwapOut i) (fun res k' =>
      (res.map (·.1) = k.getBlockTable i ∧ res.length ≤ k.cpuPool.numFreeBlocks ∧
        Prepared k res k') ∨ (res = [] ∧ k.cpuPool.numFreeBlocks < (k.getBlockTable i).length ∧
        Prepared k [] k')) R k := by
  simp only [prepareSwapOut, wp_bind, wp_current]
  refine wp_mono (wp_prepareSwapOutLoop _ [] k (Prepared.refl h) (by simp)) ?_ fun _ _ h0 => h0
  rintro res t (⟨hres, hle, ht⟩ | ⟨hres, hlt, ht⟩)
  · exact Or.inl ⟨by simpa using hres, hle, ht⟩
  · exact Or.inr ⟨hres, by simpa using hlt, ht⟩

theorem wp_commitSwapOut (h : Sound k) (i : String) {pairs : List (ℕ × ℕ)} (hne : pairs ≠ [])
    {R : PyError → KVCacheManager → Prop} :
    wp (commitSwapOut i pairs) (fun _ k' => Sound k' ∧
      records k' = { records k with
        map := storeAll k.swapMapGpuToCpu pairs
        swapped := Function.update k.seqToSwappedGpuBlocks i (some (pairs.map (·.1)))
        given := Function.update k.givenAtSwapOut i (some (pairs.map (·.2))) } ∧
      k'.seqToGpuBlocks = Function.update k.seqToGpuBlocks i none) R k := by
  simp only [commitSwapOut, wp_bind]
  -- the pairs still to be stored, from the map the loop has reached
  refine wp_mono (wp_forEach (fun rest t => Sound t ∧ t.seqToGpuBlocks = k.seqToGpuBlocks ∧
    { records t with map := storeAll t.swapMapGpuToCpu rest } =
      { records k with map := storeAll k.swapMapGpuToCpu pairs })
    (fun pair rest t ht => ?_) pairs k ⟨h, rfl, rfl⟩) ?_ fun _ _ h0 => h0
  · simp only [wp_bind, wp_update]
    have hs : Sound (setSwap pair.1 (some pair.2) t) := ⟨ht.1.gpu, ht.1.held, ht.1.cpu⟩
    refine wp_mono (wp_releaseTracked hs pair.1)
      (fun _ t' h' => ⟨h'.sound, h'.tables.trans ht.2.1, ?_⟩) fun _ _ h0 => h0
    have hmap : t'.swapMapGpuToCpu = Function.update t.swapMapGpuToCpu pair.1 (some pair.2) :=
      congrArg Records.map h'.records
    rw [h'.records, hmap, ← ht.2.2]
    rfl
  · rintro _ t ⟨hs, htab, hrec⟩
    simp only [wp_ite, wp_update, wp_bind, ne_eq, hne, not_false_eq_true, forall_const, not_true,
      false_imp_iff, and_true]
    have hrec : records t = { records k with map := storeAll k.swapMapGpuToCpu pairs } := hrec
    have hsw : t.seqToSwappedGpuBlocks = k.seqToSwappedGpuBlocks := congrArg Records.swapped hrec
    have hgv : t.givenAtSwapOut = k.givenAtSwapOut := congrArg Records.given hrec
    refine ⟨⟨hs.gpu, hs.held, hs.cpu⟩, ?_, ?_⟩
    · rw [← hsw, ← hgv]
      change { records t with
        swapped := Function.update t.seqToSwappedGpuBlocks i (some (pairs.map Prod.fst))
        given := Function.update t.givenAtSwapOut i (some (pairs.map Prod.snd)) } = _
      rw [hrec]
    · rw [← htab]

/-! ### Taking a copy back -/

/-- Giving back new GPU blocks that are tracked, by either undo loop. -/
theorem wp_giveBack {body : ℕ × ℕ → Prog PyError KVCacheManager Unit}
    {R : PyError → KVCacheManager → Prop}
    (hbody : ∀ pair k, Sound k → pair.2 ∈ k.gpuAllocatedBlocks → wp (body pair) (fun _ k' =>
      GpuOnly k k' ∧ ∀ c ∈ k.gpuAllocatedBlocks, c ≠ pair.2 → c ∈ k'.gpuAllocatedBlocks) R k)
    (pairs : List (ℕ × ℕ)) (h : GpuOnly k k') (hnd : (pairs.map (·.2)).Nodup)
    (hmem : ∀ b ∈ pairs.map (·.2), b ∈ k'.gpuAllocatedBlocks) :
    wp (forEach body pairs) (fun _ => GpuOnly k) R k' := by
  refine wp_mono (wp_forEach (fun rest t => GpuOnly k t ∧ (rest.map (·.2)).Nodup ∧
    ∀ b ∈ rest.map (·.2), b ∈ t.gpuAllocatedBlocks) (fun pair rest t ht => ?_) pairs k' ⟨h,
      hnd, hmem⟩)
    (fun _ _ h0 => h0.1) fun _ _ h0 => h0
  have hnd' := List.nodup_cons.mp ht.2.1
  refine wp_mono (hbody pair t ht.1.sound (ht.2.2 _ List.mem_cons_self)) ?_ fun _ _ h0 => h0
  rintro _ t' ⟨h', hkeep⟩
  refine ⟨ht.1.trans h', hnd'.2, fun b hb => hkeep b (ht.2.2 b (List.mem_cons_of_mem _ hb)) ?_⟩
  rintro rfl
  exact hnd'.1 hb

theorem wp_release_tracked (pair : ℕ × ℕ) (k : KVCacheManager) (h : Sound k)
    (hb : pair.2 ∈ k.gpuAllocatedBlocks) {R : PyError → KVCacheManager → Prop} :
    wp (releaseGpuBlock pair.2) (fun _ k' =>
      GpuOnly k k' ∧ ∀ c ∈ k.gpuAllocatedBlocks, c ≠ pair.2 → c ∈ k'.gpuAllocatedBlocks) R k :=
  wp_mono (wp_releaseGpuBlock h pair.2) (fun _ _ h0 => h0) fun _ _ h0 => absurd hb h0.2

theorem wp_untrack_free (pair : ℕ × ℕ) (k : KVCacheManager) (h : Sound k)
    (hb : pair.2 ∈ k.gpuAllocatedBlocks) {R : PyError → KVCacheManager → Prop} :
    wp (do
      update (untrack pair.2)
      onGpu (BlockPool.freeBlock pair.2)) (fun _ k' =>
      GpuOnly k k' ∧ ∀ c ∈ k.gpuAllocatedBlocks, c ≠ pair.2 → c ∈ k'.gpuAllocatedBlocks) R k := by
  simp only [onGpu, wp_bind, wp_update, wp_zoom]
  refine wp_mono (wp_freeBlock h.gpu pair.2) ?_ ?_
  · rintro _ p ⟨-, hwf, hc, -⟩
    refine ⟨⟨⟨hwf, fun c hcm => ?_, h.cpu⟩, rfl, rfl, rfl⟩, fun c hcm hcb =>
      Finset.mem_erase.mpr ⟨hcb, hcm⟩⟩
    obtain ⟨hcb, hcm⟩ := Finset.mem_erase.mp hcm
    change 0 < (p.blocks c).refCnt
    rw [hc.other c hcb]
    exact h.held c hcm
  · rintro e p ⟨-, h0⟩
    have := h.held _ hb
    omega

/-- **Preparing a swap-in**: the CPU blocks that the keys stand for, in order, with new GPU blocks;
or nothing, if a key is not in the map or the GPU blocks do not suffice. -/
theorem wp_prepareSwapInLoop {R : PyError → KVCacheManager → Prop} {k : KVCacheManager} :
    ∀ (gs : List ℕ) (pairs : List (ℕ × ℕ)) (k' : KVCacheManager), GpuOnly k k' →
      (pairs.map (·.2)).Nodup → (∀ b ∈ pairs.map (·.2), b ∈ k'.gpuAllocatedBlocks) →
      k.gpuPool.freeQueue.length = pairs.length + k'.gpuPool.freeQueue.length →
      wp (prepareSwapInLoop gs pairs) (fun res k'' => GpuOnly k k'' ∧
        (res.map (fun pair => some pair.1) =
            pairs.map (fun pair => some pair.1) ++ gs.map k.swapMapGpuToCpu ∨
          (res = [] ∧ ((∃ g ∈ gs, k.swapMapGpuToCpu g = none) ∨
            k.gpuPool.numFreeBlocks < pairs.length + gs.length)))) R k'
  | [], pairs, k', h, _, _, _ => ⟨h, Or.inl (by simp)⟩
  | g :: gs, pairs, k', h, hnd, hmem, hlen => by
    rw [prepareSwapInLoop]
    simp only [wp_bind, wp_current]
    have hmap : k'.swapMapGpuToCpu = k.swapMapGpuToCpu := congrArg Records.map h.records
    split
    · next hg =>
      simp only [wp_bind, wp_pure, undoSwapIn]
      refine wp_mono
        (wp_giveBack (fun pair k hk hb => wp_untrack_free pair k hk hb) pairs h hnd hmem)
        (fun _ t ht => ⟨ht, Or.inr ⟨trivial, Or.inl ⟨g, List.mem_cons_self, ?_⟩⟩⟩) fun _ _ h0 => h0
      rw [← hmap]; exact hg
    · next c hg =>
      simp only [wp_bind, onGpu, wp_zoom]
      refine wp_mono (wp_allocateBlock (R := fun _ _ => False) h.sound.gpu) ?_ fun _ _ h0 => h0.elim
      rintro _ p ⟨hwf, ⟨rfl, hq, rfl⟩ | ⟨b, rfl, hq, hc⟩⟩
      · simp only [wp_bind, wp_pure]
        refine wp_mono
          (wp_giveBack (fun pair k hk hb => wp_release_tracked pair k hk hb) pairs h hnd hmem)
          (fun _ t ht => ⟨ht, Or.inr ⟨trivial, Or.inr ?_⟩⟩) fun _ _ h0 => h0
        rw [hq] at hlen
        simp only [List.length_nil, List.length_cons] at hlen ⊢
        change k.gpuPool.freeQueue.length < _
        omega
      · simp only [wp_bind, wp_update]
        have hnew : b ∉ k'.gpuAllocatedBlocks := fun hb => by
          have h0 := h.sound.held b hb
          have h1 := ((h.sound.gpu.free b).mp (by rw [hq]; exact List.mem_cons_self)).2
          omega
        refine wp_mono (wp_prepareSwapInLoop gs (pairs ++ [(c, b)]) _
          (h.trans (GpuOnly.tracked h.sound hwf hc)) ?_ ?_ ?_) ?_ fun _ _ h0 => h0
        · rw [List.map_append]
          refine List.Nodup.append hnd (List.nodup_singleton b) fun d hd hdb => ?_
          rw [List.mem_singleton.mp hdb] at hd
          exact hnew (hmem b hd)
        · intro d hd
          rw [List.map_append, List.mem_append] at hd
          rcases hd with hd | hd
          · exact Finset.mem_insert_of_mem (hmem d hd)
          · rw [List.mem_singleton.mp hd]; exact Finset.mem_insert_self _ _
        · rw [hq] at hlen
          simp only [List.length_append, List.length_cons, List.length_nil] at hlen ⊢
          change _ = _ + p.freeQueue.length
          omega
        · rintro res t ⟨ht, hres | ⟨hres, hwhy⟩⟩
          · refine ⟨ht, Or.inl ?_⟩
            rw [hres, ← hmap]
            simp [hg]
          · refine ⟨ht, Or.inr ⟨hres, ?_⟩⟩
            rcases hwhy with ⟨g', hg', hnone⟩ | hlt
            · exact Or.inl ⟨g', List.mem_cons_of_mem _ hg', hnone⟩
            · right
              simp only [List.length_append, List.length_cons, List.length_nil] at hlt ⊢
              omega

theorem wp_prepareSwapIn (h : Sound k) (i : String) (ids : List ℕ)
    {R : PyError → KVCacheManager → Prop} :
    wp (prepareSwapIn i ids) (fun res k' => GpuOnly k k' ∧
      (res.map (fun pair => some pair.1) = ids.map k.swapMapGpuToCpu ∨
        (res = [] ∧ ((∃ g ∈ ids, k.swapMapGpuToCpu g = none) ∨
          k.gpuPool.numFreeBlocks < ids.length)))) R k := by
  refine wp_mono (wp_prepareSwapInLoop ids [] k (GpuOnly.refl h) List.nodup_nil
    (fun _ h0 => by cases h0) (by simp)) ?_ fun _ _ h0 => h0
  rintro res t ⟨ht, hres | ⟨hres, hwhy⟩⟩
  · exact ⟨ht, Or.inl (by simpa using hres)⟩
  · exact ⟨ht, Or.inr ⟨hres, by simpa using hwhy⟩⟩

/-- The records of `t` know the pairs still to be dropped, or have dropped their keys before. -/
def Pending (rest : List (ℕ × ℕ × ℕ)) (r : Records) : Prop :=
  ∀ z ∈ rest, r.map z.1 = some z.2.1 ∨ (r.map z.1 = none ∧ z.2.1 ∉ r.allocated)

theorem dropKeys_pending {z : ℕ × ℕ × ℕ} {rest : List (ℕ × ℕ × ℕ)} {r : Records}
    (h : Pending (z :: rest) r) :
    { r with map := Function.update r.map z.1 none, allocated := r.allocated.erase z.2.1 } =
      dropKeys [z.1] r ∧ Pending rest (dropKeys [z.1] r) := by
  have hz := h z List.mem_cons_self
  have heq :
      { r with map := Function.update r.map z.1 none, allocated := r.allocated.erase z.2.1 } =
        dropKeys [z.1] r := by
    rcases hz with hz | ⟨hz, hc⟩
    · rw [dropKeys_singleton_some hz]
    · rw [dropKeys_singleton_none hz, Finset.erase_eq_of_notMem hc, ← hz, Function.update_eq_self]
  refine ⟨heq, fun y hy => ?_⟩
  rw [← heq]
  have hy' := h y (List.mem_cons_of_mem _ hy)
  by_cases hyz : y.1 = z.1
  · refine Or.inr ⟨by rw [hyz]; exact Function.update_self _ _ _, ?_⟩
    change y.2.1 ∉ r.allocated.erase z.2.1
    rcases hy' with hy' | ⟨-, hc⟩
    · rw [hyz] at hy'
      rcases hz with hz | ⟨hz, -⟩
      · rw [hz] at hy'
        rw [← Option.some.inj hy']
        exact Finset.notMem_erase _ _
      · rw [hz] at hy'
        cases hy'
    · exact fun h0 => hc (Finset.mem_of_mem_erase h0)
  · change Function.update r.map z.1 none y.1 = _ ∨ (Function.update r.map z.1 none y.1 = _ ∧ _)
    rw [Function.update_of_ne hyz]
    exact hy'.imp_right fun h0 => ⟨h0.1, fun h1 => h0.2 (Finset.mem_of_mem_erase h1)⟩

theorem wp_commitSwapIn (h : Sound k) (i : String) {ids : List ℕ} {pairs : List (ℕ × ℕ)}
    (hpairs : pairs.map (fun pair => some pair.1) = ids.map k.swapMapGpuToCpu)
    {R : PyError → KVCacheManager → Prop} :
    wp (commitSwapIn i ids pairs) (fun _ k' => Sound k' ∧ records k' = drop i ids (records k) ∧
      k'.seqToGpuBlocks = Function.update k.seqToGpuBlocks i (some (pairs.map (·.2)))) R k := by
  have hlen : ids.length = pairs.length := by
    have := congrArg List.length hpairs
    simpa using this.symm
  have hids : (ids.zip pairs).map (·.1) = ids := List.map_fst_zip (le_of_eq hlen)
  have hnew : (ids.zip pairs).map (·.2.2) = pairs.map (·.2) := by
    have := List.map_snd_zip (le_of_eq hlen.symm)
    conv_rhs => rw [← this, List.map_map]
    rfl
  have hpend : Pending (ids.zip pairs) (records k) := by
    intro z hz
    left
    obtain ⟨n, hn, rfl⟩ := List.getElem_of_mem hz
    have hn' : n < ids.length ∧ n < pairs.length := by
      rw [List.length_zip] at hn
      omega
    have h1 := congrArg (fun l : List (Option ℕ) => l[n]?) hpairs
    simp only [List.getElem?_map, List.getElem?_eq_getElem hn'.1, List.getElem?_eq_getElem hn'.2,
      Option.map_some] at h1
    rw [List.getElem_zip]
    exact (Option.some.inj h1).symm
  simp only [commitSwapIn, wp_bind]
  refine wp_mono (wp_forEach (fun rest t => Sound t ∧ t.seqToGpuBlocks = k.seqToGpuBlocks ∧
    Pending rest (records t) ∧ dropKeys (rest.map (·.1)) (records t) = dropKeys ids (records k))
    (fun z rest t ht => ?_) _ k ⟨h, rfl, hpend, by rw [hids]⟩) ?_ fun _ _ h0 => h0
  · obtain ⟨hs, htab, hp, hrec⟩ := ht
    simp only [wp_bind, wp_update]
    refine wp_mono (wp_freeTrackedCpu hs z.2.1) (fun _ t' h' => ?_) fun _ _ h0 => h0
    obtain ⟨heq, hp'⟩ := dropKeys_pending hp
    have hmap : t'.swapMapGpuToCpu = t.swapMapGpuToCpu := congrArg Records.map h'.records
    have hrec' : records (setSwap z.1 none t') = dropKeys [z.1] (records t) := by
      rw [← heq]
      change { records t' with map := Function.update t'.swapMapGpuToCpu z.1 none } = _
      rw [h'.records, hmap]
      rfl
    refine ⟨⟨h'.sound.gpu, h'.sound.held, h'.sound.cpu⟩, h'.tables.trans htab, ?_, ?_⟩
    · rw [hrec']; exact hp'
    · rw [hrec', ← dropKeys_cons]; exact hrec
  · rintro _ t ⟨hs, htab, -, hrec⟩
    simp only [wp_update]
    have hrec : records t = dropKeys ids (records k) := by
      rw [List.map_nil, dropKeys_nil] at hrec
      exact hrec
    have hsw : t.seqToSwappedGpuBlocks = k.seqToSwappedGpuBlocks := congrArg Records.swapped hrec
    refine ⟨⟨hs.gpu, hs.held, hs.cpu⟩, ?_, ?_⟩
    · change { records t with swapped := Function.update t.seqToSwappedGpuBlocks i none } = _
      rw [hrec, hsw]
      rfl
    · rw [hnew, htab]

end MoeInfinity.Memory.KvManagerSpec
