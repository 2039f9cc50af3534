import MoeInfinity.Engine.Schedule
import MoeInfinity.Lib.Runs
import MoeInfinity.Memory.KvManagerSpec

/-! # The CPU blocks of swapped sequences

What the scheduler has the manager do, as steps of the manager. The state property is `Accounted`:
the CPU blocks of different swapped sequences are disjoint, and free and owned CPU blocks make up
the pool. A swap-out keeps it if its GPU ids stand for no other copy (`FreshKeys`), the other steps
always do. -/

namespace MoeInfinity.Engine.KvOps

open MoeInfinity.Python MoeInfinity.Lib.Imperative MoeInfinity.Lib.Runs
open MoeInfinity.Memory.Blocks MoeInfinity.Memory.KvManager
  MoeInfinity.Memory.KvManager.KVCacheManager
open MoeInfinity.Memory.SwapRecords MoeInfinity.Memory.KvManagerSpec
open MoeInfinity.Engine.Schedule

variable (hash : ℤ → List ℕ → ℤ) {k : KVCacheManager}

/-! ### What is required -/

/-- The CPU blocks recorded for a swapped sequence, in table order. -/
def cpuBlocks (k : KVCacheManager) (seqId : String) : List ℕ :=
  ((k.seqToSwappedGpuBlocks seqId).getD []).filterMap k.swapMapGpuToCpu

/-- The CPU blocks are accounted for. -/
structure Accounted (k : KVCacheManager) : Prop where
  apart : ∀ i j, i ≠ j → List.Disjoint (cpuBlocks k i) (cpuBlocks k j)
  pool : ∀ c, c < k.cpuPool.numBlocks ↔ c ∈ k.cpuPool.freeQueue ∨ ∃ i, c ∈ cpuBlocks k i
  free : ∀ c ∈ k.cpuPool.freeQueue, ∀ i, c ∉ cpuBlocks k i
  once : k.cpuPool.freeQueue.Nodup ∧ ∀ i, (cpuBlocks k i).Nodup

/-- `prepare_swap_in` for a swapped sequence returns the CPU blocks that its swap-out gave to it, in
order, unless the free GPU blocks do not suffice for them. -/
def ReturnsGiven (k : KVCacheManager) : KvOp → Prop
  | .swapIn i ids => k.seqToSwappedGpuBlocks i ≠ none →
      ∃ given, k.givenAtSwapOut i = some given ∧
        ∃ k' pairs, (prepareSwapIn i ids).run k = (k', .ok pairs) ∧
          (pairs.map (·.1) = given ∨ (pairs = [] ∧ k.gpuPool.numFreeBlocks < given.length))
  | _ => True

/-- What is required of every step. -/
def SwapsWell (k : KVCacheManager) (op : KvOp) : Prop :=
  Accounted (kvStep hash k op) ∧ ReturnsGiven k op

/-- A swap-out that finds enough CPU blocks is of a sequence without a copy, whose GPU blocks are
distinct and none of which stands for a copy. -/
def FreshKeys (k : KVCacheManager) : KvOp → Prop
  | .swapOut i => (k.getBlockTable i).length ≤ k.cpuPool.numFreeBlocks → k.getBlockTable i ≠ [] →
      (k.getBlockTable i).Nodup ∧ (∀ g ∈ k.getBlockTable i, k.swapMapGpuToCpu g = none) ∧
        k.seqToSwappedGpuBlocks i = none
  | _ => True

instance (k : KVCacheManager) : ∀ op, Decidable (FreshKeys k op)
  | .swapOut _ => inferInstanceAs (Decidable (_ → _ → _ ∧ _ ∧ _))
  | .allocate _ _ => isTrue trivial
  | .register _ _ => isTrue trivial
  | .freeSequence _ => isTrue trivial
  | .swapIn _ _ => isTrue trivial

theorem accounted_of_kept (h : Sound k) (hk : Kept (records k)) : Accounted k where
  apart := fun _ _ hij => hk.disjoint hij
  pool := fun c => by
    constructor
    · intro hc
      by_cases ha : c ∈ k.cpuAllocatedBlocks
      · obtain ⟨i, g, hg, hgc⟩ := hk.owned c ha
        exact Or.inr ⟨i, Kept.mem_blocksOf.mpr ⟨g, hg, hgc⟩⟩
      · exact Or.inl (h.cpu.free.mpr ⟨hc, ha⟩)
    · rintro (hc | ⟨i, hc⟩)
      · exact (h.cpu.free.mp hc).1
      · obtain ⟨g, hg, hgc⟩ := (Kept.mem_blocksOf (r := records k)).mp hc
        exact h.cpu.lt (hk.live g c hgc)
  free := fun c hc i hi => by
    obtain ⟨g, hg, hgc⟩ := (Kept.mem_blocksOf (r := records k)).mp hi
    exact (h.cpu.free.mp hc).2 (hk.live g c hgc)
  once := ⟨h.cpu.wf.nodup, hk.nodup_blocksOf⟩

/-! ### Allocation and registration -/

theorem wp_matchPrefix (prompt : List ℕ) (blockSize : ℕ) {R : PyError → KVCacheManager → Prop} :
    ∀ (n i : ℕ) (parentHash : ℤ) (cached : List ℕ) {k : KVCacheManager}, Sound k →
      wp (matchPrefix hash prompt blockSize n i parentHash cached) (fun _ => GpuOnly k) R k
  | 0, _, _, _, _, h => GpuOnly.refl h
  | n + 1, i, parentHash, cached, k, h => by
    simp only [matchPrefix, wp_bind]
    refine wp_mono (wp_getCachedGpuBlock h _) (fun block k₁ h₁ => ?_) fun _ _ h0 => h0
    cases block with
    | none => exact h₁
    | some b =>
      exact wp_mono (wp_matchPrefix prompt blockSize n (i + 1) _ _ h₁.sound)
        (fun _ _ h₂ => h₁.trans h₂) fun _ _ h0 => h0

theorem wp_releaseAll (bs : List ℕ) (h : Sound k) :
    wp (forEach releaseGpuBlock bs) (fun _ => GpuOnly k) (fun _ => GpuOnly k) k := by
  refine wp_forEach (fun _ => GpuOnly k) (fun b _ t ht => ?_) bs k (GpuOnly.refl h)
  refine wp_mono (wp_releaseGpuBlock ht.sound b) (fun _ _ h0 => ht.trans h0.1) ?_
  rintro _ _ ⟨rfl, -⟩
  exact ht

theorem wp_allocateNew (cached : List ℕ) : ∀ (n : ℕ) (new : List ℕ) {k : KVCacheManager}, Sound k →
    wp (allocateNew cached n new) (fun _ => GpuOnly k) (fun _ => GpuOnly k) k
  | 0, _, _, h => GpuOnly.refl h
  | n + 1, new, k, h => by
    simp only [allocateNew, wp_bind]
    refine wp_mono (wp_allocateGpuBlock (R := fun _ _ => False) h) (fun block k₁ h₁ => ?_)
      fun _ _ h0 => h0.elim
    cases block with
    | none =>
      simp only [wp_bind, wp_pure]
      refine wp_mono (wp_releaseAll cached h₁.sound) (fun _ k₂ h₂ => ?_) fun _ _ h0 => h₁.trans h0
      exact wp_mono (wp_releaseAll new h₂.sound) (fun _ _ h₃ => h₁.trans (h₂.trans h₃))
        fun _ _ h₃ => h₁.trans (h₂.trans h₃)
    | some b =>
      exact wp_mono (wp_allocateNew cached n _ h₁.sound) (fun _ _ h₂ => h₁.trans h₂)
        fun _ _ h₂ => h₁.trans h₂

/-- The state is sound and the records are as before. -/
def SameRecords (k k' : KVCacheManager) : Prop := Sound k' ∧ records k' = records k

theorem GpuOnly.same {k' : KVCacheManager} (h : GpuOnly k k') : SameRecords k k' :=
  ⟨h.sound, h.records⟩

theorem wp_allocateBlocks (h : Sound k) (i : String) (prompt : List ℕ) :
    wp (allocateBlocks hash i prompt) (fun _ => SameRecords k) (fun _ => SameRecords k) k := by
  simp only [allocateBlocks, wp_bind, wp_current, wp_ite, wp_raise]
  refine ⟨fun _ => ⟨h, rfl⟩, fun _ => ?_⟩
  refine wp_mono (wp_matchPrefix hash _ _ _ _ _ _ h) (fun cached k₁ h₁ => ?_) fun _ _ h0 => h0
  refine wp_mono (wp_allocateNew cached _ [] h₁.sound) (fun new k₂ h₂ => ?_)
    fun _ _ h₂ => GpuOnly.same (h₁.trans h₂)
  have h₁₂ := h₁.trans h₂
  cases new with
  | none => exact GpuOnly.same h₁₂
  | some new => exact ⟨⟨h₁₂.sound.gpu, h₁₂.sound.held, h₁₂.sound.cpu⟩, h₁₂.records⟩

theorem gpuOnly_registerBlocks (prompt : List ℕ) (blockSize : ℕ) :
    ∀ (n i : ℕ) (parentHash : ℤ) (bs : List ℕ) {k : KVCacheManager}, Sound k →
      GpuOnly k (registerBlocks hash prompt blockSize n i parentHash bs k)
  | 0, _, _, _, _, h => GpuOnly.refl h
  | _ + 1, _, _, [], _, h => GpuOnly.refl h
  | n + 1, i, parentHash, b :: bs, k, h => by
    rw [registerBlocks]
    split_ifs with hb
    · have h₁ := GpuOnly.cacheGpuBlock h hb
        (hash parentHash (tokenSlice prompt blockSize i))
      exact h₁.trans (gpuOnly_registerBlocks prompt blockSize n (i + 1) _ bs h₁.sound)
    · exact GpuOnly.refl h

theorem wp_register (h : Sound k) (i : String) (prompt : List ℕ) :
    wp (registerCompletedBlocksInCache hash i prompt) (fun _ => SameRecords k)
      (fun _ => SameRecords k) k := by
  simp only [registerCompletedBlocksInCache, wp_bind, wp_current, wp_ite, wp_raise, wp_update]
  exact ⟨fun _ => ⟨h, rfl⟩, fun _ => GpuOnly.same (gpuOnly_registerBlocks hash _ _ _ _ _ _ h)⟩

/-! ### Swapping -/

/-- **A swap-out**: nothing, or a copy is given to the sequence. -/
theorem swapOut_run (h : Sound k) (i : String) :
    ∃ k₁ pairs, (prepareSwapOut i).run k = (k₁, .ok pairs) ∧ Sound k₁ ∧
      ((pairs = [] ∧ (swapOut i).state k = k₁ ∧ records k₁ = records k ∧
          (k.getBlockTable i = [] ∨ k.cpuPool.numFreeBlocks < (k.getBlockTable i).length)) ∨
        (pairs ≠ [] ∧ pairs.map (·.1) = k.getBlockTable i ∧ pairs.length ≤ k.cpuPool.numFreeBlocks ∧
          Prepared k pairs k₁ ∧ ∃ k₂, (commitSwapOut i pairs).run k₁ = (k₂, .ok ()) ∧
          (swapOut i).state k = k₂ ∧
            Sound k₂ ∧ records k₂ = give i pairs (records k))) := by
  obtain ⟨k₁, pairs, hrun, hpost⟩ := exists_of_wp (wp_prepareSwapOut h i)
  have hstate : (swapOut i).state k =
      (if pairs = [] then (pure () : Prog PyError KVCacheManager Unit)
        else commitSwapOut i pairs).state k₁ := by
    unfold Prog.state swapOut
    rw [run_bind_ok hrun]
  have hnone : ∀ k', Prepared k [] k' → records k' = records k := by
    intro k' hp
    rw [hp.records]
    simp [records]
  by_cases hp : pairs = []
  · rw [if_pos hp] at hstate
    refine ⟨k₁, pairs, hrun, ?_, Or.inl ⟨hp, hstate, ?_⟩⟩
    · rcases hpost with ⟨-, -, hp'⟩ | ⟨-, -, hp'⟩ <;> exact hp'.sound
    · rcases hpost with ⟨hfst, -, hp'⟩ | ⟨-, hlt, hp'⟩
      · subst hp
        exact ⟨hnone k₁ hp', Or.inl (by simpa using hfst.symm)⟩
      · exact ⟨hnone k₁ hp', Or.inr hlt⟩
  · rcases hpost with ⟨hfst, hle, hp'⟩ | ⟨h0, -⟩
    · rw [if_neg hp] at hstate
      obtain ⟨k₂, ⟨⟩, hrun₂, hs₂, hrec₂, -⟩ := exists_of_wp (wp_commitSwapOut hp'.sound i hp)
      refine ⟨k₁, pairs, hrun, hp'.sound, Or.inr ⟨hp, hfst, hle, hp', k₂, hrun₂, ?_, hs₂, ?_⟩⟩
      · rw [hstate]
        unfold Prog.state
        rw [hrun₂]
      · have h1 := congrArg Records.map hp'.records
        have h2 := congrArg Records.swapped hp'.records
        have h3 := congrArg Records.given hp'.records
        change k₁.swapMapGpuToCpu = k.swapMapGpuToCpu at h1
        change k₁.seqToSwappedGpuBlocks = k.seqToSwappedGpuBlocks at h2
        change k₁.givenAtSwapOut = k.givenAtSwapOut at h3
        rw [hrec₂, h1, h2, h3, hp'.records]
        rfl
    · exact absurd h0 hp

/-- **A swap-in**: nothing, or the copy is dropped. -/
theorem swapIn_run (h : Sound k) (i : String) (ids : List ℕ) :
    ∃ k₁ pairs, (prepareSwapIn i ids).run k = (k₁, .ok pairs) ∧ GpuOnly k k₁ ∧
      ((pairs = [] ∧ (swapIn i ids).state k = k₁ ∧ (ids = [] ∨
          (∃ g ∈ ids, k.swapMapGpuToCpu g = none) ∨ k.gpuPool.numFreeBlocks < ids.length)) ∨
        (pairs ≠ [] ∧ pairs.map (fun pair => some pair.1) = ids.map k.swapMapGpuToCpu ∧
          ∃ k₂, (commitSwapIn i ids pairs).run k₁ = (k₂, .ok ()) ∧ (swapIn i ids).state k = k₂ ∧
            Sound k₂ ∧ records k₂ = drop i ids (records k) ∧
            k₂.seqToGpuBlocks = Function.update k.seqToGpuBlocks i (some (pairs.map (·.2))))) := by
  obtain ⟨k₁, pairs, hrun, hg, hpost⟩ := exists_of_wp (wp_prepareSwapIn h i ids)
  have hstate : (swapIn i ids).state k =
      (if pairs = [] then (pure () : Prog PyError KVCacheManager Unit)
        else commitSwapIn i ids pairs).state k₁ := by
    unfold Prog.state swapIn
    rw [run_bind_ok hrun]
  refine ⟨k₁, pairs, hrun, hg, ?_⟩
  by_cases hp : pairs = []
  · rw [if_pos hp] at hstate
    refine Or.inl ⟨hp, hstate, ?_⟩
    rcases hpost with hpost | ⟨-, hpost⟩
    · subst hp
      exact Or.inl (by simpa using hpost.symm)
    · exact Or.inr hpost
  · rcases hpost with hpost | ⟨h0, -⟩
    · rw [if_neg hp] at hstate
      have hmap : k₁.swapMapGpuToCpu = k.swapMapGpuToCpu := congrArg Records.map hg.records
      have hpost₁ : pairs.map (fun pair => some pair.1) = ids.map k₁.swapMapGpuToCpu := by
        rw [hmap]; exact hpost
      obtain ⟨k₂, ⟨⟩, hrun₂, hs₂, hrec₂, htab₂⟩ := exists_of_wp (wp_commitSwapIn hg.sound i hpost₁)
      refine Or.inr ⟨hp, hpost, k₂, hrun₂, ?_, hs₂, ?_, ?_⟩
      · rw [hstate]
        unfold Prog.state
        rw [hrun₂]
      · rw [hrec₂, hg.records]
      · rw [htab₂, hg.tables]
    · exact absurd h0 hp

/-! ### The steps -/

/-- The sequence a step is for. -/
def seqIdOf : KvOp → String
  | .allocate i _ => i
  | .register i _ => i
  | .freeSequence i => i
  | .swapOut i => i
  | .swapIn i _ => i

theorem freeSequence_state (h : Sound k) (i : String) :
    Sound ((KVCacheManager.freeSequence i).state k) ∧
      records ((KVCacheManager.freeSequence i).state k) =
        drop i ((records k).keysOf i) (records k) := by
  obtain ⟨k', ⟨⟩, hrun, hs, hrec, -⟩ := exists_of_wp (wp_freeSequence h i)
  have hstate : (KVCacheManager.freeSequence i).state k = k' := by
    unfold Prog.state
    rw [hrun]
  rw [hstate]
  exact ⟨hs, hrec⟩

theorem sound_kvStep (h : Sound k) : ∀ op, Sound (kvStep hash k op)
  | .allocate i prompt => (inv_of_wp (wp_allocateBlocks hash h i prompt)).1
  | .register i prompt => (inv_of_wp (wp_register hash h i prompt)).1
  | .freeSequence i => (freeSequence_state h i).1
  | .swapOut i => by
    change Sound ((swapOut i).state k)
    obtain ⟨k₁, pairs, -, hs, ⟨-, hst, -⟩ | ⟨-, -, -, -, k₂, -, hst, hs₂, -⟩⟩ := swapOut_run h i
    · rw [hst]; exact hs
    · rw [hst]; exact hs₂
  | .swapIn i ids => by
    change Sound ((swapIn i ids).state k)
    obtain ⟨k₁, pairs, -, hs, ⟨-, hst, -⟩ | ⟨-, -, k₂, -, hst, hs₂, -⟩⟩ := swapIn_run h i ids
    · rw [hst]; exact hs.sound
    · rw [hst]; exact hs₂

/-- A step changes which copies there are for its own sequence only. -/
theorem swapped_kvStep_of_ne (h : Sound k) {j : String} : ∀ {op : KvOp}, j ≠ seqIdOf op →
    (kvStep hash k op).seqToSwappedGpuBlocks j = k.seqToSwappedGpuBlocks j
  | .allocate i prompt, _ => congrFun (congrArg Records.swapped
      (inv_of_wp (wp_allocateBlocks hash h i prompt)).2) j
  | .register i prompt, _ => congrFun (congrArg Records.swapped
      (inv_of_wp (wp_register hash h i prompt)).2) j
  | .freeSequence i, hj => by
    have hrec := congrFun (congrArg Records.swapped (freeSequence_state h i).2) j
    exact hrec.trans (Function.update_of_ne hj _ _)
  | .swapOut i, hj => by
    change ((swapOut i).state k).seqToSwappedGpuBlocks j = _
    obtain ⟨k₁, pairs, -, -, ⟨-, hst, hrec, -⟩ | ⟨-, -, -, -, k₂, -, hst, -, hrec⟩⟩ :=
      swapOut_run h i
    · rw [hst]; exact congrFun (congrArg Records.swapped hrec) j
    · rw [hst]
      exact (congrFun (congrArg Records.swapped hrec) j).trans (Function.update_of_ne hj _ _)
  | .swapIn i ids, hj => by
    change ((swapIn i ids).state k).seqToSwappedGpuBlocks j = _
    obtain ⟨k₁, pairs, -, hg, ⟨-, hst, -⟩ | ⟨-, -, k₂, -, hst, -, hrec, -⟩⟩ := swapIn_run h i ids
    · rw [hst]; exact congrFun (congrArg Records.swapped hg.records) j
    · rw [hst]
      exact (congrFun (congrArg Records.swapped hrec) j).trans (Function.update_of_ne hj _ _)

/-- The scheduler asks for the copy under the GPU ids it is recorded under. -/
def AsksRecorded (k : KVCacheManager) : KvOp → Prop
  | .swapIn i ids => ids = (records k).keysOf i
  | _ => True

/-- **One step** keeps the records in order. -/
theorem kept_kvStep (h : Sound k) (hk : Kept (records k)) : ∀ {op : KvOp}, FreshKeys k op →
    AsksRecorded k op → Kept (records (kvStep hash k op))
  | .allocate i prompt, _, _ => by
    rw [show records (kvStep hash k (.allocate i prompt)) = records k from
      (inv_of_wp (wp_allocateBlocks hash h i prompt)).2]
    exact hk
  | .register i prompt, _, _ => by
    rw [show records (kvStep hash k (.register i prompt)) = records k from
      (inv_of_wp (wp_register hash h i prompt)).2]
    exact hk
  | .freeSequence i, _, _ => by
    rw [show records (kvStep hash k (.freeSequence i)) = _ from (freeSequence_state h i).2]
    exact hk.drop i
  | .swapOut i, hf, _ => by
    change Kept (records ((swapOut i).state k))
    obtain ⟨k₁, pairs, -, -, ⟨-, hst, hrec, -⟩ | ⟨hne, hfst, hle, hp, k₂, -, hst, -, hrec⟩⟩ :=
      swapOut_run h i
    · rw [hst, hrec]; exact hk
    · rw [hst, hrec]
      have hlen : pairs.length = (k.getBlockTable i).length := by rw [← hfst, List.length_map]
      have hne' : k.getBlockTable i ≠ [] := by
        intro h0
        rw [h0, List.length_nil] at hlen
        exact hne (List.length_eq_zero_iff.mp hlen)
      obtain ⟨hnd, hnew, hsw⟩ := hf (by omega) hne'
      rw [← hfst] at hnd hnew
      exact hk.give hsw hnd hnew hp.nodup hp.fresh
  | .swapIn i ids, _, hask => by
    change Kept (records ((swapIn i ids).state k))
    obtain ⟨k₁, pairs, -, hg, ⟨-, hst, -⟩ | ⟨-, -, k₂, -, hst, -, hrec, -⟩⟩ := swapIn_run h i ids
    · rw [hst, hg.records]; exact hk
    · have hask : ids = (records k).keysOf i := hask
      rw [hst, hrec, hask]
      exact hk.drop i

theorem map_some_filterMap {m : ℕ → Option ℕ} : ∀ {gs : List ℕ}, (∀ g ∈ gs, ∃ c, m g = some c) →
    (gs.filterMap m).map some = gs.map m
  | [], _ => rfl
  | g :: gs, h => by
    obtain ⟨c, hc⟩ := h g List.mem_cons_self
    rw [List.filterMap_cons_some hc, List.map_cons, List.map_cons, hc,
      map_some_filterMap fun g' hg' => h g' (List.mem_cons_of_mem _ hg')]

theorem returnsGiven_of_kept (h : Sound k) (hk : Kept (records k)) :
    ∀ {op : KvOp}, AsksRecorded k op → ReturnsGiven k op
  | .allocate _ _, _ => trivial
  | .register _ _, _ => trivial
  | .freeSequence _, _ => trivial
  | .swapOut _, _ => trivial
  | .swapIn i ids, hask => by
    intro hsw
    obtain ⟨ids', hids'⟩ := Option.ne_none_iff_exists'.mp hsw
    have hask : ids = (records k).keysOf i := hask
    have hmem : ∀ g ∈ ids, ∃ c, k.swapMapGpuToCpu g = some c := by rw [hask]; exact hk.mapped i
    have hblocks : ((records k).blocksOf i).map some = ids.map k.swapMapGpuToCpu := by
      unfold Records.blocksOf
      rw [← hask]
      exact map_some_filterMap hmem
    have hlen : ((records k).blocksOf i).length = ids.length := by
      have := congrArg List.length hblocks
      simpa using this
    refine ⟨(records k).blocksOf i, hk.given i ids' hids', ?_⟩
    obtain ⟨k₁, pairs, hrun, -, ⟨hp, -, hwhy⟩ | ⟨-, hfst, -⟩⟩ := swapIn_run h i ids
    · refine ⟨k₁, pairs, hrun, ?_⟩
      rcases hwhy with h0 | ⟨g, hg, hnone⟩ | hlt
      · left
        rw [h0, List.length_nil] at hlen
        rw [hp, List.length_eq_zero_iff.mp hlen]
        rfl
      · obtain ⟨c, hc⟩ := hmem g hg
        rw [hnone] at hc
        cases hc
      · exact Or.inr ⟨hp, by rw [hlen]; exact hlt⟩
    · refine ⟨k₁, pairs, hrun, Or.inl ?_⟩
      rw [← hblocks] at hfst
      refine List.map_injective_iff.mpr (Option.some_injective ℕ) ?_
      rw [List.map_map]
      exact hfst

end MoeInfinity.Engine.KvOps
