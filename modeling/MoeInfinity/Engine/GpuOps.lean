import MoeInfinity.Engine.KvOps
import MoeInfinity.Memory.RefCounts

/-! # What the scheduler has the manager do, on the GPU side

For each kind of step of the manager: what becomes of the tables, of the records and of the
references of the GPU blocks. None of the steps raises, apart from an allocation with a block size
of zero. -/

namespace MoeInfinity.Engine.GpuOps

open MoeInfinity.Python MoeInfinity.Lib.Imperative
open MoeInfinity.Memory.Blocks MoeInfinity.Memory.KvManager
  MoeInfinity.Memory.KvManager.KVCacheManager
open MoeInfinity.Memory.SwapRecords MoeInfinity.Memory.KvManagerSpec MoeInfinity.Memory.RefCounts
open MoeInfinity.Engine.Schedule MoeInfinity.Engine.KvOps

variable (hash : ℤ → List ℕ → ℤ) {k k' k'' : KVCacheManager} {held : Multiset ℕ}

/-! ### The outcomes -/

/-- Neither tables nor records nor references have changed. -/
structure Untouched (k k' : KVCacheManager) : Prop where
  tables : k'.seqToGpuBlocks = k.seqToGpuBlocks
  records : records k' = records k
  holds : ∀ held, Holds k held → Holds k' held

theorem Untouched.refl (k : KVCacheManager) : Untouched k k := ⟨rfl, rfl, fun _ h => h⟩

/-- A sequence has got a table that covers its prompt. -/
structure Allocated (i : String) (prompt : List ℕ) (k k' : KVCacheManager) : Prop where
  size : k.blockSize ≠ 0
  records : records k' = records k
  table : ∃ ids : List ℕ, k'.seqToGpuBlocks = Function.update k.seqToGpuBlocks i (some ids) ∧
    prompt.length ≤ ids.length * k.blockSize ∧
    ∀ held, Holds k held → Holds k' ((ids : Multiset ℕ) + held)

/-- A sequence has lost its table and its copy. -/
structure Freed (i : String) (k k' : KVCacheManager) : Prop where
  tables : k'.seqToGpuBlocks = Function.update k.seqToGpuBlocks i none
  records : records k' = drop i ((records k).keysOf i) (records k)
  holds : ∀ held, Holds k held → Holds k' (held - (k.getBlockTable i : Multiset ℕ))

/-- A sequence has exchanged its table for a copy. -/
structure SwappedOut (i : String) (ids : List ℕ) (k k' : KVCacheManager) : Prop where
  table : k.getBlockTable i = ids
  ne_nil : ids ≠ []
  tables : k'.seqToGpuBlocks = Function.update k.seqToGpuBlocks i none
  records : ∃ pairs : List (ℕ × ℕ), pairs.map (·.1) = ids ∧ records k' = give i pairs (records k)
  holds : ∀ held, Holds k held → Holds k' (held - (ids : Multiset ℕ))

/-- A sequence has exchanged its copy for a table. -/
structure SwappedIn (i : String) (ids : List ℕ) (k k' : KVCacheManager) : Prop where
  ne_nil : ids ≠ []
  known : ∀ g ∈ ids, ∃ c, k.swapMapGpuToCpu g = some c
  records : records k' = drop i ids (records k)
  table : ∃ new : List ℕ, new.length = ids.length ∧
    k'.seqToGpuBlocks = Function.update k.seqToGpuBlocks i (some new) ∧
    ∀ held, Holds k held → Holds k' ((new : Multiset ℕ) + held)

/-! ### Allocation -/

theorem wp_matchPrefix (prompt : List ℕ) (blockSize : ℕ) {R : PyError → KVCacheManager → Prop} :
    ∀ (n i : ℕ) (parentHash : ℤ) (cached : List ℕ) {k : KVCacheManager} {held : Multiset ℕ},
      Holds k ((cached : Multiset ℕ) + held) →
      wp (matchPrefix hash prompt blockSize n i parentHash cached) (fun cached' k' =>
        GpuOnly k k' ∧ cached'.length ≤ cached.length + n ∧
          Holds k' ((cached' : Multiset ℕ) + held)) R k
  | 0, _, _, cached, k, held, h => ⟨GpuOnly.refl h.sound, le_rfl, h⟩
  | n + 1, i, parentHash, cached, k, held, h => by
    simp only [matchPrefix, wp_bind]
    refine wp_mono (h.wp_getCachedGpuBlock _) ?_ fun _ _ h0 => h0
    rintro _ k₁ ⟨hg, ⟨rfl, h₁⟩ | ⟨b, rfl, h₁⟩⟩
    · exact ⟨hg, by omega, h₁⟩
    · have h₁ : Holds k₁ (((cached ++ [b] : List ℕ) : Multiset ℕ) + held) := by
        rw [← Multiset.coe_add, add_assoc, add_left_comm]
        exact h₁
      refine wp_mono (wp_matchPrefix prompt blockSize n (i + 1) _ _ h₁) ?_ fun _ _ h0 => h0
      rintro cached' k₂ ⟨hg₂, hlen, h₂⟩
      rw [List.length_append, List.length_singleton] at hlen
      exact ⟨hg.trans hg₂, by omega, h₂⟩

theorem wp_allocateNew (cached : List ℕ) {R : PyError → KVCacheManager → Prop} :
    ∀ (n : ℕ) (new : List ℕ) {k : KVCacheManager} {held : Multiset ℕ},
      Holds k ((cached : Multiset ℕ) + ((new : Multiset ℕ) + held)) →
      wp (allocateNew cached n new) (fun r k' => GpuOnly k k' ∧
        ((r = none ∧ Holds k' held) ∨ ∃ new', r = some new' ∧ new'.length = new.length + n ∧
          Holds k' ((cached : Multiset ℕ) + ((new' : Multiset ℕ) + held)))) R k
  | 0, new, k, held, h => ⟨GpuOnly.refl h.sound, Or.inr ⟨new, rfl, rfl, h⟩⟩
  | n + 1, new, k, held, h => by
    simp only [allocateNew, wp_bind]
    refine wp_mono (h.wp_allocateGpuBlock) ?_ fun _ _ h0 => h0
    rintro _ k₁ ⟨hg, ⟨rfl, -, h₁⟩ | ⟨b, rfl, -, h₁⟩⟩
    · simp only [wp_bind, wp_pure]
      refine wp_mono (Holds.wp_releaseAll cached h₁) ?_ fun _ _ h0 => h0
      rintro _ k₂ ⟨hg₂, h₂⟩
      refine wp_mono (Holds.wp_releaseAll new h₂) ?_ fun _ _ h0 => h0
      rintro _ k₃ ⟨hg₃, h₃⟩
      exact ⟨hg.trans (hg₂.trans hg₃), Or.inl ⟨trivial, h₃⟩⟩
    · have h₁ :
          Holds k₁ ((cached : Multiset ℕ) + (((new ++ [b] : List ℕ) : Multiset ℕ) + held)) := by
        rw [← Multiset.coe_add, Multiset.coe_singleton, add_comm (new : Multiset ℕ), add_assoc,
          add_left_comm]
        exact h₁
      refine wp_mono (wp_allocateNew cached n _ h₁) ?_ fun _ _ h0 => h0
      rintro r k₂ ⟨hg₂, h₂ | ⟨new', hr, hlen, h₂⟩⟩
      · exact ⟨hg.trans hg₂, Or.inl h₂⟩
      · rw [List.length_append, List.length_singleton] at hlen
        exact ⟨hg.trans hg₂, Or.inr ⟨new', hr, by omega, h₂⟩⟩

theorem le_ceilDiv_mul (n : ℕ) {blockSize : ℕ} (h : blockSize ≠ 0) :
    n ≤ ceilDiv n blockSize * blockSize := by
  have hmod := Nat.mod_lt (n + blockSize - 1) (Nat.pos_of_ne_zero h)
  have hdiv := Nat.div_add_mod' (n + blockSize - 1) blockSize
  unfold ceilDiv
  omega

theorem covered {len found blockSize : ℕ} (hfound : found ≤ len / blockSize)
    (hpos : blockSize ≠ 0) :
    len ≤ (found + if 0 < len - found * blockSize
      then ceilDiv (len - found * blockSize) blockSize else 0) * blockSize := by
  have hle : found * blockSize ≤ len :=
    (Nat.mul_le_mul_right _ hfound).trans (Nat.div_mul_le_self _ _)
  rw [Nat.add_mul]
  split_ifs with h
  · have hceil := le_ceilDiv_mul (len - found * blockSize) hpos
    omega
  · omega

/-- **An allocation** gives a table or leaves everything as it is; it raises for a block size of
zero. -/
theorem wp_allocateBlocks (h : Holds k held) (i : String) (prompt : List ℕ) :
    wp (allocateBlocks hash i prompt)
      (fun r k' => r.2 ≤ prompt.length ∧ k.blockSize ≠ 0 ∧
        if r.1 = true then Allocated i prompt k k' else Untouched k k')
      (fun e k' => k.blockSize = 0 ∧ k' = k ∧
        e = .zeroDivisionError "integer division or modulo by zero") k := by
  simp only [allocateBlocks, wp_bind, wp_current, wp_ite, wp_raise]
  refine ⟨fun hbs => ⟨hbs, trivial, trivial⟩, fun hbs => ?_⟩
  have hnil : Holds k ((([] : List ℕ) : Multiset ℕ) + held) := by
    rw [Multiset.coe_nil, zero_add]; exact h
  refine wp_mono (wp_matchPrefix (R := fun _ _ => False) hash _ _ _ _ _ _ hnil) ?_
    fun _ _ h0 => h0.elim
  rintro cached k₁ ⟨hg₁, hlen, h₁⟩
  rw [List.length_nil, zero_add] at hlen
  have h₁' : Holds k₁ ((cached : Multiset ℕ) + ((([] : List ℕ) : Multiset ℕ) + held)) := by
    rw [Multiset.coe_nil, zero_add]; exact h₁
  refine wp_mono (wp_allocateNew (R := fun _ _ => False) cached _ [] h₁') ?_ fun _ _ h0 => h0.elim
  rintro _ k₂ ⟨hg₂, ⟨rfl, h₂⟩ | ⟨new, rfl, hnew, h₂⟩⟩
  · refine ⟨Nat.zero_le _, hbs, ?_⟩
    have hg := hg₁.trans hg₂
    exact ⟨hg.tables, hg.records, fun held' h' => by rw [h.unique h']; exact h₂⟩
  · have hg := hg₁.trans hg₂
    have hle : cached.length * k.blockSize ≤ prompt.length :=
      (Nat.mul_le_mul_right _ hlen).trans (Nat.div_mul_le_self _ _)
    refine ⟨hle, hbs, ?_⟩
    refine ⟨hbs, hg.records, cached ++ new, ?_, ?_, fun held' h' => ?_⟩
    · change Function.update k₂.seqToGpuBlocks i (some (cached ++ new)) = _
      rw [hg.tables]
    · rw [List.length_append, hnew, List.length_nil, zero_add]
      exact covered hlen hbs
    · rw [h.unique h', ← Multiset.coe_add, add_assoc]
      exact h₂.congr ⟨h₂.sound.gpu, h₂.sound.held, h₂.sound.cpu⟩ rfl rfl

/-- The two ways an allocation goes, as runs. -/
theorem allocate_run (h : Holds k held) (i : String) (prompt : List ℕ) :
    (k.blockSize = 0 ∧ kvStep hash k (.allocate i prompt) = k ∧
      (allocateBlocks hash i prompt).run k =
        (k, .error (.zeroDivisionError "integer division or modulo by zero"))) ∨
      ∃ allocated n, k.blockSize ≠ 0 ∧ n ≤ prompt.length ∧ (allocateBlocks hash i prompt).run k =
          (kvStep hash k (.allocate i prompt), .ok (allocated, n)) ∧
        if allocated = true then Allocated i prompt k (kvStep hash k (.allocate i prompt))
        else Untouched k (kvStep hash k (.allocate i prompt)) := by
  have hwp := wp_allocateBlocks hash h i prompt
  have hkv : kvStep hash k (.allocate i prompt) = ((allocateBlocks hash i prompt).run k).1 := rfl
  rcases hrun : (allocateBlocks hash i prompt).run k with ⟨k', e | ⟨allocated, n⟩⟩
  · obtain ⟨hbs, rfl, rfl⟩ := wp_error hwp hrun
    rw [hrun] at hkv
    exact Or.inl ⟨hbs, hkv, rfl⟩
  · obtain ⟨hn, hbs, hcase⟩ := wp_ok hwp hrun
    rw [hrun] at hkv
    rw [hkv]
    exact Or.inr ⟨allocated, n, hbs, hn, rfl, hcase⟩

/-! ### Registration -/

theorem holds_registerBlocks (prompt : List ℕ) (blockSize : ℕ) :
    ∀ (n i : ℕ) (parentHash : ℤ) (bs : List ℕ) {k : KVCacheManager}, Holds k held →
      Holds (registerBlocks hash prompt blockSize n i parentHash bs k) held
  | 0, _, _, _, _, h => h
  | _ + 1, _, _, [], _, h => h
  | n + 1, i, parentHash, b :: bs, k, h => by
    rw [registerBlocks]
    split_ifs with hb
    · have hg := GpuOnly.cacheGpuBlock h.sound hb (hash parentHash (tokenSlice prompt blockSize i))
      have hlt : b < k.gpuPool.numBlocks := by
        by_contra h0
        have h1 := h.sound.gpu.out b (by omega)
        have h2 := h.sound.held b hb
        omega
      obtain ⟨-, -, hcnt⟩ := cacheFullBlock_spec h.sound.gpu hlt
        (hash parentHash (tokenSlice prompt blockSize i))
      exact holds_registerBlocks prompt blockSize n (i + 1) _ bs
        ⟨hg.sound, fun c => (hcnt c).trans (h.count c), h.tracked⟩
    · exact h

/-- **Registration** only changes hashes; it raises for a block size of zero. -/
theorem wp_register (h : Holds k held) (i : String) (prompt : List ℕ) :
    wp (registerCompletedBlocksInCache hash i prompt) (fun _ => Untouched k)
      (fun _ k' => k.blockSize = 0 ∧ k' = k) k := by
  simp only [registerCompletedBlocksInCache, wp_bind, wp_current, wp_ite, wp_raise, wp_update]
  refine ⟨fun hbs => ⟨hbs, trivial⟩, fun _ => ?_⟩
  have hg := gpuOnly_registerBlocks hash prompt k.blockSize (prompt.length / k.blockSize) 0 0
    (k.getBlockTable i) h.sound
  exact ⟨hg.tables, hg.records, fun held' h' => holds_registerBlocks hash _ _ _ _ _ _ h'⟩

/-! ### Freeing and swapping -/

theorem freeSequence_outcome (h : Holds k held) (i : String) :
    (KVCacheManager.freeSequence i).run k = (kvStep hash k (.freeSequence i), .ok ()) ∧
      Freed i k (kvStep hash k (.freeSequence i)) := by
  have hboth := wp_and (wp_freeSequence (R := fun _ _ => False) h.sound i)
    (h.wp_freeSequence (R := fun _ _ => False) i)
  obtain ⟨k', ⟨⟩, hrun, ⟨-, hrec, htab⟩, -, -, -, hh⟩ :=
    exists_of_wp (wp_mono hboth (fun _ _ h0 => h0) fun _ _ h0 => h0.1.elim)
  have hkv : kvStep hash k (.freeSequence i) = k' := by
    change ((KVCacheManager.freeSequence i).run k).1 = k'
    rw [hrun]
  rw [hkv]
  exact ⟨hrun, htab, hrec, fun held' h' => by rw [h.unique h']; exact hh⟩

/-- **A swap-out**: nothing, or the table goes and there is a copy. -/
theorem swapOut_outcome (h : Holds k held) (i : String) :
    ∃ k₁ pairs, (prepareSwapOut i).run k = (k₁, .ok pairs) ∧
      ((pairs = [] ∧ kvStep hash k (.swapOut i) = k₁ ∧ Untouched k k₁) ∨
        (pairs ≠ [] ∧ (commitSwapOut i pairs).run k₁ = (kvStep hash k (.swapOut i), .ok ()) ∧
          SwappedOut i (pairs.map (·.1)) k (kvStep hash k (.swapOut i)))) := by
  obtain ⟨k₁, pairs, hrun, hs₁, hcase⟩ := swapOut_run h.sound i
  have hgpu : gpuSide k₁ = gpuSide k := by
    have hl := leaves_prepareSwapOut i k
    rw [Prog.state, hrun] at hl
    exact hl
  have hkv : kvStep hash k (.swapOut i) = (swapOut i).state k := rfl
  have htab₁ : k₁.seqToGpuBlocks = k.seqToGpuBlocks := by
    rcases wp_ok (wp_prepareSwapOut (R := fun _ _ => False) h.sound i) hrun with
      ⟨-, -, hp⟩ | ⟨-, -, hp⟩ <;> exact hp.tables
  refine ⟨k₁, pairs, hrun, ?_⟩
  rcases hcase with ⟨hp, hst, hrec, -⟩ | ⟨hp, hfst, -, -, k₂, hrun₂, hst, -, hrec⟩
  · exact Or.inl ⟨hp, hkv.trans hst, htab₁, hrec, fun _ h' => h'.of_gpuSide hs₁ hgpu⟩
  · rw [hkv, hst]
    have htab₂ := (wp_ok (wp_commitSwapOut (R := fun _ _ => False) hs₁ i hp) hrun₂).2.2
    refine Or.inr ⟨hp, hrun₂, hfst.symm, fun h0 => hp (List.map_eq_nil_iff.mp h0), ?_,
      ⟨pairs, rfl, hrec⟩, fun held' h' => ?_⟩
    · rw [htab₂, htab₁]
    · exact wp_ok (Q := fun _ k' => Holds k' (held' - (pairs.map (·.1) : Multiset ℕ)))
        ((h'.of_gpuSide hs₁ hgpu).wp_commitSwapOut (R := fun _ _ => False) i pairs) hrun₂

/-- **A swap-in**: nothing, or the copy goes and there is a table again. -/
theorem swapIn_outcome (h : Holds k held) (i : String) (ids : List ℕ) :
    ∃ k₁ pairs, (prepareSwapIn i ids).run k = (k₁, .ok pairs) ∧
      ((pairs = [] ∧ kvStep hash k (.swapIn i ids) = k₁ ∧ Untouched k k₁) ∨
        (pairs ≠ [] ∧ (commitSwapIn i ids pairs).run k₁ = (kvStep hash k (.swapIn i ids), .ok ()) ∧
          SwappedIn i ids k (kvStep hash k (.swapIn i ids)))) := by
  obtain ⟨k₁, pairs, hrun, hg, hcase⟩ := swapIn_run h.sound i ids
  have hkv : kvStep hash k (.swapIn i ids) = (swapIn i ids).state k := rfl
  have hh : ∀ held', Holds k held' →
      Holds k₁ ((pairs.map (·.2) : Multiset ℕ) + held') := fun held' h' =>
    wp_ok (Q := fun res k' => Holds k' ((res.map (·.2) : Multiset ℕ) + held'))
      (h'.wp_prepareSwapIn (R := fun _ _ => False) i ids) hrun
  refine ⟨k₁, pairs, hrun, ?_⟩
  rcases hcase with ⟨hp, hst, -⟩ | ⟨hp, hfst, k₂, hrun₂, hst, hs₂, hrec, htab⟩
  · refine Or.inl ⟨hp, hkv.trans hst, hg.tables, hg.records, fun held' h' => ?_⟩
    have h₁ := hh held' h'
    rw [hp, List.map_nil, Multiset.coe_nil, zero_add] at h₁
    exact h₁
  · rw [hkv, hst]
    have hlen : pairs.length = ids.length := by
      have := congrArg List.length hfst
      simpa using this
    have hgpu : gpuSide k₂ = gpuSide k₁ := by
      have hl := leaves_commitSwapIn i ids pairs k₁
      rw [Prog.state, hrun₂] at hl
      exact hl
    refine Or.inr ⟨hp, hrun₂, fun h0 => hp ?_, fun g hg' => ?_, hrec, pairs.map (·.2), ?_, htab,
      fun held' h' => (hh held' h').of_gpuSide hs₂ hgpu⟩
    · rw [h0, List.length_nil] at hlen
      exact List.length_eq_zero_iff.mp hlen
    · have hmem : k.swapMapGpuToCpu g ∈ pairs.map fun pair => some pair.1 := by
        rw [hfst]; exact List.mem_map_of_mem hg'
      obtain ⟨pair, -, hpair⟩ := List.mem_map.mp hmem
      exact ⟨pair.1, hpair.symm⟩
    · rw [List.length_map, hlen]

/-! ### Parts that stay -/

section Settled

variable {γ : Type} {f : KVCacheManager → γ}

/-- A part of the manager that may change only where a GPU block is allocated or registered. -/
structure Settled (f : KVCacheManager → γ) : Prop where
  books : ∀ k k' : KVCacheManager, k'.gpuPool = k.gpuPool → k'.blockSize = k.blockSize → f k' = f k
  free : ∀ b, Leaves f (onGpu (BlockPool.freeBlock b))
  cached : ∀ h, Leaves f (onGpu (BlockPool.getCachedBlock h))

theorem Settled.update (h : Settled f) {g : KVCacheManager → KVCacheManager}
    (hpool : ∀ k, (g k).gpuPool = k.gpuPool) (hsize : ∀ k, (g k).blockSize = k.blockSize) :
    Leaves f (Lib.Imperative.update g : Prog PyError KVCacheManager Unit) :=
  leaves_update fun k => h.books k (g k) (hpool k) (hsize k)

theorem Settled.onCpu (h : Settled f) {α : Type} (m : Prog PyError BlockPool α) :
    Leaves f (KVCacheManager.onCpu m) := leaves_zoom fun k _ _ => h.books k _ rfl rfl

theorem Settled.getCachedGpuBlock (h : Settled f) (blockHash : ℤ) :
    Leaves f (KVCacheManager.getCachedGpuBlock blockHash) := by
  refine leaves_bind (h.cached _) fun block => ?_
  cases block with
  | none => exact leaves_pure _
  | some b => exact leaves_bind (h.update (fun _ => rfl) fun _ => rfl) fun _ => leaves_pure _

theorem Settled.releaseGpuBlock (h : Settled f) (b : ℕ) :
    Leaves f (KVCacheManager.releaseGpuBlock b) :=
  leaves_bind (h.free b) fun _ => leaves_bind leaves_current fun _ =>
    leaves_ite (h.update (fun _ => rfl) fun _ => rfl) (leaves_pure _)

theorem Settled.releaseTracked (h : Settled f) (b : ℕ) :
    Leaves f (KVCacheManager.releaseTracked b) :=
  leaves_bind leaves_current fun _ => leaves_ite (h.releaseGpuBlock b) (leaves_pure _)

theorem Settled.freeTrackedCpu (h : Settled f) (c : ℕ) :
    Leaves f (KVCacheManager.freeTrackedCpu c) :=
  leaves_bind leaves_current fun _ => leaves_ite
    (leaves_bind (h.update (fun _ => rfl) fun _ => rfl) fun _ => h.onCpu _) (leaves_pure _)

theorem Settled.freeSwapped (h : Settled f) (g : ℕ) : Leaves f (KVCacheManager.freeSwapped g) := by
  refine leaves_bind leaves_current fun k => ?_
  cases k.swapMapGpuToCpu g with
  | none => exact leaves_pure _
  | some c =>
    exact leaves_bind (h.update (fun _ => rfl) fun _ => rfl) fun _ => h.freeTrackedCpu c

theorem Settled.freeSequence (h : Settled f) (i : String) :
    Leaves f (KVCacheManager.freeSequence i) :=
  leaves_bind leaves_current fun _ => leaves_bind (h.update (fun _ => rfl) fun _ => rfl) fun _ =>
    leaves_bind (leaves_forEach h.releaseTracked _) fun _ => leaves_bind leaves_current fun _ =>
      leaves_bind (h.update (fun _ => rfl) fun _ => rfl) fun _ => leaves_forEach h.freeSwapped _

theorem Settled.matchPrefix (h : Settled f) (prompt : List ℕ) (bs : ℕ) :
    ∀ (n i : ℕ) (parentHash : ℤ) (cached : List ℕ),
      Leaves f (Schedule.matchPrefix hash prompt bs n i parentHash cached)
  | 0, _, _, _ => leaves_pure _
  | n + 1, i, parentHash, cached => by
    refine leaves_bind (h.getCachedGpuBlock _) fun block => ?_
    cases block with
    | none => exact leaves_pure _
    | some b => exact Settled.matchPrefix h prompt bs n (i + 1) _ _

theorem Settled.undoSwapOut (h : Settled f) (pairs : List (ℕ × ℕ)) :
    Leaves f (KVCacheManager.undoSwapOut pairs) := by
  refine leaves_forEach (fun pair => ?_) pairs
  exact leaves_bind (h.update (fun _ => rfl) fun _ => rfl) fun _ => h.onCpu _

theorem Settled.prepareSwapOutLoop (h : Settled f) : ∀ (gs : List ℕ) (pairs : List (ℕ × ℕ)),
    Leaves f (KVCacheManager.prepareSwapOutLoop gs pairs)
  | [], _ => leaves_pure _
  | g :: gs, pairs => by
    rw [KVCacheManager.prepareSwapOutLoop]
    refine leaves_bind (h.onCpu _) fun block => ?_
    cases block with
    | none => exact leaves_bind (h.undoSwapOut pairs) fun _ => leaves_pure _
    | some c =>
      exact leaves_bind (h.update (fun _ => rfl) fun _ => rfl) fun _ =>
        Settled.prepareSwapOutLoop h gs _

theorem Settled.commitSwapOut (h : Settled f) (i : String) (pairs : List (ℕ × ℕ)) :
    Leaves f (KVCacheManager.commitSwapOut i pairs) := by
  refine leaves_bind (leaves_forEach (fun pair => ?_) pairs) fun _ => leaves_ite ?_ ?_
  · exact leaves_bind (h.update (fun _ => rfl) fun _ => rfl) fun _ => h.releaseTracked _
  · exact leaves_bind (h.update (fun _ => rfl) fun _ => rfl) fun _ => h.update (fun _ => rfl)
      fun _ => rfl
  · exact h.update (fun _ => rfl) fun _ => rfl

theorem Settled.swapOut (h : Settled f) (i : String) : Leaves f (Schedule.swapOut i) :=
  leaves_bind (leaves_bind leaves_current fun _ => h.prepareSwapOutLoop _ _)
    fun _ => leaves_ite (leaves_pure _) (h.commitSwapOut i _)

theorem Settled.undoSwapIn (h : Settled f) (pairs : List (ℕ × ℕ)) :
    Leaves f (KVCacheManager.undoSwapIn pairs) := by
  refine leaves_forEach (fun pair => ?_) pairs
  exact leaves_bind (h.update (fun _ => rfl) fun _ => rfl) fun _ => h.free _

theorem Settled.commitSwapIn (h : Settled f) (i : String) (ids : List ℕ) (pairs : List (ℕ × ℕ)) :
    Leaves f (KVCacheManager.commitSwapIn i ids pairs) := by
  refine leaves_bind (leaves_forEach (fun z => ?_) _) fun _ => h.update (fun _ => rfl) fun _ => rfl
  exact leaves_bind (h.freeTrackedCpu _) fun _ => h.update (fun _ => rfl) fun _ => rfl

end Settled

/-! ### The block size stays -/

section BlockSize

theorem sized_onGpu {α : Type} (m : Prog PyError BlockPool α) : Leaves blockSize (onGpu m) :=
  leaves_zoom fun _ _ _ => rfl

theorem settled_blockSize : Settled blockSize :=
  ⟨fun _ _ _ h => h, fun _ => sized_onGpu _, fun _ => sized_onGpu _⟩

theorem sized_allocateGpuBlock : Leaves blockSize allocateGpuBlock := by
  refine leaves_bind (sized_onGpu _) fun block => ?_
  cases block with
  | none => exact leaves_pure _
  | some b => exact leaves_bind (leaves_update fun _ => rfl) fun _ => leaves_pure _

theorem sized_allocateNew (cached : List ℕ) : ∀ (n : ℕ) (new : List ℕ),
    Leaves blockSize (allocateNew cached n new)
  | 0, _ => leaves_pure _
  | n + 1, new => by
    refine leaves_bind sized_allocateGpuBlock fun block => ?_
    cases block with
    | none =>
      exact leaves_bind (leaves_forEach settled_blockSize.releaseGpuBlock _) fun _ =>
        leaves_bind (leaves_forEach settled_blockSize.releaseGpuBlock _) fun _ => leaves_pure _
    | some b => exact sized_allocateNew cached n _

theorem sized_allocateBlocks (i : String) (prompt : List ℕ) :
    Leaves blockSize (allocateBlocks hash i prompt) := by
  refine leaves_bind leaves_current fun k => leaves_ite (leaves_raise _) ?_
  refine leaves_bind (settled_blockSize.matchPrefix hash _ _ _ _ _ _) fun cached => ?_
  refine leaves_bind (sized_allocateNew cached _ _) fun new => ?_
  cases new with
  | none => exact leaves_pure _
  | some new => exact leaves_bind (leaves_update fun _ => rfl) fun _ => leaves_pure _

theorem blockSize_registerBlocks (prompt : List ℕ) (bs : ℕ) :
    ∀ (n i : ℕ) (parentHash : ℤ) (ids : List ℕ) (k : KVCacheManager),
      (registerBlocks hash prompt bs n i parentHash ids k).blockSize = k.blockSize
  | 0, _, _, _, _ => rfl
  | _ + 1, _, _, [], _ => rfl
  | n + 1, i, parentHash, b :: ids, k => by
    rw [registerBlocks]
    split_ifs
    · exact blockSize_registerBlocks prompt bs n (i + 1) _ ids _
    · rfl

theorem sized_register (i : String) (prompt : List ℕ) :
    Leaves blockSize (registerCompletedBlocksInCache hash i prompt) :=
  leaves_bind leaves_current fun _ => leaves_ite (leaves_raise _)
    (leaves_update fun k => blockSize_registerBlocks hash _ _ _ _ _ _ k)

theorem sized_prepareSwapInLoop : ∀ (gs : List ℕ) (pairs : List (ℕ × ℕ)),
    Leaves blockSize (prepareSwapInLoop gs pairs)
  | [], _ => leaves_pure _
  | g :: gs, pairs => by
    rw [prepareSwapInLoop]
    refine leaves_bind leaves_current fun k => ?_
    cases k.swapMapGpuToCpu g with
    | none => exact leaves_bind (settled_blockSize.undoSwapIn pairs) fun _ => leaves_pure _
    | some c =>
      refine leaves_bind (sized_onGpu _) fun block => ?_
      cases block with
      | none =>
        exact leaves_bind (leaves_forEach (fun _ => settled_blockSize.releaseGpuBlock _) _)
          fun _ => leaves_pure _
      | some b =>
        exact leaves_bind (leaves_update fun _ => rfl) fun _ => sized_prepareSwapInLoop gs _

theorem blockSize_kvStep (k : KVCacheManager) : ∀ op, (kvStep hash k op).blockSize = k.blockSize
  | .allocate i prompt => sized_allocateBlocks hash i prompt k
  | .register i prompt => sized_register hash i prompt k
  | .freeSequence i => settled_blockSize.freeSequence i k
  | .swapOut i => settled_blockSize.swapOut i k
  | .swapIn i ids => leaves_bind (sized_prepareSwapInLoop ids [])
      (fun _ => leaves_ite (leaves_pure _) (settled_blockSize.commitSwapIn i ids _)) k

end BlockSize

end MoeInfinity.Engine.GpuOps
