import Mathlib.Logic.Encodable.Basic
import Mathlib.Logic.Equiv.List
import MoeInfinity.Engine.QueueMachine
import MoeInfinity.Memory.BlockHashes

/-! # Blocks reused for a common prefix

A block that a request takes from the prefix cache was registered at the same position for an
earlier request with the same tokens up to there, and has not been handed out in between
(`reused_fromEarlier`). The hash of a block covers the hash of the block before it, so this rests on
the hash function: it is injective, and it never gives zero, the parent hash of a first block. With
a hash of zero a chain can start in the middle of a prompt (`reused_fromMiddle`). -/

namespace MoeInfinity.Engine.PrefixReuse

open MoeInfinity.Python MoeInfinity.Lib.Imperative MoeInfinity.Lib.Runs
open MoeInfinity.Memory.Blocks MoeInfinity.Memory.KvManager
  MoeInfinity.Memory.KvManager.KVCacheManager
open MoeInfinity.Memory.BlockHashes
open MoeInfinity.Engine.Schedule MoeInfinity.Engine.Schedule.Scheduler
open MoeInfinity.Engine.KvOps MoeInfinity.Engine.GpuOps MoeInfinity.Engine.QueueMachine
open MoeInfinity.Engine.SwapBlocks (Op step)

variable (hash : ℤ → List ℕ → ℤ)

/-! ### What is required -/

/-- The blocks that `_allocate_with_prefix_cache` finds in the cache, in table order. -/
def reused (k : KVCacheManager) (prompt : List ℕ) : List ℕ :=
  if k.blockSize = 0 then []
  else match ((matchPrefix hash prompt k.blockSize (prompt.length / k.blockSize) 0 0 []).run
    k).2 with
    | .ok cachedBlocks => cachedBlocks
    | .error _ => []

/-- The blocks that `allocate_block` gives to the loop for `n` new blocks. -/
def handedNew : ℕ → KVCacheManager → List ℕ
  | 0, _ => []
  | n + 1, k =>
    match allocateGpuBlock.run k with
    | (k', .ok (some b)) => b :: handedNew n k'
    | _ => []

/-- The blocks that `allocate_block` gives to the loop of `prepare_swap_in`. -/
def handedSwapIn : List ℕ → KVCacheManager → List ℕ
  | [], _ => []
  | g :: gs, k =>
    match k.swapMapGpuToCpu g with
    | none => []
    | some _ =>
      match (onGpu BlockPool.allocateBlock).run k with
      | (k', .ok (some b)) => b :: handedSwapIn gs (track b k')
      | _ => []

/-- The GPU blocks that `allocate_block` hands out during a step, whether the step keeps them or
not. -/
def handedOut (k : KVCacheManager) : KvOp → List ℕ
  | .allocate _ prompt =>
    if k.blockSize = 0 then []
    else
      let found := (matchPrefix hash prompt k.blockSize (prompt.length / k.blockSize) 0 0 []).run k
      let remainingTokens := prompt.length - (reused hash k prompt).length * k.blockSize
      handedNew (if 0 < remainingTokens then ceilDiv remainingTokens k.blockSize else 0) found.1
  | .swapIn _ ids => handedSwapIn ids k
  | _ => []

/-- The loop of `_register_completed_blocks_in_cache` gets to block `i`, which is `b`. -/
def RegistersAt (k : KVCacheManager) (requestId : String) (prompt : List ℕ) (i b : ℕ) : Prop :=
  i < prompt.length / k.blockSize ∧ (k.getBlockTable requestId)[i]? = some b ∧
    ∀ b' ∈ (k.getBlockTable requestId).take (i + 1), b' ∈ k.gpuAllocatedBlocks

/-- After the steps `pre` from `k₀`, block `b` was last registered at position `i` for a request
whose prompt agrees with the given one up to block `i`, and has not been handed out since. -/
def FromEarlier (k₀ : KVCacheManager) (pre : List KvOp) (prompt : List ℕ) (i b : ℕ) : Prop :=
  ∃ pre₁ requestId prompt' pre₂, pre = pre₁ ++ .register requestId prompt' :: pre₂ ∧
    RegistersAt (exec (kvStep hash) k₀ pre₁) requestId prompt' i b ∧
    (i + 1) * k₀.blockSize ≤ prompt.length ∧
    prompt'.take ((i + 1) * k₀.blockSize) = prompt.take ((i + 1) * k₀.blockSize) ∧
    Along (kvStep hash) (fun k op => b ∉ handedOut hash k op)
      (exec (kvStep hash) k₀ (pre₁ ++ [.register requestId prompt'])) pre₂

/-! ### Chains of hashes -/

/-- The hash of the first `i` blocks of a prompt. -/
def chain (prompt : List ℕ) (blockSize : ℕ) : ℕ → ℤ
  | 0 => 0
  | i + 1 => hash (chain prompt blockSize i) (tokenSlice prompt blockSize i)

variable {hash}

/-- **Equal chains** are of the same length and of the same blocks. -/
theorem chain_inj (hinj : Function.Injective fun x : ℤ × List ℕ => hash x.1 x.2)
    (hzero : ∀ p t, hash p t ≠ 0) {prompt prompt' : List ℕ} {blockSize : ℕ} : ∀ {i j : ℕ},
    chain hash prompt blockSize i = chain hash prompt' blockSize j →
      i = j ∧ ∀ m < i, tokenSlice prompt blockSize m = tokenSlice prompt' blockSize m
  | 0, 0, _ => ⟨rfl, fun _ h => absurd h (Nat.not_lt_zero _)⟩
  | 0, _ + 1, h => absurd h.symm (hzero _ _)
  | _ + 1, 0, h => absurd h (hzero _ _)
  | i + 1, j + 1, h => by
    obtain ⟨hparent, hslice⟩ := Prod.mk.inj (@hinj (_, _) (_, _) h)
    obtain ⟨rfl, hall⟩ := chain_inj hinj hzero hparent
    refine ⟨rfl, fun m hm => ?_⟩
    rcases Nat.lt_succ_iff_lt_or_eq.mp hm with hm | rfl
    · exact hall m hm
    · exact hslice

theorem take_of_slices {prompt prompt' : List ℕ} {blockSize : ℕ} : ∀ {i : ℕ},
    (∀ m < i, tokenSlice prompt blockSize m = tokenSlice prompt' blockSize m) →
      prompt.take (i * blockSize) = prompt'.take (i * blockSize)
  | 0, _ => by simp
  | i + 1, h => by
    have hslice := h i (Nat.lt_succ_self i)
    unfold tokenSlice at hslice
    rw [Nat.succ_mul, List.take_add, List.take_add, hslice,
      take_of_slices fun m hm => h m (Nat.lt_succ_of_lt hm)]

/-! ### Looking up -/

theorem settled_tags : Settled tags where
  books := fun k k' h _ => by
    unfold tags
    rw [h]
  free := fun b => leaves_zoom fun k t ht => by
    subst ht
    exact leaves_freeBlock b k.gpuPool
  cached := fun h => leaves_zoom fun k t ht => by
    subst ht
    exact leaves_getCachedBlock h k.gpuPool

theorem wp_getCachedGpuBlock_hit (k : KVCacheManager) (h : ℤ)
    {R : PyError → KVCacheManager → Prop} :
    wp (getCachedGpuBlock h) (fun r k' => k'.gpuPool.hashMap = k.gpuPool.hashMap ∧
      r = k.gpuPool.hashMap h) R k := by
  simp only [getCachedGpuBlock, onGpu, wp_bind, wp_zoom, BlockPool.getCachedBlock, wp_current]
  split
  · next hm => exact ⟨rfl, hm.symm⟩
  · next b hm =>
    simp only [wp_ite, wp_bind, wp_update, wp_pure]
    exact ⟨fun _ => ⟨rfl, hm.symm⟩, fun _ => ⟨rfl, hm.symm⟩⟩

/-- **Hits**: the blocks found are in the map under the chain of the prompt. -/
theorem wp_matchPrefix_hits (hash : ℤ → List ℕ → ℤ) (prompt : List ℕ) (blockSize : ℕ)
    (m : ℤ → Option ℕ) {R : PyError → KVCacheManager → Prop} :
    ∀ (n i : ℕ) (cached : List ℕ) {k : KVCacheManager}, k.gpuPool.hashMap = m → cached.length = i →
      (∀ j b, cached[j]? = some b → m (chain hash prompt blockSize (j + 1)) = some b) →
      wp (matchPrefix hash prompt blockSize n i (chain hash prompt blockSize i) cached)
        (fun cached' _ =>
        cached'.length ≤ i + n ∧
          ∀ j b, cached'[j]? = some b → m (chain hash prompt blockSize (j + 1)) = some b) R k
  | 0, _, _, _, _, hlen, hcached => ⟨hlen.le, hcached⟩
  | n + 1, i, cached, k, hm, hlen, hcached => by
    simp only [matchPrefix, wp_bind]
    refine wp_mono (wp_getCachedGpuBlock_hit k _) ?_ fun _ _ h0 => h0
    rintro block k₁ ⟨hmap, hblock⟩
    rw [hm] at hmap hblock
    cases block with
    | none => exact ⟨by omega, hcached⟩
    | some b =>
      refine wp_mono
        (wp_matchPrefix_hits hash prompt blockSize m n (i + 1) (cached ++ [b]) hmap ?_ ?_) ?_
        fun _ _ h0 => h0
      · rw [List.length_append, hlen, List.length_singleton]
      · intro j c hj
        rw [List.getElem?_append] at hj
        split_ifs at hj with hlt
        · exact hcached j c hj
        · have hji : j = i := by
            have := (List.getElem?_eq_some_iff.mp hj).1
            rw [List.length_singleton] at this
            omega
          subst hji
          rw [hlen, Nat.sub_self] at hj
          rw [← hj]
          exact hblock.symm
      · rintro cached' k₂ ⟨hle, hall⟩
        exact ⟨by omega, hall⟩

theorem reused_hit {k : KVCacheManager} {prompt : List ℕ} {i b : ℕ}
    (h : (reused hash k prompt)[i]? = some b) : i < prompt.length / k.blockSize ∧
      k.gpuPool.hashMap (chain hash prompt k.blockSize (i + 1)) = some b := by
  unfold reused at h
  split_ifs at h
  · cases h
  · have hwp : wp (matchPrefix hash prompt k.blockSize (prompt.length / k.blockSize) 0 0 []) _
        (fun _ _ => False) k := wp_matchPrefix_hits hash prompt k.blockSize k.gpuPool.hashMap
      (prompt.length / k.blockSize) 0 [] rfl rfl fun j c hj => by cases hj
    obtain ⟨k', cached, hrun, hle, hall⟩ := exists_of_wp hwp
    have h : cached[i]? = some b := by
      rw [hrun] at h
      exact h
    have hlt := (List.getElem?_eq_some_iff.mp h).1
    exact ⟨by omega, hall i b h⟩

/-! ### Handing out -/

/-- The blocks in the map were there before, and none of them is among those handed out. -/
def Handed (bs : List ℕ) (k k' : KVCacheManager) : Prop :=
  Unambiguous k'.gpuPool ∧ ∀ h c, k'.gpuPool.hashMap h = some c →
  k.gpuPool.hashMap h = some c ∧ c ∉ bs

theorem Handed.of_tags {k k' : KVCacheManager} (hk : Unambiguous k.gpuPool) (h : tags k' = tags k) :
    Handed [] k k' :=
  ⟨unambiguous_congr h hk, fun x c hc => ⟨by
    rw [← show k'.gpuPool.hashMap = k.gpuPool.hashMap from congrArg Prod.fst h]; exact hc, by simp⟩⟩

theorem Handed.trans {bs bs' : List ℕ} {k k' k'' : KVCacheManager} (h : Handed bs k k')
    (h' : Handed bs' k' k'') : Handed (bs ++ bs') k k'' := by
  refine ⟨h'.1, fun x c hc => ?_⟩
  obtain ⟨hc', hbs'⟩ := h'.2 x c hc
  obtain ⟨hc'', hbs⟩ := h.2 x c hc'
  exact ⟨hc'', fun h0 => (List.mem_append.mp h0).elim hbs hbs'⟩

theorem Handed.same {bs : List ℕ} {k k' k'' : KVCacheManager} (h : Handed bs k k')
    (h' : tags k'' = tags k') : Handed bs k k'' := by
  have := h.trans (Handed.of_tags h.1 h')
  rwa [List.append_nil] at this

theorem wp_allocate_handed {k : KVCacheManager} (hk : Unambiguous k.gpuPool)
    {R : PyError → KVCacheManager → Prop} :
    wp (onGpu BlockPool.allocateBlock) (fun r k' => Handed r.toList k k') R k := by
  rw [onGpu, wp_zoom]
  refine wp_mono (wp_allocateBlock_hashes hk) ?_ fun _ _ h0 => h0
  rintro r p' ⟨hun, hmap⟩
  refine ⟨hun, fun h c hc => ?_⟩
  obtain ⟨hm, hne⟩ := hmap h c hc
  refine ⟨hm, fun h0 => hne ?_⟩
  exact Option.mem_toList.mp h0

theorem wp_allocateGpuBlock_handed {k : KVCacheManager} (hk : Unambiguous k.gpuPool)
    {R : PyError → KVCacheManager → Prop} :
    wp allocateGpuBlock (fun r k' => Handed r.toList k k') R k := by
  simp only [allocateGpuBlock, wp_bind]
  refine wp_mono (wp_allocate_handed hk) ?_ fun _ _ h0 => h0
  intro r k' h
  cases r with
  | none => exact h
  | some b => exact h

theorem wp_allocateNew_handed (cached : List ℕ) :
    ∀ (n : ℕ) (newBlocks : List ℕ) {k : KVCacheManager}, Unambiguous k.gpuPool →
      wp (allocateNew cached n newBlocks) (fun _ => Handed (handedNew n k) k)
        (fun _ => Handed (handedNew n k) k) k
  | 0, _, _, hk => Handed.of_tags hk rfl
  | n + 1, newBlocks, k, hk => by
    simp only [allocateNew, wp_bind]
    refine wp_mono (wp_and (wp_allocateGpuBlock_handed (R := fun _ _ => False) hk)
      (wp_run allocateGpuBlock k)) ?_ fun _ _ h0 => h0.1.elim
    rintro r k₁ ⟨h₁, hrun⟩
    cases r with
    | none =>
      have heq : handedNew (n + 1) k = [] := by rw [handedNew, hrun]
      rw [heq]
      simp only [wp_bind, wp_pure]
      refine wp_mono ((leaves_forEach settled_tags.releaseGpuBlock cached).wp k₁) ?_
        fun _ _ h0 => h₁.same h0
      intro _ k₂ h₂
      exact wp_mono ((leaves_forEach settled_tags.releaseGpuBlock newBlocks).wp k₂)
        (fun _ _ h0 => h₁.same (h0.trans h₂)) fun _ _ h0 => h₁.same (h0.trans h₂)
    | some b =>
      have heq : handedNew (n + 1) k = b :: handedNew n k₁ := by rw [handedNew, hrun]
      rw [heq]
      exact wp_mono (wp_allocateNew_handed cached n _ h₁.1) (fun _ _ h₂ => h₁.trans h₂)
        fun _ _ h₂ => h₁.trans h₂

theorem wp_prepareSwapInLoop_handed : ∀ (gs : List ℕ) (pairs : List (ℕ × ℕ)) {k : KVCacheManager},
    Unambiguous k.gpuPool → wp (prepareSwapInLoop gs pairs) (fun _ => Handed (handedSwapIn gs k) k)
      (fun _ => Handed (handedSwapIn gs k) k) k
  | [], _, _, hk => Handed.of_tags hk rfl
  | g :: gs, pairs, k, hk => by
    simp only [prepareSwapInLoop, wp_bind, wp_current]
    split
    · next hg =>
      have heq : handedSwapIn (g :: gs) k = [] := by rw [handedSwapIn, hg]
      rw [heq]
      simp only [wp_bind, wp_pure]
      exact wp_mono ((settled_tags.undoSwapIn pairs).wp k) (fun _ _ h0 => Handed.of_tags hk h0)
        fun _ _ h0 => Handed.of_tags hk h0
    · next c hg =>
      simp only [wp_bind]
      refine wp_mono (wp_and (wp_allocate_handed (R := fun _ _ => False) hk)
        (wp_run (onGpu BlockPool.allocateBlock) k)) ?_ fun _ _ h0 => h0.1.elim
      rintro r k₁ ⟨h₁, hrun⟩
      cases r with
      | none =>
        have heq : handedSwapIn (g :: gs) k = [] := by rw [handedSwapIn, hg]; simp only [hrun]
        rw [heq]
        simp only [wp_bind, wp_pure]
        have h₁ : Handed [] k k₁ := h₁
        refine wp_mono
          ((leaves_forEach (fun pair : ℕ × ℕ => settled_tags.releaseGpuBlock pair.2) pairs).wp k₁)
          (fun _ _ h0 => h₁.same h0) fun _ _ h0 => h₁.same h0
      | some b =>
        have heq : handedSwapIn (g :: gs) k = b :: handedSwapIn gs (track b k₁) := by
          rw [handedSwapIn, hg]; simp only [hrun]
        rw [heq]
        simp only [wp_bind, wp_update]
        have h₁ : Handed [b] k (track b k₁) := h₁
        exact wp_mono (wp_prepareSwapInLoop_handed gs _ h₁.1) (fun _ _ h₂ => h₁.trans h₂)
          fun _ _ h₂ => h₁.trans h₂

/-! ### Registering -/

/-- **Registration** adds blocks of the table under the chain of the prompt. -/
theorem registerBlocks_hashes (hash : ℤ → List ℕ → ℤ) {k : KVCacheManager} (rid : String)
    (prompt : List ℕ) :
    ∀ (n i : ℕ) (ids : List ℕ) {k' : KVCacheManager}, k'.gpuAllocatedBlocks = k.gpuAllocatedBlocks →
      (k.getBlockTable rid).drop i = ids → i + n = prompt.length / k.blockSize →
      (∀ b ∈ (k.getBlockTable rid).take i, b ∈ k.gpuAllocatedBlocks) → Unambiguous k'.gpuPool →
      Unambiguous
        (registerBlocks hash prompt k.blockSize n i (chain hash prompt k.blockSize i)
          ids k').gpuPool ∧
        ∀ h b, (registerBlocks hash prompt k.blockSize n i (chain hash prompt k.blockSize i) ids
            k').gpuPool.hashMap h = some b →
          k'.gpuPool.hashMap h = some b ∨
            ∃ j, RegistersAt k rid prompt j b ∧ h = chain hash prompt k.blockSize (j + 1)
  | 0, _, _, _, _, _, _, _, hk' => ⟨hk', fun _ _ h => Or.inl h⟩
  | _ + 1, _, [], _, _, _, _, _, hk' => ⟨hk', fun _ _ h => Or.inl h⟩
  | n + 1, i, b :: ids, k', halloc, hids, hn, hbefore, hk' => by
    have hget : (k.getBlockTable rid)[i]? = some b := by
      have := congrArg List.head? hids
      rwa [List.head?_drop] at this
    have hrest : (k.getBlockTable rid).drop (i + 1) = ids := by
      rw [← List.tail_drop, hids]
      rfl
    rw [registerBlocks]
    split_ifs with hb
    · rw [halloc] at hb
      have htake : ∀ b' ∈ (k.getBlockTable rid).take (i + 1), b' ∈ k.gpuAllocatedBlocks := by
        intro b' hb'
        rw [List.take_add_one, hget] at hb'
        rcases List.mem_append.mp hb' with hb' | hb'
        · exact hbefore b' hb'
        · rw [List.mem_singleton.mp hb']; exact hb
      obtain ⟨hun, hmap⟩ := cacheFullBlock_hashes hk' b
        (hash (chain hash prompt k.blockSize i) (tokenSlice prompt k.blockSize i))
      have hun : Unambiguous (k'.cacheGpuBlock b (chain hash prompt k.blockSize (i + 1))).gpuPool :=
        hun
      obtain ⟨hun', hmap'⟩ :=
        registerBlocks_hashes hash rid prompt n (i + 1) ids (by exact halloc) hrest
          (by omega) htake hun
      refine ⟨hun', fun h c hc => ?_⟩
      rcases hmap' h c hc with hc | hc
      · rcases hmap h c hc with ⟨rfl, rfl⟩ | ⟨-, hc⟩
        · exact Or.inr ⟨i, ⟨by omega, hget, htake⟩, rfl⟩
        · exact Or.inl hc
      · exact Or.inr hc
    · exact ⟨hk', fun _ _ h => Or.inl h⟩

/-! ### One step -/

/-- The map after a step holds what was registered in the step, and of what it held before nothing
that was handed out in the step. -/
def Traced (hash : ℤ → List ℕ → ℤ) (k : KVCacheManager) (op : KvOp) (k' : KVCacheManager) : Prop :=
  Unambiguous k'.gpuPool ∧ ∀ h b, k'.gpuPool.hashMap h = some b →
    (k.gpuPool.hashMap h = some b ∧ b ∉ handedOut hash k op) ∨
      ∃ rid prompt i, op = .register rid prompt ∧ RegistersAt k rid prompt i b ∧
        h = chain hash prompt k.blockSize (i + 1)

theorem traced_of_handed {k k' : KVCacheManager} {op : KvOp}
    (h : Handed (handedOut hash k op) k k') :
    Traced hash k op k' := ⟨h.1, fun x b hb => Or.inl (h.2 x b hb)⟩

theorem wp_allocateBlocks_handed {k : KVCacheManager} (hk : Unambiguous k.gpuPool) (rid : String)
    (prompt : List ℕ) :
    wp (allocateBlocks hash rid prompt)
      (fun _ => Handed (handedOut hash k (.allocate rid prompt)) k)
      (fun _ => Handed (handedOut hash k (.allocate rid prompt)) k) k := by
  simp only [allocateBlocks, wp_bind, wp_current, wp_ite, wp_raise]
  refine ⟨fun hbs => ?_, fun hbs => ?_⟩
  · rw [show handedOut hash k (.allocate rid prompt) = [] from if_pos hbs]
    exact Handed.of_tags hk rfl
  · obtain ⟨k₁, cached, hrun, -⟩ := exists_of_wp (wp_matchPrefix_hits (R := fun _ _ => False) hash
      prompt k.blockSize k.gpuPool.hashMap (prompt.length / k.blockSize) 0 [] rfl rfl
      fun j c hj => by cases hj)
    have htags : tags k₁ = tags k := by
      have h := settled_tags.matchPrefix hash prompt k.blockSize (prompt.length / k.blockSize) 0
        (chain hash prompt k.blockSize 0) [] k
      unfold Prog.state at h
      rwa [hrun] at h
    have hreused : reused hash k prompt = cached := by
      unfold reused
      rw [if_neg hbs,
        show (matchPrefix hash prompt k.blockSize (prompt.length / k.blockSize) 0 0 []).run k =
          (k₁, .ok cached) from hrun]
    have hout : handedOut hash k (.allocate rid prompt) =
        handedNew (if 0 < prompt.length - cached.length * k.blockSize then
          ceilDiv (prompt.length - cached.length * k.blockSize) k.blockSize else 0) k₁ := by
      change (if k.blockSize = 0 then _ else handedNew _ _) = _
      rw [if_neg hbs, hreused,
        show (matchPrefix hash prompt k.blockSize (prompt.length / k.blockSize) 0 0 []).run k =
          (k₁, .ok cached) from hrun]
    refine wp_of_eq
      (show (matchPrefix hash prompt k.blockSize (prompt.length / k.blockSize) 0 0 []).run k =
        (k₁, .ok cached) from hrun) ?_
    rw [hout]
    have h₁ : Handed [] k k₁ := Handed.of_tags hk htags
    refine wp_mono (wp_allocateNew_handed cached _ [] h₁.1) ?_ fun _ _ h₂ => h₁.trans h₂
    intro r k₂ h₂
    have h₂ := h₁.trans h₂
    cases r with
    | none => exact h₂
    | some newBlocks => exact h₂.same rfl

/-- **One step** of the manager. -/
theorem traced_kvStep (hash : ℤ → List ℕ → ℤ) {k : KVCacheManager}
    (hk : Unambiguous k.gpuPool) : ∀ op, Traced hash k op (kvStep hash k op)
  | .allocate rid prompt => traced_of_handed (inv_of_wp (wp_allocateBlocks_handed hk rid prompt))
  | .register rid prompt => by
    change Traced hash k _ ((registerCompletedBlocksInCache hash rid prompt).state k)
    by_cases hbs : k.blockSize = 0
    · have hstate : (registerCompletedBlocksInCache hash rid prompt).state k = k := by
        unfold Prog.state registerCompletedBlocksInCache
        rw [run_bind_ok (show current.run k = (k, .ok k) from rfl), if_pos hbs]
        rfl
      rw [hstate]
      exact traced_of_handed (Handed.of_tags hk rfl)
    · have hstate : (registerCompletedBlocksInCache hash rid prompt).state k =
          registerBlocks hash prompt k.blockSize (prompt.length / k.blockSize) 0
            (chain hash prompt k.blockSize 0) (k.getBlockTable rid) k := by
        unfold Prog.state registerCompletedBlocksInCache
        rw [run_bind_ok (show current.run k = (k, .ok k) from rfl), if_neg hbs]
        rfl
      rw [hstate]
      obtain ⟨hun, hmap⟩ := registerBlocks_hashes hash rid prompt (prompt.length / k.blockSize) 0
        (k.getBlockTable rid) rfl rfl (Nat.zero_add _) (fun b hb => by cases hb) hk
      refine ⟨hun, fun h b hb => ?_⟩
      rcases hmap h b hb with hb | ⟨j, hj, hh⟩
      · exact Or.inl ⟨hb, by simp [handedOut]⟩
      · exact Or.inr ⟨rid, prompt, j, rfl, hj, hh⟩
  | .freeSequence rid => traced_of_handed (Handed.of_tags hk (settled_tags.freeSequence rid k))
  | .swapOut rid => traced_of_handed (Handed.of_tags hk (settled_tags.swapOut rid k))
  | .swapIn rid ids => by
    refine traced_of_handed (inv_of_wp (m := swapIn rid ids) ?_)
    simp only [swapIn, prepareSwapIn, wp_bind]
    refine wp_mono (wp_prepareSwapInLoop_handed ids [] hk) ?_ fun _ _ h0 => h0
    intro pairs k₁ h₁
    refine wp_ite.mpr ⟨fun _ => h₁, fun _ => ?_⟩
    exact wp_mono ((settled_tags.commitSwapIn rid ids pairs).wp k₁) (fun _ _ h0 => h₁.same h0)
      fun _ _ h0 => h₁.same h0

/-! ### Histories -/

/-- Every entry of the map comes from a registration after which its block was not handed out. -/
structure Provenance (hash : ℤ → List ℕ → ℤ) (k₀ : KVCacheManager) (pre : List KvOp) : Prop where
  unambiguous : Unambiguous (exec (kvStep hash) k₀ pre).gpuPool
  origin : ∀ h b, (exec (kvStep hash) k₀ pre).gpuPool.hashMap h = some b →
    ∃ pre₁ rid prompt pre₂ i, pre = pre₁ ++ .register rid prompt :: pre₂ ∧
      RegistersAt (exec (kvStep hash) k₀ pre₁) rid prompt i b ∧
      h = chain hash prompt k₀.blockSize (i + 1) ∧
      Along (kvStep hash) (fun k op => b ∉ handedOut hash k op)
        (exec (kvStep hash) k₀ (pre₁ ++ [.register rid prompt])) pre₂

theorem Provenance.snoc {k₀ : KVCacheManager} {pre : List KvOp} (h : Provenance hash k₀ pre)
    (op : KvOp) :
    Provenance hash k₀ (pre ++ [op]) := by
  obtain ⟨hun, hmap⟩ := traced_kvStep hash h.unambiguous op
  have hexec : exec (kvStep hash) k₀ (pre ++ [op]) =
      kvStep hash (exec (kvStep hash) k₀ pre) op := by
    rw [exec_append]
    rfl
  refine ⟨by rw [hexec]; exact hun, fun x b hb => ?_⟩
  rw [hexec] at hb
  rcases hmap x b hb with ⟨hb, hout⟩ | ⟨rid, prompt, i, rfl, hat, hx⟩
  · obtain ⟨pre₁, rid, prompt, pre₂, i, rfl, hat, hx, halong⟩ := h.origin x b hb
    refine ⟨pre₁, rid, prompt, pre₂ ++ [op], i, by simp, hat, hx, ?_⟩
    refine along_append.mpr ⟨halong, ?_, trivial⟩
    rw [← exec_append]
    simpa using hout
  · refine ⟨pre, rid, prompt, [], i, rfl, hat, ?_, trivial⟩
    rw [hx, blockSize_exec]

theorem provenance (hash : ℤ → List ℕ → ℤ) (numGpu numCpu blockSize : ℕ) (pre : List KvOp) :
    Provenance hash (KVCacheManager.new numGpu numCpu blockSize) pre := by
  induction pre using List.reverseRecOn with
  | nil =>
    have hnone : ∀ h b, (KVCacheManager.new numGpu numCpu blockSize).gpuPool.hashMap h ≠ some b :=
      fun _ _ h0 => by cases h0
    exact ⟨fun h b hb => absurd hb (hnone h b), fun h b hb => absurd hb (hnone h b)⟩
  | append_singleton pre op ih => exact ih.snoc op

variable {τ : Type}

/-- **Reused blocks** hold the tokens of the prompt, in every run of the scheduler: when
`_allocate_with_prefix_cache` takes a block from the cache, it was registered at the same position
for an earlier request with the same tokens up to there, and not handed out since. -/
theorem reused_fromEarlier (env : Env τ)
    (hinj : Function.Injective fun x : ℤ × List ℕ => env.hashBlockTokens x.1 x.2)
    (hzero : ∀ parentHash tokens, env.hashBlockTokens parentHash tokens ≠ 0)
    (numGpu numCpu blockSize : ℕ) (t : τ) (ops : List Op) :
    (exec (step env) (Scheduler.new (KVCacheManager.new numGpu numCpu blockSize) t) ops).kvMgr =
        exec (kvStep env.hashBlockTokens) (KVCacheManager.new numGpu numCpu blockSize)
          (exec (step env) (Scheduler.new (KVCacheManager.new numGpu numCpu blockSize) t)
            ops).issued ∧
      ∀ pre rid prompt post,
        (exec (step env) (Scheduler.new (KVCacheManager.new numGpu numCpu blockSize) t) ops).issued
        =
          pre ++ .allocate rid prompt :: post →
        ∀ i b, (reused env.hashBlockTokens (exec (kvStep env.hashBlockTokens)
            (KVCacheManager.new numGpu numCpu blockSize) pre) prompt)[i]? = some b →
          FromEarlier env.hashBlockTokens (KVCacheManager.new numGpu numCpu blockSize) pre
            prompt i b := by
  refine ⟨(run_ready_synced env numGpu numCpu blockSize t ops).2, ?_⟩
  intro pre rid prompt post _ i b hi
  obtain ⟨hlt, hmap⟩ := reused_hit hi
  rw [blockSize_exec] at hlt hmap
  obtain ⟨pre₁, rid', prompt', pre₂, j, hpre, hat, hchain, halong⟩ :=
    (provenance env.hashBlockTokens numGpu numCpu blockSize pre).origin _ b hmap
  obtain ⟨hij, hslices⟩ := chain_inj hinj hzero hchain
  obtain rfl : i = j := Nat.succ.inj hij
  refine ⟨pre₁, rid', prompt', pre₂, hpre, hat, ?_, (take_of_slices hslices).symm, halong⟩
  exact (Nat.mul_le_mul_right _ (Nat.succ_le_of_lt hlt)).trans (Nat.div_mul_le_self _ _)

/-! ### A block that is reused -/

/-- A hash that codes its arguments as a number, moved by `d`. -/
def codeHash (d parentHash : ℤ) (tokens : List ℕ) : ℤ := Encodable.encode (parentHash, tokens) + d

theorem codeHash_injective (d : ℤ) :
    Function.Injective fun x : ℤ × List ℕ => codeHash d x.1 x.2 := by
  rintro ⟨p, t⟩ ⟨p', t'⟩ h
  have h : (Encodable.encode (p, t) : ℤ) + d = Encodable.encode (p', t') + d := h
  exact Encodable.encode_injective (by omega)

def codedBy (d : ℤ) : Env Unit where
  hashBlockTokens := codeHash d
  transferScheduler := none

/-- Three GPU blocks of one token. -/
def threeSmallBlocks : Scheduler Unit := Scheduler.new (KVCacheManager.new 3 0 1) ()

/-- A request with two tokens registers its blocks, and a second one asks for the given token. -/
def askFor (token : ℕ) : List Op :=
  [.addRequest ⟨"a", [5, 7], .waiting⟩, .schedule none, .finishRequest "a",
    .addRequest ⟨"b", [token], .waiting⟩, .schedule none]

/-- The steps of the manager up to the second request. -/
def firstRequest : List KvOp := [.allocate "a" [5, 7], .register "a" [5, 7], .freeSequence "a"]

theorem reused_fromEarlier_askFor :
    (reused (codeHash 1) (exec (kvStep (codeHash 1)) (KVCacheManager.new 3 0 1) firstRequest)
      [5])[0]? =
        some 0 ∧
      FromEarlier (codeHash 1) (KVCacheManager.new 3 0 1) firstRequest [5] 0 0 := by
  have hreused : (reused (codeHash 1)
      (exec (kvStep (codeHash 1)) (KVCacheManager.new 3 0 1) firstRequest) [5])[0]? =
        some 0 := by decide
  refine ⟨hreused,
    (reused_fromEarlier (codedBy 1) (codeHash_injective 1) (fun parentHash tokens => ?_) 3 0 1 ()
      (askFor 5)).2 firstRequest "b" [5] [] (by decide) 0 0 hreused⟩
  change (_ : ℤ) + 1 ≠ 0
  omega

/-- If the hash of a first block is zero, the second block of the request is taken for a first
one. -/
theorem reused_fromMiddle : ¬ ∀ (env : Env Unit) (numGpu numCpu blockSize : ℕ) (ops : List Op),
    (Function.Injective fun x : ℤ × List ℕ => env.hashBlockTokens x.1 x.2) →
    ∀ pre rid prompt post,
      (exec (step env) (Scheduler.new (KVCacheManager.new numGpu numCpu blockSize) ()) ops).issued =
        pre ++ .allocate rid prompt :: post →
      ∀ i b, (reused env.hashBlockTokens (exec (kvStep env.hashBlockTokens)
          (KVCacheManager.new numGpu numCpu blockSize) pre) prompt)[i]? = some b →
        FromEarlier env.hashBlockTokens (KVCacheManager.new numGpu numCpu blockSize) pre
          prompt i b := by
  intro h
  obtain ⟨pre₁, rid, prompt', pre₂, hpre, -, -, htake, -⟩ :=
    h (codedBy (-961)) 3 0 1 (askFor 7) (codeHash_injective _) firstRequest "b" [7] []
      (by decide) 0 1 (by decide)
  have hmem : KvOp.register rid prompt' ∈ firstRequest := by rw [hpre]; simp
  have hprompt : prompt' = [5, 7] := by
    simp only [firstRequest, List.mem_cons, reduceCtorEq, KvOp.register.injEq, false_or,
      List.not_mem_nil, or_false] at hmem
    exact hmem.2
  rw [hprompt] at htake
  revert htake
  decide

end MoeInfinity.Engine.PrefixReuse
