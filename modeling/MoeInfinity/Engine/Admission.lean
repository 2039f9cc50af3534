import Mathlib.Algebra.Ring.Nat
import MoeInfinity.Engine.PrefixReuse

/-! # What an admission takes

`_allocate_with_prefix_cache` first takes the blocks that the prefix cache has for a prompt and then
allocates the others. If the pool runs out, everything goes back: tables, counts, free blocks and
tracked blocks are as before, and so are the entries of the cache whose blocks were not handed out
(`restored_of_refused`).

A request that is admitted adds its uncached tokens to the step. It adds none exactly when the cache
has the whole prompt (`uncached_iff`): the lookup goes over all full blocks and leaves no token to
prefill. -/

namespace MoeInfinity.Engine.Admission

open MoeInfinity.Python MoeInfinity.Lib.Imperative MoeInfinity.Lib.Runs
open MoeInfinity.Memory.Blocks MoeInfinity.Memory.KvManager
  MoeInfinity.Memory.KvManager.KVCacheManager
open MoeInfinity.Memory.KvManagerSpec MoeInfinity.Memory.RefCounts MoeInfinity.Memory.BlockHashes
open MoeInfinity.Engine.Schedule MoeInfinity.Engine.Schedule.Scheduler
open MoeInfinity.Engine.KvOps MoeInfinity.Engine.GpuOps MoeInfinity.Engine.QueueMachine
open MoeInfinity.Engine.SwapBlocks (Op step)
open MoeInfinity.Engine.PrefixReuse

/-! ### Looking up a prompt -/

/-- The blocks that the map has for a prompt from block `i` on, as far as they go. -/
def lookup (hash : ℤ → List ℕ → ℤ) (m : ℤ → Option ℕ) (prompt : List ℕ) (blockSize : ℕ) :
    ℕ → ℕ → List ℕ
  | 0, _ => []
  | n + 1, i =>
    match m (chain hash prompt blockSize (i + 1)) with
    | none => []
    | some b => b :: lookup hash m prompt blockSize n (i + 1)

section Lookup

variable {hash : ℤ → List ℕ → ℤ} {m m' : ℤ → Option ℕ} {prompt : List ℕ} {blockSize : ℕ}

theorem length_lookup_le : ∀ {n i : ℕ}, (lookup hash m prompt blockSize n i).length ≤ n
  | 0, _ => le_rfl
  | n + 1, i => by
    rw [lookup]
    split
    · exact Nat.zero_le _
    · exact Nat.succ_le_succ length_lookup_le

/-- The lookup gets to the end when every block is in the map. -/
theorem length_lookup_eq_iff : ∀ {n i : ℕ}, (lookup hash m prompt blockSize n i).length = n ↔
    ∀ j < n, m (chain hash prompt blockSize (i + j + 1)) ≠ none
  | 0, _ => by simp [lookup]
  | n + 1, i => by
    rw [lookup]
    split
    · next hm =>
      constructor
      · intro h
        rw [List.length_nil] at h
        omega
      · exact fun h => absurd hm (h 0 (Nat.succ_pos n))
    · next b hm =>
      rw [List.length_cons, Nat.succ_inj, length_lookup_eq_iff]
      constructor
      · intro h j hj
        cases j with
        | zero => rw [Nat.add_zero, hm]; exact Option.some_ne_none b
        | succ j =>
          rw [show i + (j + 1) + 1 = i + 1 + j + 1 by omega]
          exact h j (by omega)
      · intro h j hj
        rw [show i + 1 + j + 1 = i + (j + 1) + 1 by omega]
        exact h (j + 1) (by omega)

/-- A smaller map that still has the blocks of a lookup gives the same blocks. -/
theorem lookup_congr (hsub : ∀ h b, m' h = some b → m h = some b) : ∀ {n i : ℕ},
    (∀ h, ∀ b ∈ lookup hash m prompt blockSize n i, m h = some b → m' h = some b) →
      lookup hash m' prompt blockSize n i = lookup hash m prompt blockSize n i
  | 0, _, _ => rfl
  | n + 1, i, hkept => by
    rw [lookup, lookup]
    rw [lookup] at hkept
    cases hm : m (chain hash prompt blockSize (i + 1)) with
    | none =>
      have hnone : m' (chain hash prompt blockSize (i + 1)) = none := by
        cases hm' : m' (chain hash prompt blockSize (i + 1)) with
        | none => rfl
        | some b =>
          rw [hsub _ b hm'] at hm
          cases hm
      rw [hnone]
    | some b =>
      rw [hm] at hkept
      rw [hkept _ b List.mem_cons_self hm]
      have hrest := lookup_congr hsub (n := n) (i := i + 1)
        fun h c hc => hkept h c (List.mem_cons_of_mem b hc)
      rw [hrest]

end Lookup

section Found

variable (hash : ℤ → List ℕ → ℤ)

/-- The lookup loop finds what the map has. -/
theorem run_matchPrefix (prompt : List ℕ) (blockSize : ℕ) :
    ∀ (n i : ℕ) (cached : List ℕ) (k : KVCacheManager),
    ∃ k', (matchPrefix hash prompt blockSize n i (chain hash prompt blockSize i) cached).run k =
      (k', .ok (cached ++ lookup hash k.gpuPool.hashMap prompt blockSize n i))
  | 0, _, cached, k => ⟨k, by rw [lookup, List.append_nil]; rfl⟩
  | n + 1, i, cached, k => by
    obtain ⟨k₁, block, hrun, hmap, hblock⟩ := exists_of_wp
      (wp_getCachedGpuBlock_hit k (chain hash prompt blockSize (i + 1)) (R := fun _ _ => False))
    have hrun :
      (getCachedGpuBlock (hash (chain hash prompt blockSize i) (tokenSlice prompt blockSize i))).run
      k = (k₁, .ok block) := hrun
    rw [matchPrefix, run_bind_ok hrun, lookup, ← hblock]
    cases block with
    | none => exact ⟨k₁, by rw [List.append_nil]; rfl⟩
    | some b =>
      obtain ⟨k₂, hrun₂⟩ := run_matchPrefix prompt blockSize n (i + 1) (cached ++ [b]) k₁
      refine ⟨k₂, ?_⟩
      rw [hmap, List.append_assoc, List.singleton_append] at hrun₂
      exact hrun₂

theorem reused_eq {k : KVCacheManager} (hbs : k.blockSize ≠ 0) (prompt : List ℕ) :
    reused hash k prompt =
      lookup hash k.gpuPool.hashMap prompt k.blockSize (prompt.length / k.blockSize) 0 := by
  obtain ⟨k', hrun⟩ := run_matchPrefix hash prompt k.blockSize (prompt.length / k.blockSize) 0 [] k
  have hrun : (matchPrefix hash prompt k.blockSize (prompt.length / k.blockSize) 0 0 []).run k =
    _ := hrun
  rw [reused, if_neg hbs, hrun]
  rfl

/-- An allocation that succeeds says how many tokens its cached blocks hold. -/
theorem wp_allocateBlocks_cached (requestId : String) (prompt : List ℕ) (k : KVCacheManager) :
    wp (allocateBlocks hash requestId prompt)
      (fun r _ => k.blockSize ≠ 0 ∧ (r.1 = false → r.2 = 0) ∧
        (r.1 = true → r.2 = (reused hash k prompt).length * k.blockSize))
      (fun _ _ => True) k := by
  simp only [allocateBlocks, wp_bind, wp_current, wp_ite, wp_raise]
  refine ⟨fun _ => trivial, fun hbs => ?_⟩
  obtain ⟨k₁, hrun⟩ := run_matchPrefix hash prompt k.blockSize (prompt.length / k.blockSize) 0 [] k
  refine wp_of_eq hrun ?_
  rw [List.nil_append, ← reused_eq hash hbs]
  refine wp_of_forall ?_ fun _ _ => trivial
  intro newBlocks k₂
  cases newBlocks with
  | none => exact ⟨hbs, fun _ => rfl, (absurd · Bool.false_ne_true)⟩
  | some newBlocks => exact ⟨hbs, (absurd ·.symm Bool.false_ne_true), fun _ => rfl⟩

end Found

/-! ### An allocation that fails -/

/-- The entries of the map whose blocks are not among `bs` stay. -/
def Survive (bs : List ℕ) (k k' : KVCacheManager) : Prop :=
  ∀ h b, k.gpuPool.hashMap h = some b → b ∉ bs → k'.gpuPool.hashMap h = some b

section Survive

variable {bs bs' : List ℕ} {k k' k'' : KVCacheManager}

theorem Survive.of_tags (h : tags k' = tags k) : Survive bs k k' := by
  intro x b hb _
  rw [show k'.gpuPool.hashMap = k.gpuPool.hashMap from congrArg Prod.fst h]
  exact hb

theorem Survive.trans (h : Survive bs k k') (h' : Survive bs' k' k'') :
    Survive (bs ++ bs') k k'' := by
  intro x b hb hnot
  rw [List.mem_append, not_or] at hnot
  exact h' x b (h x b hb hnot.1) hnot.2

/-- Only the block taken from the free queue leaves the map. -/
theorem wp_allocateBlock_survive (p : BlockPool) {R : PyError → BlockPool → Prop} :
    wp BlockPool.allocateBlock (fun r p' => ∀ h c, p.hashMap h = some c → r ≠ some c →
      p'.hashMap h = some c) R p := by
  simp only [BlockPool.allocateBlock, wp_bind, wp_current]
  split
  · exact fun h c hc _ => hc
  · next b rest hq =>
    simp only [wp_bind, wp_update, wp_pure]
    intro h c hc hne
    have hcb : c ≠ b := fun h0 => hne (by rw [h0])
    rw [hashMap_setBlock]
    unfold BlockPool.dropHash
    split
    · exact hc
    · rw [hashMap_setBlock]
      exact hashMap_unmap_of_ne hc hcb

theorem wp_allocateGpuBlock_survive (k : KVCacheManager) {R : PyError → KVCacheManager → Prop} :
    wp allocateGpuBlock (fun r k' => Survive r.toList k k') R k := by
  simp only [allocateGpuBlock, wp_bind, onGpu, wp_zoom]
  refine wp_mono (wp_allocateBlock_survive k.gpuPool) ?_ fun _ _ h0 => h0
  intro r p' h
  have hs : Survive r.toList k { k with gpuPool := p' } := fun x b hb hnot =>
    h x b hb fun h0 => hnot (Option.mem_toList.mpr h0)
  cases r with
  | none => exact hs
  | some b => exact hs

theorem wp_allocateNew_survive (cached : List ℕ) :
    ∀ (n : ℕ) (newBlocks : List ℕ) (k : KVCacheManager),
      wp (allocateNew cached n newBlocks) (fun _ => Survive (handedNew n k) k)
        (fun _ => Survive (handedNew n k) k) k
  | 0, _, _ => Survive.of_tags rfl
  | n + 1, newBlocks, k => by
    simp only [allocateNew, wp_bind]
    refine wp_mono (wp_and (wp_allocateGpuBlock_survive (R := fun _ _ => False) k)
      (wp_run allocateGpuBlock k)) ?_ fun _ _ h0 => h0.1.elim
    rintro r k₁ ⟨h₁, hrun⟩
    cases r with
    | none =>
      have heq : handedNew (n + 1) k = [] ++ [] := by rw [handedNew, hrun]; rfl
      rw [heq]
      simp only [wp_bind, wp_pure]
      refine wp_mono ((leaves_forEach settled_tags.releaseGpuBlock cached).wp k₁) ?_
        fun _ _ h0 => h₁.trans (Survive.of_tags h0)
      intro _ k₂ h₂
      exact wp_mono ((leaves_forEach settled_tags.releaseGpuBlock newBlocks).wp k₂)
        (fun _ _ h0 => h₁.trans (Survive.of_tags (h0.trans h₂)))
        fun _ _ h0 => h₁.trans (Survive.of_tags (h0.trans h₂))
    | some b =>
      have heq : handedNew (n + 1) k = [b] ++ handedNew n k₁ := by rw [handedNew, hrun]; rfl
      rw [heq]
      exact wp_mono (wp_allocateNew_survive cached n _ k₁) (fun _ _ h₂ => h₁.trans h₂)
        fun _ _ h₂ => h₁.trans h₂

/-- **An allocation**, successful or not, takes only the blocks that it hands out from the map. -/
theorem wp_allocateBlocks_survive (hash : ℤ → List ℕ → ℤ) (requestId : String) (prompt : List ℕ)
    (k : KVCacheManager) :
    wp (allocateBlocks hash requestId prompt)
      (fun _ => Survive (handedOut hash k (.allocate requestId prompt)) k) (fun _ _ => True) k := by
  simp only [allocateBlocks, wp_bind, wp_current, wp_ite, wp_raise]
  refine ⟨fun _ => trivial, fun hbs => ?_⟩
  obtain ⟨k₁, hrun⟩ := run_matchPrefix hash prompt k.blockSize (prompt.length / k.blockSize) 0 [] k
  rw [List.nil_append, ← reused_eq hash hbs] at hrun
  have htags : tags k₁ = tags k := by
    have h := settled_tags.matchPrefix hash prompt k.blockSize (prompt.length / k.blockSize) 0
      (chain hash prompt k.blockSize 0) [] k
    unfold Prog.state at h
    rwa [hrun] at h
  have hrun : (matchPrefix hash prompt k.blockSize (prompt.length / k.blockSize) 0 0 []).run k =
    (k₁, .ok (reused hash k prompt)) := hrun
  refine wp_of_eq hrun ?_
  have hout : handedOut hash k (.allocate requestId prompt) = [] ++
      handedNew (if 0 < prompt.length - (reused hash k prompt).length * k.blockSize then
        ceilDiv (prompt.length - (reused hash k prompt).length * k.blockSize) k.blockSize
          else 0) k₁ := by
    change (if k.blockSize = 0 then _ else handedNew _ _) = _
    rw [if_neg hbs, hrun]
    rfl
  rw [hout]
  have h₁ : Survive [] k k₁ := Survive.of_tags htags
  refine wp_mono (wp_allocateNew_survive (reused hash k prompt) _ [] k₁) ?_ fun _ _ _ => trivial
  intro r k₂ h₂
  cases r with
  | none => exact h₁.trans h₂
  | some newBlocks => exact h₁.trans h₂

end Survive

/-- What an allocation without success leaves: `handed` are the blocks that were handed out and came
back. -/
structure Restored (hash : ℤ → List ℕ → ℤ) (handed : List ℕ) (k k' : KVCacheManager) : Prop where
  tables : k'.seqToGpuBlocks = k.seqToGpuBlocks
  refCnt : ∀ b, (k'.gpuPool.blocks b).refCnt = (k.gpuPool.blocks b).refCnt
  free : k'.gpuPool.freeQueue.Perm k.gpuPool.freeQueue
  tracked : k'.gpuAllocatedBlocks = k.gpuAllocatedBlocks
  cpu : k'.cpuPool = k.cpuPool
  records : records k' = records k
  entries : ∀ h b, k.gpuPool.hashMap h = some b → b ∉ handed → k'.gpuPool.hashMap h = some b
  lookups : ∀ prompt, (∀ b ∈ reused hash k prompt, b ∉ handed) →
    reused hash k' prompt = reused hash k prompt

/-- The manager has got here from its initial state. -/
def Reached (hash : ℤ → List ℕ → ℤ) (k : KVCacheManager) : Prop :=
  ∃ (numGpu numCpu blockSize : ℕ) (pre : List KvOp),
    k = exec (kvStep hash) (KVCacheManager.new numGpu numCpu blockSize) pre

section Refused

variable {hash : ℤ → List ℕ → ℤ} {k : KVCacheManager}

theorem Reached.unambiguous (h : Reached hash k) : Unambiguous k.gpuPool := by
  obtain ⟨numGpu, numCpu, blockSize, pre, rfl⟩ := h
  exact (provenance hash numGpu numCpu blockSize pre).unambiguous

theorem exists_holds_kvStep :
    ∀ {op : KvOp}, (∃ held, Holds k held) → ∃ held, Holds (kvStep hash k op) held
  | .allocate rid prompt, ⟨held, h⟩ => by
    rcases allocate_run hash h rid prompt with ⟨-, hkv, -⟩ | ⟨allocated, n, -, -, -, hcase⟩
    · exact ⟨held, by rw [hkv]; exact h⟩
    · split_ifs at hcase
      · obtain ⟨ids, -, -, hheld⟩ := hcase.table
        exact ⟨_, hheld held h⟩
      · exact ⟨held, hcase.holds held h⟩
  | .register rid prompt, ⟨held, h⟩ =>
    ⟨held, inv_of_wp (I := fun k' => Holds k' held) (wp_mono (wp_register hash h rid prompt)
      (fun _ _ h0 => h0.holds held h) fun _ _ h0 => by rw [h0.2]; exact h)⟩
  | .freeSequence rid, ⟨held, h⟩ => ⟨_, (freeSequence_outcome hash h rid).2.holds held h⟩
  | .swapOut rid, ⟨held, h⟩ => by
    obtain ⟨k₁, pairs, -, ⟨-, hkv, hu⟩ | ⟨-, -, ho⟩⟩ := swapOut_outcome hash h rid
    · exact ⟨held, by rw [hkv]; exact hu.holds held h⟩
    · exact ⟨_, ho.holds held h⟩
  | .swapIn rid ids, ⟨held, h⟩ => by
    obtain ⟨k₁, pairs, -, ⟨-, hkv, hu⟩ | ⟨-, -, hi⟩⟩ := swapIn_outcome hash h rid ids
    · exact ⟨held, by rw [hkv]; exact hu.holds held h⟩
    · obtain ⟨new, -, -, hheld⟩ := hi.table
      exact ⟨_, hheld held h⟩

theorem Reached.holds (h : Reached hash k) : ∃ held, Holds k held := by
  obtain ⟨numGpu, numCpu, blockSize, pre, rfl⟩ := h
  exact inv_exec_all (I := fun k => ∃ held, Holds k held) (fun _ _ => exists_holds_kvStep) pre _
    ⟨0, holds_new numGpu numCpu blockSize⟩

/-- The CPU pool and the size of the GPU pool. -/
def surroundings (k : KVCacheManager) : BlockPool × ℕ := (k.cpuPool, k.gpuPool.numBlocks)

theorem leaves_onGpu {α : Type} {m : Prog PyError BlockPool α} (h : Leaves BlockPool.numBlocks m) :
    Leaves surroundings (onGpu m) := by
  refine leaves_zoom fun k t ht => ?_
  subst ht
  exact Prod.ext rfl (h k.gpuPool)

theorem settled_surroundings : Leaves surroundings allocateGpuBlock ∧
    (∀ h, Leaves surroundings (getCachedGpuBlock h)) ∧
    ∀ b, Leaves surroundings (releaseGpuBlock b) := by
  refine ⟨?_, fun h => ?_, fun b => ?_⟩
  · refine leaves_bind (leaves_onGpu leaves_allocateBlock) fun block => ?_
    cases block with
    | none => exact leaves_pure _
    | some b => exact leaves_bind (leaves_update fun _ => rfl) fun _ => leaves_pure _
  · refine leaves_bind (leaves_onGpu (leaves_getCachedBlock h)) fun block => ?_
    cases block with
    | none => exact leaves_pure _
    | some b => exact leaves_bind (leaves_update fun _ => rfl) fun _ => leaves_pure _
  · exact leaves_bind (leaves_onGpu (leaves_freeBlock b)) fun _ =>
        leaves_bind leaves_current fun _ =>
      leaves_ite (leaves_update fun _ => rfl) (leaves_pure _)

theorem leaves_matchPrefix (prompt : List ℕ) (blockSize : ℕ) :
    ∀ (n i : ℕ) (parentHash : ℤ) (cached : List ℕ),
      Leaves surroundings (matchPrefix hash prompt blockSize n i parentHash cached)
  | 0, _, _, _ => leaves_pure _
  | n + 1, i, parentHash, cached => by
    refine leaves_bind (settled_surroundings.2.1 _) fun block => ?_
    cases block with
    | none => exact leaves_pure _
    | some b => exact leaves_matchPrefix prompt blockSize n (i + 1) _ _

theorem leaves_allocateNew (cached : List ℕ) : ∀ (n : ℕ) (newBlocks : List ℕ),
    Leaves surroundings (allocateNew cached n newBlocks)
  | 0, _ => leaves_pure _
  | n + 1, newBlocks => by
    refine leaves_bind settled_surroundings.1 fun block => ?_
    cases block with
    | none =>
      exact leaves_bind (leaves_forEach settled_surroundings.2.2 _) fun _ =>
        leaves_bind (leaves_forEach settled_surroundings.2.2 _) fun _ => leaves_pure _
    | some b => exact leaves_allocateNew cached n _

theorem leaves_allocateBlocks (requestId : String) (prompt : List ℕ) :
    Leaves surroundings (allocateBlocks hash requestId prompt) := by
  refine leaves_bind leaves_current fun k => leaves_ite (leaves_raise _) ?_
  refine leaves_bind (leaves_matchPrefix _ _ _ _ _ _) fun cached => ?_
  refine leaves_bind (leaves_allocateNew cached _ _) fun newBlocks => ?_
  cases newBlocks with
  | none => exact leaves_pure _
  | some newBlocks => exact leaves_bind (leaves_update fun _ => rfl) fun _ => leaves_pure _

/-- Where the references and the size of the pool are the same, the free blocks are. -/
theorem perm_free {k' : KVCacheManager} {held : Multiset ℕ} (h : Holds k held) (h' : Holds k' held)
    (hn : k'.gpuPool.numBlocks = k.gpuPool.numBlocks) :
    k'.gpuPool.freeQueue.Perm k.gpuPool.freeQueue := by
  refine (List.perm_ext_iff_of_nodup h'.sound.gpu.nodup h.sound.gpu.nodup).mpr fun b => ?_
  rw [h.free, h'.free, hn]

/-- **An allocation without success restores what it found.** -/
theorem wp_allocateBlocks_restored (hk : Reached hash k) (requestId : String) (prompt : List ℕ) :
    wp (allocateBlocks hash requestId prompt) (fun r k' => r.1 = false → r.2 = 0 ∧
      Restored hash (handedOut hash k (.allocate requestId prompt)) k k') (fun _ _ => True) k := by
  obtain ⟨held, h⟩ := hk.holds
  have hspec := wp_and (wp_and (wp_allocateBlocks hash h requestId prompt)
    (wp_allocateBlocks_cached hash requestId prompt k))
    (wp_and (wp_allocateBlocks_survive hash requestId prompt k)
      (wp_and (wp_allocateBlocks_handed hk.unambiguous requestId prompt)
        (wp_and ((leaves_allocateBlocks requestId prompt).wp k)
          ((sized_allocateBlocks hash requestId prompt).wp k))))
  refine wp_mono hspec ?_ fun _ _ _ => trivial
  rintro ⟨allocated, n⟩ k' ⟨⟨⟨-, -, hcase⟩, hbs, hn, -⟩, hsurvive, ⟨-, hsub⟩, hsur, hsize⟩ hfalse
  have hfalse : allocated = false := hfalse
  subst hfalse
  have hu : Untouched k k' := hcase
  have h' := hu.holds held h
  refine ⟨hn rfl, ⟨hu.tables, fun b => ?_, perm_free h h' (congrArg Prod.snd hsur), ?_,
    congrArg Prod.fst hsur, hu.records, hsurvive, fun prompt' hall => ?_⟩⟩
  · rw [h.count, h'.count]
  · exact Finset.ext fun b => (h'.tracked b).trans (h.tracked b).symm
  · rw [reused_eq hash hbs, reused_eq hash (by rw [hsize]; exact hbs), hsize]
    refine lookup_congr (fun x b hb => (hsub x b hb).1) fun x b hb hx => hsurvive x b hx ?_
    rw [reused_eq hash hbs] at hall
    exact hall b hb

end Refused

section Attempt

variable {τ : Type} {env : Env τ}

/-- The manager of a scheduler is always one that has got there from its initial state. -/
theorem reached_run (env : Env τ) (numGpu numCpu blockSize : ℕ) (t : τ) (ops : List Op) :
    Reached env.hashBlockTokens
      (exec (step env) (Scheduler.new (KVCacheManager.new numGpu numCpu blockSize) t) ops).kvMgr :=
  ⟨numGpu, numCpu, blockSize, _, (run_ready_synced env numGpu numCpu blockSize t ops).2⟩

/-- An attempt of the scheduler is an attempt of the manager. -/
theorem wp_allocateWithPrefixCache (s : Scheduler τ) (req : Request)
    {Q : Bool × ℕ → KVCacheManager → Prop}
    (h : wp (allocateBlocks env.hashBlockTokens req.requestId req.promptTokenIds) Q
      (fun _ _ => True) s.kvMgr) :
    wp (allocateWithPrefixCache env req)
    (fun r s' => (r.1 = false → ∃ n, Q (false, n) s'.kvMgr ∧ r.2 = 0 ∧
        s' = { s with
          kvMgr := s'.kvMgr
          issued := s.issued ++ [.allocate req.requestId req.promptTokenIds] }) ∧
        (r.1 = true → Q r s'.kvMgr))
      (fun _ _ => True) s := by
  simp only [allocateWithPrefixCache, wp_bind, wp_update, onKv, wp_zoom]
  refine wp_mono h ?_ fun _ _ _ => trivial
  rintro ⟨allocated, n⟩ k' hQ
  cases allocated with
  | true => exact ⟨(absurd ·.symm Bool.false_ne_true), fun _ => hQ⟩
  | false => exact ⟨fun _ => ⟨n, hQ, rfl, rfl⟩, (absurd · Bool.false_ne_true)⟩

/-- **A refused allocation** leaves every block table, every reference count, the free blocks and
the tracked blocks as they were, and every entry of the prefix cache whose block was not handed out
in the attempt; of the scheduler it changes nothing. -/
theorem restored_of_refused (env : Env τ) (s s' : Scheduler τ) (req : Request) (n : ℕ)
    (hs : Reached env.hashBlockTokens s.kvMgr)
    (hrun : (allocateWithPrefixCache env req).run s = (s', .ok (false, n))) :
    n = 0 ∧
      s' = { s with
        kvMgr := s'.kvMgr
        issued := s.issued ++ [.allocate req.requestId req.promptTokenIds] } ∧
      Restored env.hashBlockTokens
        (handedOut env.hashBlockTokens s.kvMgr (.allocate req.requestId req.promptTokenIds))
        s.kvMgr s'.kvMgr := by
  have hspec := wp_allocateWithPrefixCache s req
    (wp_allocateBlocks_restored hs req.requestId req.promptTokenIds)
  obtain ⟨hrefused, -⟩ := wp_ok hspec hrun
  obtain ⟨m, hQ, hn, hs'⟩ := hrefused rfl
  exact ⟨hn, hs', (hQ rfl).2⟩

/-- A scheduler with three blocks of one token, two of them in the cache. -/
def twoCached : Scheduler Unit :=
  exec (step (codedBy 1)) threeSmallBlocks
    [.addRequest ⟨"a", [5, 7], .waiting⟩, .schedule none, .finishRequest "a"]

/-- A request for four blocks finds one of them and gets no more than two. -/
def fourBlocks : Request := ⟨"b", [5, 8, 9, 10], .waiting⟩

theorem restored_of_refused_fourBlocks :
    let s' := ((allocateWithPrefixCache (codedBy 1) fourBlocks).run twoCached).1
    handedOut (codeHash 1) twoCached.kvMgr (.allocate "b" [5, 8, 9, 10]) = [2, 1] ∧
      s'.kvMgr.gpuPool.hashMap (codeHash 1 0 [5]) = some 0 ∧
      Restored (codeHash 1) [2, 1] twoCached.kvMgr s'.kvMgr := by
  have hrun : ((allocateWithPrefixCache (codedBy 1) fourBlocks).run twoCached).2 =
      .ok (false, 0) := by
    decide +kernel
  have hout : handedOut (codeHash 1) twoCached.kvMgr (.allocate "b" [5, 8, 9, 10]) = [2, 1] := by
    decide +kernel
  have hrestored := (restored_of_refused (codedBy 1) twoCached _ fourBlocks 0
    (reached_run (codedBy 1) 3 0 1 () _) (Prod.ext rfl hrun)).2.2
  refine ⟨hout, by decide +kernel, ?_⟩
  rw [← hout]
  exact hrestored

end Attempt

/-! ### What an admitted request adds to the step -/

/-- A request that is admitted, the manager when the allocation that succeeded began, and the number
of tokens that the request adds to the step. -/
structure Entrant where
  request : Request
  kv : KVCacheManager
  numTokens : ℕ

section Admitted

variable {τ : Type} (env : Env τ)

/-- The manager when the last attempt to allocate for a request began: `k` is the manager of the
attempt with the result `r`, which the preemptions follow. -/
def lastAttempt (req : Request) : ℕ → KVCacheManager → Bool × ℕ → Scheduler τ → KVCacheManager
  | 0, k, _, _ => k
  | n + 1, k, r, s =>
    if r.1 then k
    else match s.running with
      | [] => k
      | victim :: rest =>
        match (preemptWithTransfer env victim).run { s with running := rest } with
        | (_, .error _) => k
        | (s₁, .ok _) =>
          match (allocateWithPrefixCache env req).run s₁ with
          | (_, .error _) => k
          | (s₂, .ok r) => lastAttempt req n s₁.kvMgr r s₂

/-- The admissions of the admission loop. -/
def admissions : ℕ → Round → Scheduler τ → List Entrant
  | 0, _, _ => []
  | n + 1, round, s =>
    match s.waiting with
    | [] => []
    | req :: rest =>
      if env.maxNumSeqs ≤ s.running.length + round.newRunning.length then []
      else match (allocateWithPrefixCache env req).run { s with waiting := rest } with
        | (_, .error _) => []
        | (s₁, .ok r₁) =>
          match (preemptLoop env req s.running.length r₁ round.preempted).run s₁ with
          | (_, .error _) => []
          | (s₂, .ok (r, preempted)) =>
            if r.1 = false ∨
                env.maxNumBatchedTokens <
                  round.numTokens + (req.promptTokenIds.length - r.2) then []
            else match req.transitionTo .running with
              | .error _ => []
              | .ok admitted =>
                ⟨admitted, lastAttempt env req s.running.length s.kvMgr r₁ s₁,
                    req.promptTokenIds.length - r.2⟩ ::
                  admissions n ⟨round.newRunning ++ [admitted], preempted,
                      round.numTokens + (req.promptTokenIds.length - r.2)⟩
                    { s₂ with
                      seqGeneratedTokens :=
                        Function.update s₂.seqGeneratedTokens admitted.requestId (some 0) }

/-- The admissions of a call of `schedule`. -/
def admitted (predict : Option (String → List ℕ → ℚ)) (s : Scheduler τ) : List Entrant :=
  admissions env s.waiting.length {} (sortWaiting predict { s with swapped := [] })

/-- The step consists of the admitted requests, each with its tokens, and of running requests with
one token each. -/
def ConsistsOf (adms : List Entrant) (out : SchedulerOutput) : Prop :=
  ∃ decodes : List String,
    out.scheduledSeqs = adms.map (fun a => a.request.requestId) ++ decodes ∧
      out.numBatchedTokens = (adms.map fun a => a.numTokens).sum + decodes.length

/-- All of the prompt is in the prefix cache: it is made of full blocks, and the cache has each of
them. -/
def FullyCached (hash : ℤ → List ℕ → ℤ) (k : KVCacheManager) (prompt : List ℕ) : Prop :=
  k.blockSize ∣ prompt.length ∧
    ∀ i < prompt.length / k.blockSize,
      k.gpuPool.hashMap (chain hash prompt k.blockSize (i + 1)) ≠ none

instance (hash : ℤ → List ℕ → ℤ) (k : KVCacheManager) (prompt : List ℕ) :
    Decidable (FullyCached hash k prompt) := by
  unfold FullyCached; infer_instance

variable {env}

/-- **The uncached tokens** of a prompt: there are none exactly when the cache has all of it. -/
theorem uncached_pos_iff (hash : ℤ → List ℕ → ℤ) {k : KVCacheManager} (hbs : k.blockSize ≠ 0)
    (prompt : List ℕ) :
    0 < prompt.length - (reused hash k prompt).length * k.blockSize ↔
    ¬ FullyCached hash k prompt := by
  have hle : (reused hash k prompt).length ≤ prompt.length / k.blockSize := by
    rw [reused_eq hash hbs]
    exact length_lookup_le
  have hmul := Nat.mul_le_mul_right k.blockSize hle
  have hdiv := Nat.div_mul_le_self prompt.length k.blockSize
  have hall : (∀ i < prompt.length / k.blockSize,
      k.gpuPool.hashMap (chain hash prompt k.blockSize (i + 1)) ≠ none) ↔
        (reused hash k prompt).length = prompt.length / k.blockSize := by
    rw [reused_eq hash hbs, length_lookup_eq_iff]
    simp only [Nat.zero_add]
  unfold FullyCached
  rw [hall]
  constructor
  · rintro hpos ⟨hdvd, heq⟩
    rw [heq, Nat.div_mul_cancel hdvd] at hpos
    omega
  · intro hnot
    by_contra hzero
    refine hnot ⟨?_, ?_⟩
    · exact Nat.dvd_of_mod_eq_zero (by
        have := Nat.div_add_mod' prompt.length k.blockSize
        omega)
    · refine Nat.le_antisymm hle ?_
      by_contra hlt
      have := Nat.mul_lt_mul_of_pos_right (Nat.not_le.mp hlt) (Nat.pos_of_ne_zero hbs)
      omega

/-- The result of an attempt that began with the manager `k`. -/
def FoundBy (hash : ℤ → List ℕ → ℤ) (prompt : List ℕ) (k : KVCacheManager) (r : Bool × ℕ) : Prop :=
  r.1 = true → (0 < prompt.length - r.2 ↔ ¬ FullyCached hash k prompt)

theorem wp_attempt (s : Scheduler τ) (req : Request) :
    wp (allocateWithPrefixCache env req)
      (fun r _ => FoundBy env.hashBlockTokens req.promptTokenIds s.kvMgr r)
      (fun _ _ => True) s := by
  refine wp_mono (wp_allocateWithPrefixCache s req
    (wp_allocateBlocks_cached env.hashBlockTokens req.requestId req.promptTokenIds s.kvMgr)) ?_
    fun _ _ _ => trivial
  rintro r s' ⟨-, hfound⟩ hr
  obtain ⟨hbs, -, hn⟩ := hfound hr
  rw [hn hr]
  exact uncached_pos_iff env.hashBlockTokens hbs req.promptTokenIds

theorem foundBy_lastAttempt (req : Request) :
    ∀ (n : ℕ) (k : KVCacheManager) (r : Bool × ℕ) (s : Scheduler τ) (preempted : List String),
      FoundBy env.hashBlockTokens req.promptTokenIds k r →
      wp (preemptLoop env req n r preempted) (fun res _ =>
        FoundBy env.hashBlockTokens req.promptTokenIds (lastAttempt env req n k r s) res.1)
        (fun _ _ => True) s
  | 0, _, _, _, _, h => h
  | n + 1, k, r, s, preempted, h => by
    rw [preemptLoop, lastAttempt]
    simp only [wp_bind, wp_current, wp_ite, wp_pure]
    refine ⟨fun hr => by rw [if_pos hr]; exact h, fun hr => ?_⟩
    rw [if_neg hr]
    cases hrun : s.running with
    | nil => exact h
    | cons victim rest =>
      simp only [wp_bind, wp_update]
      refine wp_mono (wp_run (preemptWithTransfer env victim) { s with running := rest }) ?_
        fun _ _ _ => trivial
      intro _ s₁ hrun₁
      refine wp_mono (wp_and (wp_attempt s₁ req) (wp_run (allocateWithPrefixCache env req) s₁)) ?_
        fun _ _ _ => trivial
      rintro r' s₂ ⟨hfound, hrun₂⟩
      simp only [hrun₁, hrun₂]
      exact foundBy_lastAttempt req n s₁.kvMgr r' s₂ _ hfound

theorem promptTokenIds_transitionTo {req req' : Request} {status : SequenceStatus}
    (h : req.transitionTo status = .ok req') : req'.promptTokenIds = req.promptTokenIds := by
  unfold Request.transitionTo at h
  split_ifs at h
  cases h
  rfl

/-- The admitted requests have tokens to prefill exactly when the cache does not have all of the
prompt. -/
theorem uncached_iff_of_mem :
    ∀ (n : ℕ) (round : Round) (s : Scheduler τ), ∀ a ∈ admissions env n round s,
      (0 < a.numTokens ↔ ¬ FullyCached env.hashBlockTokens a.kv a.request.promptTokenIds)
  | 0, _, _, a, ha => by
    rw [admissions] at ha
    cases ha
  | n + 1, round, s, a, ha => by
    rw [admissions] at ha
    split at ha
    · cases ha
    · next req rest hw =>
      split_ifs at ha
      · cases ha
      split at ha
      · cases ha
      next s₁ r₁ hrun₁ =>
      split at ha
      · cases ha
      next s₂ r preempted hrun₂ =>
      split_ifs at ha with hrefused
      · cases ha
      split at ha
      · cases ha
      next admitted htr =>
      rw [not_or] at hrefused
      have hfound₁ := wp_ok (wp_attempt { s with waiting := rest } req) hrun₁
      have hfound := wp_ok
        (foundBy_lastAttempt req s.running.length s.kvMgr r₁ s₁ round.preempted hfound₁) hrun₂
      rcases List.mem_cons.mp ha with rfl | ha
      · rw [promptTokenIds_transitionTo htr]
        exact hfound (by simpa using hrefused.1)
      · exact uncached_iff_of_mem n _ _ a ha

/-- **The admission loop** admits the listed requests and counts their tokens. -/
theorem wp_admissionLoop : ∀ (n : ℕ) (round : Round) (s : Scheduler τ),
    wp (admissionLoop env n round) (fun round' _ =>
      round'.newRunning = round.newRunning ++ (admissions env n round s).map (fun a => a.request) ∧
      round'.numTokens =
        round.numTokens + ((admissions env n round s).map fun a => a.numTokens).sum)
      (fun _ _ => True) s
  | 0, round, s => by simp [admissionLoop, admissions]
  | n + 1, round, s => by
    have hnone : round.newRunning = round.newRunning ++
        ([] : List Entrant).map (fun a => a.request) ∧
        round.numTokens = round.numTokens + (([] : List Entrant).map fun a => a.numTokens).sum :=
          by simp
    rw [admissionLoop, admissions]
    simp only [wp_bind, wp_current]
    cases hw : s.waiting with
    | nil => exact hnone
    | cons req rest =>
      simp only [wp_bind, wp_ite, wp_update, wp_pure]
      refine ⟨fun hfull => by rw [if_pos hfull]; exact hnone, fun hroom => ?_⟩
      rw [if_neg hroom]
      refine wp_mono (wp_run (allocateWithPrefixCache env req) { s with waiting := rest }) ?_
        fun _ _ _ => trivial
      intro r₁ s₁ hrun₁
      refine wp_mono (wp_run (preemptLoop env req s.running.length r₁ round.preempted) s₁) ?_
        fun _ _ _ => trivial
      rintro ⟨r, preempted⟩ s₂ hrun₂
      simp only [hrun₁, hrun₂]
      refine ⟨fun hr => by
        rw [if_pos (Or.inl hr)]; exact hnone, fun hr => ⟨fun hbudget => ?_, fun hbudget => ?_⟩⟩
      · rw [if_pos (Or.inr hbudget)]
        exact wp_of_forall (fun _ _ => hnone) fun _ _ => trivial
      · rw [if_neg (by rw [not_or]; exact ⟨hr, hbudget⟩)]
        cases htr : req.transitionTo .running with
        | error e => trivial
        | ok admitted =>
          simp only [wp_ofExcept_ok]
          refine wp_mono (wp_admissionLoop n _ _) ?_ fun _ _ _ => trivial
          rintro round' s' ⟨hnew, hnum⟩
          constructor
          · rw [hnew, List.map_cons, List.append_assoc]
            rfl
          · rw [hnum, List.map_cons, List.sum_cons, Nat.add_assoc]

theorem wp_decodeLoop_counts (scheduledIds : List String) :
    ∀ (reqs : List Request) (scheduled : List String) (n : ℕ) (s : Scheduler τ),
      wp (decodeLoop env scheduledIds reqs scheduled n)
        (fun res _ => ∃ decodes : List String, res.1 = scheduled ++ decodes ∧
          res.2 = n + decodes.length)
      (fun _ _ => True) s
  | [], scheduled, n, _ => ⟨[], by simp⟩
  | req :: reqs, scheduled, n, s => by
    rw [decodeLoop]
    simp only [wp_ite, wp_pure, wp_bind, wp_update]
    refine ⟨fun _ => wp_decodeLoop_counts scheduledIds reqs scheduled n s,
      fun _ => ⟨fun _ => ⟨[], by simp⟩, fun _ => ?_⟩⟩
    refine wp_mono (wp_decodeLoop_counts scheduledIds reqs _ (n + 1) _) ?_ fun _ _ _ => trivial
    rintro res s' ⟨decodes, hres, hnum⟩
    refine ⟨req.requestId :: decodes, ?_, ?_⟩
    · rw [hres, List.append_assoc, List.singleton_append]
    · rw [hnum, List.length_cons]
      omega

/-- The step of a call consists of the admitted requests with their tokens and of one token for each
other request in it. -/
theorem wp_schedule_consistsOf (predict : Option (String → List ℕ → ℚ)) (s : Scheduler τ) :
    wp (schedule env predict) (fun out _ => ConsistsOf (admitted env predict s) out)
      (fun _ _ => True) s := by
  simp only [schedule, wp_bind, wp_current, wp_update]
  refine wp_mono
    (wp_admissionLoop s.waiting.length {} (sortWaiting predict { s with swapped := [] })) ?_
    fun _ _ _ => trivial
  rintro round s₁ ⟨hnew, hnum⟩
  refine wp_mono (wp_of_forall (Q := fun _ _ => True) (fun _ _ => trivial) fun _ _ => trivial) ?_
    fun _ _ _ => trivial
  intro swappedIn s₂ _
  refine wp_mono (wp_decodeLoop_counts _ s₂.running _ _ s₂) ?_ fun _ _ _ => trivial
  rintro ⟨scheduled, numTokens⟩ s₃ ⟨decodes, hscheduled, hnumTokens⟩
  refine ⟨decodes, ?_, ?_⟩
  · refine hscheduled.trans ?_
    rw [hnew, List.nil_append, List.map_map]
    rfl
  · refine hnumTokens.trans ?_
    rw [hnum, Nat.zero_add]
    rfl

/-- Every request admitted by the operation adds a token to the step. -/
def Prefills (env : Env τ) (s : Scheduler τ) : Op → Prop
  | .schedule predict =>
    wp (schedule env predict) (fun out _ => ConsistsOf (admitted env predict s) out)
      (fun _ _ => True) s ∧
      ∀ a ∈ admitted env predict s, 0 < a.numTokens
  | _ => True

/-- For no request that the operation admits, the cache has all of the prompt when the allocation
that succeeds begins. -/
def LeavesUncached (env : Env τ) (s : Scheduler τ) : Op → Prop
  | .schedule predict =>
    ∀ a ∈ admitted env predict s, ¬ FullyCached env.hashBlockTokens a.kv a.request.promptTokenIds
  | _ => True

theorem prefills_iff (s : Scheduler τ) : ∀ o : Op, Prefills env s o ↔ LeavesUncached env s o
  | .schedule predict => by
    have hall : (∀ a ∈ admitted env predict s, 0 < a.numTokens) ↔
        ∀ a ∈ admitted env predict s,
          ¬ FullyCached env.hashBlockTokens a.kv a.request.promptTokenIds :=
      forall₂_congr fun a ha => uncached_iff_of_mem _ _ _ a ha
    exact ⟨fun h => hall.mp h.2, fun h => ⟨wp_schedule_consistsOf predict s, hall.mpr h⟩⟩
  | .addRequest _ => Iff.rfl
  | .finishRequest _ => Iff.rfl
  | .abortRequest _ => Iff.rfl

/-- **Admitted requests add tokens to their step**, in every run of the scheduler: each of them adds
at least one, exactly when there is none among them whose prompt the prefix cache has as a whole. -/
theorem prefills_iff_leavesUncached (env : Env τ) (numGpu numCpu blockSize : ℕ) (t : τ)
    (ops : List Op) :
    Along (step env) (Prefills env)
      (Scheduler.new (KVCacheManager.new numGpu numCpu blockSize) t) ops ↔
      Along (step env) (LeavesUncached env)
        (Scheduler.new (KVCacheManager.new numGpu numCpu blockSize) t) ops :=
  along_iff_of_inv (I := fun _ => True) (fun _ _ _ _ => trivial) (fun s o _ => prefills_iff s o)
    ops _ trivial

end Admitted

/-- A request with the prompt of a finished one. -/
def samePrompt : List Op :=
  [.addRequest ⟨"a", [5, 7], .waiting⟩, .schedule none, .finishRequest "a",
    .addRequest ⟨"b", [5, 7], .waiting⟩, .schedule none]

/-- The second request is admitted with no token to prefill. -/
theorem admitted_without_tokens :
    ¬ ∀ (env : Env Unit) (numGpu numCpu blockSize : ℕ) (ops : List Op),
    Along (step env) (Prefills env)
      (Scheduler.new (KVCacheManager.new numGpu numCpu blockSize) ()) ops := by
  intro h
  have hrun : Along (step (codedBy 1)) (Prefills (codedBy 1)) threeSmallBlocks
      (samePrompt.take 4 ++ [.schedule none]) := h (codedBy 1) 3 0 1 samePrompt
  have hlast := along_append.mp hrun
  have hnone :
      (admitted (codedBy 1) none (exec (step (codedBy 1)) threeSmallBlocks (samePrompt.take 4))).map
      (fun a => a.numTokens) = [0] := by decide +kernel
  obtain ⟨a, ha, hzero⟩ := List.mem_map.mp (hnone ▸ List.mem_singleton_self (0 : ℕ))
  have hpos := hlast.2.1.2 a ha
  omega

end MoeInfinity.Engine.Admission
