import MoeInfinity.Memory.Blocks
import MoeInfinity.Memory.OffloadingPolicy

/-! # The cache of CPU blocks (`memory/cpu_block_cache.py`)

The cache gives a CPU block to each hash that is stored and leaves to a policy which one to give up.
It keeps two dictionaries in step with the entries of the policy.

A block object is known by its `block_id`, the lock of the cache is left out: calls are made one
after the other. `policy or LRUPolicy(...)` also replaces a policy without entries, since a policy
has a length. -/

namespace MoeInfinity.Memory.CpuBlockCache

open MoeInfinity.Python MoeInfinity.Lib MoeInfinity.Lib.Imperative MoeInfinity.Lib.Runs
open MoeInfinity.Memory.Blocks MoeInfinity.Memory.Blocks.BlockPool
  MoeInfinity.Memory.OffloadingPolicy

/-! ### Either policy -/

inductive CachePolicy (κ ν : Type) where
  | lru (policy : LRUPolicy κ ν)
  | arc (policy : ARCPolicy κ ν)

namespace CachePolicy

variable {κ ν : Type} [DecidableEq κ] [ToString κ]

/-- The method of the class that the policy is of. -/
def dispatch {α : Type} (lru : Prog PyError (LRUPolicy κ ν) α)
    (arc : Prog PyError (ARCPolicy κ ν) α) :
    Prog PyError (CachePolicy κ ν) α := ⟨fun p =>
  match p with
  | .lru q => ((lru.run q).1 |> .lru, (lru.run q).2)
  | .arc q => ((arc.run q).1 |> .arc, (arc.run q).2)⟩

def get (key : κ) : Prog PyError (CachePolicy κ ν) (Option ν) :=
  dispatch (LRUPolicy.get key) (ARCPolicy.get key)

def put (key : κ) (value : ν) : Prog PyError (CachePolicy κ ν) Unit :=
  dispatch (LRUPolicy.put key value) (ARCPolicy.put key value)

def evict : Prog PyError (CachePolicy κ ν) (Option (κ × ν)) :=
  dispatch LRUPolicy.evict ARCPolicy.evict

def len : CachePolicy κ ν → ℕ
  | .lru q => q.len
  | .arc q => q.len

def capacity : CachePolicy κ ν → ℕ
  | .lru q => q.capacity
  | .arc q => q.capacity

/-- What the policy holds. -/
def entries : CachePolicy κ ν → List (κ × ν)
  | .lru q => q.data
  | .arc q => q.t1 ++ q.t2

def isArc : CachePolicy κ ν → Bool
  | .lru _ => false
  | .arc _ => true

/-- The bounds of the policy. -/
def Bounded : CachePolicy κ ν → Prop
  | .lru q => LRUPolicy.Bounded q
  | .arc q => ARCPolicy.Bounded q

/-- `put` gives up no entry. -/
def Fits (key : κ) : CachePolicy κ ν → Prop
  | .lru q => key ∈ keys q.data ∨ q.len < q.capacity
  | .arc q => ARCPolicy.Fits q key

/-- The capacity and the class of the policy stay. -/
def Alike (p p' : CachePolicy κ ν) : Prop := p'.capacity = p.capacity ∧ p'.isArc = p.isArc

section Dispatch

variable {α : Type} {l : Prog PyError (LRUPolicy κ ν) α} {a : Prog PyError (ARCPolicy κ ν) α}
  {Q : α → CachePolicy κ ν → Prop} {R : PyError → CachePolicy κ ν → Prop}

omit [DecidableEq κ] [ToString κ] in
theorem wp_dispatch_lru {q : LRUPolicy κ ν} :
    wp (dispatch l a) Q R (.lru q) ↔
    wp l (fun r q' => Q r (.lru q')) (fun e q' => R e (.lru q')) q := by
  unfold wp dispatch
  simp only
  rcases l.run q with ⟨q', e | r⟩ <;> exact Iff.rfl

omit [DecidableEq κ] [ToString κ] in
theorem wp_dispatch_arc {q : ARCPolicy κ ν} :
    wp (dispatch l a) Q R (.arc q) ↔
    wp a (fun r q' => Q r (.arc q')) (fun e q' => R e (.arc q')) q := by
  unfold wp dispatch
  simp only
  rcases a.run q with ⟨q', e | r⟩ <;> exact Iff.rfl

end Dispatch

variable {p p' p'' : CachePolicy κ ν} {R : PyError → CachePolicy κ ν → Prop}

omit [DecidableEq κ] [ToString κ]

theorem Alike.refl (p : CachePolicy κ ν) : Alike p p := ⟨rfl, rfl⟩

theorem Alike.trans (h : Alike p p') (h' : Alike p' p'') : Alike p p'' :=
  ⟨h'.1.trans h.1, h'.2.trans h.2⟩

theorem length_entries (p : CachePolicy κ ν) : p.entries.length = p.len := by
  cases p with
  | lru q => rfl
  | arc q => exact List.length_append

theorem len_pos_of_mem {e : κ × ν} (h : e ∈ p.entries) : 0 < p.len := by
  rw [← length_entries]
  exact List.length_pos_of_mem h

variable [DecidableEq κ]

theorem Bounded.capacity_pos (h : p.Bounded) : 0 < p.capacity := by
  cases p with
  | lru q => exact LRUPolicy.Bounded.pos h
  | arc q => exact ARCPolicy.Bounded.pos h

theorem Bounded.len_le (h : p.Bounded) : p.len ≤ p.capacity := by
  cases p with
  | lru q => exact LRUPolicy.Bounded.size h
  | arc q => exact ARCPolicy.Bounded.resident h

/-- A key is there once. -/
theorem Bounded.nodup_keys (h : p.Bounded) : (keys p.entries).Nodup := by
  refine List.nodup_iff_count_le_one.mpr fun x => ?_
  cases p with
  | lru q => exact LRUPolicy.Bounded.once h x
  | arc q =>
    have hplaces := ARCPolicy.Bounded.once h x
    unfold ARCPolicy.places keys at hplaces
    rw [entries, keys, List.map_append, List.count_append]
    omega

theorem Bounded.value_unique (h : p.Bounded) {e e' : κ × ν} (he : e ∈ p.entries)
    (he' : e' ∈ p.entries) (hkey : e.1 = e'.1) : e = e' :=
  List.inj_on_of_nodup_map h.nodup_keys he he' hkey

theorem Bounded.len_le_of_subset (h : p.Bounded) {xs : List (κ × ν)}
    (hsub : ∀ e ∈ p.entries, e ∈ xs) :
    p.len ≤ xs.length := by
  rw [← length_entries]
  exact (List.subperm_of_subset h.nodup_keys.of_map hsub).length_le

variable [ToString κ]

theorem wp_get (h : p.Bounded) (key : κ) :
    wp (get key) (fun r p' => p'.Bounded ∧ Alike p p' ∧ (∀ e, e ∈ p'.entries ↔ e ∈ p.entries) ∧
      ∀ v, r = some v ↔ (key, v) ∈ p.entries) R p := by
  cases p with
  | lru q =>
    refine wp_dispatch_lru.mpr (wp_mono (LRUPolicy.wp_get h key) ?_ fun _ _ h0 => h0)
    rintro r q' ⟨hb, hcap, hsame, hr⟩
    exact ⟨hb, ⟨hcap, rfl⟩, hsame, hr⟩
  | arc q =>
    refine wp_dispatch_arc.mpr (wp_mono (ARCPolicy.wp_get h key) ?_ fun _ _ h0 => h0)
    rintro r q' ⟨hb, hcap, hsame, hr⟩
    refine ⟨hb, ⟨hcap, rfl⟩, fun e => ?_, fun v => ?_⟩
    · rw [entries, entries, List.mem_append, List.mem_append]
      exact hsame e
    · rw [entries, List.mem_append]
      exact hr v

omit [ToString κ] in
/-- **`evict`** removes one entry, if there is one. -/
theorem wp_evict (h : p.Bounded) :
    wp evict (fun r p' => p'.Bounded ∧ Alike p p' ∧ ((r = none ∧ p.len = 0 ∧ p' = p) ∨
      ∃ e, r = some e ∧ e ∈ p.entries ∧ p'.len + 1 = p.len ∧
        ∀ e', e' ∈ p'.entries ↔ e' ∈ p.entries ∧ e'.1 ≠ e.1)) R p := by
  cases p with
  | lru q =>
    refine wp_dispatch_lru.mpr (wp_mono (LRUPolicy.wp_evict h) ?_ fun _ _ h0 => h0)
    rintro r q' ⟨hb, hcap, ⟨hr, rfl, hlen⟩ | hsome⟩
    · exact ⟨hb, Alike.refl _, Or.inl ⟨hr, hlen, rfl⟩⟩
    · exact ⟨hb, ⟨hcap, rfl⟩, Or.inr hsome⟩
  | arc q =>
    refine wp_dispatch_arc.mpr (wp_mono (ARCPolicy.wp_evict h) ?_ fun _ _ h0 => h0)
    rintro r q' ⟨hb, hcap, ⟨hr, rfl, hlen⟩ | ⟨e, hr, he, hlen, hiff⟩⟩
    · exact ⟨hb, Alike.refl _, Or.inl ⟨hr, hlen, rfl⟩⟩
    · refine ⟨hb, ⟨hcap, rfl⟩, Or.inr ⟨e, hr, List.mem_append.mpr he, hlen, fun e' => ?_⟩⟩
      rw [entries, entries, List.mem_append, List.mem_append]
      exact hiff e'

/-- **A `put` that fits** leaves the other entries. -/
theorem wp_put (h : p.Bounded) {key : κ} (hfits : p.Fits key) (value : ν) :
    wp (put key value) (fun _ p' => p'.Bounded ∧ Alike p p' ∧
      ∀ e, e ∈ p'.entries ↔ e = (key, value) ∨ (e ∈ p.entries ∧ e.1 ≠ key)) R p := by
  cases p with
  | lru q =>
    refine wp_dispatch_lru.mpr (wp_mono (LRUPolicy.wp_put h hfits value) ?_ fun _ _ h0 => h0)
    rintro _ q' ⟨hb, hcap, hiff⟩
    exact ⟨hb, ⟨hcap, rfl⟩, hiff⟩
  | arc q =>
    have hput := wp_and (ARCPolicy.wp_put (R := fun e q' => R e (.arc q')) h key value)
      (ARCPolicy.wp_put_fits (R := fun e q' => R e (.arc q')) h hfits value)
    refine wp_dispatch_arc.mpr (wp_mono hput ?_ fun _ _ h0 => h0.1)
    rintro _ q' ⟨hstored, hsets⟩
    refine ⟨hstored.bounded, ⟨hstored.capacity, rfl⟩, fun e => ?_⟩
    rw [entries, entries, List.mem_append, List.mem_append]
    exact hsets e

/-- A policy with room takes every key. -/
theorem wp_put_of_len (h : p.Bounded) (hlen : p.len < p.capacity) (key : κ) (value : ν) :
    wp (put key value) (fun _ _ => True) R p := by
  cases p with
  | lru q =>
    exact wp_mono (wp_put (p := .lru q) h (Or.inr hlen) value) (fun _ _ _ => trivial)
      fun _ _ h0 => h0
  | arc q =>
    exact wp_dispatch_arc.mpr
      (wp_mono (ARCPolicy.wp_put h key value) (fun _ _ _ => trivial) fun _ _ h0 => h0)

end CachePolicy

/-! ### The cache -/

structure CPUBlockCache where
  cpuPool : BlockPool
  policy : CachePolicy ℤ ℕ
  hashToCpuBlock : ℤ → Option ℕ
  cpuIdToHash : ℕ → Option ℤ

namespace CPUBlockCache

/-- `capacity or cpu_pool.total_blocks()`: zero is no capacity. -/
def capacityOr (capacity : Option ℤ) (cpuPool : BlockPool) : ℤ :=
  match capacity with
  | none => cpuPool.numBlocks
  | some c => if c = 0 then cpuPool.numBlocks else c

def new (cpuPool : BlockPool) (policy : Option (CachePolicy ℤ ℕ)) (capacity : Option ℤ) :
    Except PyError CPUBlockCache := do
  let fresh := do
    let lru ← LRUPolicy.new (capacityOr capacity cpuPool)
    return CachePolicy.lru lru
  let policy ← match policy with
    | none => fresh
    | some p => if p.len = 0 then fresh else .ok p
  return ⟨cpuPool, policy, fun _ => none, fun _ => none⟩

/-- Run a method of the policy. -/
def onPolicy {α : Type} (m : Prog PyError (CachePolicy ℤ ℕ) α) : Prog PyError CPUBlockCache α :=
  zoom policy (fun p s => { s with policy := p }) m

/-- Run a method of the pool. -/
def onPool {α : Type} (m : Prog PyError BlockPool α) : Prog PyError CPUBlockCache α :=
  zoom cpuPool (fun p s => { s with cpuPool := p }) m

/-- Both dictionaries get the block. -/
def record (blockHash : ℤ) (b : ℕ) (s : CPUBlockCache) : CPUBlockCache :=
  { s with
    hashToCpuBlock := Function.update s.hashToCpuBlock blockHash (some b)
    cpuIdToHash := Function.update s.cpuIdToHash b (some blockHash) }

/-- Both dictionaries lose the block. -/
def forget (blockHash : ℤ) (b : ℕ) (s : CPUBlockCache) : CPUBlockCache :=
  { s with
    hashToCpuBlock := Function.update s.hashToCpuBlock blockHash none
    cpuIdToHash := Function.update s.cpuIdToHash b none }

/-- `if cpu_block.ref_cnt > 0: free_block(cpu_block)`. -/
def release (b : ℕ) : Prog PyError CPUBlockCache Unit := do
  let s ← current
  if 0 < (s.cpuPool.blocks b).refCnt then onPool (freeBlock b) else pure ()

/-- The loop of `_evict_if_needed_locked`; the policy has at most `n` entries. -/
def evictLoop : ℕ → Prog PyError CPUBlockCache Unit
  | 0 => pure ()
  | n + 1 => do
    let s ← current
    if s.policy.capacity ≤ s.policy.len then
      let evicted ← onPolicy CachePolicy.evict
      match evicted with
      | none => pure ()
      | some (blockHash, cpuBlockId) =>
        let s ← current
        let cpuBlock := s.hashToCpuBlock blockHash
        update (forget blockHash cpuBlockId)
        match cpuBlock with
        | none => pure ()
        | some b => release b
        evictLoop n
    else pure ()

def evictIfNeeded : Prog PyError CPUBlockCache Unit := do
  let s ← current
  evictLoop s.policy.len

def store (blockHash : ℤ) (_gpuBlockId : ℤ) : Prog PyError CPUBlockCache (Option ℕ) := do
  let s ← current
  match s.hashToCpuBlock blockHash with
  | some b =>
    let _ ← onPolicy (CachePolicy.get blockHash)
    return some b
  | none =>
    evictIfNeeded
    let cpuBlock ← onPool allocateBlock
    match cpuBlock with
    | none => return none
    | some b =>
      update (record blockHash b)
      onPolicy (CachePolicy.put blockHash b)
      return some b

def load (blockHash : ℤ) : Prog PyError CPUBlockCache (Option ℕ) := do
  let cpuBlockId ← onPolicy (CachePolicy.get blockHash)
  match cpuBlockId with
  | none => return none
  | some c =>
    let s ← current
    match s.hashToCpuBlock blockHash with
    | none => return none
    | some b => return if b = c then some c else none

/-- The first loop of `_remove_from_policy_locked`; the policy has fewer than `n` entries. -/
def drain (targetHash : ℤ) : ℕ → List (ℤ × ℕ) → Prog PyError (CachePolicy ℤ ℕ) (List (ℤ × ℕ))
  | 0, retained => pure retained
  | n + 1, retained => do
    let item ← CachePolicy.evict
    match item with
    | none => return retained
    | some e => drain targetHash n (if e.1 ≠ targetHash then retained ++ [e] else retained)

/-- `_remove_from_policy_locked`. -/
def removeFromPolicy (targetHash : ℤ) : Prog PyError (CachePolicy ℤ ℕ) Unit := do
  let p ← current
  let retained ← drain targetHash (p.len + 1) []
  forEach (fun e : ℤ × ℕ => CachePolicy.put e.1 e.2) retained

def invalidate (blockHash : ℤ) : Prog PyError CPUBlockCache Unit := do
  let s ← current
  match s.hashToCpuBlock blockHash with
  | none => pure ()
  | some b =>
    update (forget blockHash b)
    onPolicy (removeFromPolicy blockHash)
    release b

/-! ### The dictionaries, the policy and the pool -/

/-- **In step**: both dictionaries and the policy hold the same blocks, and these are the blocks of
the pool with a reference. -/
structure Synced (s : CPUBlockCache) : Prop where
  wf : Wf s.cpuPool
  bounded : s.policy.Bounded
  capacity : s.policy.capacity ≤ s.cpuPool.numBlocks
  entries : ∀ h b, (h, b) ∈ s.policy.entries ↔ s.hashToCpuBlock h = some b
  inverse : ∀ b h, s.cpuIdToHash b = some h ↔ s.hashToCpuBlock h = some b
  refCnt : ∀ b, (s.cpuPool.blocks b).refCnt = if (s.cpuIdToHash b).isSome then 1 else 0

variable {s s' : CPUBlockCache} {R : PyError → CPUBlockCache → Prop}

/-- A hash has one block, and a block one hash. -/
theorem Synced.block_unique (h : Synced s) {k k' : ℤ} {b : ℕ} (hk : s.hashToCpuBlock k = some b)
    (hk' : s.hashToCpuBlock k' = some b) : k = k' := by
  have h1 := (h.inverse b k).mpr hk
  rw [(h.inverse b k').mpr hk', Option.some.injEq] at h1
  exact h1.symm

theorem Synced.refCnt_of_mapped (h : Synced s) {k : ℤ} {b : ℕ} (hk : s.hashToCpuBlock k = some b) :
    (s.cpuPool.blocks b).refCnt = 1 := by
  rw [h.refCnt, (h.inverse b k).mpr hk]
  rfl

/-- The dictionaries after `forget`. -/
theorem Synced.forget_maps (h : Synced s) {k : ℤ} {b : ℕ} (hk : s.hashToCpuBlock k = some b) :
    (∀ k' c, (forget k b s).hashToCpuBlock k' = some c ↔ s.hashToCpuBlock k' = some c ∧ k' ≠ k) ∧
      ∀ c k', (forget k b s).cpuIdToHash c = some k' ↔
        (forget k b s).hashToCpuBlock k' = some c := by
  have hleft : ∀ k' c, (forget k b s).hashToCpuBlock k' = some c ↔ s.hashToCpuBlock k' = some c ∧
      k' ≠ k := by
    intro k' c
    by_cases h0 : k' = k
    · subst h0
      simp [forget]
    · simp [forget, h0]
  refine ⟨hleft, fun c k' => ?_⟩
  rw [hleft]
  by_cases h0 : c = b
  · subst h0
    simp only [forget, Function.update_self]
    constructor
    · nofun
    · rintro ⟨h1, h2⟩
      exact absurd (h.block_unique h1 hk) h2
  · simp only [forget, Function.update_of_ne h0, h.inverse]
    constructor
    · intro h1
      refine ⟨h1, fun h2 => h0 ?_⟩
      rw [h2, hk] at h1
      exact (Option.some.inj h1).symm
    · exact fun h1 => h1.1

/-- **A block is given up**: its hash leaves the policy and both dictionaries, the pool gets it
back. -/
theorem wp_release (h : Synced s) {k : ℤ} {b : ℕ} (hk : s.hashToCpuBlock k = some b)
    {q : CachePolicy ℤ ℕ} (hq : q.Bounded) (halike : s.policy.Alike q)
    (hentries : ∀ e, e ∈ q.entries ↔ e ∈ s.policy.entries ∧ e.1 ≠ k) :
    wp (release b) (fun _ s' => Synced s' ∧ s'.policy = q ∧
      s'.cpuPool.numBlocks = s.cpuPool.numBlocks ∧
        ∀ k' c, s'.hashToCpuBlock k' = some c ↔ s.hashToCpuBlock k' = some c ∧ k' ≠ k) R
      { forget k b s with policy := q } := by
  have hone := h.refCnt_of_mapped hk
  obtain ⟨hmap, hinv⟩ := h.forget_maps hk
  simp only [release, onPool, wp_bind, wp_current, wp_ite, wp_zoom]
  refine ⟨fun _ => wp_mono (wp_freeBlock h.wf b) ?_ ?_,
    fun h0 => absurd (hone.symm ▸ Nat.one_pos) h0⟩
  · rintro _ pool ⟨-, hwf, hcounted, -⟩
    refine ⟨⟨hwf, hq, ?_, fun k' c => ?_, hinv, fun c => ?_⟩, trivial, hcounted.numBlocks, hmap⟩
    · exact halike.1.trans_le (h.capacity.trans_eq hcounted.numBlocks.symm)
    · rw [hentries, h.entries, hmap]
    · by_cases h0 : c = b
      · subst h0
        rw [hcounted.self]
        change _ = if (Function.update s.cpuIdToHash c none c).isSome then 1 else 0
        rw [Function.update_self]
        change (s.cpuPool.blocks c).refCnt - 1 = 0
        omega
      · rw [hcounted.other c h0]
        change _ = if (Function.update s.cpuIdToHash b none c).isSome then 1 else 0
        rw [Function.update_of_ne h0]
        exact h.refCnt c
  · rintro _ pool ⟨-, h0⟩
    exact absurd (hone.symm.trans h0) (by omega)

/-- The hashes that the loop evicts. -/
def victims : ℕ → CachePolicy ℤ ℕ → List ℤ
  | 0, _ => []
  | n + 1, p =>
    if p.capacity ≤ p.len then
      match CachePolicy.evict.run p with
      | (p', .ok (some e)) => e.1 :: victims n p'
      | _ => []
    else []

/-- **The loop** evicts until the policy has room. -/
theorem wp_evictLoop : ∀ (n : ℕ) {s : CPUBlockCache}, Synced s → s.policy.len ≤ n →
    wp (evictLoop n) (fun _ s' => Synced s' ∧ s.policy.Alike s'.policy ∧
      s'.policy.len < s'.policy.capacity ∧ s'.cpuPool.numBlocks = s.cpuPool.numBlocks ∧
      (s.policy.len < s.policy.capacity → s' = s) ∧
      ∀ k c, s'.hashToCpuBlock k = some c ↔ s.hashToCpuBlock k = some c ∧
        k ∉ victims n s.policy) R s
  | 0, s, h, hn => by
    have hpos := h.bounded.capacity_pos
    exact ⟨h, CachePolicy.Alike.refl _, by omega, rfl, fun _ => rfl, fun k c => by simp [victims]⟩
  | n + 1, s, h, hn => by
    simp only [evictLoop, onPolicy, wp_bind, wp_current, wp_ite, wp_zoom, wp_pure]
    refine ⟨fun hfull => ?_, fun hroom => ?_⟩
    · have hpos := h.bounded.capacity_pos
      obtain ⟨q, r, hrun, hq, halike, ⟨-, hlen, -⟩ | ⟨e, rfl, he, hlen, hentries⟩⟩ :=
        exists_of_wp (CachePolicy.wp_evict h.bounded)
      · omega
      · have hk := (h.entries e.1 e.2).mp he
        refine wp_of_eq hrun ?_
        simp only [wp_bind, wp_current, wp_update, hk]
        refine wp_mono (wp_release h hk hq halike hentries) ?_ fun _ _ h0 => h0
        rintro _ s₁ ⟨h₁, hpolicy, hnum, hmap⟩
        replace hpolicy : s₁.policy = q := hpolicy
        refine wp_mono (wp_evictLoop n h₁ (by rw [hpolicy]; omega)) ?_ fun _ _ h0 => h0
        rintro _ s₂ ⟨h₂, halike₂, hlt, hnum₂, -, hmap₂⟩
        rw [hpolicy] at halike₂ hmap₂
        refine ⟨h₂, halike.trans halike₂, hlt, hnum₂.trans hnum, fun h0 => by omega, fun k c => ?_⟩
        rw [hmap₂, hmap, victims, if_pos hfull, hrun, List.mem_cons, not_or, and_assoc]
    · refine ⟨h, CachePolicy.Alike.refl _, by omega, trivial, fun _ => trivial, fun k c => ?_⟩
      rw [victims, if_neg hroom]
      simp

/-- A pool with more blocks than the policy has entries has a free one. -/
theorem Synced.exists_free (h : Synced s) (hlen : s.policy.len < s.cpuPool.numBlocks) :
    s.cpuPool.freeQueue ≠ [] := by
  intro hnil
  have hsub : List.range s.cpuPool.numBlocks ⊆ s.policy.entries.map Prod.snd := by
    intro b hb
    have hlt := List.mem_range.mp hb
    have hfree : ¬ (b < s.cpuPool.numBlocks ∧ (s.cpuPool.blocks b).refCnt = 0) := by
      rw [← h.wf.free, hnil]
      exact List.not_mem_nil
    cases hid : s.cpuIdToHash b with
    | none =>
      refine absurd ⟨hlt, ?_⟩ hfree
      rw [h.refCnt, hid]
      rfl
    | some k => exact List.mem_map.mpr ⟨(k, b), (h.entries k b).mpr ((h.inverse b k).mp hid), rfl⟩
  have hle := (List.subperm_of_subset List.nodup_range hsub).length_le
  rw [List.length_range, List.length_map, CachePolicy.length_entries] at hle
  omega

/-- **A new block** for a hash without one, which the policy takes without giving up an entry. -/
theorem Synced.recorded (h : Synced s) {k : ℤ} {b : ℕ} (hnew : s.hashToCpuBlock k = none)
    {pool : BlockPool} (hwf : Wf pool) (hb : b ∈ s.cpuPool.freeQueue)
    (hcounted : Counted b 1 s.cpuPool pool) {q : CachePolicy ℤ ℕ} (hq : q.Bounded)
    (halike : s.policy.Alike q)
    (hentries : ∀ e, e ∈ q.entries ↔ e = (k, b) ∨ (e ∈ s.policy.entries ∧ e.1 ≠ k)) :
    Synced { record k b s with cpuPool := pool, policy := q } ∧
      ∀ k' c, (record k b s).hashToCpuBlock k' = some c ↔
        (k' = k ∧ c = b) ∨ s.hashToCpuBlock k' = some c := by
  have hfresh : s.cpuIdToHash b = none := by
    have hzero := ((h.wf.free b).mp hb).2
    rw [h.refCnt] at hzero
    cases hid : s.cpuIdToHash b with
    | none => rfl
    | some k' => simp [hid] at hzero
  have hmap : ∀ k' c, (record k b s).hashToCpuBlock k' = some c ↔
      (k' = k ∧ c = b) ∨ s.hashToCpuBlock k' = some c := by
    intro k' c
    by_cases h0 : k' = k
    · subst h0
      simp [record, hnew, eq_comm]
    · simp [record, h0]
  refine ⟨⟨hwf, hq, ?_, fun k' c => ?_, fun c k' => ?_, fun c => ?_⟩, hmap⟩
  · exact halike.1.trans_le (h.capacity.trans_eq hcounted.numBlocks.symm)
  · change (k', c) ∈ q.entries ↔ (record k b s).hashToCpuBlock k' = some c
    rw [hentries, hmap, Prod.mk.injEq, h.entries]
    refine or_congr_right ⟨fun h0 => h0.1, fun h0 => ⟨h0, ?_⟩⟩
    rintro rfl
    rw [hnew] at h0
    cases h0
  · change (record k b s).cpuIdToHash c = some k' ↔ (record k b s).hashToCpuBlock k' = some c
    rw [hmap]
    by_cases h0 : c = b
    · subst h0
      have hnone : s.hashToCpuBlock k' ≠ some c := fun h1 => by
        rw [(h.inverse c k').mpr h1] at hfresh
        cases hfresh
      simp [record, hnone, eq_comm]
    · simp [record, h0, h.inverse]
  · change (pool.blocks c).refCnt = if ((record k b s).cpuIdToHash c).isSome then 1 else 0
    by_cases h0 : c = b
    · subst h0
      rw [hcounted.self]
      simp [record]
    · rw [hcounted.other c h0, h.refCnt]
      simp [record, h0]

/-! ### The operations -/

/-- The policy takes a new hash, after the evictions, without giving up a further entry. -/
def Takes (k : ℤ) : CachePolicy ℤ ℕ → Prop
  | .lru _ => True
  | .arc q => q.capacity = 1 ∨ ARCPolicy.Fits q k

/-- The entries can be taken out and put back. -/
def Drains : CachePolicy ℤ ℕ → Prop
  | .lru _ => True
  | .arc q => q.len ≤ 2

instance (k : ℤ) : ∀ p : CachePolicy ℤ ℕ, Decidable (Takes k p)
  | .lru _ => isTrue trivial
  | .arc q => inferInstanceAs (Decidable (q.capacity = 1 ∨ ARCPolicy.Fits q k))

instance : ∀ p : CachePolicy ℤ ℕ, Decidable (Drains p)
  | .lru _ => isTrue trivial
  | .arc q => inferInstanceAs (Decidable (q.len ≤ 2))

theorem fits_of_takes {p p' : CachePolicy ℤ ℕ} {k : ℤ} (htakes : Takes k p) (hbounded : p.Bounded)
    (hnew : k ∉ keys p.entries) (halike : p.Alike p') (hlt : p'.len < p'.capacity)
    (hsame : p.len < p.capacity → p' = p) : p'.Fits k := by
  obtain ⟨hcap, harc⟩ := halike
  cases p' with
  | lru q' => exact Or.inr hlt
  | arc q' =>
    cases p with
    | lru q => cases harc
    | arc q =>
      replace hcap : q'.capacity = q.capacity := hcap
      replace hlt : q'.len < q'.capacity := hlt
      rcases htakes with hone | hfits
      · exact Or.inr (Or.inr (Or.inl (by omega)))
      · have hpos := ARCPolicy.Bounded.pos hbounded
        have hroom : q.len < q.capacity := by
          rcases hfits with h0 | h0 | h0 | h0
          · exact absurd (by simp [CachePolicy.entries, h0]) hnew
          · exact absurd (by simp [CachePolicy.entries, h0]) hnew
          · omega
          · omega
        rw [CachePolicy.arc.inj (hsame hroom)]
        exact hfits

theorem Synced.notMem_keys (h : Synced s) {k : ℤ} (hnew : s.hashToCpuBlock k = none) :
    k ∉ keys s.policy.entries := by
  intro hmem
  obtain ⟨e, he, rfl⟩ := List.mem_map.mp hmem
  rw [(h.entries e.1 e.2).mp he] at hnew
  cases hnew

/-- The hashes that a store of `k` evicts. -/
def evicted (k : ℤ) (s : CPUBlockCache) : List ℤ :=
  if s.hashToCpuBlock k = none then victims s.policy.len s.policy else []

/-- A change of the policy that keeps its entries. -/
theorem Synced.touched (h : Synced s) {q : CachePolicy ℤ ℕ} (hq : q.Bounded)
    (halike : s.policy.Alike q) (hsame : ∀ e, e ∈ q.entries ↔ e ∈ s.policy.entries) :
    Synced { s with policy := q } :=
  ⟨h.wf, hq, halike.1.trans_le h.capacity, fun k b => (hsame _).trans (h.entries k b),
    h.inverse, h.refCnt⟩

/-- **A store** gives a block, which the hash has from then on; the others keep theirs unless
evicted. -/
theorem wp_store (h : Synced s) {k : ℤ}
    (hk : s.hashToCpuBlock k ≠ none ∨ Takes k s.policy) (g : ℤ) :
    wp (store k g) (fun _ s' => Synced s' ∧ (s'.hashToCpuBlock k).isSome ∧
      ∀ k' c, k' ∉ evicted k s → s.hashToCpuBlock k' = some c →
        s'.hashToCpuBlock k' = some c) R s := by
  simp only [store, wp_bind, wp_current]
  split
  · next b hb =>
    simp only [onPolicy, wp_bind, wp_zoom, wp_pure]
    refine wp_mono (CachePolicy.wp_get h.bounded k) ?_ fun _ _ h0 => h0
    rintro _ q ⟨hq, halike, hsame, -⟩
    exact ⟨h.touched hq halike hsame, by rw [hb]; rfl, fun _ _ _ h0 => h0⟩
  · next hnew =>
    simp only [evictIfNeeded, wp_bind, wp_current]
    refine wp_mono (wp_evictLoop _ h le_rfl) ?_ fun _ _ h0 => h0
    rintro _ s₁ ⟨h₁, halike, hlt, -, hsame, hmap⟩
    have hnew₁ : s₁.hashToCpuBlock k = none := by
      cases hc : s₁.hashToCpuBlock k with
      | none => rfl
      | some c =>
        have := ((hmap k c).mp hc).1
        rw [hnew] at this
        cases this
    have hfits : s₁.policy.Fits k := by
      refine fits_of_takes (hk.resolve_left (not_not_intro hnew)) h.bounded
        (h.notMem_keys hnew) halike hlt ?_
      exact fun h0 => by rw [hsame h0]
    have hfree := h₁.exists_free (hlt.trans_le h₁.capacity)
    simp only [onPool, onPolicy, wp_zoom]
    refine wp_mono (wp_allocateBlock h₁.wf) ?_ fun _ _ h0 => h0
    rintro r pool ⟨hwf, ⟨-, hnil, -⟩ | ⟨b, rfl, hqueue, hcounted⟩⟩
    · exact absurd hnil hfree
    · simp only [wp_bind, wp_update, wp_zoom, wp_pure]
      refine wp_mono (CachePolicy.wp_put h₁.bounded hfits b) ?_ fun _ _ h0 => h0
      rintro _ q ⟨hq, halike', hentries⟩
      have hb : b ∈ s₁.cpuPool.freeQueue := by rw [hqueue]; exact List.mem_cons_self
      obtain ⟨hsynced, hmap'⟩ := h₁.recorded hnew₁ hwf hb hcounted hq halike' hentries
      refine ⟨hsynced, ?_, fun k' c hkept hc => ?_⟩
      · exact Option.isSome_iff_exists.mpr ⟨b, (hmap' k b).mpr (Or.inl ⟨rfl, rfl⟩)⟩
      · rw [evicted, if_pos hnew] at hkept
        exact (hmap' k' c).mpr (Or.inr ((hmap k' c).mpr ⟨hc, hkept⟩))

/-- A store never comes back without a block. -/
theorem wp_store_some (h : Synced s) (k g : ℤ) :
    wp (store k g) (fun r _ => ∃ b, r = some b) R s := by
  simp only [store, wp_bind, wp_current]
  split
  · next b hb =>
    simp only [onPolicy, wp_bind, wp_zoom, wp_pure]
    exact wp_mono (CachePolicy.wp_get h.bounded k) (fun _ _ _ => ⟨b, rfl⟩) fun _ _ h0 => h0
  · next hnew =>
    simp only [evictIfNeeded, wp_bind, wp_current]
    refine wp_mono (wp_evictLoop _ h le_rfl) ?_ fun _ _ h0 => h0
    rintro _ s₁ ⟨h₁, -, hlt, -, -, -⟩
    have hfree := h₁.exists_free (hlt.trans_le h₁.capacity)
    simp only [onPool, onPolicy, wp_zoom]
    refine wp_mono (wp_allocateBlock h₁.wf) ?_ fun _ _ h0 => h0
    rintro r pool ⟨-, ⟨-, hnil, -⟩ | ⟨b, rfl, -, -⟩⟩
    · exact absurd hnil hfree
    · simp only [wp_bind, wp_update, wp_zoom, wp_pure]
      exact wp_mono (CachePolicy.wp_put_of_len h₁.bounded hlt k b) (fun _ _ _ => ⟨b, rfl⟩)
        fun _ _ h0 => h0

/-- **A load** finds the block of the hash. -/
theorem wp_load (h : Synced s) (k : ℤ) :
    wp (load k) (fun r s' => Synced s' ∧ r = s.hashToCpuBlock k ∧
      s'.hashToCpuBlock = s.hashToCpuBlock) R s := by
  simp only [load, onPolicy, wp_bind, wp_zoom]
  refine wp_mono (CachePolicy.wp_get h.bounded k) ?_ fun _ _ h0 => h0
  rintro r q ⟨hq, halike, hsame, hr⟩
  have hsynced := h.touched hq halike hsame
  cases r with
  | none =>
    refine ⟨hsynced, ?_, rfl⟩
    cases hc : s.hashToCpuBlock k with
    | none => rfl
    | some c => exact (hr c).mpr ((h.entries k c).mpr hc)
  | some c =>
    have hc := (h.entries k c).mp ((hr c).mp rfl)
    simp only [wp_bind, wp_current, hc, if_true, wp_pure]
    exact ⟨hsynced, trivial, trivial⟩

/-- **Draining** the policy gives the other entries. -/
theorem wp_drain (target : ℤ) {R : PyError → CachePolicy ℤ ℕ → Prop} :
    ∀ (n : ℕ) {p : CachePolicy ℤ ℕ} (retained : List (ℤ × ℕ)), p.Bounded → p.len < n →
      wp (drain target n retained) (fun r p' => p'.Bounded ∧ p.Alike p' ∧ p'.len = 0 ∧
        (∀ e, e ∈ r ↔ e ∈ retained ∨ (e ∈ p.entries ∧ e.1 ≠ target)) ∧
        r.length + (keys p.entries).count target = retained.length + p.len) R p
  | 0, p, retained, h, hn => by omega
  | n + 1, p, retained, h, hn => by
    simp only [drain, wp_bind]
    refine wp_mono (CachePolicy.wp_evict h) ?_ fun _ _ h0 => h0
    rintro r p₁ ⟨h₁, halike, ⟨rfl, hlen, rfl⟩ | ⟨e, rfl, he, hlen, hiff⟩⟩
    · have hnil : p₁.entries = [] := by
        rw [← List.length_eq_zero_iff, CachePolicy.length_entries]
        exact hlen
      refine ⟨h₁, CachePolicy.Alike.refl _, hlen, fun e => ?_, ?_⟩
      · simp [hnil]
      · simp [hnil, hlen]
    · refine wp_mono
        (wp_drain target n (if e.1 ≠ target then retained ++ [e] else retained) h₁ (by omega)) ?_
        fun _ _ h0 => h0
      rintro r p₂ ⟨h₂, halike₂, hlen₂, hmem, hcount⟩
      have hself : ∀ e', e' ∈ p.entries → e'.1 = e.1 → e' = e :=
        fun e' he' hkey => h.value_unique he' he hkey
      have honce := List.nodup_iff_count_le_one.mp h.nodup_keys target
      refine ⟨h₂, halike.trans halike₂, hlen₂, fun e' => ?_, ?_⟩
      · rw [hmem, hiff]
        by_cases ht : e.1 = target
        · rw [if_neg (by simpa using ht), ht]
          constructor
          · exact fun h0 => h0.imp_right fun h1 => ⟨h1.1.1, h1.2⟩
          · exact fun h0 => h0.imp_right fun h1 => ⟨⟨h1.1, h1.2⟩, h1.2⟩
        · rw [if_pos ht, List.mem_append, List.mem_singleton]
          constructor
          · rintro ((h0 | rfl) | ⟨⟨h0, -⟩, h1⟩)
            · exact Or.inl h0
            · exact Or.inr ⟨he, ht⟩
            · exact Or.inr ⟨h0, h1⟩
          · rintro (h0 | ⟨h0, h1⟩)
            · exact Or.inl (Or.inl h0)
            · by_cases hkey : e'.1 = e.1
              · exact Or.inl (Or.inr (hself e' h0 hkey))
              · exact Or.inr ⟨⟨h0, hkey⟩, h1⟩
      · by_cases ht : e.1 = target
        · rw [if_neg (by simpa using ht)] at hcount
          have hgone : (keys p₁.entries).count target = 0 := by
            rw [List.count_eq_zero]
            intro hmem'
            obtain ⟨e', he', hkey⟩ := List.mem_map.mp hmem'
            exact ((hiff e').mp he').2 (hkey.trans ht.symm)
          have hthere : 0 < (keys p.entries).count target :=
            List.count_pos_iff.mpr (ht ▸ List.mem_map_of_mem he)
          omega
        · rw [if_pos ht, List.length_append, List.length_singleton] at hcount
          have hsame : target ∈ keys p₁.entries ↔ target ∈ keys p.entries := by
            simp only [keys, List.mem_map]
            constructor
            · rintro ⟨e', he', hkey⟩
              exact ⟨e', ((hiff e').mp he').1, hkey⟩
            · rintro ⟨e', he', hkey⟩
              exact ⟨e', (hiff e').mpr ⟨he', fun h0 => ht (h0.symm.trans hkey)⟩, hkey⟩
          have honce₁ := List.nodup_iff_count_le_one.mp h₁.nodup_keys target
          rw [← List.count_pos_iff, ← List.count_pos_iff] at hsame
          omega

/-- **Refilling** an empty policy with entries it has room for; of an `ARCPolicy` all but the last
entry would be given up, so that it may take one only. -/
theorem wp_refill {p : CachePolicy ℤ ℕ} (h : p.Bounded) (hempty : p.len = 0) {xs : List (ℤ × ℕ)}
    (hunique : ∀ e ∈ xs, ∀ e' ∈ xs, e.1 = e'.1 → e = e') (hroom : xs.length ≤ p.capacity)
    (hone : p.isArc = true → xs.length ≤ 1) {R : PyError → CachePolicy ℤ ℕ → Prop} :
    wp (forEach (fun e : ℤ × ℕ => CachePolicy.put e.1 e.2) xs)
      (fun _ p' => p'.Bounded ∧ p.Alike p' ∧ ∀ e, e ∈ p'.entries ↔ e ∈ xs) R p := by
  refine wp_mono (wp_forEach (R := R) (fun rest p' => p'.Bounded ∧ p.Alike p' ∧
    ∃ done, xs = done ++ rest ∧ ∀ e, e ∈ p'.entries ↔ e ∈ done) ?_ xs p
    ⟨h, CachePolicy.Alike.refl _, [], rfl, ?_⟩) ?_ fun _ _ h0 => h0
  · rintro e rest p' ⟨hb, halike, done, hxs, hiff⟩
    have hlen : p'.len ≤ done.length := hb.len_le_of_subset fun e he => (hiff e).mp he
    rw [hxs, List.length_append, List.length_cons] at hroom hone
    have hfits : p'.Fits e.1 := by
      obtain ⟨hcap, harc⟩ := halike
      cases p' with
      | lru q =>
        refine Or.inr ?_
        replace hcap : q.capacity = p.capacity := hcap
        replace hlen : q.len ≤ done.length := hlen
        omega
      | arc q =>
        refine Or.inr (Or.inr (Or.inl ?_))
        have := hone harc.symm
        replace hlen : q.len ≤ done.length := hlen
        omega
    refine wp_mono (CachePolicy.wp_put hb hfits e.2) ?_ fun _ _ h0 => h0
    rintro _ p'' ⟨hb', halike', hentries⟩
    refine ⟨hb', halike.trans halike', done ++ [e], by simp [hxs], fun e' => ?_⟩
    rw [hentries, hiff, List.mem_append, List.mem_singleton]
    constructor
    · rintro (h0 | h0)
      · exact Or.inr h0
      · exact Or.inl h0.1
    · rintro (h0 | h0)
      · by_cases hkey : e'.1 = e.1
        · exact Or.inl (hunique e' (by simp [hxs, h0]) e (by simp [hxs]) hkey)
        · exact Or.inr ⟨h0, hkey⟩
      · exact Or.inl h0
  · intro e
    have hnil : p.entries = [] := by
      rw [← List.length_eq_zero_iff, CachePolicy.length_entries]
      exact hempty
    simp [hnil]
  · rintro _ p' ⟨hb, halike, done, hxs, hiff⟩
    rw [List.append_nil] at hxs
    exact ⟨hb, halike, hxs ▸ hiff⟩

/-- **An invalidation** takes the hash out of the policy, the dictionaries and the pool. -/
theorem wp_invalidate (h : Synced s) {k : ℤ} (hk : s.hashToCpuBlock k = none ∨ Drains s.policy) :
    wp (invalidate k) (fun _ s' => Synced s' ∧
      ∀ k' c, k' ≠ k → s.hashToCpuBlock k' = some c → s'.hashToCpuBlock k' = some c) R s := by
  simp only [invalidate, wp_bind, wp_current]
  split
  · exact ⟨h, fun _ _ _ h0 => h0⟩
  · next b hb =>
    have hdrains := hk.resolve_left (by rw [hb]; simp)
    have hmem : (k, b) ∈ s.policy.entries := (h.entries k b).mpr hb
    have hthere : 0 < (keys s.policy.entries).count k :=
      List.count_pos_iff.mpr (List.mem_map_of_mem hmem)
    simp only [onPolicy, removeFromPolicy, wp_bind, wp_update, wp_zoom, wp_current]
    refine wp_mono (wp_drain k _ [] h.bounded (Nat.lt_succ_self _)) ?_ fun _ _ h0 => h0
    rintro retained p₁ ⟨hb₁, halike₁, hempty, hretained, hcount⟩
    have hpolicy : (forget k b s).policy = s.policy := rfl
    rw [hpolicy] at halike₁ hretained hcount
    rw [List.length_nil, Nat.zero_add] at hcount
    have hle := h.bounded.len_le
    refine wp_mono (wp_refill hb₁ hempty ?_ ?_ ?_) ?_ fun _ _ h0 => h0
    · intro e he e' he' hkey
      rw [hretained] at he he'
      exact h.bounded.value_unique (he.resolve_left List.not_mem_nil).1
        (he'.resolve_left List.not_mem_nil).1 hkey
    · rw [halike₁.1]
      omega
    · intro harc
      rw [halike₁.2] at harc
      cases hp : s.policy with
      | lru q =>
        rw [hp] at harc
        cases harc
      | arc q =>
        rw [hp] at hdrains hcount hthere
        replace hdrains : (CachePolicy.arc q).len ≤ 2 := hdrains
        omega
    · rintro _ p₂ ⟨hb₂, halike₂, hentries⟩
      have hleft : ∀ e, e ∈ p₂.entries ↔ e ∈ s.policy.entries ∧ e.1 ≠ k := by
        intro e
        rw [hentries, hretained]
        exact or_iff_right List.not_mem_nil
      refine wp_mono (wp_release h hb hb₂ (halike₁.trans halike₂) hleft) ?_ fun _ _ h0 => h0
      rintro _ s' ⟨hsynced, -, -, hmap⟩
      exact ⟨hsynced, fun k' c hne hc => (hmap k' c).mpr ⟨hc, hne⟩⟩

/-! ### Runs -/

/-- A call of a method. -/
inductive Op where
  | store (blockHash gpuBlockId : ℤ)
  | load (blockHash : ℤ)
  | evictIfNeeded
  | invalidate (blockHash : ℤ)

/-- The state that a call leaves, whether it returns or raises. -/
def step (s : CPUBlockCache) : Op → CPUBlockCache
  | .store k g => (store k g).state s
  | .load k => (load k).state s
  | .evictIfNeeded => evictIfNeeded.state s
  | .invalidate k => (invalidate k).state s

/-- The call does not make an `ARCPolicy` give up an entry inside `put`. -/
def Keeps (s : CPUBlockCache) : Op → Prop
  | .store k _ => s.hashToCpuBlock k ≠ none ∨ Takes k s.policy
  | .load _ => True
  | .evictIfNeeded => True
  | .invalidate k => s.hashToCpuBlock k = none ∨ Drains s.policy

instance (s : CPUBlockCache) : ∀ op : Op, Decidable (Keeps s op)
  | .store k _ => inferInstanceAs (Decidable (s.hashToCpuBlock k ≠ none ∨ Takes k s.policy))
  | .load _ => isTrue trivial
  | .evictIfNeeded => isTrue trivial
  | .invalidate k => inferInstanceAs (Decidable (s.hashToCpuBlock k = none ∨ Drains s.policy))

/-- The hashes that a call evicts or invalidates. -/
def removed (s : CPUBlockCache) : Op → List ℤ
  | .store k _ => evicted k s
  | .load _ => []
  | .evictIfNeeded => victims s.policy.len s.policy
  | .invalidate k => [k]

theorem Synced.stepped (h : Synced s) {op : Op} (hkeeps : Keeps s op) : Synced (step s op) ∧
    ∀ k c, k ∉ removed s op → s.hashToCpuBlock k = some c →
      (step s op).hashToCpuBlock k = some c := by
  cases op with
  | store k g =>
    obtain ⟨s', r, hrun, hsynced, -, hkept⟩ := exists_of_wp (wp_store h hkeeps g)
    simp only [step, Prog.state, hrun]
    exact ⟨hsynced, hkept⟩
  | load k =>
    obtain ⟨s', r, hrun, hsynced, -, hmap⟩ := exists_of_wp (wp_load h k)
    simp only [step, Prog.state, hrun]
    exact ⟨hsynced, fun k' c _ hc => by rw [hmap]; exact hc⟩
  | evictIfNeeded =>
    obtain ⟨s', r, hrun, hsynced, -, -, -, -, hmap⟩ := exists_of_wp (wp_evictLoop _ h le_rfl)
    have hstep : step s .evictIfNeeded = s' := congrArg Prod.fst hrun
    rw [hstep]
    exact ⟨hsynced, fun k c hkept hc => (hmap k c).mpr ⟨hc, hkept⟩⟩
  | invalidate k =>
    obtain ⟨s', r, hrun, hsynced, hkept⟩ := exists_of_wp (wp_invalidate h hkeeps)
    simp only [step, Prog.state, hrun]
    exact ⟨hsynced, fun k' c hne => hkept k' c (by simpa [removed] using hne)⟩

/-- The entries of the policy are the hashes that have a block, the dictionaries are inverse to each
other, and the blocks out of the free queue are those of the dictionary. -/
structure Agrees (s : CPUBlockCache) : Prop where
  resident : ∀ k, k ∈ keys s.policy.entries ↔ (s.hashToCpuBlock k).isSome
  inverse : ∀ b k, s.cpuIdToHash b = some k ↔ s.hashToCpuBlock k = some b
  allocated : ∀ b < s.cpuPool.numBlocks, b ∉ s.cpuPool.freeQueue ↔ ∃ k, s.hashToCpuBlock k = some b

theorem Synced.agrees (h : Synced s) : Agrees s := by
  refine ⟨fun k => ?_, h.inverse, fun b hb => ?_⟩
  · rw [keys, List.mem_map, Option.isSome_iff_exists]
    constructor
    · rintro ⟨e, he, rfl⟩
      exact ⟨e.2, (h.entries e.1 e.2).mp he⟩
    · rintro ⟨c, hc⟩
      exact ⟨(k, c), (h.entries k c).mpr hc, rfl⟩
  · rw [h.wf.free, h.refCnt]
    cases hid : s.cpuIdToHash b with
    | none =>
      refine ⟨fun h0 => absurd ⟨hb, rfl⟩ h0, ?_⟩
      rintro ⟨k, hk⟩
      rw [(h.inverse b k).mpr hk] at hid
      cases hid
    | some k =>
      exact ⟨fun _ => ⟨k, (h.inverse b k).mp hid⟩, fun _ h0 => absurd h0.2 Nat.one_ne_zero⟩

/-- What holds after the calls `ops` from `s₀`: the parts agree, a store gives a block, and a load
finds every hash that was stored and neither evicted nor invalidated since. -/
structure Serves (s₀ : CPUBlockCache) (ops : List Op) : Prop where
  agrees : Agrees (exec step s₀ ops)
  stores : ∀ k g, ∃ b, ((store k g).run (exec step s₀ ops)).2 = .ok (some b)
  loads : ∀ before k g after, ops = before ++ .store k g :: after →
    Along step (fun s op => k ∉ removed s op) (exec step s₀ (before ++ [.store k g])) after →
    ∃ b, ((load k).run (exec step s₀ ops)).2 = .ok (some b)

theorem Synced.run (h : Synced s) (ops : List Op) (hkeeps : Along step Keeps s ops) :
    Synced (exec step s ops) := inv_exec (fun _ _ h hG => (h.stepped hG).1) ops s h hkeeps

/-- A hash keeps its block until it is evicted or invalidated. -/
theorem Synced.found (h : Synced s) {k : ℤ} (hk : (s.hashToCpuBlock k).isSome) (ops : List Op)
    (hkeeps : Along step Keeps s ops) (hkept : Along step (fun s op => k ∉ removed s op) s ops) :
    ((exec step s ops).hashToCpuBlock k).isSome := by
  induction ops generalizing s with
  | nil => exact hk
  | cons op ops ih =>
    obtain ⟨c, hc⟩ := Option.isSome_iff_exists.mp hk
    obtain ⟨hsynced, hmap⟩ := h.stepped hkeeps.1
    exact ih hsynced (Option.isSome_iff_exists.mpr ⟨c, hmap k c hkept.1 hc⟩) hkeeps.2 hkept.2

theorem Synced.serves (h : Synced s) (ops : List Op) (hkeeps : Along step Keeps s ops) :
    Serves s ops := by
  have hend := h.run ops hkeeps
  refine ⟨hend.agrees, fun k g => ?_, fun before k g after hops hkept => ?_⟩
  · obtain ⟨s', r, hrun, b, rfl⟩ := exists_of_wp (wp_store_some hend k g)
    exact ⟨b, by rw [hrun]⟩
  · rw [hops, List.append_cons, along_append] at hkeeps
    have hmid := h.run _ hkeeps.1
    have hstored : ((exec step s (before ++ [.store k g])).hashToCpuBlock k).isSome := by
      have hpre := (along_append.mp hkeeps.1).1
      have hlast := (along_append.mp hkeeps.1).2.1
      obtain ⟨s', r, hrun, -, hsome, -⟩ := exists_of_wp (wp_store (h.run before hpre) hlast g)
      rw [exec_append, exec_cons, exec_nil]
      simp only [step, Prog.state, hrun]
      exact hsome
    have hfound := hmid.found hstored after hkeeps.2 hkept
    rw [← exec_append, ← List.append_cons, ← hops] at hfound
    obtain ⟨b, hb⟩ := Option.isSome_iff_exists.mp hfound
    obtain ⟨s', r, hrun, -, hr, -⟩ := exists_of_wp (wp_load hend k)
    exact ⟨b, by rw [hrun, hr, hb]⟩

/-! ### The class of the policy stays -/

theorem leaves_dispatch {α : Type} (l : Prog PyError (LRUPolicy ℤ ℕ) α)
    (a : Prog PyError (ARCPolicy ℤ ℕ) α) :
    Leaves CachePolicy.isArc (CachePolicy.dispatch l a) := fun p => by cases p <;> rfl

/-- Whether the policy is an `ARCPolicy`. -/
def ofArc (s : CPUBlockCache) : Bool := s.policy.isArc

theorem leaves_onPolicy {α : Type} {m : Prog PyError (CachePolicy ℤ ℕ) α}
    (h : Leaves CachePolicy.isArc m) :
    Leaves ofArc (onPolicy m) := leaves_zoom fun s q hq => by
  change q.isArc = s.policy.isArc
  rw [hq]
  exact h _

theorem leaves_onPool {α : Type} (m : Prog PyError BlockPool α) : Leaves ofArc (onPool m) :=
  leaves_zoom fun _ _ _ => rfl

theorem leaves_release (b : ℕ) : Leaves ofArc (release b) :=
  leaves_bind leaves_current fun _ => leaves_ite (leaves_onPool _) (leaves_pure _)

theorem leaves_evictLoop : ∀ n : ℕ, Leaves ofArc (evictLoop n)
  | 0 => leaves_pure ()
  | n + 1 => by
    refine leaves_bind leaves_current fun s => leaves_ite ?_ (leaves_pure _)
    refine leaves_bind (leaves_onPolicy (leaves_dispatch _ _)) fun r => ?_
    split
    · exact leaves_pure _
    · next _ k c =>
      refine leaves_bind leaves_current fun s => leaves_bind (leaves_update fun _ => rfl)
        fun _ => ?_
      cases s.hashToCpuBlock k with
      | none => exact leaves_evictLoop n
      | some b => exact leaves_bind (leaves_release b) fun _ => leaves_evictLoop n

theorem leaves_drain (target : ℤ) : ∀ (n : ℕ) (retained : List (ℤ × ℕ)),
    Leaves CachePolicy.isArc (CPUBlockCache.drain target n retained)
  | 0, _ => leaves_pure _
  | n + 1, _ => by
    refine leaves_bind (leaves_dispatch _ _) fun r => ?_
    split
    · exact leaves_pure _
    · exact leaves_drain target n _

theorem ofArc_step (s : CPUBlockCache) (op : Op) : ofArc (step s op) = ofArc s := by
  have hevict : Leaves ofArc evictIfNeeded := leaves_bind leaves_current fun _ => leaves_evictLoop _
  have hget : ∀ k, Leaves ofArc (onPolicy (CachePolicy.get k)) :=
    fun k => leaves_onPolicy (leaves_dispatch _ _)
  have hput : ∀ (k : ℤ) (b : ℕ), Leaves CachePolicy.isArc (CachePolicy.put k b) :=
    fun k b => leaves_dispatch _ _
  cases op with
  | store k g =>
    refine leaves_bind leaves_current (fun s => ?_) s
    split
    · exact leaves_bind (hget k) fun _ => leaves_pure _
    · refine leaves_bind hevict fun _ => leaves_bind (leaves_onPool _) fun r => ?_
      split
      · exact leaves_pure _
      · exact leaves_bind (leaves_update fun _ => rfl) fun _ =>
          leaves_bind (leaves_onPolicy (hput k _)) fun _ => leaves_pure _
  | load k =>
    refine leaves_bind (hget k) (fun r => ?_) s
    split
    · exact leaves_pure _
    · refine leaves_bind leaves_current fun s => ?_
      split <;> exact leaves_pure _
  | evictIfNeeded => exact hevict s
  | invalidate k =>
    refine leaves_bind leaves_current (fun s => ?_) s
    split
    · exact leaves_pure _
    · refine leaves_bind (leaves_update fun _ => rfl) fun _ => leaves_bind (leaves_onPolicy ?_)
        fun _ => leaves_release _
      exact leaves_bind leaves_current fun _ => leaves_bind (leaves_drain k _ _) fun _ =>
        leaves_forEach (fun e : ℤ × ℕ => hput e.1 e.2) _

/-- With an `LRUPolicy` every call keeps the parts in step. -/
theorem keeps_lru (hlru : ofArc s = false) (ops : List Op) : Along step Keeps s ops := by
  induction ops generalizing s with
  | nil => trivial
  | cons op ops ih =>
    refine ⟨?_, ih ((ofArc_step s op).trans hlru)⟩
    cases hp : s.policy with
    | arc q =>
      rw [ofArc, hp] at hlru
      cases hlru
    | lru q =>
      cases op with
      | store k g => exact Or.inr (by rw [hp]; trivial)
      | load k => trivial
      | evictIfNeeded => trivial
      | invalidate k => exact Or.inr (by rw [hp]; trivial)

/-- A cache made over a pool of its own, without a policy or with one that has no entries. -/
def New (s : CPUBlockCache) : Prop :=
  ∃ n policy capacity, CPUBlockCache.new (BlockPool.new n) policy capacity = .ok s ∧
    (∀ p, policy = some p → p.len = 0) ∧ s.policy.capacity ≤ n

/-- A cache without blocks, over a policy without entries. -/
theorem synced_empty {n : ℕ} {p : CachePolicy ℤ ℕ} (hb : p.Bounded) (hempty : p.len = 0)
    (hcap : p.capacity ≤ n) :
    Synced ⟨BlockPool.new n, p, fun _ => none, fun _ => none⟩ := by
  refine ⟨wf_new n, hb, hcap, fun k b => ⟨fun he => ?_, nofun⟩, fun b k => ⟨nofun, nofun⟩,
    fun b => rfl⟩
  have := CachePolicy.len_pos_of_mem he
  simp only at this
  omega

/-- A policy without entries is replaced by an `LRUPolicy`. -/
theorem New.synced (h : New s) : Synced s ∧ ofArc s = false := by
  obtain ⟨n, policy, capacity, hnew, hempty, hcap⟩ := h
  have hmake : ∀ {x : Except PyError (LRUPolicy ℤ ℕ)}, (do
      let policy ← (do let lru ← x; return CachePolicy.lru lru)
      return (⟨BlockPool.new n, policy, fun _ => none, fun _ => none⟩ : CPUBlockCache)) = .ok s →
      ∃ lru, x = .ok lru ∧ s = ⟨BlockPool.new n, .lru lru, fun _ => none, fun _ => none⟩ := by
    intro x hx
    cases x with
    | error e => cases hx
    | ok lru => exact ⟨lru, rfl, (Except.ok.inj hx).symm⟩
  have hfresh : ∃ lru, LRUPolicy.new (capacityOr capacity (BlockPool.new n)) = .ok lru ∧
      s = ⟨BlockPool.new n, .lru lru, fun _ => none, fun _ => none⟩ := by
    cases policy with
    | none => exact hmake hnew
    | some p =>
      rw [CPUBlockCache.new] at hnew
      simp only [hempty p rfl, if_true] at hnew
      exact hmake hnew
  obtain ⟨lru, hlru, rfl⟩ := hfresh
  unfold LRUPolicy.new at hlru
  split_ifs at hlru with hneg
  obtain rfl := Except.ok.inj hlru
  refine ⟨synced_empty ⟨?_, fun x => Nat.zero_le _, Nat.zero_le _⟩ rfl hcap, rfl⟩
  simp only
  omega

/-- **The cache of CPU blocks** in every run: where it is made with no policy, or one without
entries, over a pool that is large enough, and from every state in step, along calls in which `put`
gives up no entry. -/
theorem cache_run {s₀ : CPUBlockCache} {ops : List Op}
    (h : New s₀ ∨ (Synced s₀ ∧ Along step Keeps s₀ ops)) : Serves s₀ ops := by
  rcases h with hnew | ⟨hsynced, hkeeps⟩
  · obtain ⟨hsynced, hlru⟩ := hnew.synced
    exact hsynced.serves ops (keeps_lru hlru ops)
  · exact hsynced.serves ops hkeeps

/-- A new cache over three blocks, and one whose policy is an `ARCPolicy`. -/
theorem cache_run_threeBlocks :
    Serves ⟨BlockPool.new 3, .lru ⟨3, []⟩, fun _ => none, fun _ => none⟩
        [.store 1 0, .store 2 0, .store 3 0, .store 4 0, .invalidate 3, .load 2] ∧
      Serves ⟨BlockPool.new 3, .arc ⟨3, 0, [], [], [], []⟩, fun _ => none, fun _ => none⟩
        [.store 1 0, .load 1, .store 2 0, .invalidate 1, .load 2] := by
  refine ⟨cache_run (Or.inl ⟨3, some (.arc ⟨5, 0, [], [], [], []⟩), none, rfl, ?_, le_rfl⟩),
    cache_run
      (Or.inr
        ⟨synced_empty ⟨by decide, fun x => ?_, by decide, by decide, by decide, by decide⟩ rfl
          le_rfl, by decide +kernel⟩)⟩
  · rintro p ⟨⟩
    rfl
  · simp [ARCPolicy.places]

/-- An `ARCPolicy` in which two keys were put. -/
def usedArc : ARCPolicy ℤ ℕ :=
  (ARCPolicy.put 101 0).state ((ARCPolicy.put 100 0).state ⟨2, 0, [], [], [], []⟩)

/-- The cache over it, and over a new `ARCPolicy`. -/
def overArc (q : ARCPolicy ℤ ℕ) : CPUBlockCache :=
  ⟨BlockPool.new 2, .arc q, fun _ => none, fun _ => none⟩

/-- **`put` gives up an entry**: after the first store the parts agree; the second one drops the
first hash from the policy without being evicted, its block is never freed, and the third finds no
block. Over a new `ARCPolicy` the same happens at the third store. -/
theorem hash_dropped_by_put :
    CPUBlockCache.new (BlockPool.new 2) (some (.arc usedArc)) none = .ok (overArc usedArc) ∧
      Agrees (exec step (overArc usedArc) [.store 1 0]) ∧
      ¬ Agrees (exec step (overArc usedArc) [.store 1 0, .store 2 0]) ∧
      1 ∉ removed (exec step (overArc usedArc) [.store 1 0]) (.store 2 0) ∧
      ((load 1).run (exec step (overArc usedArc) [.store 1 0, .store 2 0])).2 = .ok none ∧
      ((store 3 0).run (exec step (overArc usedArc) [.store 1 0, .store 2 0])).2 = .ok none ∧
      ¬ Agrees
        (exec step (overArc ⟨2, 0, [], [], [], []⟩) [.store 1 0, .store 2 0, .store 3 0]) := by
  have hentries : (exec step (overArc usedArc) [.store 1 0]).policy.entries = [(1, 0)] := by
    decide +kernel
  have hqueue : (exec step (overArc usedArc) [.store 1 0]).cpuPool.freeQueue = [1] := by
    decide +kernel
  have hmap : ∀ k, (exec step (overArc usedArc) [.store 1 0]).hashToCpuBlock k = if k = 1
      then some 0 else none := by
    intro k
    change Function.update (Function.update (fun _ => none) 100 none) 1 (some 0) k = _
    simp [Function.update_apply]
  refine ⟨rfl, ⟨fun k => ?_, fun b k => ?_, fun b hb => ?_⟩, fun h => ?_,
    by decide +kernel, rfl, rfl, fun h => ?_⟩
  · rw [hentries, hmap]
    split_ifs with hk <;> simp [hk]
  · rw [hmap]
    change Function.update (Function.update (fun _ => none) 0 none) 0 (some 1) b = _ ↔ _
    by_cases hb : b = 0
    · simp [hb, eq_comm]
    · simp [hb, Ne.symm hb]
  · rw [hqueue]
    simp only [hmap]
    have hlt : b < 2 := hb
    constructor
    · exact fun h0 => ⟨1, by simp at h0; simp; omega⟩
    · rintro ⟨k, hk⟩
      split_ifs at hk
      simp at hk
      simp
      omega
  · have hstored := (h.resident 1).mpr rfl
    revert hstored
    decide +kernel
  · have hstored := (h.resident 2).mpr rfl
    revert hstored
    decide +kernel

end CPUBlockCache

end MoeInfinity.Memory.CpuBlockCache
