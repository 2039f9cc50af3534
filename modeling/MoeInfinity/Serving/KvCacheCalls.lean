import MoeInfinity.Lib.Runs
import MoeInfinity.Serving.KvCacheSpec

/-! # Calls of the KV cache that raise

`allocate_sequence` and `append_tokens` take blocks token by token, and `swap_in` pops the CPU copy
before it asks for blocks; none of them undoes what it has done when the pool runs out. For each of
them the calls that raise without a trace are described by a condition on the state before the call
(`Clean`), over all runs of the cache's methods.

The objects:

* `Call` is a call of one of the three methods, with the Python integers of its signature;
* `Op` is a call of any method, or a write of the model to the KV tensor;
* `Sound` (no block in two places) holds in every reachable state; the partition `Wf` does not,
  since a call that raises can lose blocks. -/

namespace MoeInfinity.Serving.KvCacheCalls

open MoeInfinity.Python MoeInfinity.Lib.Imperative MoeInfinity.Lib.Runs
open MoeInfinity.Serving.KvCache MoeInfinity.Serving.KvCacheSpec
open MoeInfinity.Serving.AllocatorSpec (taken returned Freeable)

variable {β : Type}

/-! ### The methods with their checks -/

/-- `allocate_sequence`: after the check of the id comes the one of the count. -/
def allocateSequence (seqId : ℕ) (numTokens : ℤ) : Prog PyError (PagedKVCache β) Unit := do
  let c ← current
  if (c.sequenceTables seqId).isSome then
    raise (.valueError s!"sequence {seqId} already exists")
  else if numTokens < 0 then
    raise (.valueError s!"num_tokens must be >= 0, got {numTokens}")
  else PagedKVCache.allocateSequence seqId numTokens.toNat

/-- `append_tokens`: the count is checked before the id. -/
def appendTokens (seqId : ℕ) (numNewTokens : ℤ) : Prog PyError (PagedKVCache β) Unit :=
  if numNewTokens < 0 then
    raise (.valueError s!"num_new_tokens must be >= 0, got {numNewTokens}")
  else PagedKVCache.appendTokens seqId numNewTokens.toNat

/-- A call of one of the methods that take blocks. -/
inductive Call where
  | allocateSequence (seqId : ℕ) (numTokens : ℤ)
  | appendTokens (seqId : ℕ) (numNewTokens : ℤ)
  | swapIn (seqId : ℕ)
deriving DecidableEq, Repr

def Call.run : Call → Prog PyError (PagedKVCache β) Unit
  | .allocateSequence i n => KvCacheCalls.allocateSequence i n
  | .appendTokens i n => KvCacheCalls.appendTokens i n
  | .swapIn i => PagedKVCache.swapIn i

/-- An operation on a cache. -/
inductive Op (β : Type) where
  | call (m : Call)
  | freeSequence (seqId : ℕ)
  | freeGpuBlocks (seqId : ℕ)
  | swapOut (seqId : ℕ)
  | setCpKvManager
  | writeKv (kv : ℕ → β)

/-- One operation; when it raises, the state it has reached is kept. -/
def step (c : PagedKVCache β) : Op β → PagedKVCache β
  | .call m => m.run.state c
  | .freeSequence i => (PagedKVCache.freeSequence i).state c
  | .freeGpuBlocks i => (PagedKVCache.freeGpuBlocks i).state c
  | .swapOut i => (PagedKVCache.swapOut i).state c
  | .setCpKvManager => c.setCpKvManager
  | .writeKv kv => { c with kvCache := kv }

/-- The free blocks, the tables with their token counts and the CPU copies are the same. -/
structure Unchanged (c c' : PagedKVCache β) : Prop where
  heap : c'.blockAllocator.freeBlockHeap = c.blockAllocator.freeBlockHeap
  set : c'.blockAllocator.freeBlockSet = c.blockAllocator.freeBlockSet
  tables : c'.sequenceTables = c.sequenceTables
  buffers : c'.swappedCpuBuffers = c.swappedCpuBuffers
  savedTokens : c'.swappedNumTokens = c.swappedNumTokens

theorem Unchanged.refl (c : PagedKVCache β) : Unchanged c c := ⟨rfl, rfl, rfl, rfl, rfl⟩

/-- If the call raises, the cache is as before. -/
def RaisesClean (c : PagedKVCache β) (m : Call) : Prop :=
  ∀ c' e, m.run.run c = (c', .error e) → Unchanged c c'

/-! ### When a call raises without a trace -/

/-- The free blocks are enough for `n` more tokens after `tokens` ones. -/
def Room (a : BlockAllocator) (tokens n : ℕ) : Prop :=
  ceilDiv (tokens + n) a.cfg.blockSize ≤ ceilDiv tokens a.cfg.blockSize + a.numFreeBlocks

/-- Not even the next token can be stored. -/
def Stuck (a : BlockAllocator) (tokens : ℕ) : Prop :=
  tokens % a.cfg.blockSize = 0 ∧ a.numFreeBlocks = 0

/-- The copy can be written back: to new blocks, or to the blocks the table still has, whose number
must then be the number of blocks in the copy unless that is one. -/
def Restorable (a : BlockAllocator) (blockIds : List ℕ) (copy : List β) : Prop :=
  if blockIds = [] then copy.length ≤ a.numFreeBlocks
  else copy.length = 1 ∨ copy.length = blockIds.length

/-- The call does not raise, or raises before it has changed anything. -/
def Clean (c : PagedKVCache β) : Call → Prop
  | .allocateSequence i n =>
    c.sequenceTables i = none → 0 ≤ n →
      Room c.blockAllocator 0 n.toNat ∨ c.blockAllocator.numFreeBlocks = 0
  | .appendTokens i n =>
    ∀ t, c.sequenceTables i = some t → 0 ≤ n →
      Room c.blockAllocator t.numTokens n.toNat ∨ Stuck c.blockAllocator t.numTokens
  | .swapIn i =>
    ∀ t copy, c.sequenceTables i = some t → i ∈ c.swappedOutSequences →
      c.swappedCpuBuffers i = some copy → Restorable c.blockAllocator t.blockIds copy

/-! ### Storing tokens -/

theorem room_zero (a : BlockAllocator) (tokens : ℕ) : Room a tokens 0 := Nat.le_add_right _ _

/-- After one token there is room for `n` more if there was room for `n + 1` before. -/
theorem room_succ {t t' : BlockTable} {a a' : BlockAllocator} (hg : Grown t t' a a') (n : ℕ) :
    Room a' t'.numTokens n ↔ Room a t.numTokens (n + 1) := by
  have hs := ceilDiv_succ a.cfg.blockSize_pos t.numTokens
  have hlen := length_of_perm hg.perm
  have hgrow := hg.length
  unfold Room BlockAllocator.numFreeBlocks
  rw [hg.cfg, hg.numTokens, show t.numTokens + 1 + n = t.numTokens + (n + 1) by omega, hs]
  omega

theorem not_room_of_stuck {a : BlockAllocator} {tokens : ℕ} (h : Stuck a tokens) (n : ℕ) :
    ¬ Room a tokens (n + 1) := by
  have hs := ceilDiv_succ a.cfg.blockSize_pos tokens
  rw [if_pos h.1] at hs
  have hmono : ceilDiv (tokens + 1) a.cfg.blockSize ≤ ceilDiv (tokens + (n + 1)) a.cfg.blockSize :=
    Nat.div_le_div_right (by omega)
  have := h.2
  unfold Room
  omega

/-- An append that found a block or did not need one was not stuck. -/
theorem not_stuck_of_grown {t t' : BlockTable} {a a' : BlockAllocator} (hg : Grown t t' a a') :
    ¬ Stuck a t.numTokens := by
  rintro ⟨hmod, hfree⟩
  have hlen := length_of_perm hg.perm
  have hgrow := hg.length
  rw [if_pos hmod] at hgrow
  unfold BlockAllocator.numFreeBlocks at hfree
  omega

/-- `append_token` on a table that is not stored: it raises exactly if there is no room, with an
empty pool, and then the blocks taken are lost. -/
theorem wp_appendTokensLoop : ∀ (n : ℕ) (t : BlockTable) (a : BlockAllocator),
    AllocatorSpec.Wf a →
    wp (BlockTable.appendTokensLoop n t)
      (fun t' a' => AllocatorSpec.Wf a' ∧ a'.cfg = a.cfg ∧
        (t'.blockIds ++ a'.freeBlockHeap).Perm (t.blockIds ++ a.freeBlockHeap) ∧
        Room a t.numTokens n)
      (fun _ a' => AllocatorSpec.Wf a' ∧ a'.cfg = a.cfg ∧ a'.freeBlockHeap.Subperm
        (t.blockIds ++ a.freeBlockHeap) ∧ a'.numFreeBlocks = 0 ∧ ¬ Room a t.numTokens n) a
  | 0, t, a, h => ⟨h, rfl, List.Perm.refl _, room_zero a _⟩
  | n + 1, t, a, h => by
    rw [BlockTable.appendTokensLoop, wp_bind]
    refine wp_mono (wp_appendToken h t) (fun t' a' hg => ?_) ?_
    · refine wp_mono (wp_appendTokensLoop n t' a' hg.wf) ?_ ?_
      · rintro t'' a'' ⟨h1, h2, h3, h4⟩
        exact ⟨h1, h2.trans hg.cfg, h3.trans hg.perm, (room_succ hg n).mp h4⟩
      · rintro e a'' ⟨h1, h2, h3, h4, h5⟩
        exact ⟨h1, h2.trans hg.cfg, h3.trans hg.perm.subperm, h4,
          fun hr => h5 ((room_succ hg n).mpr hr)⟩
    · rintro e a' ⟨-, rfl, hmod, hfree⟩
      exact ⟨h, rfl, (List.sublist_append_right _ _).subperm, hfree,
        not_room_of_stuck ⟨hmod, hfree⟩ n⟩

section Methods

variable {c : PagedKVCache β} {i : ℕ}

/-- Two sound allocators of the same cache with the same free heap are equal. -/
theorem allocator_ext {a a' : BlockAllocator} (h : AllocatorSpec.Wf a) (h' : AllocatorSpec.Wf a')
    (hcfg : a'.cfg = a.cfg) (hheap : a'.freeBlockHeap = a.freeBlockHeap) : a' = a := by
  have hset : a'.freeBlockSet = a.freeBlockSet := by rw [h'.set_eq, h.set_eq, hheap]
  obtain ⟨cfg, heap, set⟩ := a
  obtain ⟨cfg', heap', set'⟩ := a'
  simp only at hcfg hheap hset
  rw [hcfg, hheap, hset]

/-- **`allocate_sequence`**: it raises on a known id or without room. In the second case the pool is
empty afterwards. -/
theorem wp_allocateSequence (h : Sound c) (n : ℕ) :
    wp (PagedKVCache.allocateSequence i n)
      (fun _ c' => Sound c' ∧ (c.sequenceTables i = none → Room c.blockAllocator 0 n))
      (fun _ c' => Sound c' ∧ (c' = c ∧ (c.sequenceTables i).isSome ∨
        (c.sequenceTables i = none ∧ ¬ Room c.blockAllocator 0 n ∧
          c'.blockAllocator.numFreeBlocks = 0 ∧
          (c.blockAllocator.numFreeBlocks = 0 → c' = c)))) c := by
  simp only [PagedKVCache.allocateSequence, PagedKVCache.onAllocator, wp_bind, wp_current, wp_ite,
    wp_raise, wp_zoom, wp_update]
  refine ⟨fun hsome => ⟨h, Or.inl ⟨trivial, hsome⟩⟩, fun hnone => ?_⟩
  have hnone : c.sequenceTables i = none := by simpa using hnone
  have hown : owned c i = [] := by simp [owned, hnone]
  refine wp_mono (wp_appendTokensLoop n {} c.blockAllocator h.alloc) ?_ ?_
  · rintro t a ⟨ha, hcfg, hperm, hroom⟩
    refine ⟨h.move i ha hcfg rfl ?_, fun _ => hroom⟩
    rw [hown]
    exact hperm.subperm
  · rintro e a ⟨ha, hcfg, hsub, hfree, hroom⟩
    refine ⟨?_, Or.inr ⟨hnone, hroom, hfree, fun h0 => ?_⟩⟩
    · refine h.move i (t := none) ha hcfg ?_ ?_
      · rw [← hnone, Function.update_eq_self]
      · rw [hown]; exact hsub
    · have hnil : a.freeBlockHeap = c.blockAllocator.freeBlockHeap := by
        rw [List.length_eq_zero_iff.mp hfree, List.length_eq_zero_iff.mp h0]
      rw [allocator_ext h.alloc ha hcfg hnil]

theorem wp_requireSequence {t : BlockTable} (ht : c.sequenceTables i = some t)
    {Q : BlockTable → PagedKVCache β → Prop} {R : PyError → PagedKVCache β → Prop} (hQ : Q t c) :
    wp (PagedKVCache.requireSequence i) Q R c := by
  simp only [PagedKVCache.requireSequence, wp_bind, wp_current, ht, wp_pure]
  exact hQ

theorem wp_requireSequence_none (ht : c.sequenceTables i = none)
    {Q : BlockTable → PagedKVCache β → Prop} {R : PyError → PagedKVCache β → Prop}
    (hR : ∀ e, R e c) : wp (PagedKVCache.requireSequence i) Q R c := by
  simp only [PagedKVCache.requireSequence, wp_bind, wp_current, ht, wp_raise]
  exact hR _

/-- **`append_tokens`** on a known id: it raises exactly if there is no room. Unless it is stuck at
once, some tokens are stored by then. -/
theorem wp_appendTokens : ∀ (n : ℕ) {c : PagedKVCache β} {t : BlockTable}, Sound c →
    c.sequenceTables i = some t →
    wp (PagedKVCache.appendTokens i n)
      (fun _ c' => Sound c' ∧ Room c.blockAllocator t.numTokens n)
      (fun _ c' => Sound c' ∧ ¬ Room c.blockAllocator t.numTokens n ∧
        (Stuck c.blockAllocator t.numTokens ∧ c' = c ∨
          ¬ Stuck c.blockAllocator t.numTokens ∧
            ∃ t', c'.sequenceTables i = some t' ∧ t.numTokens < t'.numTokens)) c
  | 0, c, t, h, ht => by
    rw [PagedKVCache.appendTokens, wp_bind]
    exact wp_requireSequence ht ⟨h, room_zero _ _⟩
  | n + 1, c, t, h, ht => by
    rw [PagedKVCache.appendTokens, wp_bind]
    refine wp_requireSequence ht ?_
    simp only [PagedKVCache.onAllocator, wp_bind, wp_zoom, wp_update]
    refine wp_mono (wp_appendToken h.alloc t) (fun t' a' hg => ?_) ?_
    · have hs : Sound (PagedKVCache.setTable i (some t') { c with blockAllocator := a' }) := by
        refine h.move i hg.wf hg.cfg rfl ?_
        simpa [owned, ht, freeBlocks, PagedKVCache.setTable] using hg.perm.subperm
      have ht' :
          (PagedKVCache.setTable i (some t') { c with blockAllocator := a' }).sequenceTables i =
            some t' := by simp [PagedKVCache.setTable]
      refine wp_mono (wp_appendTokens n hs ht') ?_ ?_
      · rintro _ c'' ⟨h1, h2⟩
        exact ⟨h1, (room_succ hg n).mp h2⟩
      · rintro e c'' ⟨h1, h2, h3⟩
        refine ⟨h1, fun hr => h2 ((room_succ hg n).mpr hr),
          Or.inr ⟨not_stuck_of_grown hg, ?_⟩⟩
        have hlt := hg.numTokens
        rcases h3 with ⟨-, rfl⟩ | ⟨-, t'', h4, h5⟩
        · exact ⟨t', ht', by omega⟩
        · exact ⟨t'', h4, by omega⟩
    · rintro e a' ⟨-, rfl, hmod, hfree⟩
      exact ⟨h, not_room_of_stuck ⟨hmod, hfree⟩ n, Or.inl ⟨⟨hmod, hfree⟩, rfl⟩⟩

theorem sound_writeBlocks {bs : List ℕ} {rows : List β} (h : Sound c) :
    wp (PagedKVCache.writeBlocks bs rows)
      (fun _ c' => (rows.length = 1 ∨ rows.length = bs.length) ∧ Sound c')
      (fun _ c' => ¬ (rows.length = 1 ∨ rows.length = bs.length) ∧ c' = c) c := by
  have hw : ∀ kv, Sound { c with kvCache := kv } := fun kv => h.congr rfl rfl
  unfold PagedKVCache.writeBlocks
  split
  · exact ⟨Or.inl rfl, hw _⟩
  · next hne =>
    have h1 : rows.length ≠ 1 := fun h1 => by
      obtain ⟨r, rfl⟩ := List.length_eq_one_iff.mp h1
      exact hne r rfl
    simp only [wp_ite, wp_update, wp_raise]
    exact ⟨fun hl => ⟨Or.inr hl, hw _⟩, fun hl => ⟨not_or.mpr ⟨h1, hl⟩, trivial⟩⟩

/-- **`swap_in`**: it raises on an unknown id, or if the copy cannot be written back; in the second
case the copy is gone. -/
theorem wp_swapIn (h : Sound c) :
    wp (PagedKVCache.swapIn i)
      (fun _ c' => Sound c' ∧ ∀ t copy, c.sequenceTables i = some t → i ∈ c.swappedOutSequences →
        c.swappedCpuBuffers i = some copy → Restorable c.blockAllocator t.blockIds copy)
      (fun _ c' => Sound c' ∧ (c' = c ∧ c.sequenceTables i = none ∨
        ∃ t copy, c.sequenceTables i = some t ∧ i ∈ c.swappedOutSequences ∧
          c.swappedCpuBuffers i = some copy ∧ ¬ Restorable c.blockAllocator t.blockIds copy ∧
          c'.swappedCpuBuffers i = none)) c := by
  rw [PagedKVCache.swapIn, wp_bind]
  rcases ht : c.sequenceTables i with _ | t
  · exact wp_requireSequence_none ht fun _ => ⟨h, Or.inl ⟨rfl, rfl⟩⟩
  refine wp_requireSequence ht ?_
  simp only [wp_bind, wp_current, wp_ite, wp_pure, wp_update]
  refine ⟨fun hout => ⟨h, fun _ _ _ hin => absurd hin hout⟩, fun hin => ?_⟩
  have hin : i ∈ c.swappedOutSequences := not_not.mp hin
  have hpop : Sound (PagedKVCache.popSaved i c) := h.congr rfl rfl
  rcases hbuf : c.swappedCpuBuffers i with _ | copy
  · exact ⟨h.congr rfl rfl, fun _ _ _ _ hcopy => absurd hcopy.symm (Option.some_ne_none _)⟩
  have hgone : (PagedKVCache.popSaved i c).swappedCpuBuffers i = none := by
    simp [PagedKVCache.popSaved]
  -- what is left to show once it is known whether the copy fits
  have hok : ∀ c' : PagedKVCache β, Sound c' → Restorable c.blockAllocator t.blockIds copy →
      Sound { c' with swappedOutSequences := c'.swappedOutSequences.erase i } ∧
        ∀ t' copy', some t = some t' → i ∈ c.swappedOutSequences → some copy = some copy' →
          Restorable c.blockAllocator t'.blockIds copy' := by
    rintro c' hc' hr
    refine ⟨hc'.congr rfl rfl, ?_⟩
    rintro t' copy' ⟨⟩ - ⟨⟩
    exact hr
  have hbad : ∀ c' : PagedKVCache β, Sound c' → ¬ Restorable c.blockAllocator t.blockIds copy →
      c'.swappedCpuBuffers i = none → Sound c' ∧ (c' = c ∧ some t = none ∨
        ∃ t' copy', some t = some t' ∧ i ∈ c.swappedOutSequences ∧ some copy = some copy' ∧
          ¬ Restorable c.blockAllocator t'.blockIds copy' ∧ c'.swappedCpuBuffers i = none) :=
    fun c' hc' hr hg => ⟨hc', Or.inr ⟨t, copy, rfl, hin, rfl, hr, hg⟩⟩
  simp only [PagedKVCache.onAllocator, wp_ite, wp_bind, wp_zoom, wp_update]
  refine ⟨fun hnil => ?_, fun hne => ?_⟩
  · have hown : owned c i = [] := by simp [owned, ht, hnil]
    refine AllocatorSpec.wp_allocate hpop.alloc copy.length (fun hle => ?_) fun hlt msg => ?_
    · have hlen : (c.blockAllocator.freeBlockHeap.take copy.length).length = copy.length := by
        rw [List.length_take]; exact min_eq_left hle
      have hs : Sound (PagedKVCache.setTable i
          (some ⟨c.blockAllocator.freeBlockHeap.take copy.length, (c.swappedNumTokens i).getD 0⟩)
          { PagedKVCache.popSaved i c with
            blockAllocator := taken copy.length c.blockAllocator }) := by
        refine h.move i (h.alloc.taken _) rfl rfl ?_
        rw [hown]
        simp [freeBlocks, PagedKVCache.setTable, taken, List.Subperm.refl]
      have hr : Restorable c.blockAllocator t.blockIds copy := by
        rw [Restorable, if_pos hnil]; exact hle
      refine ⟨fun _ => ?_, fun _ => hok _ hs hr⟩
      refine wp_mono (sound_writeBlocks hs) (fun _ c' hc' => hok c' hc'.2 hr) ?_
      rintro _ c' ⟨hn, -⟩
      exact absurd (Or.inr hlen.symm) hn
    · refine hbad _ hpop ?_ hgone
      rw [Restorable, if_pos hnil]
      exact Nat.not_le.mpr hlt
  · refine wp_mono (sound_writeBlocks hpop) (fun _ c' hc' => hok c' hc'.2 ?_) ?_
    · rw [Restorable, if_neg hne]
      exact hc'.1
    · rintro _ c' ⟨hn, rfl⟩
      refine hbad _ hpop ?_ hgone
      rw [Restorable, if_neg hne]
      exact hn

/-! ### Every reachable state is sound -/

theorem sound_new (cfg : KvConfig) (kv : ℕ → β) : Sound (PagedKVCache.new cfg kv) :=
  (wf_new cfg kv).sound

theorem sound_freeSequence (h : Sound c) :
    wp (PagedKVCache.freeSequence i) (fun _ => Sound) (fun _ => Sound) c := by
  simp only [PagedKVCache.freeSequence, wp_bind, wp_current]
  rcases ht : c.sequenceTables i with _ | t
  · exact h
  have hown : owned c i = t.blockIds := by simp [owned, ht]
  have hfree : Freeable t.blockIds c.blockAllocator := by rw [← hown]; exact h.freeable i
  simp only [wp_bind, wp_update]
  refine wp_release (by rfl) h.alloc hfree
    (h.move i (t := none) (h.alloc.returned hfree) rfl rfl ?_)
  rw [hown]
  exact (AllocatorSpec.returned_perm t.blockIds c.blockAllocator).subperm

theorem sound_freeGpuBlocks (h : Sound c) :
    wp (PagedKVCache.freeGpuBlocks i) (fun _ => Sound) (fun _ => Sound) c := by
  simp only [PagedKVCache.freeGpuBlocks, wp_bind, wp_current]
  rcases ht : c.sequenceTables i with _ | t
  · exact h
  have hown : owned c i = t.blockIds := by simp [owned, ht]
  have hfree : Freeable t.blockIds c.blockAllocator := by rw [← hown]; exact h.freeable i
  simp only [PagedKVCache.onAllocator, wp_bind, wp_ite, wp_zoom, wp_update, wp_pure]
  refine ⟨fun _ => AllocatorSpec.wp_free h.alloc hfree ?_, fun _ => h⟩
  refine h.move i (t := some { t with blockIds := [] }) (h.alloc.returned hfree) rfl rfl ?_
  rw [hown]
  exact (AllocatorSpec.returned_perm t.blockIds c.blockAllocator).subperm

theorem sound_swapOut (h : Sound c) :
    wp (PagedKVCache.swapOut i) (fun _ => Sound) (fun _ => Sound) c := by
  rw [PagedKVCache.swapOut, wp_bind]
  rcases ht : c.sequenceTables i with _ | t
  · exact wp_requireSequence_none ht fun _ => h
  refine wp_requireSequence ht ?_
  simp only [wp_bind, wp_current, wp_ite, wp_pure, wp_update]
  exact ⟨fun _ => h, fun _ => h.congr rfl rfl⟩

end Methods

/-! ### The calls with their checks -/

/-- **One call**: the cache stays sound; a clean call that raises changes nothing, and every other
call raises and leaves a trace. -/
theorem wp_call {c : PagedKVCache β} (h : Sound c) (m : Call) :
    wp m.run (fun _ c' => Sound c' ∧ Clean c m)
      (fun _ c' => Sound c' ∧ (Clean c m ∧ c' = c ∨ ¬ Clean c m ∧ ¬ Unchanged c c')) c := by
  cases m with
  | allocateSequence i n =>
    simp only [Call.run, allocateSequence, wp_bind, wp_current, wp_ite, wp_raise]
    refine ⟨fun hsome => ⟨h, Or.inl ⟨fun hnone => ?_, trivial⟩⟩, fun hnone => ⟨fun hn =>
      ⟨h, Or.inl ⟨fun _ hpos => absurd hn (not_lt.mpr hpos), trivial⟩⟩, fun hn => ?_⟩⟩
    · rw [hnone] at hsome; cases hsome
    · refine wp_mono (wp_allocateSequence h n.toNat) ?_ ?_
      · rintro _ c' ⟨hs, hr⟩
        exact ⟨hs, fun h0 _ => Or.inl (hr h0)⟩
      · rintro _ c' ⟨hs, ⟨-, hsome⟩ | ⟨h0, hroom, hempty, hsame⟩⟩
        · exact absurd hsome hnone
        · refine ⟨hs, ?_⟩
          by_cases hfree : c.blockAllocator.numFreeBlocks = 0
          · exact Or.inl ⟨fun _ _ => Or.inr hfree, hsame hfree⟩
          · refine Or.inr ⟨fun hc => (hc h0 (not_lt.mp hn)).elim hroom hfree, fun hu => hfree ?_⟩
            rw [← hempty, BlockAllocator.numFreeBlocks, BlockAllocator.numFreeBlocks, hu.heap]
  | appendTokens i n =>
    simp only [Call.run, appendTokens, wp_ite, wp_raise]
    refine ⟨fun hn => ⟨h, Or.inl ⟨fun _ _ hpos => absurd hn (not_lt.mpr hpos), trivial⟩⟩,
      fun hn => ?_⟩
    rcases ht : c.sequenceTables i with _ | t
    · have hclean : Clean c (.appendTokens i n) := fun t h0 => by rw [ht] at h0; cases h0
      cases n.toNat <;>
      · rw [PagedKVCache.appendTokens, wp_bind]
        exact wp_requireSequence_none ht fun _ => ⟨h, Or.inl ⟨hclean, rfl⟩⟩
    · have hclean : Clean c (.appendTokens i n) ↔
          Room c.blockAllocator t.numTokens n.toNat ∨ Stuck c.blockAllocator t.numTokens :=
        ⟨fun hc => hc t ht (not_lt.mp hn), fun hc t' ht' _ => by
          rw [ht] at ht'; cases ht'; exact hc⟩
      refine wp_mono (wp_appendTokens n.toNat h ht) ?_ ?_
      · rintro _ c' ⟨hs, hr⟩
        exact ⟨hs, hclean.mpr (Or.inl hr)⟩
      · rintro _ c' ⟨hs, hroom, ⟨hstuck, hsame⟩ | ⟨hstuck, t', ht', hlt⟩⟩
        · exact ⟨hs, Or.inl ⟨hclean.mpr (Or.inr hstuck), hsame⟩⟩
        · refine ⟨hs, Or.inr ⟨fun hc => (hclean.mp hc).elim hroom hstuck, fun hu => ?_⟩⟩
          rw [hu.tables, ht] at ht'
          cases ht'
          exact absurd hlt (lt_irrefl _)
  | swapIn i =>
    refine wp_mono (wp_swapIn (i := i) h) (fun _ _ hq => hq) ?_
    rintro _ c' ⟨hs, ⟨hsame, hnone⟩ | ⟨t, copy, ht, hin, hbuf, hr, hgone⟩⟩
    · refine ⟨hs, Or.inl ⟨fun t copy ht => ?_, hsame⟩⟩
      rw [hnone] at ht
      cases ht
    · refine ⟨hs, Or.inr ⟨fun hc => hr (hc t copy ht hin hbuf), fun hu => ?_⟩⟩
      rw [hu.buffers, hbuf] at hgone
      cases hgone

theorem sound_step {c : PagedKVCache β} (o : Op β) (h : Sound c) : Sound (step c o) := by
  cases o with
  | call m => exact inv_of_wp (wp_mono (wp_call h m) (fun _ _ hq => hq.1) fun _ _ hq => hq.1)
  | freeSequence i => exact inv_of_wp (sound_freeSequence h)
  | freeGpuBlocks i => exact inv_of_wp (sound_freeGpuBlocks h)
  | swapOut i => exact inv_of_wp (sound_swapOut h)
  | setCpKvManager => exact h.congr rfl rfl
  | writeKv kv => exact h.congr rfl rfl

/-- The cache after a list of operations. -/
def after (cfg : KvConfig) (kv : ℕ → β) (ops : List (Op β)) : PagedKVCache β :=
  exec step (PagedKVCache.new cfg kv) ops

theorem sound_after (cfg : KvConfig) (kv : ℕ → β) (ops : List (Op β)) : Sound (after cfg kv ops) :=
  inv_exec_all (I := Sound) (fun _ o h => sound_step o h) ops _ (sound_new cfg kv)

/-- **Calls that raise**: after every run, a call leaves the cache as it was if it raises, if and
only if it is clean. -/
theorem raisesClean_iff (cfg : KvConfig) (kv : ℕ → β) (ops : List (Op β)) (m : Call) :
    RaisesClean (after cfg kv ops) m ↔ Clean (after cfg kv ops) m := by
  have hwp := wp_call (sound_after cfg kv ops) m
  constructor
  · intro hr
    by_contra hc
    rcases hrun : m.run.run (after cfg kv ops) with ⟨c', e | u⟩
    · rcases (wp_error hwp hrun).2 with h | h
      · exact hc h.1
      · exact h.2 (hr c' e hrun)
    · exact hc (wp_ok hwp hrun).2
  · rintro hc c' e hrun
    rcases (wp_error hwp hrun).2 with ⟨-, rfl⟩ | h
    · exact Unchanged.refl _
    · exact absurd hc h.1

/-- One block of two tokens: `allocate_sequence` for three tokens raises and keeps the block. -/
theorem allocateSequence_leaks :
    ¬ RaisesClean (after ⟨1, 2, by decide, by decide⟩ (fun _ => ()) [])
      (.allocateSequence 0 3) := by
  intro h
  have := (h _ _ rfl).heap
  cases this

end MoeInfinity.Serving.KvCacheCalls
