import MoeInfinity.Serving.AllocatorSpec

/-! # What the operations of the KV cache do

`Wf` says that the free blocks and the blocks of the tables partition the pool. It depends on the
allocator and the tables only, and an operation that moves blocks between the free heap and one
table keeps it (`Wf.move`). Each operation below gets one specification: what it does to its own
sequence, and that it leaves the others alone (`Frame`). -/

namespace MoeInfinity.Serving.KvCacheSpec

open MoeInfinity.Python MoeInfinity.Lib.Imperative MoeInfinity.Serving.KvCache
open MoeInfinity.Serving.AllocatorSpec (taken returned Freeable)

variable {β : Type}

/-! ### The partition -/

/-- The blocks a table lists. -/
def tableBlocks (t : Option BlockTable) : List ℕ := t.elim [] (·.blockIds)

/-- The blocks of a sequence. -/
def owned (c : PagedKVCache β) (i : ℕ) : List ℕ := tableBlocks (c.sequenceTables i)

/-- The free blocks. -/
def freeBlocks (c : PagedKVCache β) : List ℕ := c.blockAllocator.freeBlockHeap

@[simp] theorem tableBlocks_none : tableBlocks none = [] := rfl

@[simp] theorem tableBlocks_some (t : BlockTable) : tableBlocks (some t) = t.blockIds := rfl

/-- The free blocks and the tables partition the pool. -/
structure Wf (c : PagedKVCache β) : Prop where
  alloc : AllocatorSpec.Wf c.blockAllocator
  nodup : ∀ i, (owned c i).Nodup
  not_free : ∀ i, ∀ b ∈ owned c i, b ∉ freeBlocks c
  lt : ∀ i, ∀ b ∈ owned c i, b < c.blockAllocator.cfg.numBlocks
  disjoint : ∀ i j, i ≠ j → ∀ b ∈ owned c i, b ∉ owned c j
  cover : ∀ b < c.blockAllocator.cfg.numBlocks, b ∈ freeBlocks c ∨ ∃ i, b ∈ owned c i

theorem wf_new (cfg : KvConfig) (kv : ℕ → β) : Wf (PagedKVCache.new cfg kv) where
  alloc := AllocatorSpec.wf_new cfg
  nodup := fun i => List.nodup_nil
  not_free := fun i b hb => by simp [owned, PagedKVCache.new] at hb
  lt := fun i b hb => by simp [owned, PagedKVCache.new] at hb
  disjoint := fun i j _ b hb => by simp [owned, PagedKVCache.new] at hb
  cover := fun b hb => Or.inl (List.mem_range.mpr hb)

theorem Wf.freeable {c : PagedKVCache β} (h : Wf c) (i : ℕ) :
    Freeable (owned c i) c.blockAllocator :=
  ⟨h.nodup i, h.not_free i, h.lt i⟩

/-- No block is in two places; blocks may be missing. -/
structure Sound (c : PagedKVCache β) : Prop where
  alloc : AllocatorSpec.Wf c.blockAllocator
  freeable : ∀ i, Freeable (owned c i) c.blockAllocator
  disjoint : ∀ i j, i ≠ j → ∀ b ∈ owned c i, b ∉ owned c j

theorem Wf.sound {c : PagedKVCache β} (h : Wf c) : Sound c := ⟨h.alloc, h.freeable, h.disjoint⟩

/-- **Moving blocks** between the free heap and the table of one sequence puts no block in two
places, even if some are lost. -/
theorem Sound.move {c c' : PagedKVCache β} (h : Sound c) (i : ℕ) {t : Option BlockTable}
    (ha : AllocatorSpec.Wf c'.blockAllocator)
    (hcfg : c'.blockAllocator.cfg = c.blockAllocator.cfg)
    (htab : c'.sequenceTables = Function.update c.sequenceTables i t)
    (hsub : (tableBlocks t ++ freeBlocks c').Subperm (owned c i ++ freeBlocks c)) : Sound c' := by
  have hown : owned c' i = tableBlocks t := by simp [owned, htab]
  have hother : ∀ j, j ≠ i → owned c' j = owned c j := fun j hj => by simp [owned, htab, hj]
  have hnd : (owned c i ++ freeBlocks c).Nodup :=
    List.nodup_append'.mpr ⟨(h.freeable i).nodup, h.alloc.nodup,
      fun b hb hb' => (h.freeable i).not_free b hb hb'⟩
  have hnd' : (tableBlocks t ++ freeBlocks c').Nodup := by
    obtain ⟨l, hl, hs⟩ := hsub
    exact hl.nodup_iff.mp (hnd.sublist hs)
  have hmem : ∀ b, b ∈ tableBlocks t ∨ b ∈ freeBlocks c' → b ∈ owned c i ∨ b ∈ freeBlocks c := by
    intro b hb
    exact List.mem_append.mp (hsub.subset (List.mem_append.mpr hb))
  have hsep : ∀ j, j ≠ i → ∀ b ∈ owned c j, b ∉ tableBlocks t ∧ b ∉ freeBlocks c' := by
    intro j hj b hb
    have hnot : ¬ (b ∈ tableBlocks t ∨ b ∈ freeBlocks c') := by
      intro hin
      rcases hmem b hin with hi | hf
      · exact h.disjoint j i hj b hb hi
      · exact (h.freeable j).not_free b hb hf
    exact ⟨fun h1 => hnot (Or.inl h1), fun h1 => hnot (Or.inr h1)⟩
  refine ⟨ha, fun j => ⟨?_, fun b hb => ?_, fun b hb => ?_⟩, fun j k hjk b hb => ?_⟩
  · by_cases hj : j = i
    · subst hj; rw [hown]; exact (List.nodup_append.mp hnd').1
    · rw [hother j hj]; exact (h.freeable j).nodup
  · by_cases hj : j = i
    · subst hj
      rw [hown] at hb
      exact fun hb' => (List.nodup_append'.mp hnd').2.2 hb hb'
    · rw [hother j hj] at hb; exact (hsep j hj b hb).2
  · rw [hcfg]
    by_cases hj : j = i
    · subst hj
      rw [hown] at hb
      rcases hmem b (Or.inl hb) with h1 | h1
      · exact (h.freeable j).lt b h1
      · exact h.alloc.lt b h1
    · rw [hother j hj] at hb; exact (h.freeable j).lt b hb
  · by_cases hj : j = i
    · subst hj
      rw [hother k (Ne.symm hjk)]
      rw [hown] at hb
      exact fun hk => (hsep k (Ne.symm hjk) b hk).1 hb
    · rw [hother j hj] at hb
      by_cases hk : k = i
      · subst hk; rw [hown]; exact (hsep j hj b hb).1
      · rw [hother k hk]; exact h.disjoint j k hjk b hb

/-- Moving blocks keeps the partition, if none is lost. -/
theorem Wf.move {c c' : PagedKVCache β} (h : Wf c) (i : ℕ) {t : Option BlockTable}
    (ha : AllocatorSpec.Wf c'.blockAllocator)
    (hcfg : c'.blockAllocator.cfg = c.blockAllocator.cfg)
    (htab : c'.sequenceTables = Function.update c.sequenceTables i t)
    (hperm : (tableBlocks t ++ freeBlocks c').Perm (owned c i ++ freeBlocks c)) : Wf c' := by
  have hown : owned c' i = tableBlocks t := by simp [owned, htab]
  have hother : ∀ j, j ≠ i → owned c' j = owned c j := fun j hj => by simp [owned, htab, hj]
  have hmem : ∀ b, b ∈ owned c i ∨ b ∈ freeBlocks c → b ∈ tableBlocks t ∨ b ∈ freeBlocks c' := by
    intro b hb
    exact List.mem_append.mp (hperm.mem_iff.mpr (List.mem_append.mpr hb))
  have hs := h.sound.move i ha hcfg htab hperm.subperm
  refine ⟨ha, fun j => (hs.freeable j).nodup, fun j => (hs.freeable j).not_free,
    fun j => (hs.freeable j).lt, hs.disjoint, fun b hb => ?_⟩
  have hplace : ∀ b, b ∈ owned c i ∨ b ∈ freeBlocks c → b ∈ freeBlocks c' ∨
      ∃ j, b ∈ owned c' j := by
    intro b hin
    rcases hmem b hin with h2 | h2
    · exact Or.inr ⟨i, by rw [hown]; exact h2⟩
    · exact Or.inl h2
  rw [hcfg] at hb
  rcases h.cover b hb with h1 | ⟨j, hj⟩
  · exact hplace b (Or.inr h1)
  · by_cases hji : j = i
    · subst hji
      exact hplace b (Or.inl hj)
    · exact Or.inr ⟨j, by rw [hother j hji]; exact hj⟩

theorem Sound.congr {c c' : PagedKVCache β} (h : Sound c)
    (ha : c'.blockAllocator = c.blockAllocator) (ht : c'.sequenceTables = c.sequenceTables) :
    Sound c' := by
  refine h.move 0 (t := c.sequenceTables 0) (by rw [ha]; exact h.alloc) (by rw [ha]) ?_ ?_
  · rw [ht, Function.update_eq_self]
  · rw [freeBlocks, ha]; exact List.Subperm.refl _

/-- The partition does not depend on the tensor, the swap records or the manager. -/
theorem Wf.congr {c c' : PagedKVCache β} (h : Wf c) (ha : c'.blockAllocator = c.blockAllocator)
    (ht : c'.sequenceTables = c.sequenceTables) : Wf c' := by
  refine h.move 0 (t := c.sequenceTables 0) (by rw [ha]; exact h.alloc) (by rw [ha]) ?_ ?_
  · rw [ht, Function.update_eq_self]
  · rw [freeBlocks, ha]; exact List.Perm.refl _

/-! ### What one sequence sees of the cache -/

/-- The part of the cache that belongs to one sequence. -/
structure View (β : Type) where
  table : Option BlockTable
  buffer : Option (List β)
  savedTokens : Option ℕ
  swappedOut : Prop
  saved : Option (List β)

/-- The view of sequence `i`. -/
def view (c : PagedKVCache β) (i : ℕ) : View β :=
  ⟨c.sequenceTables i, c.swappedCpuBuffers i, c.swappedNumTokens i, i ∈ c.swappedOutSequences,
    c.savedAtSwapOut i⟩

/-- The sequences outside `S` see no difference, and the contents of their blocks are the same. -/
structure Frame (S : Set ℕ) (c c' : PagedKVCache β) : Prop where
  cfg : c'.blockAllocator.cfg = c.blockAllocator.cfg
  view : ∀ j ∉ S, view c' j = view c j
  contents : ∀ j ∉ S, ∀ b ∈ owned c j, c'.kvCache b = c.kvCache b

theorem Frame.refl (S : Set ℕ) (c : PagedKVCache β) : Frame S c c :=
  ⟨rfl, fun _ _ => rfl, fun _ _ _ _ => rfl⟩

theorem owned_of_view {c c' : PagedKVCache β} {j : ℕ} (h : view c' j = view c j) :
    owned c' j = owned c j := congrArg (fun v : View β => tableBlocks v.table) h

theorem Frame.trans {S : Set ℕ} {c c' c'' : PagedKVCache β} (h : Frame S c c')
    (h' : Frame S c' c'') : Frame S c c'' := by
  refine ⟨h'.cfg.trans h.cfg, fun j hj => (h'.view j hj).trans (h.view j hj), fun j hj b hb => ?_⟩
  rw [h'.contents j hj b (by rw [owned_of_view (h.view j hj)]; exact hb), h.contents j hj b hb]

theorem Frame.mono {S S' : Set ℕ} {c c' : PagedKVCache β} (h : Frame S c c') (hS : S ⊆ S') :
    Frame S' c c' :=
  ⟨h.cfg, fun j hj => h.view j (fun h1 => hj (hS h1)),
    fun j hj => h.contents j (fun h1 => hj (hS h1))⟩

/-- The blocks of a sequence in the frame are neither taken nor freed. -/
theorem Frame.owned {S : Set ℕ} {c c' : PagedKVCache β} (h : Frame S c c') {j : ℕ} (hj : j ∉ S) :
    owned c' j = owned c j := owned_of_view (h.view j hj)

/-! ### Growing a table -/

theorem ceilDiv_succ {k : ℕ} (hk : 0 < k) (n : ℕ) :
    ceilDiv (n + 1) k = ceilDiv n k + if n % k = 0 then 1 else 0 := by
  unfold ceilDiv
  have h1 : n + 1 + k - 1 = (n + k - 1) + 1 := by omega
  rw [h1, Nat.succ_div]
  congr 1
  have h2 : n + k - 1 + 1 = n + k := by omega
  simp only [h2, Nat.dvd_iff_mod_eq_zero, Nat.add_mod_right]

theorem ceilDiv_zero {k : ℕ} (hk : 0 < k) : ceilDiv 0 k = 0 := by
  unfold ceilDiv
  exact Nat.div_eq_of_lt (by omega)

/-- A table lists the blocks its tokens need. -/
def BlockTable.Fits (k : ℕ) (t : BlockTable) : Prop := t.blockIds.length = ceilDiv t.numTokens k

/-- What `append_token` does to a table and the allocator. -/
structure Grown (t t' : BlockTable) (a a' : BlockAllocator) : Prop where
  wf : AllocatorSpec.Wf a'
  cfg : a'.cfg = a.cfg
  perm : (t'.blockIds ++ a'.freeBlockHeap).Perm (t.blockIds ++ a.freeBlockHeap)
  isPrefix : t.blockIds <+: t'.blockIds
  numTokens : t'.numTokens = t.numTokens + 1
  length : t'.blockIds.length = t.blockIds.length + if t.numTokens % a.cfg.blockSize =
    0 then 1 else 0

/-- **One token**: a new block if the last one is full; without a free block nothing changes. -/
theorem wp_appendToken {a : BlockAllocator} (h : AllocatorSpec.Wf a) (t : BlockTable) :
    wp t.appendToken (fun t' a' => Grown t t' a a')
      (fun e a' => (∃ msg, e = .runtimeError msg) ∧ a' = a ∧ t.numTokens % a.cfg.blockSize = 0 ∧
        a.numFreeBlocks = 0) a := by
  simp only [BlockTable.appendToken, wp_bind, wp_current, wp_ite, wp_pure]
  refine ⟨fun h0 => AllocatorSpec.wp_allocate h 1 (fun hle => ?_) fun hlt msg =>
      ⟨⟨msg, rfl⟩, rfl, h0, by omega⟩,
    fun h0 => ⟨h, rfl, List.Perm.refl _, List.prefix_rfl, rfl, by rw [if_neg h0]; rfl⟩⟩
  have hlen : (a.freeBlockHeap.take 1).length = 1 := by
    rw [List.length_take]
    exact min_eq_left hle
  refine ⟨h.taken 1, rfl, ?_, List.prefix_append _ _, rfl, ?_⟩
  · simp only [List.take_take, min_self, List.append_assoc]
    have hsplit : a.freeBlockHeap.take 1 ++ (taken 1 a).freeBlockHeap = a.freeBlockHeap :=
      List.take_append_drop 1 _
    rw [hsplit]
  · simp [List.take_take, hlen, h0]

/-- `append_token` called `n` times, when the pool has the blocks. -/
theorem wp_appendTokensLoop : ∀ (n : ℕ) (t : BlockTable) (a : BlockAllocator),
    AllocatorSpec.Wf a → BlockTable.Fits a.cfg.blockSize t →
    ceilDiv (t.numTokens + n) a.cfg.blockSize ≤ t.blockIds.length + a.numFreeBlocks →
    wp (BlockTable.appendTokensLoop n t)
      (fun t' a' => AllocatorSpec.Wf a' ∧ a'.cfg = a.cfg ∧
        (t'.blockIds ++ a'.freeBlockHeap).Perm (t.blockIds ++ a.freeBlockHeap) ∧
        t'.numTokens = t.numTokens + n ∧ BlockTable.Fits a.cfg.blockSize t')
      (fun _ _ => False) a
  | 0, t, a, h, hfit, _ => ⟨h, rfl, List.Perm.refl _, rfl, hfit⟩
  | n + 1, t, a, h, hfit, hroom => by
    have hk := a.cfg.blockSize_pos
    rw [BlockTable.appendTokensLoop, wp_bind]
    refine wp_mono (wp_appendToken h t) (fun t' a' hg => ?_) (fun e a' ⟨_, _, h0, hfree⟩ => ?_)
    · have hfit' : BlockTable.Fits a'.cfg.blockSize t' := by
        unfold BlockTable.Fits at hfit ⊢
        rw [hg.cfg, hg.length, hg.numTokens, ceilDiv_succ hk, hfit]
      have hlen := hg.perm.length_eq
      simp only [List.length_append] at hlen
      have hroom' : ceilDiv (t'.numTokens + n) a'.cfg.blockSize ≤
          t'.blockIds.length + a'.numFreeBlocks := by
        rw [hg.cfg, hg.numTokens, show t.numTokens + 1 + n = t.numTokens + (n + 1) by omega]
        unfold BlockAllocator.numFreeBlocks at hroom ⊢
        omega
      refine wp_mono (wp_appendTokensLoop n t' a' hg.wf hfit' hroom') ?_ (fun _ _ h => h)
      rintro t'' a'' ⟨h1, h2, h3, h4, h5⟩
      refine ⟨h1, h2.trans hg.cfg, h3.trans hg.perm, ?_, by rw [← hg.cfg]; exact h5⟩
      rw [h4, hg.numTokens]; omega
    · -- the pool would be empty although a block is still needed
      have hmono : ceilDiv (t.numTokens + 1) a.cfg.blockSize ≤
          ceilDiv (t.numTokens + (n + 1)) a.cfg.blockSize :=
        Nat.div_le_div_right (by omega)
      rw [ceilDiv_succ hk, if_pos h0] at hmono
      unfold BlockTable.Fits at hfit
      omega

/-! ### The operations on one sequence -/

section Operations

variable {c : PagedKVCache β} {i : ℕ}

/-- Only the table of `i`, the allocator and the manager's record changed. -/
structure TableStep (i : ℕ) (c c' : PagedKVCache β) (t : Option BlockTable) : Prop where
  wf : Wf c'
  frame : Frame {i} c c'
  view : view c' i = { view c i with table := t }
  kv : c'.kvCache = c.kvCache
  free : (tableBlocks t).length + c'.blockAllocator.numFreeBlocks =
    (owned c i).length + c.blockAllocator.numFreeBlocks

theorem TableStep.owned {c' : PagedKVCache β} {t : Option BlockTable} (h : TableStep i c c' t) :
    owned c' i = tableBlocks t :=
  congrArg (fun v : View β => tableBlocks v.table) h.view

/-- The free blocks after a step follow from the length of the new table. -/
theorem length_of_perm {l l' m m' : List ℕ} (h : (l' ++ m').Perm (l ++ m)) :
    l'.length + m'.length = l.length + m.length := by
  simpa using h.length_eq

theorem tableStep_of {c' : PagedKVCache β} {t : Option BlockTable} (h : Wf c)
    (ha : AllocatorSpec.Wf c'.blockAllocator)
    (hcfg : c'.blockAllocator.cfg = c.blockAllocator.cfg)
    (htab : c'.sequenceTables = Function.update c.sequenceTables i t)
    (hperm : (tableBlocks t ++ freeBlocks c').Perm (owned c i ++ freeBlocks c))
    (hbuf : c'.swappedCpuBuffers = c.swappedCpuBuffers)
    (hnum : c'.swappedNumTokens = c.swappedNumTokens)
    (hout : c'.swappedOutSequences = c.swappedOutSequences)
    (hsaved : c'.savedAtSwapOut = c.savedAtSwapOut) (hkv : c'.kvCache = c.kvCache) :
    TableStep i c c' t := by
  refine ⟨h.move i ha hcfg htab hperm, ⟨hcfg, fun j hj => ?_, fun j _ b _ => by rw [hkv]⟩, ?_, hkv,
    length_of_perm hperm⟩
  · have hji : j ≠ i := hj
    simp [KvCacheSpec.view, htab, hbuf, hnum, hout, hsaved, hji]
  · simp [KvCacheSpec.view, htab, hbuf, hnum, hout, hsaved]

/-- **Admission**: a new table with the blocks its tokens need, when the pool has them. -/
theorem wp_allocateSequence (h : Wf c) (hnone : c.sequenceTables i = none) {n : ℕ}
    (hroom : ceilDiv n c.blockSize ≤ c.blockAllocator.numFreeBlocks) :
    wp (PagedKVCache.allocateSequence i n)
      (fun _ c' => ∃ t, TableStep i c c' (some t) ∧ BlockTable.Fits c.blockSize t ∧
        t.numTokens = n)
      (fun _ _ => False) c := by
  simp only [PagedKVCache.allocateSequence, PagedKVCache.onAllocator, wp_bind, wp_current, wp_ite,
    wp_raise, wp_zoom, wp_update, hnone, Option.isSome_none]
  refine ⟨fun h0 => by simp at h0, fun _ => ?_⟩
  have hfit : BlockTable.Fits c.blockAllocator.cfg.blockSize {} :=
    (ceilDiv_zero c.blockAllocator.cfg.blockSize_pos).symm
  refine wp_mono (wp_appendTokensLoop n {} c.blockAllocator h.alloc hfit ?_) ?_ fun _ _ h => h
  · simpa [PagedKVCache.blockSize] using hroom
  · rintro t a ⟨ha, hcfg, hperm, hn, hfit'⟩
    refine ⟨t, tableStep_of h ha hcfg rfl ?_ rfl rfl rfl rfl rfl, hfit', by simpa using hn⟩
    simpa [owned, hnone, freeBlocks, PagedKVCache.setTable, PagedKVCache.notifyBlocksAllocated]
      using hperm

/-- **Growth** by one token; without a free block nothing changes. -/
theorem wp_appendTokens_one (h : Wf c) {t : BlockTable} (ht : c.sequenceTables i = some t) :
    wp (PagedKVCache.appendTokens i 1)
      (fun _ c' => ∃ t', TableStep i c c' (some t') ∧ t'.numTokens = t.numTokens + 1 ∧
        t.blockIds <+: t'.blockIds ∧ t'.blockIds.length =
          t.blockIds.length + if t.numTokens % c.blockSize = 0 then 1 else 0)
      (fun e c' => (∃ msg, e = .runtimeError msg) ∧ c' = c ∧ t.numTokens % c.blockSize = 0 ∧
        c.blockAllocator.numFreeBlocks = 0) c := by
  have hreq : ∀ {c : PagedKVCache β} {t : BlockTable}, c.sequenceTables i = some t →
      ∀ {Q : BlockTable → PagedKVCache β → Prop} {R : PyError → PagedKVCache β → Prop}, Q t c →
        wp (PagedKVCache.requireSequence i) Q R c := by
    intro c t ht Q R hQ
    simp only [PagedKVCache.requireSequence, wp_bind, wp_current, ht, wp_pure]
    exact hQ
  simp only [PagedKVCache.appendTokens, PagedKVCache.onAllocator, wp_bind, wp_zoom, wp_update]
  refine hreq ht (wp_mono (wp_appendToken h.alloc t) (fun t' a hg => ?_) ?_)
  · refine hreq (t := t') (by simp [PagedKVCache.setTable]) ?_
    refine ⟨t', tableStep_of h hg.wf hg.cfg rfl ?_ rfl rfl rfl rfl rfl, hg.numTokens, hg.isPrefix,
      hg.length⟩
    simpa [owned, ht, freeBlocks, PagedKVCache.setTable] using hg.perm
  · rintro e a ⟨hmsg, rfl, hmod, hfree⟩
    exact ⟨hmsg, rfl, hmod, hfree⟩

theorem returned_nil {a : BlockAllocator} (h : AllocatorSpec.Wf a) : returned [] a = a := by
  unfold returned
  simp only [List.foldl_nil, ← h.set_eq]

/-- `BlockTable.release` gives the blocks of the table back, if they may be freed. -/
theorem wp_release {t : BlockTable} {a : BlockAllocator} (hc : c.blockAllocator = a)
    (h : AllocatorSpec.Wf a) (hfree : Freeable t.blockIds a) {Q : Unit → PagedKVCache β → Prop}
    {R : PyError → PagedKVCache β → Prop}
    (hQ : Q () { c with blockAllocator := returned t.blockIds a }) :
    wp (PagedKVCache.release t) Q R c := by
  subst hc
  simp only [PagedKVCache.release, PagedKVCache.onAllocator, wp_ite, wp_zoom, wp_pure]
  refine ⟨fun _ => AllocatorSpec.wp_free h hfree hQ, fun h0 => ?_⟩
  rw [not_not.mp h0, returned_nil h] at hQ
  exact hQ

/-- **Freeing** a sequence: its blocks go back and nothing of it is left. -/
theorem wp_freeSequence (h : Wf c) :
    wp (PagedKVCache.freeSequence i)
      (fun _ c' => Wf c' ∧ Frame {i} c c' ∧ c'.kvCache = c.kvCache ∧
        view c' i = (if c.sequenceTables i = none then view c i else
          ⟨none, none, none, False, c.savedAtSwapOut i⟩) ∧
        c'.blockAllocator.numFreeBlocks = (owned c i).length + c.blockAllocator.numFreeBlocks)
      (fun _ _ => False) c := by
  simp only [PagedKVCache.freeSequence, wp_bind, wp_current]
  rcases ht : c.sequenceTables i with _ | t
  · exact ⟨h, Frame.refl _ _, rfl, rfl, by simp [owned, ht]⟩
  · have hown : owned c i = t.blockIds := by simp [owned, ht]
    have hfree : Freeable t.blockIds c.blockAllocator := by rw [← hown]; exact h.freeable i
    simp only [wp_bind, wp_update]
    refine wp_release (by rfl) h.alloc hfree ?_
    refine ⟨?_, ⟨rfl, fun j hj => ?_, fun _ _ _ _ => rfl⟩, rfl, ?_, ?_⟩
    · refine h.move i (t := none) (h.alloc.returned hfree) rfl rfl ?_
      rw [hown]
      exact AllocatorSpec.returned_perm t.blockIds c.blockAllocator
    · have hji : j ≠ i := hj
      simp [view, PagedKVCache.dropSwapped, PagedKVCache.notifyBlocksFreed,
        PagedKVCache.setTable, hji]
    · simp [view, PagedKVCache.dropSwapped, PagedKVCache.notifyBlocksFreed, PagedKVCache.setTable]
    · rw [hown]
      exact AllocatorSpec.numFreeBlocks_returned t.blockIds c.blockAllocator

/-- **Releasing the GPU blocks** of a sequence: its table keeps the token count. -/
theorem wp_freeGpuBlocks (h : Wf c) {t : BlockTable} (ht : c.sequenceTables i = some t) :
    wp (PagedKVCache.freeGpuBlocks i)
      (fun _ c' => TableStep i c c' (some { t with blockIds := [] })) (fun _ _ => False) c := by
  have hown : owned c i = t.blockIds := by simp [owned, ht]
  have hfree : Freeable t.blockIds c.blockAllocator := by rw [← hown]; exact h.freeable i
  simp only [PagedKVCache.freeGpuBlocks, PagedKVCache.onAllocator, wp_bind, wp_current, ht, wp_ite,
    wp_zoom, wp_update, wp_pure]
  refine ⟨fun _ => AllocatorSpec.wp_free h.alloc hfree ?_, fun h0 => ?_⟩
  · refine tableStep_of h (h.alloc.returned hfree) rfl rfl ?_ rfl rfl rfl rfl rfl
    rw [hown]
    exact AllocatorSpec.returned_perm t.blockIds c.blockAllocator
  · have hnil : t.blockIds = [] := not_not.mp h0
    have ht' : some { t with blockIds := [] } = c.sequenceTables i := by
      rw [ht]; congr 1; exact (by rw [← hnil])
    refine tableStep_of h h.alloc rfl ?_ ?_ rfl rfl rfl rfl rfl
    · rw [ht', Function.update_eq_self]
    · rw [hown, hnil]; exact List.Perm.refl _

/-! ### Swapping -/

/-- **Swap-out** of a sequence that is not swapped out: its contents are copied to the CPU. -/
theorem wp_swapOut (h : Wf c) {t : BlockTable} (ht : c.sequenceTables i = some t)
    (hout : i ∉ c.swappedOutSequences) :
    wp (PagedKVCache.swapOut i)
      (fun _ c' => Wf c' ∧ Frame {i} c c' ∧ c'.blockAllocator = c.blockAllocator ∧
        c'.kvCache = c.kvCache ∧ view c' i =
          ⟨some t, if t.blockIds ≠ [] then some (gather c.kvCache t.blockIds) else
            c.swappedCpuBuffers i, some t.numTokens, True, some (gather c.kvCache t.blockIds)⟩)
      (fun _ _ => False) c := by
  simp only [PagedKVCache.swapOut, PagedKVCache.requireSequence, wp_bind, wp_current, ht, wp_pure,
    wp_ite, wp_update]
  refine ⟨fun h0 => absurd h0 hout, fun _ => ⟨h.congr rfl rfl, ⟨rfl, fun j hj => ?_,
    fun _ _ _ _ => rfl⟩, rfl, rfl, ?_⟩⟩
  · have hji : j ≠ i := hj
    simp only [view, PagedKVCache.saveBlocks]
    split_ifs <;> simp [hji]
  · simp only [view, PagedKVCache.saveBlocks, ht]
    split_ifs <;> simp

theorem wp_swapIn_skip {t : BlockTable} (ht : c.sequenceTables i = some t)
    (hout : i ∉ c.swappedOutSequences) {Q : Unit → PagedKVCache β → Prop}
    {R : PyError → PagedKVCache β → Prop} (hQ : Q () c) : wp (PagedKVCache.swapIn i) Q R c := by
  simp only [PagedKVCache.swapIn, PagedKVCache.requireSequence, wp_bind, wp_current, ht, wp_pure,
    wp_ite]
  exact ⟨fun _ => hQ, fun h0 => absurd hout h0⟩

/-- Swap-in without a CPU copy: the sequence is no longer marked as swapped out. -/
theorem wp_swapIn_noCopy (h : Wf c) {t : BlockTable} (ht : c.sequenceTables i = some t)
    (hout : i ∈ c.swappedOutSequences) (hbuf : c.swappedCpuBuffers i = none) :
    wp (PagedKVCache.swapIn i)
      (fun _ c' => Wf c' ∧ Frame {i} c c' ∧ c'.blockAllocator = c.blockAllocator ∧
        c'.kvCache = c.kvCache ∧ view c' i = ⟨some t, none, none, False, c.savedAtSwapOut i⟩)
      (fun _ _ => False) c := by
  simp only [PagedKVCache.swapIn, PagedKVCache.requireSequence, wp_bind, wp_current, ht, wp_pure,
    wp_ite, wp_update, hbuf]
  refine ⟨fun h0 => absurd hout h0, fun _ => ⟨h.congr rfl rfl, ⟨rfl, fun j hj => ?_,
    fun _ _ _ _ => rfl⟩, rfl, rfl, ?_⟩⟩
  · have hji : j ≠ i := hj
    simp [view, PagedKVCache.popSaved, hji]
  · simp [view, PagedKVCache.popSaved, ht]

theorem scatter_of_notMem (kv : ℕ → β) : ∀ (bs : List ℕ) (rows : List β) {b : ℕ}, b ∉ bs →
    scatter kv bs rows b = kv b := by
  intro bs
  induction bs generalizing kv with
  | nil => intro rows b _; rfl
  | cons a bs ih =>
    intro rows b hb
    cases rows with
    | nil => rfl
    | cons r rows =>
      simp only [List.mem_cons, not_or] at hb
      rw [scatter, ih _ rows hb.2, Function.update_of_ne hb.1]

theorem gather_scatter (kv : ℕ → β) : ∀ (bs : List ℕ) (rows : List β), bs.Nodup →
    bs.length = rows.length → gather (scatter kv bs rows) bs = rows := by
  intro bs
  induction bs generalizing kv with
  | nil =>
    intro rows _ hl
    exact (List.length_eq_zero_iff.mp hl.symm).symm
  | cons b bs ih =>
    intro rows hnd hl
    cases rows with
    | nil => simp at hl
    | cons r rows =>
      obtain ⟨hb, hnd⟩ := List.nodup_cons.mp hnd
      have htail : gather (scatter kv (b :: bs) (r :: rows)) bs = rows :=
        ih (Function.update kv b r) rows hnd (by simpa using hl)
      have hhead : scatter kv (b :: bs) (r :: rows) b = r := by
        rw [scatter, scatter_of_notMem _ bs rows hb, Function.update_self]
      rw [gather, List.map_cons, hhead]
      exact congrArg (r :: ·) htail

/-- The assignment of as many rows as block ids. -/
theorem wp_writeBlocks {bs : List ℕ} {rows : List β} (hl : bs.length = rows.length)
    {Q : Unit → PagedKVCache β → Prop} {R : PyError → PagedKVCache β → Prop}
    (hQ : Q () { c with kvCache := scatter c.kvCache bs rows }) :
    wp (PagedKVCache.writeBlocks bs rows) Q R c := by
  rcases rows with _ | ⟨r, _ | ⟨r', rows⟩⟩
  · simp only [PagedKVCache.writeBlocks, wp_ite, wp_update, wp_raise]
    exact ⟨fun _ => hQ, fun h0 => absurd hl.symm h0⟩
  · obtain ⟨b, rfl⟩ := List.length_eq_one_iff.mp hl
    exact hQ
  · simp only [PagedKVCache.writeBlocks, wp_ite, wp_update, wp_raise]
    exact ⟨fun _ => hQ, fun h0 => absurd hl.symm h0⟩

/-- **Swap-in** from a CPU copy: new blocks with the copied contents. If the pool is too small,
the copy is lost. -/
theorem wp_swapIn_copy (h : Wf c) {t : BlockTable} (ht : c.sequenceTables i = some t)
    (hnil : t.blockIds = []) (hout : i ∈ c.swappedOutSequences) {buf : List β}
    (hbuf : c.swappedCpuBuffers i = some buf) :
    wp (PagedKVCache.swapIn i)
      (fun _ c' => ∃ bs, Wf c' ∧ Frame {i} c c' ∧ view c' i =
          ⟨some ⟨bs, (c.swappedNumTokens i).getD 0⟩, none, none, False, c.savedAtSwapOut i⟩ ∧
        bs.length = buf.length ∧ gather c'.kvCache bs = buf ∧
        c'.blockAllocator.numFreeBlocks + buf.length = c.blockAllocator.numFreeBlocks)
      (fun _ c' => c' = PagedKVCache.popSaved i c ∧
        c.blockAllocator.numFreeBlocks < buf.length) c := by
  simp only [PagedKVCache.swapIn, PagedKVCache.requireSequence, PagedKVCache.onAllocator, wp_bind,
    wp_current, ht, wp_pure, wp_ite, wp_update, hbuf, hnil, wp_zoom]
  refine ⟨fun h0 => absurd hout h0, fun _ => ⟨fun _ => ?_, fun h0 => absurd trivial h0⟩⟩
  refine AllocatorSpec.wp_allocate h.alloc buf.length (fun hle => ?_) fun hlt _ => ⟨rfl, hlt⟩
  generalize hbs : c.blockAllocator.freeBlockHeap.take buf.length = bs
  have hlen : bs.length = buf.length := by
    rw [← hbs, List.length_take]; exact min_eq_left hle
  have hnd : bs.Nodup := by rw [← hbs]; exact h.alloc.nodup.sublist (List.take_sublist _ _)
  have hsplit : bs ++ c.blockAllocator.freeBlockHeap.drop buf.length =
      c.blockAllocator.freeBlockHeap := by rw [← hbs]; exact List.take_append_drop _ _
  have hfree : ∀ b ∈ bs, b ∈ freeBlocks c := fun b hb => by
    rw [freeBlocks, ← hsplit]; exact List.mem_append_left _ hb
  -- the state after the assignment, whatever the branch
  have hpost : ∀ c' : PagedKVCache β,
      c'.blockAllocator = taken buf.length c.blockAllocator →
      c'.sequenceTables = Function.update c.sequenceTables i
        (some ⟨bs, (c.swappedNumTokens i).getD 0⟩) →
      c'.swappedCpuBuffers = Function.update c.swappedCpuBuffers i none →
      c'.swappedNumTokens = Function.update c.swappedNumTokens i none →
      c'.swappedOutSequences = c.swappedOutSequences.erase i →
      c'.savedAtSwapOut = c.savedAtSwapOut → c'.kvCache = scatter c.kvCache bs buf →
      ∃ bs', Wf c' ∧ Frame {i} c c' ∧ view c' i =
          ⟨some ⟨bs', (c.swappedNumTokens i).getD 0⟩, none, none, False, c.savedAtSwapOut i⟩ ∧
        bs'.length = buf.length ∧ gather c'.kvCache bs' = buf ∧
        c'.blockAllocator.numFreeBlocks + buf.length = c.blockAllocator.numFreeBlocks := by
    intro c' ha htab hb hn ho hs hkv
    refine ⟨bs, ?_, ⟨by rw [ha]; rfl, fun j hj => ?_, fun j hj b hb' => ?_⟩, ?_, hlen, ?_, ?_⟩
    · refine h.move i (by rw [ha]; exact h.alloc.taken _) (by rw [ha]; rfl) htab ?_
      have : owned c i = [] := by simp [owned, ht, hnil]
      rw [this, freeBlocks, ha]
      simp only [tableBlocks_some, taken, hsplit, List.nil_append]
      exact List.Perm.refl _
    · have hji : j ≠ i := hj
      simp [view, htab, hb, hn, ho, hs, hji]
    · rw [hkv, scatter_of_notMem _ bs buf fun hmem => h.not_free j b hb' (hfree b hmem)]
    · simp [view, htab, hb, hn, ho, hs]
    · rw [hkv]; exact gather_scatter _ bs buf hnd hlen
    · rw [ha]
      simp only [taken, BlockAllocator.numFreeBlocks, List.length_drop] at hle ⊢
      omega
  refine ⟨fun _ => wp_writeBlocks hlen ?_, fun h0 => ?_⟩
  · exact hpost _ rfl rfl rfl rfl rfl rfl rfl
  · have h1 : bs = [] := not_not.mp h0
    have h2 : buf = [] := List.length_eq_zero_iff.mp (by rw [← hlen, h1]; rfl)
    refine hpost _ rfl rfl rfl rfl rfl rfl ?_
    rw [h1, h2]; rfl

end Operations

/-! ### Shares

A share forgets which blocks a sequence has and keeps their number and contents: the operations act
on the share of their sequence, and on the number of free blocks, without looking at block ids. -/

/-- What one sequence has of the cache. -/
structure Share (β : Type) where
  tokens : Option ℕ
  rows : List β
  buffer : Option (List β)
  savedTokens : Option ℕ
  swappedOut : Bool
  saved : Option (List β)

/-- The share of sequence `i`. -/
def share (c : PagedKVCache β) (i : ℕ) : Share β :=
  ⟨(c.sequenceTables i).map (·.numTokens), gather c.kvCache (owned c i), c.swappedCpuBuffers i,
    c.swappedNumTokens i, decide (i ∈ c.swappedOutSequences), c.savedAtSwapOut i⟩

namespace Share

/-- After `swap_out` and `free_gpu_blocks`. -/
def preempted (sh : Share β) : Share β :=
  { sh with
    rows := []
    buffer := if sh.rows ≠ [] then some sh.rows else sh.buffer
    savedTokens := sh.tokens
    swappedOut := true
    saved := some sh.rows }

/-- After a `swap_in` that raised: the copy is gone. -/
def lost (sh : Share β) : Share β := { sh with buffer := none, savedTokens := none }

/-- After a `swap_in` that returned. -/
def restored (sh : Share β) : Share β :=
  if sh.swappedOut = true then
    match sh.buffer with
    | none => { sh with savedTokens := none, swappedOut := false }
    | some buf => { sh with
        tokens := some (sh.savedTokens.getD 0)
        rows := buf
        buffer := none
        savedTokens := none
        swappedOut := false }
  else sh

/-- After `free_sequence`. -/
def freed (sh : Share β) : Share β :=
  if sh.tokens = none then sh else ⟨none, [], none, none, false, sh.saved⟩

/-- The blocks a `swap_in` asks for. -/
def demand (sh : Share β) : ℕ := if sh.swappedOut = true then (sh.buffer.getD []).length else 0

end Share

theorem share_rows_length (c : PagedKVCache β) (i : ℕ) :
    (share c i).rows.length = (owned c i).length := List.length_map _

theorem share_tokens_eq_none {c : PagedKVCache β} {i : ℕ} :
    (share c i).tokens = none ↔ c.sequenceTables i = none := Option.map_eq_none_iff

theorem share_swappedOut {c : PagedKVCache β} {i : ℕ} :
    (share c i).swappedOut = true ↔ i ∈ c.swappedOutSequences := decide_eq_true_iff

/-- The share is a function of the view and the contents of the blocks. -/
theorem share_eq_of_view {c c' : PagedKVCache β} {i : ℕ} (hv : view c' i = view c i)
    (hkv : ∀ b ∈ owned c i, c'.kvCache b = c.kvCache b) : share c' i = share c i := by
  have hown := owned_of_view hv
  simp only [view, View.mk.injEq] at hv
  obtain ⟨h1, h2, h3, h4, h5⟩ := hv
  have hrows : gather c'.kvCache (owned c' i) = gather c.kvCache (owned c i) := by
    rw [hown]; exact List.map_congr_left hkv
  simp only [share, h1, h2, h3, h5, hrows, h4]

theorem Frame.share {S : Set ℕ} {c c' : PagedKVCache β} (h : Frame S c c') {j : ℕ} (hj : j ∉ S) :
    share c' j = share c j := share_eq_of_view (h.view j hj) (h.contents j hj)

/-- An operation on sequence `i` that gives it the share `sh`: blocks come from and go to the
pool. -/
structure Moves (i : ℕ) (c c' : PagedKVCache β) (sh : Share β) : Prop where
  wf : Wf c'
  frame : Frame {i} c c'
  share : share c' i = sh
  free : c'.blockAllocator.numFreeBlocks + sh.rows.length =
    c.blockAllocator.numFreeBlocks + (KvCacheSpec.share c i).rows.length

theorem TableStep.moves {i : ℕ} {c c' : PagedKVCache β} {t : BlockTable}
    (h : TableStep i c c' (some t)) :
    Moves i c c' { share c i with
      tokens := some t.numTokens
      rows := gather c.kvCache t.blockIds } := by
  have hv := h.view
  simp only [KvCacheSpec.view, View.mk.injEq] at hv
  obtain ⟨h1, h2, h3, h4, h5⟩ := hv
  refine ⟨h.wf, h.frame, ?_, ?_⟩
  · simp only [share, h1, h2, h3, h4, h5, h.kv, h.owned, Option.map_some, tableBlocks_some]
  · have := h.free
    simp only [gather, List.length_map, share_rows_length, tableBlocks_some] at this ⊢
    omega

section Shares

variable {c : PagedKVCache β} {i : ℕ}

theorem exists_table {n : ℕ} (h : (share c i).tokens = some n) :
    ∃ t, c.sequenceTables i = some t ∧ t.numTokens = n := Option.map_eq_some_iff.mp h

/-- `allocate_sequence`, when the pool has the blocks. -/
theorem moves_allocateSequence (h : Wf c) (hnone : (share c i).tokens = none) {n : ℕ}
    (hroom : ceilDiv n c.blockSize ≤ c.blockAllocator.numFreeBlocks) :
    wp (PagedKVCache.allocateSequence i n)
      (fun _ c' => ∃ rows : List β, rows.length = ceilDiv n c.blockSize ∧
        Moves i c c' { share c i with tokens := some n, rows := rows })
      (fun _ _ => False) c := by
  refine wp_mono (wp_allocateSequence h (share_tokens_eq_none.mp hnone) hroom) ?_ fun _ _ h => h
  rintro _ c' ⟨t, hstep, hfit, rfl⟩
  exact ⟨_, (List.length_map _).trans hfit, hstep.moves⟩

/-- `append_tokens` by one. -/
theorem moves_appendTokens_one (h : Wf c) {n : ℕ} (htok : (share c i).tokens = some n) :
    wp (PagedKVCache.appendTokens i 1)
      (fun _ c' => ∃ new : List β, new.length = (if n % c.blockSize = 0 then 1 else 0) ∧
        Moves i c c' { share c i with tokens := some (n + 1), rows := (share c i).rows ++ new })
      (fun e c' => (∃ msg, e = .runtimeError msg) ∧ c' = c ∧ n % c.blockSize = 0 ∧
        c.blockAllocator.numFreeBlocks = 0) c := by
  obtain ⟨t, ht, rfl⟩ := exists_table htok
  refine wp_mono (wp_appendTokens_one h ht) ?_ fun _ _ h => h
  rintro _ c' ⟨t', hstep, hn, ⟨new, hnew⟩, hlen⟩
  have hrows : (share c i).rows = gather c.kvCache t.blockIds := by simp [share, owned, ht]
  have hm := hstep.moves
  rw [hn, ← hnew, gather, List.map_append] at hm
  refine ⟨gather c.kvCache new, ?_, by rw [hrows]; exact hm⟩
  rw [← hnew, List.length_append] at hlen
  exact (List.length_map _).trans (by omega)

/-- `free_sequence`. -/
theorem moves_freeSequence (h : Wf c) :
    wp (PagedKVCache.freeSequence i) (fun _ c' => Moves i c c' (share c i).freed)
      (fun _ _ => False) c := by
  refine wp_mono (wp_freeSequence h) ?_ fun _ _ h => h
  rintro _ c' ⟨hwf, hframe, hkv, hv, hfree⟩
  by_cases ht : c.sequenceTables i = none
  · rw [if_pos ht] at hv
    have hsh : share c' i = share c i := share_eq_of_view hv fun b _ => by rw [hkv]
    have htok := share_tokens_eq_none.mpr ht
    refine ⟨hwf, hframe, by rw [hsh, Share.freed, if_pos htok], ?_⟩
    rw [Share.freed, if_pos htok, hfree, owned, ht, tableBlocks_none, List.length_nil, zero_add]
  · rw [if_neg ht] at hv
    have htok : (share c i).tokens ≠ none := fun h0 => ht (share_tokens_eq_none.mp h0)
    simp only [view, View.mk.injEq] at hv
    obtain ⟨h1, h2, h3, h4, h5⟩ := hv
    refine ⟨hwf, hframe, ?_, ?_⟩
    · simp [share, Share.freed, h1, h2, h3, h4, h5, owned, gather, ht]
    · rw [Share.freed, if_neg htok, share_rows_length]
      simp only [List.length_nil]
      omega

/-- `swap_out` followed by `free_gpu_blocks`, for a sequence that is not swapped out. -/
theorem moves_swapOut (h : Wf c) {n : ℕ} (htok : (share c i).tokens = some n)
    (hout : (share c i).swappedOut = false) :
    wp (do PagedKVCache.swapOut i; PagedKVCache.freeGpuBlocks i)
      (fun _ c' => Moves i c c' (share c i).preempted) (fun _ _ => False) c := by
  obtain ⟨t, ht, rfl⟩ := exists_table htok
  have hnot : i ∉ c.swappedOutSequences := by
    rw [← share_swappedOut, hout]; exact Bool.false_ne_true
  rw [wp_bind]
  refine wp_mono (wp_swapOut h ht hnot) ?_ fun _ _ h => h
  rintro _ c₁ ⟨hwf, hframe, halloc, hkv, hv⟩
  simp only [view, View.mk.injEq] at hv
  obtain ⟨h1, h2, h3, h4, h5⟩ := hv
  refine wp_mono (wp_freeGpuBlocks hwf h1) (fun _ c' hstep => ?_) fun _ _ h => h
  have hm := hstep.moves
  have hrows : (share c i).rows = gather c.kvCache t.blockIds := by simp [share, owned, ht]
  have hnil : gather c.kvCache t.blockIds = [] ↔ t.blockIds = [] := by simp [gather]
  refine ⟨hm.wf, hframe.trans hm.frame, ?_, ?_⟩
  · rw [hm.share]
    simp only [share, h1, h2, h3, h4, h5, Share.preempted, gather, List.map_nil, owned, ht,
      tableBlocks_some, Option.map_some, ne_eq, List.map_eq_nil_iff]
    simp
  · have := hm.free
    rw [halloc] at this
    simp only [share_rows_length, Share.preempted, gather, List.map_nil, owned, h1, ht] at this ⊢
    exact this

/-- `swap_in`, when a swapped-out sequence has no blocks. -/
theorem moves_swapIn (h : Wf c) {n : ℕ} (htok : (share c i).tokens = some n)
    (hnil : (share c i).swappedOut = true → (share c i).rows = []) :
    wp (PagedKVCache.swapIn i) (fun _ c' => Moves i c c' (share c i).restored)
      (fun _ c' => Moves i c c' (share c i).lost ∧
        c.blockAllocator.numFreeBlocks < (share c i).demand) c := by
  obtain ⟨t, ht, rfl⟩ := exists_table htok
  have hrows : (share c i).rows = gather c.kvCache t.blockIds := by simp [share, owned, ht]
  by_cases hout : i ∈ c.swappedOutSequences
  · have hout' := share_swappedOut.mpr hout
    have hblocks : t.blockIds = [] := by
      have := hnil hout'
      rwa [hrows, gather, List.map_eq_nil_iff] at this
    rcases hbuf : c.swappedCpuBuffers i with _ | buf
    · refine wp_mono (wp_swapIn_noCopy h ht hout hbuf) ?_ fun _ _ h => h.elim
      rintro _ c' ⟨hwf, hframe, halloc, hkv, hv⟩
      simp only [view, View.mk.injEq] at hv
      obtain ⟨h1, h2, h3, h4, h5⟩ := hv
      have hbuf' : (share c i).buffer = none := hbuf
      have hsh : share c' i = (share c i).restored := by
        simp only [Share.restored, hout', if_true, hbuf']
        simp [share, h1, h2, h3, h4, h5, hkv, owned, ht, hbuf]
      refine ⟨hwf, hframe, hsh, ?_⟩
      rw [halloc, ← hsh, share_rows_length, share_rows_length, owned, owned, h1, ht]
    · have hbuf' : (share c i).buffer = some buf := hbuf
      refine wp_mono (wp_swapIn_copy h ht hblocks hout hbuf) ?_ ?_
      · rintro _ c' ⟨bs, hwf, hframe, hv, hlen, hgather, hfree⟩
        simp only [view, View.mk.injEq] at hv
        obtain ⟨h1, h2, h3, h4, h5⟩ := hv
        have hsh : share c' i = (share c i).restored := by
          simp only [Share.restored, hout', if_true, hbuf']
          simp [share, h1, h2, h3, h4, h5, owned, hgather]
        refine ⟨hwf, hframe, hsh, ?_⟩
        have hzero : (share c i).rows.length = 0 := by rw [hnil hout']; rfl
        rw [← hsh, hzero, share_rows_length, owned, h1, tableBlocks_some, hlen]
        exact hfree
      · rintro _ c' ⟨rfl, hlt⟩
        refine ⟨⟨h.congr rfl rfl, ⟨rfl, fun j hj => ?_, fun _ _ _ _ => rfl⟩, ?_, rfl⟩, ?_⟩
        · have hji : j ≠ i := hj
          simp [view, PagedKVCache.popSaved, hji]
        · simp only [share, Share.lost, PagedKVCache.popSaved, owned, Function.update_self]
          rfl
        · simpa [Share.demand, hout', hbuf'] using hlt
  · refine wp_swapIn_skip ht hout ?_
    have hno : ¬ (share c i).swappedOut = true := fun h0 => hout (share_swappedOut.mp h0)
    refine ⟨h, Frame.refl _ _, by rw [Share.restored, if_neg hno], ?_⟩
    rw [Share.restored, if_neg hno]

end Shares

end MoeInfinity.Serving.KvCacheSpec
