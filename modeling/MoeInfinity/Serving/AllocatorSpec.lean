import MoeInfinity.Serving.KvCache

/-! # What the block allocator does

The free heap is strictly increasing and the free set holds the same blocks (`Wf`). In this state
`allocate n` takes the `n` least blocks or, if there are fewer, raises and changes nothing, and
`free` never raises on blocks that are in range, without repetition and not free. -/

namespace MoeInfinity.Serving.AllocatorSpec

open MoeInfinity.Python MoeInfinity.Lib.Imperative MoeInfinity.Serving.KvCache

/-- The free heap is sorted, without repetition and in range; the free set is its set of blocks. -/
structure Wf (a : BlockAllocator) : Prop where
  sorted : a.freeBlockHeap.Pairwise (· < ·)
  set_eq : a.freeBlockSet = a.freeBlockHeap.toFinset
  lt : ∀ b ∈ a.freeBlockHeap, b < a.cfg.numBlocks

theorem Wf.nodup {a : BlockAllocator} (h : Wf a) : a.freeBlockHeap.Nodup :=
  h.sorted.imp fun hab => ne_of_lt hab

theorem wf_new (cfg : KvConfig) : Wf (BlockAllocator.new cfg) where
  sorted := List.pairwise_lt_range
  set_eq := by ext b; simp [BlockAllocator.new]
  lt := by simp [BlockAllocator.new]

/-! ### Taking blocks -/

/-- The allocator without its `n` least free blocks. -/
def taken (n : ℕ) (a : BlockAllocator) : BlockAllocator :=
  ⟨a.cfg, a.freeBlockHeap.drop n, (a.freeBlockHeap.drop n).toFinset⟩

theorem Wf.taken {a : BlockAllocator} (h : Wf a) (n : ℕ) : Wf (taken n a) where
  sorted := h.sorted.sublist (List.drop_sublist _ _)
  set_eq := rfl
  lt := fun b hb => h.lt b (List.mem_of_mem_drop hb)

theorem allocateLoop_eq : ∀ (n : ℕ) (a : BlockAllocator), Wf a → n ≤ a.numFreeBlocks →
    (BlockAllocator.allocateLoop n).run a = (taken n a, .ok (a.freeBlockHeap.take n))
  | 0, a, h, _ => by
    obtain ⟨cfg, heap, set⟩ := a
    have := h.set_eq
    simp only at this
    subst this
    rfl
  | n + 1, a, h, hn => by
    obtain ⟨cfg, heap, set⟩ := a
    have hset := h.set_eq
    simp only at hset
    subst hset
    cases heap with
    | nil => simp [BlockAllocator.numFreeBlocks] at hn
    | cons b rest =>
      have hb : b ∉ rest := (List.nodup_cons.mp h.nodup).1
      have herase : (b :: rest).toFinset.erase b = rest.toFinset := by
        rw [List.toFinset_cons, Finset.erase_insert (by simpa using hb)]
      have hw : Wf ⟨cfg, rest, rest.toFinset⟩ := h.taken 1
      have ih := allocateLoop_eq n ⟨cfg, rest, rest.toFinset⟩ hw
        (by simpa [BlockAllocator.numFreeBlocks] using hn)
      have hpop : BlockAllocator.heappop.run ⟨cfg, b :: rest, (b :: rest).toFinset⟩ =
          (⟨cfg, rest, (b :: rest).toFinset⟩, .ok b) := rfl
      have hrem : (BlockAllocator.setRemove b).run ⟨cfg, rest, (b :: rest).toFinset⟩ =
          (⟨cfg, rest, rest.toFinset⟩, .ok ()) := by
        rw [BlockAllocator.setRemove, run_bind_ok rfl, if_pos (by simp)]
        simp only [update, herase]
      rw [BlockAllocator.allocateLoop, run_bind_ok hpop, run_bind_ok hrem, run_bind_ok ih]
      rfl

/-- **Allocation**: the least blocks in order, or an exception and no change. -/
theorem wp_allocate {a : BlockAllocator} (h : Wf a) (n : ℕ) {Q : List ℕ → BlockAllocator → Prop}
    {R : PyError → BlockAllocator → Prop}
    (hQ : n ≤ a.numFreeBlocks → Q (a.freeBlockHeap.take n) (taken n a))
    (hR : a.numFreeBlocks < n → ∀ msg, R (.runtimeError msg) a) :
    wp (BlockAllocator.allocate n) Q R a := by
  simp only [BlockAllocator.allocate, wp_bind, wp_current, wp_ite, wp_pure, wp_raise]
  refine ⟨fun h0 => ?_, fun h0 => ⟨fun hlt => hR hlt _, fun hle => ?_⟩⟩
  · subst h0
    have h1 := hQ (Nat.zero_le _)
    rwa [show taken 0 a = a by obtain ⟨cfg, heap, set⟩ := a; simp [taken, ← h.set_eq]] at h1
  · exact wp_of_eq (allocateLoop_eq n a h (by omega)) (hQ (by omega))

/-! ### Giving blocks back -/

/-- The allocator with the blocks `bs` added to its free ones. -/
def returned (bs : List ℕ) (a : BlockAllocator) : BlockAllocator :=
  ⟨a.cfg, bs.foldl (heappush (· ≤ ·)) a.freeBlockHeap,
    (bs.foldl (heappush (· ≤ ·)) a.freeBlockHeap).toFinset⟩

theorem foldl_heappush_perm : ∀ (bs heap : List ℕ),
    (bs.foldl (heappush (· ≤ ·)) heap).Perm (bs ++ heap)
  | [], heap => List.Perm.refl heap
  | b :: bs, heap => by
    have h1 := foldl_heappush_perm bs (heappush (· ≤ ·) heap b)
    have h2 : (heappush (· ≤ ·) heap b).Perm (b :: heap) := List.perm_orderedInsert _ b heap
    exact (h1.trans (h2.append_left bs)).trans List.perm_middle

theorem foldl_heappush_sorted : ∀ (bs heap : List ℕ), heap.Pairwise (· < ·) →
    (bs ++ heap).Nodup → (bs.foldl (heappush (· ≤ ·)) heap).Pairwise (· < ·)
  | [], _, h, _ => h
  | b :: bs, heap, h, hn => by
    have hperm : (heappush (· ≤ ·) heap b).Perm (b :: heap) := List.perm_orderedInsert _ b heap
    have hsorted : (heappush (· ≤ ·) heap b).Pairwise (· ≤ ·) :=
      List.Pairwise.orderedInsert b heap (h.imp fun h => le_of_lt h)
    have hnodup : (b :: heap).Nodup := hn.sublist
      (List.cons_sublist_cons.mpr (List.sublist_append_right bs heap))
    refine foldl_heappush_sorted bs _ ?_ ?_
    · exact (hsorted.and (hperm.nodup_iff.mpr hnodup)).imp fun h => lt_of_le_of_ne h.1 h.2
    · refine ((hperm.append_left bs).trans ?_).nodup_iff.mpr hn
      exact List.perm_middle

theorem returned_perm (bs : List ℕ) (a : BlockAllocator) :
    (returned bs a).freeBlockHeap.Perm (bs ++ a.freeBlockHeap) :=
  foldl_heappush_perm bs a.freeBlockHeap

theorem mem_returned {bs : List ℕ} {a : BlockAllocator} {b : ℕ} :
    b ∈ (returned bs a).freeBlockHeap ↔ b ∈ bs ∨ b ∈ a.freeBlockHeap := by
  rw [(returned_perm bs a).mem_iff, List.mem_append]

theorem numFreeBlocks_returned (bs : List ℕ) (a : BlockAllocator) :
    (returned bs a).numFreeBlocks = bs.length + a.numFreeBlocks := by
  simpa [BlockAllocator.numFreeBlocks] using (returned_perm bs a).length_eq

/-- Blocks that may be freed: in range, without repetition and not free. -/
structure Freeable (bs : List ℕ) (a : BlockAllocator) : Prop where
  nodup : bs.Nodup
  not_free : ∀ b ∈ bs, b ∉ a.freeBlockHeap
  lt : ∀ b ∈ bs, b < a.cfg.numBlocks

theorem Wf.returned {bs : List ℕ} {a : BlockAllocator} (h : Wf a) (hbs : Freeable bs a) :
    Wf (returned bs a) where
  sorted := foldl_heappush_sorted bs _ h.sorted
    (List.nodup_append'.mpr ⟨hbs.nodup, h.nodup, fun b hb hb' => hbs.not_free b hb hb'⟩)
  set_eq := rfl
  lt := fun b hb => (mem_returned.mp hb).elim (hbs.lt b) (h.lt b)

/-- **Freeing** blocks that may be freed never raises. -/
theorem free_eq : ∀ (bs : List ℕ) (a : BlockAllocator), Wf a → Freeable bs a →
    (BlockAllocator.free bs).run a = (returned bs a, .ok ())
  | [], a, h, _ => by
    obtain ⟨cfg, heap, set⟩ := a
    have := h.set_eq
    simp only at this
    subst this
    rfl
  | b :: bs, a, h, hbs => by
    have hfree : Freeable [b] a :=
      ⟨List.nodup_singleton b, by simpa using hbs.not_free b (by simp),
        by simpa using hbs.lt b (by simp)⟩
    have hb := List.nodup_cons.mp hbs.nodup
    have hrest : Freeable bs (returned [b] a) := by
      refine ⟨hb.2, fun c hc hc' => ?_, fun c hc => hbs.lt c (by simp [hc])⟩
      rcases mem_returned.mp hc' with h' | h'
      · rw [List.mem_singleton.mp h'] at hc; exact hb.1 hc
      · exact hbs.not_free c (by simp [hc]) h'
    have hone : (BlockAllocator.freeOne b).run a = (returned [b] a, .ok ()) := by
      have h1 : ¬ a.cfg.numBlocks ≤ b := not_le.mpr (hbs.lt b (by simp))
      have h2 : b ∉ a.freeBlockSet := by
        rw [h.set_eq, List.mem_toFinset]; exact hbs.not_free b (by simp)
      have h3 : insert b a.freeBlockSet = (heappush (· ≤ ·) a.freeBlockHeap b).toFinset := by
        ext c
        simp [h.set_eq, heappush, List.mem_orderedInsert]
      rw [BlockAllocator.freeOne, run_bind_ok rfl, if_neg h1, if_neg h2]
      simp only [update, h3]
      rfl
    have ih := free_eq bs (returned [b] a) (h.returned hfree) hrest
    unfold BlockAllocator.free at ih ⊢
    rw [forEach, run_bind_ok hone, ih]
    rfl

theorem wp_free {bs : List ℕ} {a : BlockAllocator} (h : Wf a) (hbs : Freeable bs a)
    {Q : Unit → BlockAllocator → Prop} {R : PyError → BlockAllocator → Prop}
    (hQ : Q () (returned bs a)) : wp (BlockAllocator.free bs) Q R a :=
  wp_of_eq (free_eq bs a h hbs) hQ

end MoeInfinity.Serving.AllocatorSpec
