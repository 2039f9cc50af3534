import MoeInfinity.Serving.Lifecycle
import MoeInfinity.Serving.Schedule

/-! # What the scheduler's loops do to the sequences

The loops of the scheduler run over the sequences of a group. `Each P ids s s'` says that such a
loop has taken the life of every sequence of `ids` through `P`, has left all other lives and the
queues alone, and has moved blocks between the pool and the sequences of `ids` only. Each loop below
gets one specification of this form. -/

namespace MoeInfinity.Serving.ScheduleSpec

open MoeInfinity.Python MoeInfinity.Lib.Imperative
open MoeInfinity.Serving.Sequence MoeInfinity.Serving.KvCache MoeInfinity.Serving.KvCacheSpec
open MoeInfinity.Serving.Schedule MoeInfinity.Serving.Schedule.Scheduler
open MoeInfinity.Serving.Lifecycle

variable {β : Type}

/-! ### Lives and what loops do to them -/

/-- The life of sequence `i`. -/
def life (s : Scheduler β) (i : ℕ) : Life β := ⟨s.store i, share s.kvCache i⟩

/-- The number of blocks of some sequences. -/
def blocksOf (s : Scheduler β) (ids : List ℕ) : ℕ :=
  (ids.map fun i => (life s i).share.rows.length).sum

/-- The number of blocks that bringing some sequences back takes. -/
def demandOf (s : Scheduler β) (ids : List ℕ) : ℕ :=
  (ids.map fun i => (life s i).share.demand).sum

/-- Queues, maps and sizes are the same. -/
structure SameQueues (s s' : Scheduler β) : Prop where
  cfg : s'.cfg = s.cfg
  blockSize : s'.kvCache.blockSize = s.kvCache.blockSize
  waiting : s'.waiting = s.waiting
  running : s'.running = s.running
  swapped : s'.swapped = s.swapped
  sequenceMap : s'.sequenceMap = s.sequenceMap
  requestMap : s'.requestMap = s.requestMap

theorem SameQueues.refl (s : Scheduler β) : SameQueues s s := ⟨rfl, rfl, rfl, rfl, rfl, rfl, rfl⟩

theorem SameQueues.trans {s s' s'' : Scheduler β} (h : SameQueues s s') (h' : SameQueues s' s'') :
    SameQueues s s'' :=
  ⟨h'.cfg.trans h.cfg, h'.blockSize.trans h.blockSize, h'.waiting.trans h.waiting,
    h'.running.trans h.running, h'.swapped.trans h.swapped, h'.sequenceMap.trans h.sequenceMap,
    h'.requestMap.trans h.requestMap⟩

/-- The sequences of `ids` have gone through `P`; blocks moved between them and the pool only. -/
structure Each (P : ℕ → Life β → Life β → Prop) (ids : List ℕ) (s s' : Scheduler β) : Prop where
  wf : Wf s'.kvCache
  same : SameQueues s s'
  other : ∀ j ∉ ids, life s' j = life s j
  each : ∀ i ∈ ids, P i (life s i) (life s' i)
  free : s'.numFreeBlocks + blocksOf s' ids = s.numFreeBlocks + blocksOf s ids

section Each

variable {P Q : ℕ → Life β → Life β → Prop} {ids : List ℕ} {s s₁ s' : Scheduler β} {i : ℕ}

theorem blocksOf_congr (h : ∀ i ∈ ids, life s' i = life s i) :
    blocksOf s' ids = blocksOf s ids := by
  unfold blocksOf
  rw [List.map_congr_left fun i hi => by rw [h i hi]]

theorem demandOf_congr (h : ∀ i ∈ ids, life s' i = life s i) :
    demandOf s' ids = demandOf s ids := by
  unfold demandOf
  rw [List.map_congr_left fun i hi => by rw [h i hi]]

theorem blocksOf_cons : blocksOf s (i :: ids) = (life s i).share.rows.length + blocksOf s ids := rfl

theorem demandOf_cons : demandOf s (i :: ids) = (life s i).share.demand + demandOf s ids := rfl

theorem Each.nil (h : Wf s.kvCache) : Each P [] s s :=
  ⟨h, SameQueues.refl s, fun _ _ => rfl, fun _ hi => absurd hi List.not_mem_nil, rfl⟩

/-- Nothing happens to `ids`. -/
theorem Each.stay (hP : ∀ i l, P i l l) (h : Wf s.kvCache) (ids : List ℕ) : Each P ids s s :=
  ⟨h, SameQueues.refl s, fun _ _ => rfl, fun i _ => hP i _, rfl⟩

theorem Each.cons (hi : i ∉ ids) (h : Each P [i] s s₁) (h' : Each P ids s₁ s') :
    Each P (i :: ids) s s' := by
  refine ⟨h'.wf, h.same.trans h'.same, fun j hj => ?_, fun j hj => ?_, ?_⟩
  · simp only [List.mem_cons, not_or] at hj
    rw [h'.other j hj.2, h.other j (by simpa using hj.1)]
  · rcases List.mem_cons.mp hj with rfl | hj
    · rw [h'.other j hi]
      exact h.each j (by simp)
    · have hji : j ∉ [i] := fun h0 => hi (List.mem_singleton.mp h0 ▸ hj)
      rw [← h.other j hji]
      exact h'.each j hj
  · have h1 := h.free
    have h2 := h'.free
    have h3 : blocksOf s₁ ids = blocksOf s ids := blocksOf_congr fun j hj =>
      h.other j fun h0 => hi (List.mem_singleton.mp h0 ▸ hj)
    have h4 : (life s' i) = life s₁ i := h'.other i hi
    simp only [blocksOf_cons, h4] at h1 h2 ⊢
    have h5 : ∀ t : Scheduler β, blocksOf t [] = 0 := fun _ => rfl
    rw [h5, h5] at h1
    omega

theorem Each.trans (h : Each P ids s s₁) (h' : Each Q ids s₁ s') :
    Each (fun i l l' => ∃ l₁, P i l l₁ ∧ Q i l₁ l') ids s s' := by
  refine ⟨h'.wf, h.same.trans h'.same, fun j hj => (h'.other j hj).trans (h.other j hj),
    fun i hi => ⟨life s₁ i, h.each i hi, h'.each i hi⟩, h'.free.trans h.free⟩

theorem Each.mono (h : Each P ids s s') (hPQ : ∀ i ∈ ids, P i (life s i) (life s' i) →
    Q i (life s i) (life s' i)) : Each Q ids s s' :=
  ⟨h.wf, h.same, h.other, fun i hi => hPQ i hi (h.each i hi), h.free⟩

/-- The queues play no part in what happens to the lives. -/
theorem Each.requeue (h : Each P ids s s') (W R S : List SequenceGroup → List SequenceGroup) :
    Each P ids { s with waiting := W s.waiting, running := R s.running, swapped := S s.swapped }
      { s' with waiting := W s'.waiting, running := R s'.running, swapped := S s'.swapped } :=
  ⟨h.wf, ⟨h.same.cfg, h.same.blockSize, congrArg W h.same.waiting, congrArg R h.same.running,
    congrArg S h.same.swapped, h.same.sequenceMap, h.same.requestMap⟩, h.other, h.each, h.free⟩

theorem Each.widen (h : Each P [] s s') (ids : List ℕ) : Each (fun _ l l' => l' = l) ids s s' := by
  have hlife : ∀ i, life s' i = life s i := fun i => h.other i List.not_mem_nil
  refine ⟨h.wf, h.same, fun i _ => hlife i, fun i _ => hlife i, ?_⟩
  have hfree : s'.numFreeBlocks = s.numFreeBlocks := h.free
  rw [hfree, blocksOf_congr fun i _ => hlife i]

/-- An operation of the cache on one sequence. -/
theorem Each.of_moves {c' : PagedKVCache β} {sh : Share β} (h : Moves i s.kvCache c' sh) :
    Each (fun _ l l' => l' = { l with share := sh }) [i] s { s with kvCache := c' } := by
  refine ⟨h.wf, ⟨rfl, congrArg KvConfig.blockSize h.frame.cfg, rfl, rfl, rfl, rfl, rfl⟩,
    fun j hj => ?_, fun j hj => ?_, ?_⟩
  · have hji : j ∉ ({i} : Set ℕ) := by simpa using hj
    exact congrArg (Life.mk (s.store j)) (h.frame.share hji)
  · rw [List.mem_singleton.mp hj]
    exact congrArg (Life.mk (s.store i)) h.share
  · have := h.free
    rw [← h.share] at this
    exact this

/-- A change of one object that keeps its share. -/
theorem Each.of_data (h : Wf s.kvCache) (d : SequenceData) :
    Each (fun _ l l' => l' = { l with data := d }) [i] s
      { s with store := Function.update s.store i d } := by
  refine ⟨h, ⟨rfl, rfl, rfl, rfl, rfl, rfl, rfl⟩, fun j hj => ?_, fun j hj => ?_, rfl⟩
  · have hji : j ≠ i := by simpa using hj
    exact congrArg (Life.mk · (share s.kvCache j)) (Function.update_of_ne hji d s.store)
  · rw [List.mem_singleton.mp hj]
    exact congrArg (Life.mk · (share s.kvCache i)) (Function.update_self i d s.store)

end Each

/-! ### Single steps -/

section Steps

variable {s : Scheduler β} {i : ℕ}

theorem wp_onKv {α : Type} {m : Prog PyError (PagedKVCache β) α} {Q : α → Scheduler β → Prop}
    {R : PyError → Scheduler β → Prop} :
    wp (onKv m) Q R s ↔ wp m (fun a c => Q a { s with kvCache := c })
      (fun e c => R e { s with kvCache := c }) s.kvCache := wp_zoom

/-- A status change that the transition table allows. -/
theorem wp_setStatus {st : SequenceStatus} (h : Wf s.kvCache)
    (hst : st ∈ allowedTransitions (s.store i).status) {Q : Unit → Scheduler β → Prop}
    {R : PyError → Scheduler β → Prop}
    (hQ : ∀ s', Each (fun _ l l' => l' = l.withStatus st) [i] s s' → Q () s') :
    wp (Scheduler.setStatus i st) Q R s := by
  simp only [Scheduler.setStatus, wp_bind, wp_current, SequenceData.setStatus_eq hst,
    wp_ofExcept_ok, wp_update]
  refine hQ _ ((Each.of_data h _).mono fun j hj hl => ?_)
  rw [hl, List.mem_singleton.mp hj]
  rfl

end Steps

/-- A loop that takes each sequence through `P` from its life at the start; if it raises, which
takes `F`, the sequences have gone through the weaker `Q`. -/
theorem wp_forEach_each {body : ℕ → Prog PyError (Scheduler β) Unit}
    {P Q : ℕ → Life β → Life β → Prop} {F : Prop} (hP : ∀ i l l', P i l l' → Q i l l')
    (hrefl : ∀ i l, Q i l l) : ∀ (ids : List ℕ) (s : Scheduler β), ids.Nodup → Wf s.kvCache →
    (∀ i ∈ ids, ∀ t, Wf t.kvCache → SameQueues s t → life t i = life s i →
      wp (body i) (fun _ t' => Each P [i] t t') (fun _ t' => F ∧ Each Q [i] t t') t) →
    wp (forEach body ids) (fun _ s' => Each P ids s s') (fun _ s' => F ∧ Each Q ids s s') s
  | [], _, _, hwf, _ => Each.nil hwf
  | i :: ids, s, hnd, hwf, hbody => by
    obtain ⟨hi, hnd⟩ := List.nodup_cons.mp hnd
    rw [forEach, wp_bind]
    refine wp_mono (hbody i List.mem_cons_self s hwf (SameQueues.refl s) rfl)
      (fun _ s₁ hone => ?_) ?_
    · have hsame : ∀ j ∈ ids, life s₁ j = life s j := fun j hj =>
        hone.other j fun h0 => hi (List.mem_singleton.mp h0 ▸ hj)
      refine wp_mono
        (wp_forEach_each (F := F) hP hrefl ids s₁ hnd hone.wf fun j hj t hwf' hq hl => ?_)
        (fun _ s' hrest => Each.cons hi hone hrest) ?_
      · exact hbody j (List.mem_cons_of_mem i hj) t hwf' (hone.same.trans hq)
          (hl.trans (hsame j hj))
      · rintro e s' ⟨hr, hrest⟩
        exact ⟨hr, Each.cons hi (hone.mono fun j _ => hP j _ _) hrest⟩
    · rintro e s₁ ⟨hr, hone⟩
      exact ⟨hr, Each.cons hi hone (Each.stay hrefl hone.wf ids)⟩

/-! ### Preempting the sequences of a group -/

theorem wp_preemptSequences : ∀ (ids : List ℕ) (s : Scheduler β), ids.Nodup → Wf s.kvCache →
    (∀ i ∈ ids, (life s i).Ok) →
    wp (preemptSequences ids)
      (fun r s' => r = ids.filter (fun i => Active (s.store i).status) ∧
        Each (fun _ l l' => l' = l.preempted) r s s')
      (fun _ _ => False) s
  | [], s, _, hwf, _ => ⟨rfl, Each.nil hwf⟩
  | i :: ids, s, hnd, hwf, hok => by
    obtain ⟨hi, hnd⟩ := List.nodup_cons.mp hnd
    simp only [preemptSequences, wp_bind, wp_current, wp_ite, wp_pure]
    refine ⟨fun hact => ?_, fun hno => ?_⟩
    · have hoki := hok i List.mem_cons_self
      have hactive : Active (s.store i).status := hact
      obtain ⟨n, htok⟩ := hoki.exists_tokens hactive.hasTable
      have hmark : (share s.kvCache i).swappedOut = false :=
        hoki.mark_false
          (by rcases hact with h0 | h0 <;> (change (s.store i).status ≠ _; rw [h0]; decide))
      rw [wp_attempt, wp_onKv]
      refine wp_mono (wp_bind.mp (moves_swapOut hwf htok hmark)) (fun _ c₁ hc₁ => ?_)
        fun _ _ h => h.elim
      rw [wp_onKv]
      refine wp_mono hc₁ (fun _ c₂ hm => ?_) fun _ _ h => h
      have hswap : SequenceStatus.swapped ∈ allowedTransitions (s.store i).status := by
        rcases hact with h0 | h0 <;> rw [h0] <;> decide
      have hkv := Each.of_moves hm
      refine wp_setStatus (s := { s with kvCache := c₂ }) hm.wf hswap fun s₁ hst => ?_
      have hone : Each (fun _ l l' => l' = l.preempted) [i] s s₁ := by
        refine (hkv.trans hst).mono fun j hj hl => ?_
        obtain ⟨l₁, rfl, hl⟩ := hl
        rw [hl, List.mem_singleton.mp hj]
        rfl
      have hsame : ∀ j ∈ ids, life s₁ j = life s j := fun j hj =>
        hone.other j fun h0 => hi (List.mem_singleton.mp h0 ▸ hj)
      refine wp_mono (wp_preemptSequences ids s₁ hnd hone.wf fun j hj => ?_) ?_ fun _ _ h => h
      · rw [hsame j hj]; exact hok j (List.mem_cons_of_mem i hj)
      · rintro r s' ⟨hr, hrest⟩
        have hfilter : ids.filter (fun j => Active (s₁.store j).status) =
            ids.filter (fun j => Active (s.store j).status) :=
          List.filter_congr fun j hj => by
            rw [show s₁.store j = s.store j from congrArg Life.data (hsame j hj)]
        refine ⟨?_, Each.cons ?_ hone hrest⟩
        · rw [List.filter_cons_of_pos (by simpa using hactive), hr, hfilter]
        · rw [hr]
          exact fun h0 => hi (List.mem_of_mem_filter h0)
    · refine wp_mono
        (wp_preemptSequences ids s hnd hwf fun j hj => hok j (List.mem_cons_of_mem i hj)) ?_
        fun _ _ h => h
      rintro r s' ⟨hr, hrest⟩
      refine ⟨?_, hrest⟩
      have hnot : ¬ Active (s.store i).status := hno
      rw [List.filter_cons_of_neg (by simpa using hnot), hr]

/-! ### Bringing the sequences of a group back -/

/-- What a failed recovery may have done to a sequence. -/
def Disturbed (l l' : Life β) : Prop := l' = l ∨ l' = l.restored ∨ l' = l.lost

theorem wp_swapInAll : ∀ (ids : List ℕ) (s : Scheduler β), ids.Nodup → Wf s.kvCache →
    (∀ i ∈ ids, (life s i).Ok ∧ (s.store i).status = .swapped) →
    wp (swapInAll ids)
      (fun r s' => (r = true ∧ Each (fun _ l l' => l' = l.restored) ids s s') ∨
        (r = false ∧ s.numFreeBlocks < demandOf s ids ∧ Each (fun _ => Disturbed) ids s s'))
      (fun _ _ => False) s
  | [], s, _, hwf, _ => Or.inl ⟨rfl, Each.nil hwf⟩
  | i :: ids, s, hnd, hwf, hok => by
    obtain ⟨hi, hnd⟩ := List.nodup_cons.mp hnd
    obtain ⟨hoki, hst⟩ := hok i List.mem_cons_self
    obtain ⟨n, htok⟩ := hoki.exists_tokens (Or.inr (Or.inr hst))
    simp only [swapInAll, wp_bind, wp_attempt, wp_pure, wp_onKv, wp_ite]
    refine wp_mono (moves_swapIn hwf htok fun h0 => (hoki.mark h0).2) (fun _ c' hm => ?_) ?_
    · refine ⟨fun _ => ?_, fun h0 => absurd trivial h0⟩
      have hone : Each (fun _ l l' => l' = l.restored) [i] s { s with kvCache := c' } :=
        (Each.of_moves hm).mono fun j hj hl => by rw [hl, List.mem_singleton.mp hj]; rfl
      have hsame : ∀ j ∈ ids, life { s with kvCache := c' } j = life s j := fun j hj =>
        hone.other j fun h0 => hi (List.mem_singleton.mp h0 ▸ hj)
      refine wp_mono (wp_swapInAll ids _ hnd hone.wf fun j hj => ?_) ?_ fun _ _ h => h
      · rw [hsame j hj]; exact hok j (List.mem_cons_of_mem i hj)
      · rintro r s' (⟨hr, hrest⟩ | ⟨hr, hlt, hrest⟩)
        · exact Or.inl ⟨hr, Each.cons hi hone hrest⟩
        · refine Or.inr ⟨hr, ?_, Each.cons hi (hone.mono fun _ _ hl => Or.inr (Or.inl hl)) hrest⟩
          -- what this `swap_in` took is what it asked for
          have hfree : c'.blockAllocator.numFreeBlocks + (share s.kvCache i).restored.rows.length =
            s.kvCache.blockAllocator.numFreeBlocks + (share s.kvCache i).rows.length := hm.free
          have hrows : (share s.kvCache i).restored.rows.length =
            (share s.kvCache i).rows.length + (share s.kvCache i).demand := hoki.restored_length
          rw [demandOf_congr hsame] at hlt
          rw [demandOf_cons]
          have hd : (life s i).share.demand = (share s.kvCache i).demand := rfl
          simp only [numFreeBlocks] at hlt ⊢
          omega
    · rintro e c' ⟨hm, hlt⟩
      refine ⟨fun h0 => absurd h0 Bool.false_ne_true, fun _ => Or.inr ⟨trivial, ?_, ?_⟩⟩
      · rw [demandOf_cons]
        exact Nat.lt_of_lt_of_le hlt (Nat.le_add_right _ _)
      · have hone : Each (fun _ => Disturbed) [i] s { s with kvCache := c' } :=
          (Each.of_moves hm).mono fun j hj hl => by
            rw [hl, List.mem_singleton.mp hj]; exact Or.inr (Or.inr rfl)
        exact Each.cons hi hone (Each.stay (fun _ _ => Or.inl rfl) hone.wf ids)

/-! ### Admitting the sequences of a group -/

theorem requiredBlocks_eq (s : Scheduler β) (d : SequenceData) :
    s.requiredBlocks d = ceilDiv d.promptLength s.kvCache.blockSize := by
  unfold requiredBlocks
  split_ifs with h0
  · rw [h0]
    exact (ceilDiv_zero s.kvCache.blockAllocator.cfg.blockSize_pos).symm
  · rfl

/-- What admission does to a sequence. -/
def Admitted (k : ℕ) (l l' : Life β) : Prop :=
  ∃ rows : List β, rows.length = ceilDiv l.data.promptLength k ∧ l' = l.admitted rows

theorem wp_admitSequences : ∀ (ids : List ℕ) (s : Scheduler β), ids.Nodup → Wf s.kvCache →
    (∀ i ∈ ids, (life s i).Ok ∧ (s.store i).status = .waiting ∧ (s.store i).seqId = i) →
    (ids.map fun i => s.requiredBlocks (s.store i)).sum ≤ s.numFreeBlocks →
    wp (forEach admitSequence (ids.map s.store))
      (fun _ s' => Each (fun _ => Admitted s.kvCache.blockSize) ids s s') (fun _ _ => False) s
  | [], s, _, hwf, _, _ => Each.nil hwf
  | i :: ids, s, hnd, hwf, hok, hroom => by
    obtain ⟨hi, hnd⟩ := List.nodup_cons.mp hnd
    obtain ⟨hoki, hst, hid⟩ := hok i List.mem_cons_self
    have hnone : (share s.kvCache i).tokens = none :=
      hoki.tokens_none (by change ¬ HasTable (s.store i).status; rw [hst]; decide)
    rw [List.map_cons, List.sum_cons, requiredBlocks_eq] at hroom
    rw [List.map_cons, forEach, wp_bind, admitSequence, wp_bind, wp_onKv, hid]
    refine wp_mono (moves_allocateSequence hwf hnone
      (le_trans (Nat.le_add_right _ _) hroom)) ?_ fun _ _ h => h
    rintro _ c' ⟨rows, hrows, hm⟩
    have hallowed : SequenceStatus.prefill ∈ allowedTransitions (s.store i).status := by
      rw [hst]; decide
    refine wp_setStatus (s := { s with kvCache := c' }) hm.wf hallowed fun s₁ hstep => ?_
    have hone : Each (fun _ => Admitted s.kvCache.blockSize) [i] s s₁ := by
      refine ((Each.of_moves hm).trans hstep).mono fun j hj hl => ?_
      obtain ⟨l₁, rfl, hl⟩ := hl
      rw [List.mem_singleton.mp hj] at hl ⊢
      exact ⟨rows, hrows, hl⟩
    have hsame : ∀ j ∈ ids, life s₁ j = life s j := fun j hj =>
      hone.other j fun h0 => hi (List.mem_singleton.mp h0 ▸ hj)
    have hstore : ∀ j ∈ ids, s₁.store j = s.store j := fun j hj => congrArg Life.data (hsame j hj)
    have hmap : ids.map s.store = ids.map s₁.store :=
      List.map_congr_left fun j hj => (hstore j hj).symm
    have hfree : s₁.numFreeBlocks + ceilDiv (s.store i).promptLength s.kvCache.blockSize =
        s.numFreeBlocks := by
      have h1 := hone.free
      obtain ⟨rows', hrows', hl⟩ := hone.each i (by simp)
      have h2 : (life s₁ i).share.rows.length =
          ceilDiv (s.store i).promptLength s.kvCache.blockSize := by rw [hl]; exact hrows'
      have h3 : (life s i).share.rows = [] := hoki.rows hnone
      have h4 : ∀ t : Scheduler β, blocksOf t [] = 0 := fun _ => rfl
      simp only [blocksOf_cons, h2, h3, h4, List.length_nil] at h1
      omega
    rw [hmap]
    refine wp_mono (wp_admitSequences ids s₁ hnd hone.wf (fun j hj => ?_) ?_) ?_ fun _ _ h => h
    · rw [hsame j hj, hstore j hj]; exact hok j (List.mem_cons_of_mem i hj)
    · have hreq : (ids.map fun j => s₁.requiredBlocks (s₁.store j)) =
          ids.map fun j => s.requiredBlocks (s.store j) := List.map_congr_left fun j hj => by
        rw [hstore j hj, requiredBlocks_eq, requiredBlocks_eq, hone.same.blockSize]
      rw [hreq]
      omega
    · intro _ s' hrest
      rw [hone.same.blockSize] at hrest
      exact Each.cons hi hone hrest

/-! ### After a step -/

/-- One more token for a running sequence. -/
def Grown (k : ℕ) (l l' : Life β) : Prop :=
  ∃ n, ∃ new : List β, l.share.tokens = some n ∧ new.length = (if n % k = 0 then 1 else 0) ∧
    l' = (l.withStatus .decode).grown n new

/-- The sequences that `update_after_step` lets grow. -/
def Grows (s : Scheduler β) (completed : List ℕ) (i : ℕ) : Prop :=
  i ∈ s.sequenceMap ∧ i ∉ completed ∧ Active (s.store i).status

instance (s : Scheduler β) (completed : List ℕ) (i : ℕ) : Decidable (Grows s completed i) :=
  inferInstanceAs (Decidable (_ ∧ _))

/-- The block that growing a sequence takes. -/
def growthOf (s : Scheduler β) (completed : List ℕ) (i : ℕ) : ℕ :=
  if Grows s completed i ∧ (life s i).share.tokens.getD 0 % s.kvCache.blockSize = 0 then 1 else 0

/-- What the first loop of `update_after_step` does to a sequence that it visits. -/
def Updated (s : Scheduler β) (completed : List ℕ) (i : ℕ) (l l' : Life β) : Prop :=
  if Grows s completed i then Grown s.kvCache.blockSize l l' else l' = l

theorem wp_growSequence {s : Scheduler β} {completed : List ℕ} {i : ℕ} (hwf : Wf s.kvCache)
    (hok : (life s i).Ok) :
    wp (growSequence completed i) (fun _ s' => Each (Updated s completed) [i] s s')
      (fun _ s' => growthOf s completed i = 1 ∧ s.numFreeBlocks = 0 ∧
        Each (fun _ l l' => Active l.data.status ∧ l' = l.withStatus .decode) [i] s s') s := by
  simp only [growSequence, wp_bind, wp_current, wp_ite, wp_pure]
  refine ⟨fun hskip => ?_, fun hin => ?_⟩
  · have hno : ¬ Grows s completed i := fun h0 => hskip.elim (fun h1 => h1 h0.1) fun h1 => h0.2.1 h1
    exact (Each.stay (P := fun _ l l' => l' = l) (fun _ _ => rfl) hwf [i]).mono fun j hj hl => by
      rw [List.mem_singleton.mp hj] at hl ⊢
      rw [Updated, if_neg hno, hl]
  · obtain ⟨hreg, hcomp⟩ := not_or.mp hin
    have hreg : i ∈ s.sequenceMap := not_not.mp hreg
    -- the growth of a sequence that is already in `DECODE`
    have hdecode : ∀ s₁ : Scheduler β, Active (s.store i).status →
        Each (fun _ l l' => l' = l.withStatus .decode) [i] s s₁ →
        wp (attempt (onKv (PagedKVCache.appendTokens i 1)) ignoreKeyError)
          (fun _ s' => Each (Updated s completed) [i] s s')
          (fun _ s' => growthOf s completed i = 1 ∧ s.numFreeBlocks = 0 ∧
            Each (fun _ l l' => Active l.data.status ∧ l' = l.withStatus .decode) [i] s s') s₁ := by
      intro s₁ hact hstep
      obtain ⟨n, htok⟩ := hok.exists_tokens hact.hasTable
      have hl₁ := hstep.each i (by simp)
      have htok₁ : (share s₁.kvCache i).tokens = some n := by
        rw [show share s₁.kvCache i = share s.kvCache i from congrArg Life.share hl₁]; exact htok
      rw [wp_attempt, wp_onKv]
      refine wp_mono (moves_appendTokens_one hstep.wf htok₁) ?_ ?_
      · rintro _ c' ⟨new, hnew, hm⟩
        refine (hstep.trans (Each.of_moves hm)).mono fun j hj hl => ?_
        rw [List.mem_singleton.mp hj] at hl ⊢
        obtain ⟨l₁, rfl, hl⟩ := hl
        rw [Updated, if_pos ⟨hreg, hcomp, hact⟩]
        refine ⟨n, new, htok, ?_, ?_⟩
        · rw [hnew, hstep.same.blockSize]
        · rw [hl, show share s₁.kvCache i = share s.kvCache i from congrArg Life.share hl₁]
          rfl
      · rintro e c' ⟨⟨msg, rfl⟩, rfl, hmod, hfree⟩
        have hfree₁ := hstep.free
        have hrows : blocksOf s₁ [i] = blocksOf s [i] := by
          simp only [blocksOf_cons, hl₁]; rfl
        have hboundary : (life s i).share.tokens.getD 0 % s.kvCache.blockSize = 0 := by
          rw [htok, ← hstep.same.blockSize]; exact hmod
        refine ⟨if_pos ⟨⟨hreg, hcomp, hact⟩, hboundary⟩, ?_, hstep.mono fun j hj hl => ⟨?_, hl⟩⟩
        · rw [hrows] at hfree₁
          have hs₁ : s₁.numFreeBlocks = 0 := hfree
          omega
        · rw [List.mem_singleton.mp hj]; exact hact
    refine ⟨fun hpre => ?_, fun hnot => ⟨fun hdec => ?_, fun hnodec => ?_⟩⟩
    · have hallowed : SequenceStatus.decode ∈ allowedTransitions (s.store i).status := by
        rw [hpre]; decide
      refine wp_setStatus hwf hallowed fun s₁ hstep => ⟨fun _ => hdecode s₁ (Or.inl hpre) hstep,
        fun h0 => absurd ?_ h0⟩
      have := congrArg (fun l : Life β => l.data.status) (hstep.each i (by simp))
      exact this
    · refine hdecode s (Or.inr hdec) ?_
      refine (Each.stay (P := fun _ l l' => l' = l) (fun _ _ => rfl) hwf [i]).mono fun j hj hl => ?_
      rw [List.mem_singleton.mp hj] at hl ⊢
      have : (life s i).data = { (life s i).data with status := .decode } := by
        rw [← hdec]; rfl
      rw [hl]
      exact congrArg (Life.mk · (life s i).share) this
    · have hno : ¬ Grows s completed i := fun h0 => h0.2.2.elim hnot hnodec
      exact (Each.stay (P := fun _ l l' => l' = l) (fun _ _ => rfl) hwf [i]).mono fun j hj hl => by
        rw [List.mem_singleton.mp hj] at hl ⊢
        rw [Updated, if_neg hno, hl]

/-- What the first loop may have done to a sequence when it raised. -/
def Interrupted (s : Scheduler β) (completed : List ℕ) (i : ℕ) (l l' : Life β) : Prop :=
  Updated s completed i l l' ∨ l' = l ∨ (Active l.data.status ∧ l' = l.withStatus .decode)

theorem grows_congr {s s' : Scheduler β} (hq : SameQueues s s') {completed : List ℕ} {i : ℕ}
    (hl : life s' i = life s i) : Grows s' completed i ↔ Grows s completed i := by
  have hstore : s'.store i = s.store i := congrArg Life.data hl
  unfold Grows
  rw [hq.sequenceMap, hstore]

theorem updated_congr {s s' : Scheduler β} (hq : SameQueues s s') {completed : List ℕ} {i : ℕ}
    (hl : life s' i = life s i) {l l' : Life β} :
    Updated s' completed i l l' ↔ Updated s completed i l l' := by
  unfold Updated
  rw [hq.blockSize]
  simp only [grows_congr hq hl]

theorem growthOf_congr {s s' : Scheduler β} (hq : SameQueues s s') {completed : List ℕ} {i : ℕ}
    (hl : life s' i = life s i) : growthOf s' completed i = growthOf s completed i := by
  unfold growthOf
  rw [hq.blockSize, hl]
  simp only [grows_congr hq hl]

/-- A sequence that grows takes the block that it needs. -/
theorem Updated.length {s : Scheduler β} {completed : List ℕ} {i : ℕ} {l : Life β}
    (h : Updated s completed i (life s i) l) :
    l.share.rows.length = (life s i).share.rows.length + growthOf s completed i := by
  unfold Updated at h
  unfold growthOf
  by_cases hg : Grows s completed i
  · rw [if_pos hg] at h
    obtain ⟨n, new, htok, hnew, rfl⟩ := h
    rw [htok]
    simp only [Life.grown, Life.withStatus, List.length_append, hnew, hg, true_and,
      Option.getD_some]
  · rw [if_neg hg] at h
    rw [h, if_neg fun h0 => hg h0.1]
    rfl

theorem wp_growSequences (completed : List ℕ) : ∀ (ids : List ℕ) (s : Scheduler β), ids.Nodup →
    Wf s.kvCache → (∀ i ∈ ids, (life s i).Ok) →
    wp (forEach (growSequence completed) ids)
      (fun _ s' => Each (Updated s completed) ids s s')
      (fun _ s' => s.numFreeBlocks < (ids.map (growthOf s completed)).sum ∧
        Each (Interrupted s completed) ids s s') s
  | [], _, _, hwf, _ => Each.nil hwf
  | i :: ids, s, hnd, hwf, hok => by
    obtain ⟨hi, hnd⟩ := List.nodup_cons.mp hnd
    rw [forEach, wp_bind]
    refine wp_mono (wp_growSequence hwf (hok i List.mem_cons_self)) (fun _ s₁ hone => ?_) ?_
    · have hsame : ∀ j ∈ ids, life s₁ j = life s j := fun j hj =>
        hone.other j fun h0 => hi (List.mem_singleton.mp h0 ▸ hj)
      refine wp_mono (wp_growSequences completed ids s₁ hnd hone.wf fun j hj => ?_) ?_ ?_
      · rw [hsame j hj]; exact hok j (List.mem_cons_of_mem i hj)
      · intro _ s' hrest
        exact Each.cons hi hone
          (hrest.mono fun j hj hl => (updated_congr hone.same (hsame j hj)).mp hl)
      · rintro e s' ⟨hlt, hrest⟩
        refine ⟨?_, Each.cons hi (hone.mono fun _ _ hl => Or.inl hl) (hrest.mono fun j hj hl => ?_)⟩
        · have hfree := hone.free
          have hlen := (hone.each i (by simp)).length
          have hnil : ∀ t : Scheduler β, blocksOf t [] = 0 := fun _ => rfl
          have hmap : ids.map (growthOf s₁ completed) = ids.map (growthOf s completed) :=
            List.map_congr_left fun j hj => growthOf_congr hone.same (hsame j hj)
          rw [hmap] at hlt
          simp only [blocksOf_cons, hnil, hlen] at hfree
          rw [List.map_cons, List.sum_cons]
          omega
        · exact hl.imp_left (updated_congr hone.same (hsame j hj)).mp
    · rintro e s₁ ⟨hneed, hfree, hone⟩
      refine ⟨?_, ?_⟩
      · rw [List.map_cons, List.sum_cons, hneed, hfree]
        omega
      · exact Each.cons hi (hone.mono fun _ _ hl => Or.inr (Or.inr hl))
          (Each.stay (fun _ _ => Or.inr (Or.inl rfl)) hone.wf ids)

/-! ### Ending a sequence -/

/-- The status of a sequence that is ended with `st`: it keeps a final status that it already
has. -/
def finalStatus (st : SequenceStatus) (d : SequenceData) : SequenceStatus :=
  if d.Live then st else d.status

/-- A sequence is ended with `st`. -/
def Ended (st : SequenceStatus) (l l' : Life β) : Prop := l' = l.ended (finalStatus st l.data)

/-- The body that `update_after_step` and `abort_request` share, when the status change is
allowed. -/
theorem wp_endSequence {s : Scheduler β} {i : ℕ} (st : SequenceStatus) (hwf : Wf s.kvCache)
    (hst : (s.store i).Live → st ∈ allowedTransitions (s.store i).status)
    {R : PyError → Scheduler β → Prop} :
    wp (do
        if (s.store i).Live then Scheduler.setStatus i st else pure ()
        onKv (PagedKVCache.freeSequence i))
      (fun _ s' => Each (fun _ => Ended st) [i] s s') R s := by
  -- freeing from a state in which only the status has changed
  have hfree : ∀ s₁ : Scheduler β,
      Each (fun _ l l' => l' = l.withStatus (finalStatus st l.data)) [i] s s₁ →
      wp (onKv (PagedKVCache.freeSequence i)) (fun _ s' => Each (fun _ => Ended st) [i] s s') R
        s₁ := by
    intro s₁ hstep
    rw [wp_onKv]
    refine wp_mono (moves_freeSequence hstep.wf) (fun _ c' hm => ?_) fun _ _ h => h.elim
    refine (hstep.trans (Each.of_moves hm)).mono fun j hj hl => ?_
    rw [List.mem_singleton.mp hj] at hl ⊢
    obtain ⟨l₁, rfl, hl⟩ := hl
    have hshare : share s₁.kvCache i = (life s i).share :=
      congrArg Life.share (hstep.each i (by simp))
    rw [Ended, hl, hshare]
    rfl
  simp only [wp_ite, wp_bind]
  refine ⟨fun hlive => wp_setStatus hwf (hst hlive) fun s₁ hstep => hfree s₁ ?_, fun hdead => ?_⟩
  · refine hstep.mono fun j hj hl => ?_
    rw [List.mem_singleton.mp hj] at hl ⊢
    rw [hl, finalStatus, if_pos (show (life s i).data.Live from hlive)]
  · refine hfree s ?_
    refine (Each.stay (P := fun _ l l' => l' = l) (fun _ _ => rfl) hwf [i]).mono fun j hj hl => ?_
    rw [List.mem_singleton.mp hj] at hl ⊢
    rw [finalStatus, if_neg (show ¬ (life s i).data.Live from hdead)]
    exact hl

theorem wp_cancelSequence {s : Scheduler β} {i : ℕ} (hwf : Wf s.kvCache)
    {R : PyError → Scheduler β → Prop} :
    wp (cancelSequence i) (fun _ s' => Each (fun _ => Ended .cancelled) [i] s s') R s := by
  rw [cancelSequence, wp_bind, wp_current]
  refine wp_endSequence .cancelled hwf fun hlive => ?_
  have h1 : (s.store i).status ≠ .finished := hlive.1
  have h2 : (s.store i).status ≠ .cancelled := hlive.2
  cases hst : (s.store i).status <;> simp_all [allowedTransitions]

/-- What the second loop of `update_after_step` does to a sequence that it visits. -/
def Closed (s : Scheduler β) (i : ℕ) (l l' : Life β) : Prop :=
  if i ∈ s.sequenceMap then l.data.status ≠ .waiting ∧ Ended .finished l l' else l' = l

/-- Finishing raises for a sequence that still waits. -/
theorem wp_finishSequence {s : Scheduler β} {i : ℕ} (hwf : Wf s.kvCache) :
    wp (finishSequence i) (fun _ s' => Each (Closed s) [i] s s')
      (fun _ s' => s' = s ∧ i ∈ s.sequenceMap ∧ (s.store i).status = .waiting) s := by
  rw [finishSequence, wp_bind, wp_current, wp_ite]
  refine ⟨fun hno => ?_, fun hreg => ?_⟩
  · refine (Each.stay (P := fun _ l l' => l' = l) (fun _ _ => rfl) hwf [i]).mono fun j hj hl => ?_
    rw [List.mem_singleton.mp hj] at hl ⊢
    rw [Closed, if_neg hno, hl]
  · have hreg : i ∈ s.sequenceMap := not_not.mp hreg
    by_cases hw : (s.store i).status = .waiting
    · have hlive : (s.store i).Live := ⟨by rw [hw]; decide, by rw [hw]; decide⟩
      rw [if_pos hlive, wp_bind]
      simp only [Scheduler.setStatus, wp_bind, wp_current]
      have herr : ∃ msg, (s.store i).setStatus .finished = .error (.valueError msg) := by
        unfold SequenceData.setStatus SequenceData.validateTransition
        rw [hw]
        exact ⟨_, rfl⟩
      obtain ⟨msg, herr⟩ := herr
      rw [herr, wp_ofExcept_error]
      exact ⟨rfl, hreg, hw⟩
    · refine wp_mono (wp_endSequence .finished (R := fun _ _ => False) hwf fun hlive => ?_)
        (fun _ s' h => h.mono fun j hj hl => ?_) fun _ _ h => h.elim
      · have h1 : (s.store i).status ≠ .finished := hlive.1
        have h2 : (s.store i).status ≠ .cancelled := hlive.2
        cases hst : (s.store i).status <;> simp_all [allowedTransitions]
      · rw [List.mem_singleton.mp hj] at hl ⊢
        rw [Closed, if_pos hreg]
        exact ⟨hw, hl⟩

end MoeInfinity.Serving.ScheduleSpec
