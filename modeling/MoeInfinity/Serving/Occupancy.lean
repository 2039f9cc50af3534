import MoeInfinity.Serving.Queues

/-! # States in which only running sequences hold blocks

A sequence never has more blocks, nor a larger CPU copy, than its tokens need (`Slim`). In a calm
state no swapped sequence holds a block; then all blocks are free as soon as nothing runs
(`Calm.free_all`).

Recovery keeps a state calm unless it brings a group back in part: the `swap_in` of one sequence of
the group fails after that of another one has taken blocks. Whether this happens depends on the free
blocks and the sizes of the CPU copies only (`Unsplit`). -/

namespace MoeInfinity.Serving.Occupancy

open MoeInfinity.Python MoeInfinity.Lib.Imperative
open MoeInfinity.Serving.Sequence MoeInfinity.Serving.KvCache MoeInfinity.Serving.KvCacheSpec
open MoeInfinity.Serving.Schedule MoeInfinity.Serving.Schedule.Scheduler
open MoeInfinity.Serving.Lifecycle MoeInfinity.Serving.ScheduleSpec MoeInfinity.Serving.ScheduleInv
open MoeInfinity.Serving.ScheduleCall MoeInfinity.Serving.ScheduleOps MoeInfinity.Serving.Pool

variable {β : Type}

/-! ### The blocks of one sequence -/

theorem ceilDiv_mono {n m : ℕ} (k : ℕ) (h : n ≤ m) : ceilDiv n k ≤ ceilDiv m k :=
  Nat.div_le_div_right (by omega)

/-- The blocks of a sequence and those of its CPU copy are no more than its tokens need. -/
structure Slim (k : ℕ) (l : Life β) : Prop where
  tokens : l.share.tokens.getD 0 ≤ numTokens l.data
  rows : l.share.rows.length ≤ ceilDiv (l.share.tokens.getD 0) k
  saved : l.share.buffer ≠ none → l.share.savedTokens.getD 0 ≤ numTokens l.data
  buffer : (l.share.buffer.getD []).length ≤ ceilDiv (l.share.savedTokens.getD 0) k

section Slim

variable {k : ℕ} {l : Life β}

theorem Slim.withStatus (h : Slim k l) (st : SequenceStatus) : Slim k (l.withStatus st) :=
  ⟨h.tokens, h.rows, h.saved, h.buffer⟩

theorem Slim.admitted (h : Slim k l) {rows : List β}
    (hrows : rows.length = ceilDiv l.data.promptLength k) : Slim k (l.admitted rows) :=
  ⟨Nat.le_add_right _ _, le_of_eq hrows, h.saved, h.buffer⟩

theorem Slim.preempted (h : Slim k l) (hbuf : l.share.buffer = none) : Slim k l.preempted := by
  refine ⟨h.tokens, Nat.zero_le _, fun _ => h.tokens, ?_⟩
  change ((if l.share.rows ≠ [] then some l.share.rows else l.share.buffer).getD []).length ≤
    ceilDiv (l.share.tokens.getD 0) k
  by_cases hnil : l.share.rows = []
  · rw [if_neg (not_not.mpr hnil), hbuf]
    exact Nat.zero_le _
  · rw [if_pos hnil]
    exact h.rows

theorem Slim.restored (h : Slim k l) : Slim k l.restored := by
  unfold Life.restored Share.restored
  split_ifs with hmark
  · cases hb : l.share.buffer with
    | none => exact ⟨h.tokens, h.rows, fun _ => Nat.zero_le _, by simp⟩
    | some buf =>
      have hbuf := h.buffer
      rw [hb] at hbuf
      exact ⟨h.saved (by rw [hb]; exact Option.some_ne_none _), hbuf, fun _ => Nat.zero_le _,
        Nat.zero_le _⟩
  · exact h

theorem Slim.lost (h : Slim k l) : Slim k l.lost :=
  ⟨h.tokens, h.rows, fun _ => Nat.zero_le _, Nat.zero_le _⟩

theorem Slim.appended (h : Slim k l) (t : ℕ) : Slim k (l.appended t) := by
  have hn : numTokens (l.appended t).data = numTokens l.data + 1 := by
    simp only [numTokens, Life.appended, List.length_append, List.length_singleton]
    omega
  refine ⟨?_, h.rows, ?_, h.buffer⟩
  · rw [hn]; exact Nat.le_succ_of_le h.tokens
  · rw [hn]; exact fun h0 => Nat.le_succ_of_le (h.saved h0)

/-- A sequence that has got a token may grow. -/
theorem Slim.grown (h : Slim k l) (hk : 0 < k) {t : ℕ} {l' : Life β}
    (hg : Grown k (l.appended t) l') : Slim k l' := by
  obtain ⟨n, new, hn, hnew, rfl⟩ := hg
  have hn : l.share.tokens = some n := hn
  have htok := h.tokens
  have hrows := h.rows
  rw [hn] at htok hrows
  have hcount : numTokens (l.appended t).data = numTokens l.data + 1 := by
    simp only [numTokens, Life.appended, List.length_append, List.length_singleton]
    omega
  refine ⟨?_, ?_, ?_, h.buffer⟩
  · change n + 1 ≤ numTokens (l.appended t).data
    rw [hcount]
    exact Nat.succ_le_succ htok
  · change (l.share.rows ++ new).length ≤ ceilDiv (n + 1) k
    rw [List.length_append, hnew, ceilDiv_succ hk]
    exact Nat.add_le_add_right hrows _
  · change l.share.buffer ≠ none → l.share.savedTokens.getD 0 ≤ numTokens (l.appended t).data
    rw [hcount]
    exact fun h0 => Nat.le_succ_of_le (h.saved h0)

theorem Slim.ended (h : Slim k l) (st : SequenceStatus) : Slim k (l.ended st) := by
  unfold Life.ended Share.freed
  split_ifs with hnone
  · exact ⟨h.tokens, h.rows, h.saved, h.buffer⟩
  · exact ⟨Nat.zero_le _, Nat.zero_le _, fun _ => Nat.zero_le _, Nat.zero_le _⟩

/-- What a `swap_in` asks for. -/
theorem Slim.demand (h : Slim k l) : l.share.demand ≤ ceilDiv (numTokens l.data) k := by
  unfold Share.demand
  split_ifs
  · cases hb : l.share.buffer with
    | none => exact Nat.zero_le _
    | some buf =>
      have hbuf := h.buffer
      rw [hb] at hbuf
      exact hbuf.trans (ceilDiv_mono k (h.saved (by rw [hb]; exact Option.some_ne_none _)))
  · exact Nat.zero_le _

end Slim

/-! ### Counting blocks -/

/-- The free blocks and those of some sequences are all blocks, if no other sequence has any. -/
theorem free_add_blocksOf {s : Scheduler β} (h : Inv s) {ids : List ℕ} (hnd : ids.Nodup)
    (hout : ∀ i ∉ ids, (life s i).share.rows = []) :
    s.numFreeBlocks + blocksOf s ids = (sizes s.kvCache).numBlocks := by
  have hnone : ∀ i ∉ ids, owned s.kvCache i = [] := by
    intro i hi
    have hlen := share_rows_length s.kvCache i
    rw [show (share s.kvCache i).rows = [] from hout i hi] at hlen
    exact List.length_eq_zero_iff.mp hlen.symm
  have hnodup :
      (s.kvCache.blockAllocator.freeBlockHeap ++ ids.flatMap (owned s.kvCache)).Nodup := by
    refine List.nodup_append'.mpr ⟨h.wf.alloc.nodup, ?_, fun b hb hb' => ?_⟩
    · refine List.nodup_flatMap.mpr ⟨fun i _ => h.wf.nodup i, hnd.imp fun hne b hb hb' => ?_⟩
      exact h.wf.disjoint _ _ hne b hb hb'
    · obtain ⟨i, -, hi⟩ := List.mem_flatMap.mp hb'
      exact h.wf.not_free i b hi hb
  have hperm : (s.kvCache.blockAllocator.freeBlockHeap ++ ids.flatMap (owned s.kvCache)).Perm
      (List.range (sizes s.kvCache).numBlocks) := by
    refine (List.perm_ext_iff_of_nodup hnodup List.nodup_range).mpr fun b => ?_
    rw [List.mem_range, List.mem_append, List.mem_flatMap]
    constructor
    · rintro (hb | ⟨i, -, hb⟩)
      · exact h.wf.alloc.lt b hb
      · exact h.wf.lt i b hb
    · intro hb
      refine (h.wf.cover b hb).imp_right fun ⟨i, hi⟩ => ⟨i, ?_, hi⟩
      by_contra h0
      rw [hnone i h0] at hi
      exact absurd hi List.not_mem_nil
  have hlen := hperm.length_eq
  rw [List.length_range, List.length_append, List.length_flatMap] at hlen
  rw [← hlen]
  refine congrArg (s.numFreeBlocks + ·) (congrArg List.sum (List.map_congr_left fun i _ => ?_))
  exact share_rows_length s.kvCache i

/-! ### Calm states -/

/-- No sequence has too many blocks, and no swapped sequence has any. -/
structure Calm (s : Scheduler β) : Prop where
  slim : ∀ i, Slim s.kvCache.blockSize (life s i)
  released : ∀ i, (s.store i).status = .swapped → (life s i).share.rows = []

/-- **All blocks are free** when nothing runs. -/
theorem Calm.free_all {s : Scheduler β} (h : Calm s) (hinv : Inv s)
    (hidle : ∀ i, ¬ Active (s.store i).status) : s.numFreeBlocks = (sizes s.kvCache).numBlocks := by
  refine free_add_blocksOf hinv List.nodup_nil fun i _ => ?_
  by_cases hst : (s.store i).status = .swapped
  · exact h.released i hst
  · refine (hinv.ok i).rows ((hinv.ok i).tokens_none ?_)
    rintro (h0 | h0 | h0)
    · exact hidle i (Or.inl h0)
    · exact hidle i (Or.inr h0)
    · exact hst h0

/-- A change of some sequences that leaves each of them slim and releases the swapped ones. -/
theorem Calm.of_each {s s' : Scheduler β} (h : Calm s) {P : ℕ → Life β → Life β → Prop}
    {ids : List ℕ} {W R S : List SequenceGroup}
    (hE : Each P ids { s with waiting := W, running := R, swapped := S } s')
    (hP : ∀ i ∈ ids, ∀ l, P i (life s i) l → Slim s.kvCache.blockSize l ∧
      (l.data.status = .swapped → l.share.rows = [])) : Calm s' := by
  have hsize : s'.kvCache.blockSize = s.kvCache.blockSize := hE.same.blockSize
  have hother : ∀ i ∉ ids, life s' i = life s i := fun i hi => hE.other i hi
  refine ⟨fun i => ?_, fun i hi => ?_⟩
  · rw [hsize]
    by_cases hmem : i ∈ ids
    · exact (hP i hmem _ (hE.each i hmem)).1
    · rw [hother i hmem]; exact h.slim i
  · by_cases hmem : i ∈ ids
    · exact (hP i hmem _ (hE.each i hmem)).2 hi
    · have hlife := hother i hmem
      rw [hlife]
      refine h.released i ?_
      rw [← hi]
      exact congrArg (fun l : Life β => l.data.status) hlife.symm

theorem Calm.preempts {s s' : Scheduler β} {r : List ℕ} (h : Calm s) (hinv : Inv s)
    (hP : Preempts s s.running r s') : Calm s' := by
  rcases hP with ⟨rfl, -, hE⟩ | ⟨dead, g, rest, -, -, rfl, -, hE⟩
  · exact h.of_each hE fun i hi => absurd hi List.not_mem_nil
  · refine h.of_each hE fun i hi l hl => ?_
    subst hl
    refine ⟨(h.slim i).preempted ((hinv.ok i).copy ((hinv.ok i).mark_false ?_)), fun _ => rfl⟩
    rcases (mem_activeIds.mp hi).2 with h0 | h0
    · change (s.store i).status ≠ _
      rw [h0]; decide
    · change (s.store i).status ≠ _
      rw [h0]; decide

/-! ### Recovery that splits no group -/

/-- The first of the copies that needs a block does not fit into the free blocks. -/
def misses : ℕ → List ℕ → Bool
  | _, [] => true
  | free, d :: ds => if d = 0 then misses free ds else decide (free < d)

/-- Bringing groups back in order, with the given free blocks and sizes of the CPU copies: each
group comes back whole, or its first copy that needs a block does not fit. -/
def unsplit : ℕ → List (List ℕ) → Bool
  | _, [] => true
  | free, ds :: gs =>
    if ds.sum ≤ free then unsplit (free - ds.sum) gs else misses free ds && unsplit free gs

/-- The sizes of the CPU copies of a group. -/
def copies (s : Scheduler β) (g : SequenceGroup) : List ℕ :=
  (swappedIds s g).map fun i => (life s i).share.demand

/-- Recovery brings no group back in part. -/
def Unsplit (s : Scheduler β) : Prop :=
  s.numFreeBlocks = 0 ∨ unsplit s.numFreeBlocks (s.swapped.map (copies s)) = true

instance (s : Scheduler β) : Decidable (Unsplit s) := inferInstanceAs (Decidable (_ ∨ _))

theorem sum_copies (s : Scheduler β) (g : SequenceGroup) :
    (copies s g).sum = demandOf s (swappedIds s g) := rfl

/-- A `swap_in` without anything to copy takes no block. -/
theorem restored_rows_of_demand {l : Life β} (h : l.Ok) (h0 : l.share.demand = 0) :
    l.restored.share.rows = l.share.rows := by
  have hlen := h.restored_length
  rw [h0, Nat.add_zero] at hlen
  unfold Life.restored Share.restored at hlen ⊢
  split_ifs at hlen ⊢ with hmark
  · have hnil := (h.mark hmark).2
    cases hb : l.share.buffer with
    | none => rfl
    | some buf =>
      rw [hb, hnil] at hlen
      rw [hnil]
      exact List.length_eq_zero_iff.mp hlen
  · rfl

/-- A group whose first copy that needs a block does not fit keeps its blocks as they are. -/
theorem wp_swapInAll_misses : ∀ (ids : List ℕ) (s : Scheduler β), ids.Nodup → Wf s.kvCache →
    (∀ i ∈ ids, (life s i).Ok ∧ (s.store i).status = .swapped) →
    misses s.numFreeBlocks (ids.map fun i => (life s i).share.demand) = true →
    wp (swapInAll ids) (fun r s' => r = false →
      Each (fun _ l l' => Disturbed l l' ∧ l'.share.rows = l.share.rows) ids s s')
      (fun _ _ => False) s
  | [], _, _, _, _, _ => fun h0 => absurd h0.symm Bool.false_ne_true
  | i :: ids, s, hnd, hwf, hok, hmiss => by
    obtain ⟨hi, hnd⟩ := List.nodup_cons.mp hnd
    obtain ⟨hoki, hst⟩ := hok i List.mem_cons_self
    obtain ⟨n, htok⟩ := hoki.exists_tokens (Or.inr (Or.inr hst))
    simp only [swapInAll, wp_bind, wp_attempt, wp_pure, wp_onKv, wp_ite]
    rw [List.map_cons, misses] at hmiss
    refine wp_mono (moves_swapIn hwf htok fun h0 => (hoki.mark h0).2) (fun _ c' hm => ?_) ?_
    · refine ⟨fun _ => ?_, fun h0 => absurd trivial h0⟩
      have hfree : c'.blockAllocator.numFreeBlocks + (share s.kvCache i).restored.rows.length =
        s.kvCache.blockAllocator.numFreeBlocks + (share s.kvCache i).rows.length := hm.free
      have hlen : (share s.kvCache i).restored.rows.length =
        (share s.kvCache i).rows.length + (life s i).share.demand := hoki.restored_length
      have hzero : (life s i).share.demand = 0 := by
        by_contra h0
        rw [if_neg h0] at hmiss
        have hlt : s.kvCache.blockAllocator.numFreeBlocks < (life s i).share.demand :=
          of_decide_eq_true hmiss
        omega
      rw [if_pos hzero] at hmiss
      have hone : Each (fun _ l l' => Disturbed l l' ∧ l'.share.rows = l.share.rows) [i] s
          { s with kvCache := c' } := by
        refine (Each.of_moves hm).mono fun j hj hl => ?_
        rw [List.mem_singleton.mp hj] at hl ⊢
        rw [hl]
        exact ⟨Or.inr (Or.inl rfl), restored_rows_of_demand hoki hzero⟩
      have hsame : ∀ j ∈ ids, life { s with kvCache := c' } j = life s j := fun j hj =>
        hone.other j fun h0 => hi (List.mem_singleton.mp h0 ▸ hj)
      have hfree' : ({ s with kvCache := c' } : Scheduler β).numFreeBlocks = s.numFreeBlocks := by
        change c'.blockAllocator.numFreeBlocks = s.kvCache.blockAllocator.numFreeBlocks
        omega
      refine wp_mono (wp_swapInAll_misses ids _ hnd hone.wf (fun j hj => ?_) ?_) ?_ fun _ _ h => h
      · rw [hsame j hj]; exact hok j (List.mem_cons_of_mem i hj)
      · rw [hfree', List.map_congr_left fun j hj => by rw [hsame j hj]]
        exact hmiss
      · intro r s' hrest hr
        exact Each.cons hi hone (hrest hr)
    · rintro e c' ⟨hm, hlt⟩
      refine ⟨fun h0 => absurd h0 Bool.false_ne_true, fun _ _ => ?_⟩
      have hone : Each (fun _ l l' => Disturbed l l' ∧ l'.share.rows = l.share.rows) [i] s
          { s with kvCache := c' } := by
        refine (Each.of_moves hm).mono fun j hj hl => ?_
        rw [List.mem_singleton.mp hj] at hl ⊢
        rw [hl]
        exact ⟨Or.inr (Or.inr rfl), rfl⟩
      exact Each.cons hi hone (Each.stay (fun _ _ => ⟨Or.inl rfl, rfl⟩) hone.wf ids)

/-- What recovery does to one group that it does not split. -/
structure Whole (g : SequenceGroup) (s s' : Scheduler β) : Prop where
  inv : Inv s'
  calm : Calm s'
  recovers : Recovers g s s'
  free : s'.numFreeBlocks =
    if (copies s g).sum ≤ s.numFreeBlocks then
      s.numFreeBlocks - (copies s g).sum else s.numFreeBlocks

theorem wp_recoverGroup_whole {s : Scheduler β} (h : Inv s) (hc : Calm s) {g : SequenceGroup}
    (hg : g ∈ s.swapped)
    (hw : (copies s g).sum ≤ s.numFreeBlocks ∨ misses s.numFreeBlocks (copies s g) = true) :
    wp (recoverGroup g) (fun _ s' => Whole g s s') (fun _ _ => False) s := by
  have hnd : (swappedIds s g).Nodup := (h.group_nodup (h.swapped_mem hg)).filter _
  have hok : ∀ i ∈ swappedIds s g, (life s i).Ok ∧ (s.store i).status = .swapped := fun i hi =>
    ⟨h.ok i, (mem_swappedIds.mp hi).2⟩
  have hzero : blocksOf s (swappedIds s g) = 0 := by
    refine List.sum_eq_zero fun n hn => ?_
    obtain ⟨i, hi, rfl⟩ := List.mem_map.mp hn
    rw [hc.released i (hok i hi).2]
    rfl
  by_cases hfit : (copies s g).sum ≤ s.numFreeBlocks
  · refine wp_mono (wp_recoverGroup h g) ?_ fun _ _ h0 => h0
    rintro _ s' ⟨hinv, hr⟩
    refine ⟨hinv, ?_, hr, ?_⟩
    · cases hr with
      | skip hno hs => exact absurd hg hno
      | drop hg' hnil hs => subst hs; exact ⟨hc.slim, hc.released⟩
      | fail hg' hlt hE => exact absurd hfit (not_le.mpr hlt)
      | done hg' hne hE =>
        refine hc.of_each hE fun i hi l hl => ?_
        subst hl
        exact ⟨((hc.slim i).restored).withStatus .decode, fun h0 => by cases h0⟩
    · rw [if_pos hfit]
      cases hr with
      | skip hno hs => exact absurd hg hno
      | drop hg' hnil hs =>
        subst hs
        change s.numFreeBlocks = _
        rw [sum_copies, hnil]
        rfl
      | fail hg' hlt hE => exact absurd hfit (not_le.mpr hlt)
      | done hg' hne hE =>
        have hfree : s'.numFreeBlocks + blocksOf s' (swappedIds s g) =
            s.numFreeBlocks + blocksOf s (swappedIds s g) := hE.free
        have hblocks : blocksOf s' (swappedIds s g) = (copies s g).sum := by
          unfold blocksOf copies
          refine congrArg List.sum (List.map_congr_left fun i hi => ?_)
          rw [hE.each i hi]
          have hlen : (life s i).restored.share.rows.length =
            (life s i).share.rows.length + (life s i).share.demand := (h.ok i).restored_length
          rw [hc.released i (hok i hi).2, List.length_nil, Nat.zero_add] at hlen
          exact hlen
        omega
  · have hmiss := hw.resolve_left hfit
    have hkeep : wp (recoverGroup g) (fun _ s' => Each (fun _ l l' => Disturbed l l' ∧
        l'.share.rows = l.share.rows) (swappedIds s g) s s') (fun _ _ => True) s := by
      simp only [recoverGroup, wp_bind, wp_current, wp_ite, wp_pure, wp_update]
      refine ⟨fun hno => absurd hg hno, fun _ => ⟨fun hnil => ?_, fun _ => ?_⟩⟩
      · have hnil : swappedIds s g = [] := hnil
        rw [sum_copies, hnil] at hfit
        exact absurd (Nat.zero_le _) hfit
      · refine wp_mono (wp_and (wp_swapInAll (swappedIds s g) s hnd h.wf hok)
          (wp_swapInAll_misses (swappedIds s g) s hnd h.wf hok hmiss)) ?_ fun _ _ h0 => h0.1.elim
        rintro r s₁ ⟨⟨rfl, hE⟩ | ⟨rfl, -, -⟩, hkeep⟩
        · -- all of them cannot have come back
          exfalso
          have hfree := hE.free
          have hblocks : blocksOf s₁ (swappedIds s g) = (copies s g).sum := by
            unfold blocksOf copies
            refine congrArg List.sum (List.map_congr_left fun i hi => ?_)
            rw [hE.each i hi, (h.ok i).restored_length, hc.released i (hok i hi).2]
            exact Nat.zero_add _
          omega
        · exact ⟨fun _ => hkeep rfl, fun h0 => absurd rfl h0⟩
    refine wp_mono (wp_and (wp_recoverGroup h g) hkeep) ?_ fun _ _ h0 => h0.1
    rintro _ s' ⟨⟨hinv, hr⟩, hE⟩
    refine ⟨hinv, ?_, hr, ?_⟩
    · refine hc.of_each (hE.requeue id id id) fun i hi l hl => ?_
      refine ⟨?_, fun _ => ?_⟩
      · rcases hl.1 with rfl | rfl | rfl
        · exact hc.slim i
        · exact (hc.slim i).restored
        · exact (hc.slim i).lost
      · rw [hl.2]
        exact hc.released i (hok i hi).2
    · rw [if_neg hfit]
      have hfree := hE.free
      have hsame : blocksOf s' (swappedIds s g) = blocksOf s (swappedIds s g) := by
        unfold blocksOf
        refine congrArg List.sum (List.map_congr_left fun i hi => ?_)
        rw [(hE.each i hi).2]
      omega

/-- A running sequence is left alone by recovery. -/
theorem active_of_recovers {s s' : Scheduler β} {g : SequenceGroup} (hr : Recovers g s s') {i : ℕ}
    (hi : Active (s.store i).status) : Active (s'.store i).status := by
  have hnot : i ∉ swappedIds s g := by
    intro h0
    rw [(mem_swappedIds.mp h0).2] at hi
    rcases hi with h1 | h1 <;> cases h1
  cases hr with
  | skip hg hs => subst hs; exact hi
  | drop hg hnil hs => subst hs; exact hi
  | fail hg hlt hE =>
    rw [show s'.store i = s.store i from congrArg Life.data (hE.other i hnot)]
    exact hi
  | done hg hne hE =>
    rw [show s'.store i = s.store i from congrArg Life.data (hE.other i hnot)]
    exact hi

/-- A group that fits runs after recovery. -/
theorem active_of_recovered {s s' : Scheduler β} {g : SequenceGroup} (hr : Recovers g s s')
    (hg : g ∈ s.swapped) (hne : swappedIds s g ≠ []) (hfit : (copies s g).sum ≤ s.numFreeBlocks) :
    ∃ i, Active (s'.store i).status := by
  cases hr with
  | skip hno hs => exact absurd hg hno
  | drop hg' hnil hs => exact absurd hnil hne
  | fail hg' hlt hE => exact absurd hfit (not_le.mpr hlt)
  | done hg' hne' hE =>
    obtain ⟨i, hi⟩ := List.exists_mem_of_ne_nil _ hne
    exact ⟨i, Or.inr (congrArg (fun l : Life β => l.data.status) (hE.each i hi))⟩

/-- The state while recovery goes through the swapped queue of `s`. -/
structure Reviving (s : Scheduler β) (done rest : List SequenceGroup) (t : Scheduler β) : Prop where
  recovering : Recovering s done rest t
  calm : Calm t
  unsplit : unsplit t.numFreeBlocks (rest.map (copies s)) = true
  active : ∀ i, Active (s.store i).status → Active (t.store i).status
  first : done = [] → t = s
  revived : done ≠ [] →
    (∀ g ∈ s.swapped, swappedIds s g ≠ [] ∧ (copies s g).sum ≤ s.numFreeBlocks) →
    ∃ i, Active (t.store i).status

theorem wp_reviving_step {s t : Scheduler β} {done rest : List SequenceGroup} {g : SequenceGroup}
    (hs : Inv s) (hsplit : s.swapped = done ++ g :: rest) (h : Reviving s done (g :: rest) t) :
    wp (recoverGroup g) (fun _ t' => Reviving s (done ++ [g]) rest t') (fun _ _ => False) t := by
  have hg : g ∈ t.swapped := h.recovering.pending g List.mem_cons_self
  have hgs : g ∈ s.swapped := by
    rw [hsplit]; exact List.mem_append_right _ List.mem_cons_self
  have hlife := h.recovering.untouched g List.mem_cons_self
  have hids : swappedIds t g = swappedIds s g :=
    swappedIds_congr fun i hi => congrArg Life.data (hlife i hi)
  have hcopies : copies t g = copies s g := by
    unfold copies
    rw [hids]
    exact List.map_congr_left fun i hi => by rw [hlife i (mem_swappedIds.mp hi).1]
  have hu := h.unsplit
  rw [List.map_cons, unsplit] at hu
  have hw : (copies t g).sum ≤ t.numFreeBlocks ∨ misses t.numFreeBlocks (copies t g) = true := by
    rw [hcopies]
    by_cases hfit : (copies s g).sum ≤ t.numFreeBlocks
    · exact Or.inl hfit
    · rw [if_neg hfit, Bool.and_eq_true] at hu
      exact Or.inr hu.1
  refine wp_mono (wp_recoverGroup_whole h.recovering.inv h.calm hg hw) ?_ fun _ _ h0 => h0
  rintro _ t' hwhole
  refine ⟨h.recovering.step hs hsplit hwhole.inv hwhole.recovers, hwhole.calm, ?_,
    fun i hi => active_of_recovers hwhole.recovers (h.active i hi), fun h0 => ?_,
    fun _ hfirst => ?_⟩
  · rw [hwhole.free, hcopies]
    by_cases hfit : (copies s g).sum ≤ t.numFreeBlocks
    · rw [if_pos hfit] at hu ⊢
      exact hu
    · rw [if_neg hfit, Bool.and_eq_true] at hu
      rw [if_neg hfit]
      exact hu.2
  · exact absurd h0 (by simp)
  · by_cases hdone : done = []
    · have ht := h.first hdone
      subst ht
      exact active_of_recovered hwhole.recovers hg (hfirst g hgs).1 (hfirst g hgs).2
    · obtain ⟨i, hi⟩ := h.revived hdone hfirst
      exact ⟨i, active_of_recovers hwhole.recovers hi⟩

/-- **Recovery** that splits no group leaves a calm state; if every group fits, something runs. -/
theorem wp_recoverSwappedGroups_calm {s : Scheduler β} (h : Inv s) (hc : Calm s) (hu : Unsplit s) :
    wp (recoverSwappedGroups s.swapped) (fun _ s' => Calm s' ∧
      (∀ i, Active (s.store i).status → Active (s'.store i).status) ∧
      (s.numFreeBlocks ≠ 0 → s.swapped ≠ [] →
        (∀ g ∈ s.swapped, swappedIds s g ≠ [] ∧ (copies s g).sum ≤ s.numFreeBlocks) →
        ∃ i, Active (s'.store i).status)) (fun _ _ => False) s := by
  simp only [recoverSwappedGroups, wp_bind, wp_current, wp_ite, wp_pure]
  refine ⟨fun h0 => ⟨hc, fun _ hi => hi, fun h1 => absurd h0 h1⟩, fun h0 => ?_⟩
  refine wp_mono
    (wp_forEach (fun rest t => ∃ done, s.swapped = done ++ rest ∧ Reviving s done rest t)
      (R := fun _ _ => False) (fun g rest t hI => ?_) s.swapped s
    ⟨[], rfl, Recovering.start h, hc, hu.resolve_left h0, fun _ hi => hi, fun _ => rfl,
      fun h1 => absurd rfl h1⟩) ?_ fun _ _ h => h
  · obtain ⟨done, hsplit, hrev⟩ := hI
    refine wp_mono (wp_reviving_step h hsplit hrev) (fun _ t' ht' => ?_) fun _ _ h => h
    exact ⟨done ++ [g], by rw [hsplit, List.append_assoc]; rfl, ht'⟩
  · rintro _ s' ⟨done, hsplit, hrev⟩
    rw [List.append_nil] at hsplit
    refine ⟨hrev.calm, hrev.active, fun _ hne hfirst => hrev.revived ?_ hfirst⟩
    rw [← hsplit]
    exact hne

end MoeInfinity.Serving.Occupancy
