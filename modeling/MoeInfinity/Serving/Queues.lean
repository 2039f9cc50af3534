import MoeInfinity.Serving.Pool
import MoeInfinity.Serving.Recovery

/-! # Blocks and requests are neither lost nor shared

Two facts about all runs of the scheduler. The free blocks and the block tables partition the pool
(`blocks_partitioned`); this holds even in runs with calls that raise. In runs whose calls return,
every live request is in exactly one queue, which fits its sequences, and no output of `schedule`
exceeds the limits (`requests_placed`).

The scheduler may forget a request only when all its sequences have ended; `Track` keeps the
requests that have not, independently of the scheduler's own map. -/

namespace MoeInfinity.Serving.Queues

open MoeInfinity.Python MoeInfinity.Lib.Imperative MoeInfinity.Lib.Runs
open MoeInfinity.Serving.Sequence MoeInfinity.Serving.KvCache MoeInfinity.Serving.KvCacheSpec
open MoeInfinity.Serving.Schedule MoeInfinity.Serving.Schedule.Scheduler
open MoeInfinity.Serving.Lifecycle MoeInfinity.Serving.ScheduleSpec MoeInfinity.Serving.ScheduleInv
open MoeInfinity.Serving.ScheduleCall MoeInfinity.Serving.ScheduleOps MoeInfinity.Serving.Pool
open MoeInfinity.Serving.Recovery

variable {β : Type}

/-! ### The pool -/

/-- A new scheduler over a new cache; `manager` is the block record of an installed manager. -/
def fresh (cfg : SchedConfig) (kvCfg : KvConfig) (kv : ℕ → β) (manager : Option (ℕ → List ℕ)) :
    Scheduler β :=
  Scheduler.new cfg { PagedKVCache.new kvCfg kv with cpKvManager := manager }

theorem inv_fresh (cfg : SchedConfig) (kvCfg : KvConfig) (kv : ℕ → β)
    (manager : Option (ℕ → List ℕ)) : Inv (fresh cfg kvCfg kv manager) := by
  have h := inv_new cfg kvCfg kv
  exact ⟨h.wf.congr rfl rfl, h.seqId, h.ok, h.registered, h.waiting, h.running, h.swapped, h.nodup,
    h.queued, h.requests, h.ids, h.member⟩

/-- The free blocks and the tables are a partition of the `n` block ids. -/
structure Partition (n : ℕ) (c : PagedKVCache β) : Prop where
  table_nodup : ∀ i, (owned c i).Nodup
  table_disjoint : ∀ i j, i ≠ j → (owned c i).Disjoint (owned c j)
  table_not_free : ∀ i, (owned c i).Disjoint c.blockAllocator.freeBlockHeap
  heap_nodup : c.blockAllocator.freeBlockHeap.Nodup
  set_eq : ∀ b, b ∈ c.blockAllocator.freeBlockSet ↔ b ∈ c.blockAllocator.freeBlockHeap
  cover : ∀ b, b < n ↔ b ∈ c.blockAllocator.freeBlockHeap ∨ ∃ i, b ∈ owned c i

theorem partition_of_wf {c : PagedKVCache β} (h : Wf c) : Partition (sizes c).numBlocks c := by
  refine ⟨h.nodup, fun i j hne b hb hb' => h.disjoint i j hne b hb hb', h.not_free, h.alloc.nodup,
    fun b => ?_, fun b => ⟨h.cover b, ?_⟩⟩
  · rw [h.alloc.set_eq, List.mem_toFinset]
  · rintro (hb | ⟨i, hb⟩)
    · exact h.alloc.lt b hb
    · exact h.lt i b hb

/-- **One operation** keeps the invariant, whether it returns or raises. -/
theorem inv_step {s : Scheduler β} (h : Inv s) (o : Op β) : Inv (Recovery.step s o) := by
  cases o with
  | addRequest rid seqs =>
    refine inv_of_wp (wp_mono (wp_addRequest rid seqs h) (fun _ s' hs => hs.1) ?_)
    rintro e s' (⟨-, rfl⟩ | ⟨done, d, rest, -, hreg, -⟩)
    · exact h
    · exact hreg.inv
  | schedule predict =>
    exact inv_of_wp (wp_mono (wp_schedule predict h) (fun _ s' hs => hs.inv) fun _ _ h0 => h0.elim)
  | updateAfterStep completed newDecode => exact (inv_updateAfterStep completed newDecode h).1
  | abortRequest rid =>
    exact inv_of_wp (wp_mono (wp_abortRequest rid h) (fun _ s' hs => hs.1) fun _ _ h0 => h0.elim)
  | appendOutputToken i t =>
    refine inv_of_wp (wp_mono (wp_appendOutput h i t) (fun _ s' hs => hs.1) ?_)
    rintro e s' ⟨rfl, -⟩
    exact h
  | writeKv kv => exact inv_writeKv h kv

/-- No operation changes the limits. -/
theorem limits_step (s : Scheduler β) (o : Op β) : limits (Recovery.step s o) = limits s := by
  cases o with
  | addRequest rid seqs => exact leaves_addRequest rid seqs s
  | schedule predict => exact leaves_schedule predict s
  | updateAfterStep completed newDecode => exact leaves_updateAfterStep completed newDecode s
  | abortRequest rid => exact leaves_abortRequest rid s
  | appendOutputToken i t => exact leaves_appendOutput i t s
  | writeKv kv => rfl

/-- **The pool stays partitioned** in every run. -/
theorem blocks_partitioned (cfg : SchedConfig) (kvCfg : KvConfig) (kv : ℕ → β)
    (manager : Option (ℕ → List ℕ)) (ops : List (Op β)) :
    Partition kvCfg.numBlocks (exec step (fresh cfg kvCfg kv manager) ops).kvCache := by
  obtain ⟨hinv, hlimits⟩ := inv_exec_all (I := fun s => Inv s ∧ limits s = (cfg, kvCfg))
    (fun s o hs => ⟨inv_step hs.1 o, (limits_step s o).trans hs.2⟩) ops (fresh cfg kvCfg kv manager)
    ⟨inv_fresh cfg kvCfg kv manager, rfl⟩
  have hsizes : sizes (exec step (fresh cfg kvCfg kv manager) ops).kvCache = kvCfg :=
    congrArg Prod.snd hlimits
  have hpart := partition_of_wf hinv.wf
  rw [hsizes] at hpart
  exact hpart

/-! ### What one call of `schedule` keeps -/

/-- No live group leaves the queues, no sequence ends, and a sequence that still waits is
untouched. -/
structure Keeps (s s' : Scheduler β) : Prop where
  cfg : s'.cfg = s.cfg
  requestMap : s'.requestMap = s.requestMap
  live : ∀ i, (s'.store i).Live ↔ (s.store i).Live
  waiting : ∀ i, (s'.store i).status = .waiting → s'.store i = s.store i
  queued : ∀ g ∈ queuedGroups s, (∃ i ∈ g.sequenceIds, (s.store i).Live) → g ∈ queuedGroups s'

theorem Keeps.refl (s : Scheduler β) : Keeps s s :=
  ⟨rfl, rfl, fun _ => Iff.rfl, fun _ _ => rfl, fun _ hg _ => hg⟩

theorem Keeps.trans {s s' s'' : Scheduler β} (h : Keeps s s') (h' : Keeps s' s'') :
    Keeps s s'' := by
  refine ⟨h'.cfg.trans h.cfg, h'.requestMap.trans h.requestMap,
    fun i => (h'.live i).trans (h.live i), fun i hi => ?_, fun g hg hlive => ?_⟩
  · have h1 := h'.waiting i hi
    rw [h1] at hi ⊢
    exact h.waiting i hi
  · obtain ⟨i, hi, hl⟩ := hlive
    exact h'.queued g (h.queued g hg ⟨i, hi, hl⟩) ⟨i, hi, (h.live i).mpr hl⟩

/-- A change of some sequences, with a change of the queues. -/
theorem keeps_of_each {s s' : Scheduler β} {P : ℕ → Life β → Life β → Prop} {ids : List ℕ}
    {W R S : List SequenceGroup}
    (hE : Each P ids { s with waiting := W, running := R, swapped := S } s')
    (hP : ∀ i ∈ ids, ∀ l, P i (life s i) l →
      (l.data.Live ↔ (s.store i).Live) ∧ (l.data.status = .waiting → l.data = s.store i))
    (hq : ∀ g ∈ queuedGroups s, (∃ i ∈ g.sequenceIds, (s.store i).Live) → g ∈ W ++ R ++ S) :
    Keeps s s' := by
  have hother : ∀ i ∉ ids, s'.store i = s.store i := fun i hi => congrArg Life.data (hE.other i hi)
  refine ⟨hE.same.cfg, hE.same.requestMap, fun i => ?_, fun i hi => ?_, fun g hg hlive => ?_⟩
  · by_cases hmem : i ∈ ids
    · exact (hP i hmem _ (hE.each i hmem)).1
    · rw [hother i hmem]
  · by_cases hmem : i ∈ ids
    · exact (hP i hmem _ (hE.each i hmem)).2 hi
    · exact hother i hmem
  · unfold queuedGroups
    rw [hE.same.waiting, hE.same.running, hE.same.swapped]
    exact hq g hg hlive

/-- A running sequence that is not active has finished. -/
theorem not_live_of_idle {s : Scheduler β} (h : Inv s) {g : SequenceGroup} (hg : g ∈ s.running)
    (hidle : activeIds s g = []) : ¬ ∃ i ∈ g.sequenceIds, (s.store i).Live := by
  rintro ⟨i, hi, hlive⟩
  rcases h.running g hg i hi with hact | hfin
  · have hmem : i ∈ activeIds s g := mem_activeIds.mpr ⟨hi, hact⟩
    rw [hidle] at hmem
    exact absurd hmem List.not_mem_nil
  · exact hlive.1 hfin

theorem keeps_of_preempts {s s' : Scheduler β} {r : List ℕ} (h : Inv s)
    (hP : Preempts s s.running r s') : Keeps s s' := by
  have hpre : ∀ i, Active (s.store i).status → ∀ l, l = (life s i).preempted →
      (l.data.Live ↔ (s.store i).Live) ∧ (l.data.status = .waiting → l.data = s.store i) := by
    rintro i hact _ rfl
    refine ⟨⟨fun _ => ?_, fun _ => ?_⟩, fun h0 => by cases h0⟩
    · rcases hact with h0 | h0 <;> constructor <;> rw [h0] <;> decide
    · constructor <;> intro h0 <;> cases h0
  rcases hP with ⟨rfl, hidle, hE⟩ | ⟨dead, g, rest, hsplit, hdead, rfl, -, hE⟩
  · refine keeps_of_each hE (fun i hi => absurd hi List.not_mem_nil) fun g hg hlive => ?_
    simp only [queuedGroups, List.mem_append] at hg ⊢
    rcases hg with (hg | hg) | hg
    · exact Or.inl (Or.inl hg)
    · exact absurd hlive (not_live_of_idle h hg (hidle g hg))
    · exact Or.inr hg
  · refine keeps_of_each hE (fun i hi => hpre i (mem_activeIds.mp hi).2) fun g' hg' hlive => ?_
    simp only [queuedGroups, List.mem_append] at hg' ⊢
    rcases hg' with (hg' | hg') | hg'
    · exact Or.inl (Or.inl hg')
    · have hrun := hg'
      rw [hsplit, List.mem_append, List.mem_cons] at hg'
      rcases hg' with hg' | rfl | hg'
      · exact absurd hlive (not_live_of_idle h hrun (hdead g' hg'))
      · exact Or.inr (Or.inr (List.mem_singleton_self _))
      · exact Or.inl (Or.inr hg')
    · exact Or.inr (Or.inl hg')

theorem keeps_of_recovers {s s' : Scheduler β} {g : SequenceGroup} (h : Inv s)
    (hr : Recovers g s s') : Keeps s s' := by
  have herase : ∀ g' ∈ s.swapped, g' ≠ g → g' ∈ s.swapped.erase g := fun g' hg' hne =>
    (List.mem_erase_of_ne hne).mpr hg'
  cases hr with
  | skip hg hs => subst hs; exact Keeps.refl _
  | drop hg hnil hs =>
    subst hs
    refine ⟨rfl, rfl, fun _ => Iff.rfl, fun _ _ => rfl, fun g' hg' hlive => ?_⟩
    simp only [queuedGroups, List.mem_append] at hg' ⊢
    refine hg'.imp_right fun hg' => herase g' hg' ?_
    rintro rfl
    obtain ⟨i, hi, hl⟩ := hlive
    rcases h.swapped g' hg i hi with hst | hst
    · have hmem : i ∈ swappedIds s g' := mem_swappedIds.mpr ⟨hi, hst⟩
      rw [hnil] at hmem
      exact absurd hmem List.not_mem_nil
    · exact hl.1 hst
  | fail hg hlt hE =>
    refine keeps_of_each (hE.requeue id id id) (fun i hi l hl => ?_) fun g' hg' _ => hg'
    have hdata : l.data = s.store i := by rcases hl with rfl | rfl | rfl <;> rfl
    rw [hdata]
    exact ⟨Iff.rfl, fun _ => rfl⟩
  | done hg hne hE =>
    refine keeps_of_each hE (fun i hi l hl => ?_) fun g' hg' _ => ?_
    · have hst := (mem_swappedIds.mp hi).2
      subst hl
      refine ⟨⟨fun _ => ?_, fun _ => ?_⟩, fun h0 => by cases h0⟩
      · constructor <;> rw [hst] <;> decide
      · constructor <;> intro h0 <;> cases h0
    · simp only [queuedGroups, List.mem_append, List.mem_cons] at hg' ⊢
      by_cases he : g' = g
      · exact Or.inl (Or.inr (Or.inl he))
      · rcases hg' with (hg' | hg') | hg'
        · exact Or.inl (Or.inl hg')
        · exact Or.inl (Or.inr (Or.inr hg'))
        · exact Or.inr (herase g' hg' he)

/-- Every sequence in `PREFILL` was in `PREFILL` before or is one that the output lists. -/
def Entered (s₀ : Scheduler β) (out : SchedulerOutput) (s : Scheduler β) : Prop :=
  ∀ i, (s.store i).status = .prefill → (s₀.store i).status = .prefill ∨ i ∈ out.prefillSeqIds

/-- A change of some sequences to another status than `PREFILL`. -/
theorem prefill_of_each {s s' : Scheduler β} {P : ℕ → Life β → Life β → Prop} {ids : List ℕ}
    {W R S : List SequenceGroup}
    (hE : Each P ids { s with waiting := W, running := R, swapped := S } s')
    (hP : ∀ i ∈ ids, ∀ l, P i (life s i) l → l.data.status ≠ .prefill) {i : ℕ}
    (hi : (s'.store i).status = .prefill) : (s.store i).status = .prefill := by
  by_cases hmem : i ∈ ids
  · exact absurd hi (hP i hmem _ (hE.each i hmem))
  · rw [← hi]
    exact congrArg (fun l : Life β => l.data.status) (hE.other i hmem).symm

theorem prefill_of_recovers {s s' : Scheduler β} {g : SequenceGroup} (hr : Recovers g s s') {i : ℕ}
    (hi : (s'.store i).status = .prefill) : (s.store i).status = .prefill := by
  cases hr with
  | skip hg hs => subst hs; exact hi
  | drop hg hnil hs => subst hs; exact hi
  | fail hg hlt hE =>
    refine prefill_of_each (hE.requeue id id id) (fun j hj l hl => ?_) hi
    have hdata : l.data = s.store j := by rcases hl with rfl | rfl | rfl <;> rfl
    rw [hdata, (mem_swappedIds.mp hj).2]
    decide
  | done hg hne hE =>
    refine prefill_of_each hE (fun j hj l hl => ?_) hi
    subst hl
    intro h0
    cases h0

theorem prefill_of_preempts {s s' : Scheduler β} {r : List ℕ}
    (hP : Preempts s s.running r s') {i : ℕ} (hi : (s'.store i).status = .prefill) :
    (s.store i).status = .prefill := by
  rcases hP with ⟨rfl, -, hE⟩ | ⟨dead, g, rest, -, -, rfl, -, hE⟩
  · exact prefill_of_each hE (fun j hj => absurd hj List.not_mem_nil) hi
  · refine prefill_of_each hE (fun j hj l hl => ?_) hi
    subst hl
    intro h0
    cases h0

theorem wp_recoverSwappedGroups_keeps {s : Scheduler β} (h : Inv s) :
    wp (recoverSwappedGroups s.swapped) (fun _ s' => Inv s' ∧ Keeps s s' ∧ Entered s {} s')
      (fun _ _ => False) s := by
  have hstart : Entered s {} s := fun i hi => Or.inl hi
  simp only [recoverSwappedGroups, wp_bind, wp_current, wp_ite, wp_pure]
  refine ⟨fun _ => ⟨h, Keeps.refl s, hstart⟩, fun _ => ?_⟩
  refine wp_forEach (fun _ t => Inv t ∧ Keeps s t ∧ Entered s {} t)
    (fun g rest t ht => ?_) s.swapped s ⟨h, Keeps.refl s, hstart⟩
  obtain ⟨hinv, hk, he⟩ := ht
  refine wp_mono (wp_recoverGroup hinv g) ?_ fun _ _ h => h
  rintro _ t' ⟨hinv', hr⟩
  exact ⟨hinv', hk.trans (keeps_of_recovers hinv hr), fun i hi => he i (prefill_of_recovers hr hi)⟩

theorem keeps_sortWaiting (predict : Option (String → List ℕ → ℚ)) (s : Scheduler β) :
    Keeps s (sortWaiting predict s) := by
  obtain ⟨W, hperm, heq⟩ := sortWaiting_eq predict s
  rw [heq]
  refine ⟨rfl, rfl, fun _ => Iff.rfl, fun _ _ => rfl, fun g hg _ => ?_⟩
  simp only [queuedGroups, List.mem_append] at hg ⊢
  rw [hperm.mem_iff]
  exact hg

/-- Room for a waiting group is made at the cost of running groups only. -/
theorem wp_makeRoom_keeps {s : Scheduler β} (h : Inv s) (required : ℕ) (out : SchedulerOutput) :
    wp (makeRoom required out) (fun r s' => Inv s' ∧ Keeps s s' ∧
        (∀ i, (s'.store i).status = .prefill → (s.store i).status = .prefill) ∧
        s'.waiting = s.waiting ∧ s'.kvCache.blockSize = s.kvCache.blockSize ∧
        (∀ g ∈ s.waiting, ∀ i ∈ g.sequenceIds, s'.store i = s.store i) ∧
        (∃ ids, r.2 = { out with preemptedSeqIds := ids }) ∧
        (r.1 = true → required ≤ s'.numFreeBlocks)) (fun _ _ => False) s := by
  refine wp_mono (wp_makeRoom h required out) ?_ fun _ _ h => h
  rintro r s' (⟨hle, rfl, rfl⟩ | ⟨-, pre, hinv, hP, rfl⟩)
  · exact ⟨h, Keeps.refl _, fun _ hi => hi, rfl, rfl, fun _ _ _ _ => rfl,
      ⟨out.preemptedSeqIds, rfl⟩, fun _ => hle⟩
  · obtain ⟨hw, -, hk, hlife⟩ := preempts_waiting h hP
    refine ⟨hinv, keeps_of_preempts h hP, fun i hi => prefill_of_preempts hP hi, hw, hk,
      fun g hg i hi => congrArg Life.data (hlife g hg i hi), ⟨_, rfl⟩, fun h0 => ?_⟩
    exact (of_decide_eq_true h0).2

/-! ### The budget -/

/-- The output of `schedule` so far, with the counts that the loops of `schedule` carry. -/
structure Within (s₀ : Scheduler β) (seqs tokens : ℕ) (out : SchedulerOutput) : Prop where
  seqs_eq : out.prefillSeqIds.length + out.decodeSeqIds.length = seqs
  tokens_eq : out.numPrefillTokens + out.numDecodeTokens = tokens
  prefill : out.numPrefillTokens =
    (out.prefillSeqIds.map fun i => numPrefillTokens (s₀.store i)).sum
  decode : out.numDecodeTokens = out.decodeSeqIds.length
  batch : seqs ≤ s₀.cfg.maxBatchSize
  budget : tokens ≤ s₀.cfg.maxTokensPerStep

theorem within_start (s₀ : Scheduler β) : Within s₀ 0 0 {} :=
  ⟨rfl, rfl, rfl, rfl, Nat.zero_le _, Nat.zero_le _⟩

theorem within_selectDecode {s₀ s : Scheduler β} (hcfg : s.cfg = s₀.cfg) : ∀ (ids : List ℕ)
    (seqs tokens : ℕ) (out : SchedulerOutput), Within s₀ seqs tokens out →
    ∃ seqs' tokens', Within s₀ seqs' tokens' (selectDecode s ids seqs tokens out)
  | [], seqs, tokens, _, h => ⟨seqs, tokens, h⟩
  | i :: ids, seqs, tokens, out, h => by
    unfold selectDecode
    split_ifs with h1 h2 h3
    · exact within_selectDecode hcfg ids seqs tokens out h
    · exact ⟨seqs, tokens, h⟩
    · exact ⟨seqs, tokens, h⟩
    · refine within_selectDecode hcfg ids (seqs + 1) (tokens + 1) _ ⟨?_, ?_, h.prefill, ?_, ?_, ?_⟩
      · have := h.seqs_eq
        simp only [List.length_append, List.length_singleton]
        omega
      · have := h.tokens_eq
        simp only
        omega
      · have := h.decode
        simp only [List.length_append, List.length_singleton]
        omega
      · rw [← hcfg]; omega
      · rw [← hcfg]; omega

/-- The admission of a group is counted. -/
theorem Within.enter {s₀ s : Scheduler β} {seqs tokens : ℕ} {out : SchedulerOutput} {ids : List ℕ}
    (h : Within s₀ seqs tokens out)
    (hids : ∀ i ∈ ids, s.store i = s₀.store i ∧ (s.store i).seqId = i)
    (hbatch : seqs + (ids.map s.store).length ≤ s₀.cfg.maxBatchSize)
    (hbudget : tokens + ((ids.map s.store).map numPrefillTokens).sum ≤ s₀.cfg.maxTokensPerStep) :
    Within s₀ (seqs + (ids.map s.store).length)
      (tokens + ((ids.map s.store).map numPrefillTokens).sum) { out with
        prefillSeqIds := out.prefillSeqIds ++ (ids.map s.store).map (·.seqId)
        numPrefillTokens := out.numPrefillTokens +
          ((ids.map s.store).map numPrefillTokens).sum } := by
  have hseq : (ids.map s.store).map (·.seqId) = ids := by
    rw [List.map_map]
    exact (List.map_congr_left fun i hi => (hids i hi).2).trans (List.map_id _)
  have htok : (ids.map s.store).map numPrefillTokens =
      ids.map fun i => numPrefillTokens (s₀.store i) := by
    rw [List.map_map]
    exact List.map_congr_left fun i hi => congrArg numPrefillTokens (hids i hi).1
  rw [htok] at hbudget
  rw [hseq, htok]
  refine ⟨?_, ?_, ?_, h.decode, hbatch, hbudget⟩
  · have := h.seqs_eq
    simp only [List.length_append, List.length_map]
    omega
  · have := h.tokens_eq
    simp only
    omega
  · simp only [List.map_append, List.sum_append]
    rw [h.prefill]

/-- **Admission** loses no live group and stays within the budget. -/
theorem wp_admitWaiting_keeps {s₀ : Scheduler β} : ∀ (ws : List SequenceGroup) (seqs tokens : ℕ)
    (out : SchedulerOutput) (s : Scheduler β), Inv s → s.waiting = ws → Keeps s₀ s →
    Within s₀ seqs tokens out → Entered s₀ out s →
    wp (admitWaiting ws seqs tokens out)
      (fun r s' => Inv s' ∧ Keeps s₀ s' ∧ Within s₀ r.1 r.2.1 r.2.2 ∧ Entered s₀ r.2.2 s')
      (fun _ _ => False) s
  | [], _, _, _, _, hinv, _, hk, hb, he => ⟨hinv, hk, hb, he⟩
  | g :: rest, seqs, tokens, out, s, hinv, hw, hk, hb, he => by
    have hg : g ∈ s.waiting := by rw [hw]; exact List.mem_cons_self
    have hall : s.withStatus g .waiting = g.sequenceIds :=
      List.filter_eq_self.mpr fun i hi => by simpa using hinv.waiting g hg i hi
    simp only [admitWaiting, wp_bind, wp_current, wp_ite, wp_update, wp_pure]
    refine ⟨fun hnil => ?_, fun _ => ⟨fun _ => ⟨hinv, hk, hb, he⟩, fun hbatch =>
      ⟨fun _ => ⟨hinv, hk, hb, he⟩, fun hbudget => ?_⟩⟩⟩
    · -- every sequence of a waiting group waits, so the group is empty
      have hempty : g.sequenceIds = [] := by
        rw [hall] at hnil
        exact List.map_eq_nil_iff.mp hnil
      refine wp_admitWaiting_keeps rest seqs tokens out _ (hinv.dropWaiting hw) rfl
        (hk.trans ?_) hb he
      refine ⟨rfl, rfl, fun _ => Iff.rfl, fun _ _ => rfl, fun g' hg' hlive => ?_⟩
      simp only [queuedGroups, List.mem_append] at hg' ⊢
      rw [hw, List.mem_cons] at hg'
      rcases hg' with ((rfl | hg') | hg') | hg'
      · obtain ⟨i, hi, -⟩ := hlive
        rw [hempty] at hi
        exact absurd hi List.not_mem_nil
      · exact Or.inl (Or.inl hg')
      · exact Or.inl (Or.inr hg')
      · exact Or.inr hg'
    · refine wp_mono (wp_makeRoom_keeps hinv _ out) ?_ fun _ _ h => h
      rintro ⟨room, out'⟩ s₁ ⟨hinv₁, hk₁, hp₁, hw₁, hsize, hsame, ⟨pre, rfl⟩, hroom⟩
      have hk₂ := hk.trans hk₁
      have hb₁ : Within s₀ seqs tokens { out with preemptedSeqIds := pre } :=
        ⟨hb.seqs_eq, hb.tokens_eq, hb.prefill, hb.decode, hb.batch, hb.budget⟩
      have he₁ : Entered s₀ out s₁ := fun i hi => he i (hp₁ i hi)
      refine ⟨fun _ => ⟨hinv₁, hk₂, hb₁, he₁⟩, fun h0 => ?_⟩
      have hstore := hsame g hg
      have hall₁ : s₁.withStatus g .waiting = g.sequenceIds := by
        rw [← hall]
        exact List.filter_congr fun i hi => by rw [hstore i hi]
      have hnext : (s.withStatus g .waiting).map s.store =
          (s₁.withStatus g .waiting).map s₁.store := by
        rw [hall, hall₁]
        exact List.map_congr_left fun i hi => (hstore i hi).symm
      have hblocks : s.requiredBlocks = s₁.requiredBlocks := by
        funext d
        rw [requiredBlocks_eq, requiredBlocks_eq, hsize]
      have hfit : (demandOfGroup s₁ g).blocks ≤ s₁.numFreeBlocks := by
        have := hroom (by simpa using h0)
        rw [hnext, hblocks, List.map_map] at this
        exact this
      rw [hnext] at hbatch hbudget ⊢
      refine wp_mono (wp_enter (Admitting.start hinv₁) (hw₁.trans hw) hfit) ?_ fun _ _ h => h
      intro _ s₂ hE
      have hadm : Admitting s₁ { prefillSeqIds := s₁.withStatus g .waiting } s₂ :=
        (Admitting.start hinv₁).enter (hw₁.trans hw) hE rfl rfl rfl
      have hinv₂ : Inv s₂ := hadm.inv
      have hk₃ : Keeps s₁ s₂ := by
        refine keeps_of_each (W := rest) (R := s₁.running ++ [g]) (S := s₁.swapped) hE
          (fun i hi l hl => ?_) fun g' hg' _ => ?_
        · have hst : (s₁.store i).status = .waiting := by simpa using (List.mem_filter.mp hi).2
          obtain ⟨rows, -, rfl⟩ := hl
          refine ⟨⟨fun _ => ?_, fun _ => ?_⟩, fun h0 => by cases h0⟩
          · constructor <;> rw [hst] <;> decide
          · constructor <;> intro h0 <;> cases h0
        · simp only [queuedGroups, List.mem_append] at hg' ⊢
          rw [hw₁, hw, List.mem_cons] at hg'
          rcases hg' with ((rfl | hg') | hg') | hg'
          · exact Or.inl (Or.inr (Or.inr (List.mem_singleton_self _)))
          · exact Or.inl (Or.inl hg')
          · exact Or.inl (Or.inr (Or.inl hg'))
          · exact Or.inr hg'
      refine wp_admitWaiting_keeps rest _ _ _ s₂ hinv₂ hE.same.waiting (hk₂.trans hk₃)
        (hb₁.enter (fun i hi => ⟨?_, hinv₁.seqId i⟩) ?_ ?_) fun i hi => ?_
      · have hst : (s₁.store i).status = .waiting := by simpa using (List.mem_filter.mp hi).2
        exact hk₂.waiting i hst
      · rw [← hk.cfg]; exact not_lt.mp hbatch
      · rw [← hk.cfg]; exact not_lt.mp hbudget
      · have hseq : ((s₁.withStatus g .waiting).map s₁.store).map (·.seqId) =
            s₁.withStatus g .waiting := by
          rw [List.map_map]
          exact (List.map_congr_left fun i _ => hinv₁.seqId i).trans (List.map_id _)
        by_cases hmem : i ∈ s₁.withStatus g .waiting
        · refine Or.inr (List.mem_append_right _ ?_)
          rw [hseq]
          exact hmem
        · have hst : (s₁.store i).status = .prefill := by
            rw [← hi]
            exact congrArg (fun l : Life β => l.data.status) (hE.other i hmem).symm
          exact (he₁ i hst).imp_right fun h0 => List.mem_append_left _ h0

/-- **One call of `schedule`** loses no live group and stays within the budget. -/
theorem wp_schedule_keeps (predict : Option (String → List ℕ → ℚ)) {s : Scheduler β} (h : Inv s) :
    wp (schedule predict) (fun out s' => Inv s' ∧ Keeps s s' ∧
      (∃ seqs tokens, Within s seqs tokens out) ∧ Entered s out s') (fun _ _ => False) s := by
  simp only [schedule, wp_bind, wp_current, wp_update, wp_pure]
  refine wp_mono (wp_recoverSwappedGroups_keeps h) ?_ fun _ _ h => h
  rintro _ s₁ ⟨hinv₁, hk₁, he₁⟩
  have hsort : Entered s {} (sortWaiting predict s₁) := by
    obtain ⟨W, -, heq⟩ := sortWaiting_eq predict s₁
    rw [heq]
    exact he₁
  refine wp_mono (wp_admitWaiting_keeps _ 0 0 {} _ (inv_sortWaiting hinv₁ predict) rfl
    (hk₁.trans (keeps_sortWaiting predict s₁)) (within_start s) hsort) ?_ fun _ _ h => h
  rintro ⟨seqs, tokens, out⟩ s' ⟨hinv', hk', hb, he'⟩
  refine ⟨hinv', hk', within_selectDecode hk'.cfg s'.runningIds seqs tokens out hb, fun i hi => ?_⟩
  obtain ⟨-, -, -, -, hpre, -⟩ := selectDecode_spec s' s'.runningIds seqs tokens out
  rw [hpre]
  exact he' i hi

/-! ### The live requests of a run -/

/-- A scheduler with the requests that have been added and still have a live sequence. -/
structure Track (β : Type) where
  sched : Scheduler β
  live : List SequenceGroup

/-- The request that an operation adds. -/
def added : Op β → List SequenceGroup
  | .addRequest rid seqs => [⟨rid, seqs.map (·.seqId)⟩]
  | _ => []

/-- One operation; a request whose sequences have all ended is never live again. -/
def Track.step (t : Track β) (o : Op β) : Track β :=
  let s' := Recovery.step t.sched o
  ⟨s', (t.live ++ added o).filter s'.hasActive⟩

/-- The operation returns; for one that cannot raise there is nothing to say. -/
def Returns (s : Scheduler β) : Op β → Prop
  | .addRequest rid seqs => ((Scheduler.addRequest rid seqs).run s).2.isOk = true
  | .schedule predict => ((Scheduler.schedule predict).run s).2.isOk = true
  | .updateAfterStep completed newDecode =>
    ((Scheduler.updateAfterStep completed newDecode).run s).2.isOk = true
  | .abortRequest rid => ((Scheduler.abortRequest rid).run s).2.isOk = true
  | .appendOutputToken i t => ((appendOutput i t).run s).2.isOk = true
  | .writeKv _ => True

/-- A request has a sequence; `add_request` of the engine, the only caller, makes `n ≥ 1` of
them. -/
def Inhabited : Op β → Prop
  | .addRequest _ seqs => seqs ≠ []
  | _ => True

/-- The calls of the runs considered: they return, and requests have sequences. -/
def Regular (t : Track β) (o : Op β) : Prop := Returns t.sched o ∧ Inhabited o

/-- The group is in exactly one queue, once, and the queue fits its live sequences. -/
structure Placed (s : Scheduler β) (g : SequenceGroup) : Prop where
  once : s.waiting.count g + s.running.count g + s.swapped.count g = 1
  waiting : g ∈ s.waiting → ∀ i ∈ g.sequenceIds, (s.store i).Live → (s.store i).status = .waiting
  running : g ∈ s.running → ∀ i ∈ g.sequenceIds, (s.store i).Live →
    (s.store i).status = .prefill ∨ (s.store i).status = .decode
  swapped : g ∈ s.swapped → ∀ i ∈ g.sequenceIds, (s.store i).Live → (s.store i).status = .swapped

/-- Every live request is placed, and the request map holds exactly the live requests. -/
structure Orderly (t : Track β) : Prop where
  placed : ∀ g ∈ t.live, Placed t.sched g
  requestMap : ∀ g, g ∈ t.sched.requestMap ↔ g ∈ t.live
  live : ∀ g ∈ t.live, ∃ i ∈ g.sequenceIds, (t.sched.store i).Live

/-- An output of `schedule` is within the limits. -/
def OutputFits (t : Track β) : Op β → Prop
  | .schedule predict => ∀ s' out, (Scheduler.schedule predict).run t.sched = (s', .ok out) →
    out.prefillSeqIds.length + out.decodeSeqIds.length ≤ t.sched.cfg.maxBatchSize ∧
    (out.prefillSeqIds.map fun i => numPrefillTokens (t.sched.store i)).sum +
      out.decodeSeqIds.length ≤ t.sched.cfg.maxTokensPerStep ∧
    out.numPrefillTokens + out.numDecodeTokens =
      (out.prefillSeqIds.map fun i => numPrefillTokens (t.sched.store i)).sum +
        out.decodeSeqIds.length
  | _ => True

/-! ### The invariant -/

/-- Every request of the map has a live sequence and is queued. -/
def Covered (s : Scheduler β) : Prop :=
  ∀ g ∈ s.requestMap, s.hasActive g = true ∧ g ∈ queuedGroups s

/-- The invariant of regular runs. -/
structure Filed (t : Track β) : Prop where
  inv : Inv t.sched
  requestMap : t.sched.requestMap = t.live
  covered : Covered t.sched

theorem filed_fresh (cfg : SchedConfig) (kvCfg : KvConfig) (kv : ℕ → β)
    (manager : Option (ℕ → List ℕ)) : Filed ⟨fresh cfg kvCfg kv manager, []⟩ :=
  ⟨inv_fresh cfg kvCfg kv manager, rfl, fun _ hg => absurd hg List.not_mem_nil⟩

theorem Filed.orderly {t : Track β} (h : Filed t) : Orderly t := by
  have hcov : ∀ g ∈ t.live, t.sched.hasActive g = true ∧ g ∈ queuedGroups t.sched := by
    rw [← h.requestMap]
    exact h.covered
  have hplaced : ∀ g ∈ t.live, Placed t.sched g := by
    intro g hg
    have hle := List.nodup_iff_count_le_one.mp h.inv.nodup g
    have hpos := List.count_pos_iff.mpr (hcov g hg).2
    simp only [queuedGroups, List.count_append] at hle hpos
    refine ⟨by omega, fun hw i hi _ => h.inv.waiting g hw i hi, fun hr i hi hl => ?_,
      fun hs i hi hl => ?_⟩
    · exact (h.inv.running g hr i hi).resolve_right hl.1
    · exact (h.inv.swapped g hs i hi).resolve_right hl.1
  exact ⟨hplaced, fun g => by rw [h.requestMap], fun g hg => hasActive_iff.mp (hcov g hg).1⟩

theorem hasActive_congr {s s' : Scheduler β} (h : ∀ i, (s'.store i).Live ↔ (s.store i).Live) :
    s'.hasActive = s.hasActive := by
  funext g
  rw [Bool.eq_iff_iff, hasActive_iff, hasActive_iff]
  simp only [h]

/-- What neither adds nor ends a request keeps the requests covered. -/
theorem Covered.of_live {s s' : Scheduler β} (h : Covered s) (hmap : s'.requestMap = s.requestMap)
    (hl : ∀ i, (s'.store i).Live ↔ (s.store i).Live)
    (hq : ∀ g ∈ queuedGroups s, s.hasActive g = true → g ∈ queuedGroups s') : Covered s' := by
  intro g hg
  rw [hmap] at hg
  obtain ⟨hact, hmem⟩ := h g hg
  rw [hasActive_congr hl]
  exact ⟨hact, hq g hmem hact⟩

theorem Keeps.covered {s s' : Scheduler β} (hk : Keeps s s') (h : Covered s) : Covered s' :=
  h.of_live hk.requestMap hk.live fun g hg hact => hk.queued g hg (hasActive_iff.mp hact)

/-- A step that neither adds nor ends a request. -/
theorem Filed.of_live {t : Track β} (h : Filed t) {o : Op β} (hadd : added o = [])
    (hinv : Inv (Recovery.step t.sched o)) (hcov : Covered (Recovery.step t.sched o))
    (hmap : (Recovery.step t.sched o).requestMap = t.sched.requestMap) : Filed (t.step o) := by
  refine ⟨hinv, ?_, hcov⟩
  have hlive : (t.step o).live = t.live.filter (Recovery.step t.sched o).hasActive := by
    unfold Track.step
    simp only [hadd, List.append_nil]
  rw [hlive, ← h.requestMap, List.filter_eq_self.mpr fun g hg =>
    (hcov g (by rw [hmap]; exact hg)).1]
  exact hmap

/-- Pruning forgets exactly the requests without a live sequence. -/
structure Prunes (s s' : Scheduler β) : Prop where
  requestMap : s'.requestMap = s.requestMap.filter s'.hasActive
  queued : ∀ g ∈ queuedGroups s, g ∈ s.requestMap → s'.hasActive g = true → g ∈ queuedGroups s'

theorem prunes_prune (s : Scheduler β) : Prunes s (pruneFinishedAndCancelledRequests s) := by
  have hstore : (pruneFinishedAndCancelledRequests s).store = s.store :=
    (foldl_drop_eq (s.requestMap.filter fun g => !s.hasActive g) s).2.1
  have hact : (pruneFinishedAndCancelledRequests s).hasActive = s.hasActive :=
    hasActive_congr fun i => by rw [hstore]
  refine ⟨by rw [hact]; rfl, fun g hg hreq hlive => ?_⟩
  rw [hact] at hlive
  have hkept : g.requestId ∈ (s.requestMap.filter s.hasActive).map (·.requestId) :=
    List.mem_map_of_mem (List.mem_filter.mpr ⟨hreq, hlive⟩)
  have hkeep : ∀ {l : List SequenceGroup}, g ∈ l → g ∈ l.filter fun g' =>
      decide (g'.requestId ∈ (s.requestMap.filter s.hasActive).map (·.requestId)) := fun hl =>
    List.mem_filter.mpr ⟨hl, decide_eq_true hkept⟩
  simp only [queuedGroups, List.mem_append] at hg ⊢
  rcases hg with (hg | hg) | hg
  · exact Or.inl (Or.inl (hkeep hg))
  · exact Or.inl (Or.inr (hkeep hg))
  · exact Or.inr (hkeep hg)

theorem Prunes.covered {s s' : Scheduler β} (hp : Prunes s s') (h : Covered s) : Covered s' := by
  intro g hg
  rw [hp.requestMap] at hg
  obtain ⟨hreq, hact⟩ := List.mem_filter.mp hg
  exact ⟨hact, hp.queued g (h g hreq).2 hreq hact⟩

/-- A step that ends sequences and prunes. -/
theorem Filed.of_prunes {t : Track β} (h : Filed t) {o : Op β} (hadd : added o = [])
    (hinv : Inv (Recovery.step t.sched o)) (hp : Prunes t.sched (Recovery.step t.sched o)) :
    Filed (t.step o) := by
  refine ⟨hinv, ?_, hp.covered h.covered⟩
  have hlive : (t.step o).live = t.live.filter (Recovery.step t.sched o).hasActive := by
    unfold Track.step
    simp only [hadd, List.append_nil]
  rw [hlive, ← h.requestMap]
  exact hp.requestMap

theorem Prunes.of_same {s s₁ s' : Scheduler β} (hs : SameQueues s s₁) (h : Prunes s₁ s') :
    Prunes s s' := by
  refine ⟨by rw [h.requestMap, hs.requestMap], fun g hg hreq => h.queued g ?_ ?_⟩
  · unfold queuedGroups
    rw [hs.waiting, hs.running, hs.swapped]
    exact hg
  · rw [hs.requestMap]; exact hreq

theorem wp_updateAfterStep_prunes (completed newDecode : List ℕ) {s : Scheduler β} (h : Inv s) :
    wp (updateAfterStep completed newDecode) (fun _ s' => Prunes s s') (fun _ _ => True) s := by
  refine wp_mono (wp_updateAfterStep completed newDecode h) ?_ fun _ _ _ => trivial
  rintro _ s' ⟨s₁, s₂, hE, hE₂, rfl⟩
  exact Prunes.of_same (hE.same.trans hE₂.same) (prunes_prune s₂)

/-- The group that is aborted has no live sequence left, so that dropping it is a case of
pruning. -/
theorem wp_abortRequest_prunes (requestId : String) {s : Scheduler β} (h : Inv s) :
    wp (abortRequest requestId) (fun _ s' => s' = s ∨ Prunes s s') (fun _ _ => False) s := by
  simp only [abortRequest, wp_bind, wp_current]
  cases hfind : s.requestMap.find? (·.requestId = requestId) with
  | none => exact Or.inl rfl
  | some g =>
    have hg : g ∈ s.requestMap := List.mem_of_find?_eq_some hfind
    have hid : g.requestId = requestId := by simpa using List.find?_some hfind
    simp only [wp_bind, wp_update]
    refine wp_mono (wp_forEach_each (P := fun _ => Ended .cancelled) (Q := fun _ _ _ => True)
      (F := False) (fun _ _ _ _ => trivial) (fun _ _ => trivial) g.sequenceIds s
      (h.group_nodup hg) h.wf
      fun i _ t hwf _ _ => wp_cancelSequence hwf) (fun _ s₁ hE => Or.inr ?_) fun _ _ h0 => h0.1
    set s₂ := dropRequestMetadata g { s₁ with
      waiting := s₁.waiting.filter (·.requestId ≠ requestId)
      running := s₁.running.filter (·.requestId ≠ requestId)
      swapped := s₁.swapped.filter (·.requestId ≠ requestId) } with hs₂
    have hp := prunes_prune s₂
    have hstore : (pruneFinishedAndCancelledRequests s₂).store = s₁.store :=
      (foldl_drop_eq (s₂.requestMap.filter fun g => !s₂.hasActive g) s₂).2.1
    -- what still has a live sequence is not the aborted request
    have hne : ∀ g' ∈ s.requestMap, (pruneFinishedAndCancelledRequests s₂).hasActive g' = true →
        g'.requestId ≠ requestId := by
      intro g' hg' hact h0
      obtain ⟨i, hi, hlive⟩ := hasActive_iff.mp hact
      rw [h.eq_of_requestId hg' hg (h0.trans hid.symm)] at hi
      rw [hstore] at hlive
      rcases (ended_spec h (Or.inr rfl) (hE.each i hi)).2.2 with h1 | h1
      · exact hlive.1 h1
      · exact hlive.2 h1
    refine ⟨?_, fun g' hg' hreq hact => hp.queued g' ?_ ?_ hact⟩
    · rw [hp.requestMap]
      change (s₁.requestMap.filter (·.requestId ≠ g.requestId)).filter _ = _
      rw [hE.same.requestMap, List.filter_filter]
      refine List.filter_congr fun g' hg' => ?_
      by_cases hact : (pruneFinishedAndCancelledRequests s₂).hasActive g' = true
      · rw [hact, Bool.true_and, hid]
        exact decide_eq_true (hne g' hg' hact)
      · rw [Bool.not_eq_true] at hact
        rw [hact, Bool.false_and]
    · have hkeep : ∀ {l : List SequenceGroup}, g' ∈ l → g' ∈ l.filter (·.requestId ≠ requestId) :=
        fun hl => List.mem_filter.mpr ⟨hl, decide_eq_true (hne g' hreq hact)⟩
      change g' ∈ s₁.waiting.filter _ ++ s₁.running.filter _ ++ s₁.swapped.filter _
      rw [hE.same.waiting, hE.same.running, hE.same.swapped]
      simp only [queuedGroups, List.mem_append] at hg' ⊢
      rcases hg' with (hg' | hg') | hg'
      · exact Or.inl (Or.inl (hkeep hg'))
      · exact Or.inl (Or.inr (hkeep hg'))
      · exact Or.inr (hkeep hg')
    · refine List.mem_filter.mpr ⟨?_, ?_⟩
      · change g' ∈ s₁.requestMap
        rw [hE.same.requestMap]
        exact hreq
      · rw [hid]
        exact decide_eq_true (hne g' hreq hact)

/-- The new request is live and waits, and the others are as before. -/
theorem covered_addRequest {s t : Scheduler β} (rid : String) {seqs : List SequenceData} (h : Inv s)
    (hcov : Covered s) (hne : seqs ≠ []) (hreg : Registering s seqs t) :
    Covered { t with
      requestMap := t.requestMap ++ [⟨rid, seqs.map (·.seqId)⟩]
      waiting := t.waiting ++ [⟨rid, seqs.map (·.seqId)⟩] } := by
  intro g hg
  rcases List.mem_append.mp hg with hg | hg
  · rw [hreg.requestMap] at hg
    obtain ⟨hact, hq⟩ := hcov g hg
    obtain ⟨i, hi, hl⟩ := hasActive_iff.mp hact
    refine ⟨hasActive_iff.mpr ⟨i, hi, ?_⟩, ?_⟩
    · change (t.store i).Live
      rw [hreg.other i fun h0 => ?_]
      · exact hl
      · obtain ⟨d, hd, rfl⟩ := List.mem_map.mp h0
        exact hreg.new d hd (h.member g hg _ hi)
    · rw [← hreg.queues] at hq
      simp only [queuedGroups, List.mem_append] at hq ⊢
      rcases hq with (hq | hq) | hq
      · exact Or.inl (Or.inl (Or.inl hq))
      · exact Or.inl (Or.inr hq)
      · exact Or.inr hq
  · rw [List.mem_singleton.mp hg]
    obtain ⟨d, hd⟩ := List.exists_mem_of_ne_nil seqs hne
    refine ⟨hasActive_iff.mpr ⟨d.seqId, List.mem_map_of_mem hd, ?_⟩, by simp [queuedGroups]⟩
    change (t.store d.seqId).Live
    rw [hreg.registered d hd]
    constructor <;> intro h0 <;> cases h0

theorem Filed.addRequest {t : Track β} (h : Filed t) {rid : String} {seqs : List SequenceData}
    (hne : seqs ≠ []) (hok : ((Scheduler.addRequest rid seqs).run t.sched).2.isOk = true) :
    Filed (t.step (.addRequest rid seqs)) := by
  obtain ⟨-, hinv, t₁, hreg, heq⟩ := post_of_isOk (wp_addRequest rid seqs h.inv) hok
  have hcov := covered_addRequest rid h.inv h.covered hne hreg
  have hstep : Recovery.step t.sched (.addRequest rid seqs) = { t₁ with
      requestMap := t₁.requestMap ++ [⟨rid, seqs.map (·.seqId)⟩]
      waiting := t₁.waiting ++ [⟨rid, seqs.map (·.seqId)⟩] } := heq
  have hmap : (Recovery.step t.sched (.addRequest rid seqs)).requestMap =
      t.live ++ [⟨rid, seqs.map (·.seqId)⟩] := by
    rw [hstep]
    change t₁.requestMap ++ _ = _
    rw [hreg.requestMap, h.requestMap]
  rw [← hstep] at hcov
  refine ⟨inv_step h.inv (.addRequest rid seqs), ?_, hcov⟩
  refine hmap.trans (List.filter_eq_self.mpr fun g hg => ?_).symm
  exact (hcov g (by rw [hmap]; exact hg)).1

/-- **One call** that returns. -/
theorem Filed.step {t : Track β} (h : Filed t) {o : Op β} (ho : Regular t o) :
    Filed (t.step o) := by
  obtain ⟨hret, hinh⟩ := ho
  have hinv := inv_step h.inv o
  cases o with
  | addRequest rid seqs => exact h.addRequest hinh hret
  | schedule predict =>
    obtain ⟨-, -, hk, -⟩ := post_of_isOk (wp_schedule_keeps predict h.inv) hret
    exact h.of_live rfl hinv (hk.covered h.covered) hk.requestMap
  | updateAfterStep completed newDecode =>
    obtain ⟨-, hp⟩ := post_of_isOk (wp_updateAfterStep_prunes completed newDecode h.inv) hret
    exact h.of_prunes rfl hinv hp
  | abortRequest rid =>
    obtain ⟨-, hs | hp⟩ := post_of_isOk (wp_abortRequest_prunes rid h.inv) hret
    · have hs : Recovery.step t.sched (.abortRequest rid) = t.sched := hs
      exact h.of_live rfl hinv (by rw [hs]; exact h.covered) (by rw [hs])
    · exact h.of_prunes rfl hinv hp
  | appendOutputToken i t' =>
    obtain ⟨-, -, hE⟩ := post_of_isOk (wp_appendOutput h.inv i t') hret
    refine h.of_live rfl hinv (h.covered.of_live hE.same.requestMap (fun j => ?_) fun g hg _ => ?_)
      hE.same.requestMap
    · by_cases hj : j ∈ [i]
      · have hdata : (Recovery.step t.sched (.appendOutputToken i t')).store j =
            ((life t.sched j).appended t').data := congrArg Life.data (hE.each j hj)
        rw [hdata]
        exact Iff.rfl
      · have hdata : (Recovery.step t.sched (.appendOutputToken i t')).store j = t.sched.store j :=
          congrArg Life.data (hE.other j hj)
        rw [hdata]
    · have hsame : SameQueues t.sched (Recovery.step t.sched (.appendOutputToken i t')) := hE.same
      unfold queuedGroups
      rw [hsame.waiting, hsame.running, hsame.swapped]
      exact hg
  | writeKv kv =>
    exact h.of_live rfl hinv (h.covered.of_live rfl (fun _ => Iff.rfl) fun _ hg _ => hg) rfl

/-- **Live requests are placed, and outputs are within the limits**, in every run whose calls
return. -/
theorem requests_placed (cfg : SchedConfig) (kvCfg : KvConfig) (kv : ℕ → β)
    (manager : Option (ℕ → List ℕ)) (ops : List (Op β))
    (h : Along Track.step Regular ⟨fresh cfg kvCfg kv manager, []⟩ ops) :
    Orderly (exec Track.step ⟨fresh cfg kvCfg kv manager, []⟩ ops) ∧
      Along Track.step OutputFits ⟨fresh cfg kvCfg kv manager, []⟩ ops := by
  have hstart := filed_fresh cfg kvCfg kv manager
  have hfits : ∀ (t : Track β) (o : Op β), Filed t → Regular t o → OutputFits t o := by
    intro t o ht _
    cases o with
    | schedule predict =>
      intro s' out hrun
      obtain ⟨-, -, ⟨seqs, tokens, hb⟩, -⟩ := wp_ok (wp_schedule_keeps predict ht.inv) hrun
      have h1 := hb.seqs_eq
      have h2 := hb.tokens_eq
      have h3 := hb.prefill
      have h4 := hb.decode
      have h5 := hb.batch
      have h6 := hb.budget
      exact ⟨by omega, by omega, by omega⟩
    | addRequest rid seqs => exact trivial
    | updateAfterStep completed newDecode => exact trivial
    | abortRequest rid => exact trivial
    | appendOutputToken i t => exact trivial
    | writeKv kv => exact trivial
  exact ⟨(inv_exec (fun _ _ ht ho => ht.step ho) ops _ hstart h).orderly,
    along_of_inv (fun _ _ ht ho => ht.step ho) hfits ops _ hstart h⟩

instance (t : Track β) : ∀ o : Op β, Decidable (Regular t o)
  | .addRequest _ _ => inferInstanceAs (Decidable (_ = true ∧ _ ≠ []))
  | .schedule _ => inferInstanceAs (Decidable (_ = true ∧ True))
  | .updateAfterStep _ _ => inferInstanceAs (Decidable (_ = true ∧ True))
  | .abortRequest _ => inferInstanceAs (Decidable (_ = true ∧ True))
  | .appendOutputToken _ _ => inferInstanceAs (Decidable (_ = true ∧ True))
  | .writeKv _ => isTrue ⟨trivial, trivial⟩

/-- A request of two sequences, one of which finishes first, is preempted, comes back and is
aborted. -/
def partlyFinished : List (Op ℕ) :=
  [.addRequest "a" [sequence 0 [1, 2], sequence 1 [1, 2]], .schedule none, .updateAfterStep [0] [1],
    .addRequest "b" [sequence 2 [3, 4, 5, 6, 7]], .schedule none, .abortRequest "b", .schedule none]

theorem requests_placed_partlyFinished :
    Along Track.step Regular ⟨fresh ⟨8, 64, by decide, by decide⟩ ⟨2, 4, by decide, by decide⟩
        (fun b => b) none, []⟩ partlyFinished ∧
      Orderly (exec Track.step ⟨fresh ⟨8, 64, by decide, by decide⟩ ⟨2, 4, by decide, by decide⟩
        (fun b => b) none, []⟩ partlyFinished) ∧
      (exec Track.step ⟨fresh ⟨8, 64, by decide, by decide⟩ ⟨2, 4, by decide, by decide⟩
        (fun b => b) none, []⟩ partlyFinished).live = [⟨"a", [0, 1]⟩] :=
  ⟨by decide, (requests_placed _ _ _ _ _ (by decide)).1, by decide⟩

end MoeInfinity.Serving.Queues
