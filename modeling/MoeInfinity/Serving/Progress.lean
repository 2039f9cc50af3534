import Mathlib.Algebra.Order.BigOperators.Group.List
import Mathlib.Algebra.Order.Ring.Nat
import MoeInfinity.Serving.Occupancy
import MoeInfinity.Serving.Selection

/-! # Pending requests make progress

If every request fits the limits by itself, a call of `schedule` selects a sequence whenever there
is a request, as long as recovery brings no group back in part (`Unsplit`). A group that comes back
in part keeps blocks although it does not run: admission then may preempt the only running group and
still not find the blocks that it needs (`no_progress`). -/

namespace MoeInfinity.Serving.Progress

open MoeInfinity.Python MoeInfinity.Lib.Imperative MoeInfinity.Lib.Runs
open MoeInfinity.Serving.Sequence MoeInfinity.Serving.KvCache MoeInfinity.Serving.KvCacheSpec
open MoeInfinity.Serving.Schedule MoeInfinity.Serving.Lifecycle MoeInfinity.Serving.ScheduleSpec
open MoeInfinity.Serving.ScheduleInv MoeInfinity.Serving.ScheduleCall
  MoeInfinity.Serving.ScheduleOps
open MoeInfinity.Serving.ModelRunner MoeInfinity.Serving.Engine MoeInfinity.Serving.EngineInv
open MoeInfinity.Serving.EngineStep MoeInfinity.Serving.Pool MoeInfinity.Serving.Queues
open MoeInfinity.Serving.Occupancy

variable {β ρ : Type}

/-! ### The selection is not empty -/

open Scheduler in
theorem selectDecode_ne_nil (s : Scheduler β) : ∀ (ids : List ℕ) (out : SchedulerOutput),
    (∃ i ∈ ids, (s.store i).status = .decode) →
    (selectDecode s ids 0 0 out).decodeSeqIds ≠ []
  | [], _, ⟨_, hi, _⟩ => absurd hi List.not_mem_nil
  | i :: ids, out, h => by
    have hb := s.cfg.maxBatchSize_pos
    have ht := s.cfg.maxTokensPerStep_pos
    unfold selectDecode
    split_ifs with h1 h2 h3
    · refine selectDecode_ne_nil s ids out ?_
      obtain ⟨j, hj, hst⟩ := h
      rcases List.mem_cons.mp hj with rfl | hj
      · exact absurd hst h1
      · exact ⟨j, hj, hst⟩
    · omega
    · omega
    · obtain ⟨l, -, -, hdec, -, -⟩ := selectDecode_spec s ids (0 + 1) (0 + 1)
        { out with
          decodeSeqIds := out.decodeSeqIds ++ [i], numDecodeTokens := out.numDecodeTokens + 1 }
      rw [hdec]
      simp

theorem wp_makeRoom_prefill (required : ℕ) (out : SchedulerOutput) (s : Scheduler β) :
    wp (Scheduler.makeRoom required out) (fun r _ => r.2.prefillSeqIds = out.prefillSeqIds)
      (fun _ _ => True) s := by
  simp only [Scheduler.makeRoom, wp_bind, wp_current, wp_ite, wp_pure]
  refine ⟨fun _ => wp_of_forall (fun pre s' => ⟨fun _ => ?_, fun _ => ?_⟩) fun _ _ => trivial,
    fun _ => ?_⟩
  · trivial
  · trivial
  · trivial

/-- Admission only adds to the sequences to prefill. -/
theorem wp_admitWaiting_ne_nil : ∀ (ws : List SequenceGroup) (seqs tokens : ℕ)
    (out : SchedulerOutput) (s : Scheduler β), out.prefillSeqIds ≠ [] →
    wp (Scheduler.admitWaiting ws seqs tokens out) (fun r _ => r.2.2.prefillSeqIds ≠ [])
      (fun _ _ => True) s
  | [], _, _, _, _, hne => hne
  | g :: rest, seqs, tokens, out, s, hne => by
    simp only [Scheduler.admitWaiting, wp_bind, wp_current, wp_ite, wp_update, wp_pure]
    refine ⟨fun _ => wp_admitWaiting_ne_nil rest seqs tokens out _ hne,
      fun _ => ⟨fun _ => hne, fun _ => ⟨fun _ => hne, fun _ => ?_⟩⟩⟩
    refine wp_mono (wp_makeRoom_prefill _ out s) ?_ fun _ _ h => h
    rintro ⟨room, out'⟩ s₁ hout
    have hout : out'.prefillSeqIds = out.prefillSeqIds := hout
    have hne' : out'.prefillSeqIds ≠ [] := by rw [hout]; exact hne
    refine ⟨fun _ => hne', fun _ => wp_of_forall (fun _ s₂ => ?_) fun _ _ => trivial⟩
    refine wp_admitWaiting_ne_nil rest _ _ _ s₂ ?_
    simp [hne']

/-- The head of the waiting queue fits the limits by itself. -/
structure HeadFits (s : Scheduler β) (d : Demand) : Prop where
  seqs : d.seqs ≠ 0
  batch : d.seqs ≤ s.cfg.maxBatchSize
  tokens : d.tokens ≤ s.cfg.maxTokensPerStep
  blocks : d.blocks ≤ (sizes s.kvCache).numBlocks

/-- **The head of the waiting queue** is admitted, or something else runs. -/
theorem wp_admitWaiting_progress {s : Scheduler β} (hinv : Inv s) (hc : Calm s)
    (hpre : ∀ i, (s.store i).status ≠ .prefill) {g : SequenceGroup} {rest : List SequenceGroup}
    (hw : s.waiting = g :: rest) (hfit : HeadFits s (demandOfGroup s g)) :
    wp (Scheduler.admitWaiting (g :: rest) 0 0 {}) (fun r s' => r.2.2.prefillSeqIds ≠ [] ∨
      (r.1 = 0 ∧ r.2.1 = 0 ∧ ∃ i, (s'.store i).status = .decode)) (fun _ _ => True) s := by
  have hlen : ((s.withStatus g .waiting).map s.store).length = (demandOfGroup s g).seqs :=
    List.length_map _
  have hnext : (s.withStatus g .waiting).map s.store ≠ [] := by
    intro h0
    rw [h0] at hlen
    exact hfit.seqs hlen.symm
  have htok : (((s.withStatus g .waiting).map s.store).map Scheduler.numPrefillTokens).sum =
      (demandOfGroup s g).tokens := by
    rw [List.map_map]; rfl
  have hblk : (((s.withStatus g .waiting).map s.store).map s.requiredBlocks).sum =
      (demandOfGroup s g).blocks := by
    rw [List.map_map]; rfl
  simp only [Scheduler.admitWaiting, wp_bind, wp_current, wp_ite, wp_update, wp_pure]
  refine ⟨fun h0 => absurd h0 hnext, fun _ => ⟨fun h0 => ?_, fun _ => ⟨fun h0 => ?_, fun _ => ?_⟩⟩⟩
  · have := hfit.batch
    omega
  · have := hfit.tokens
    omega
  -- once the group has entered, its sequences stay among those to prefill
  have henter : ∀ (out : SchedulerOutput) (s₁ : Scheduler β),
      wp (Scheduler.admitWaiting rest (0 + ((s.withStatus g .waiting).map s.store).length)
        (0 + (((s.withStatus g .waiting).map s.store).map Scheduler.numPrefillTokens).sum)
        { out with
          prefillSeqIds :=
            out.prefillSeqIds ++ ((s.withStatus g .waiting).map s.store).map (·.seqId)
          numPrefillTokens := out.numPrefillTokens +
            (((s.withStatus g .waiting).map s.store).map Scheduler.numPrefillTokens).sum })
        (fun r s' => r.2.2.prefillSeqIds ≠ [] ∨
          (r.1 = 0 ∧ r.2.1 = 0 ∧ ∃ i, (s'.store i).status = .decode)) (fun _ _ => True) s₁ := by
    intro out s₁
    refine wp_mono (wp_admitWaiting_ne_nil rest _ _ _ s₁ ?_) (fun _ _ h0 => Or.inl h0)
      fun _ _ h0 => h0
    intro h0
    have := (List.append_eq_nil_iff.mp h0).2
    exact hnext (List.map_eq_nil_iff.mp this)
  rw [hblk]
  refine wp_mono (wp_and (wp_makeRoom hinv _ {}) ((leaves_makeRoom _ _).wp s)) ?_
    fun _ _ _ => trivial
  rintro ⟨room, out⟩ s₁ ⟨⟨-, hr, rfl⟩ | ⟨hlt, pre, hinv₁, hP, hr⟩, hlimits⟩
  · obtain ⟨rfl, rfl⟩ := Prod.mk.injEq .. ▸ hr
    exact ⟨fun h0 => absurd h0.symm Bool.false_ne_true,
      fun _ => wp_of_forall (fun _ s₂ => henter _ s₂) fun _ _ => trivial⟩
  · obtain ⟨rfl, rfl⟩ := Prod.mk.injEq .. ▸ hr
    refine ⟨fun hno => Or.inr ⟨trivial, trivial, ?_⟩,
      fun _ => wp_of_forall (fun _ s₂ => henter _ s₂) fun _ _ => trivial⟩
    by_contra hidle
    have hc₁ := hc.preempts hinv hP
    have hidle₁ : ∀ i, ¬ Active (s₁.store i).status := by
      rintro i (h0 | h0)
      · exact hpre i (prefill_of_preempts hP h0)
      · exact hidle ⟨i, h0⟩
    have hall := hc₁.free_all hinv₁ hidle₁
    rw [show sizes s₁.kvCache = sizes s.kvCache from congrArg Prod.snd hlimits] at hall
    have hblocks := hfit.blocks
    have hnil : pre = [] := by
      by_contra h0
      have hroom : ¬ (pre ≠ [] ∧ (demandOfGroup s g).blocks ≤ s₁.numFreeBlocks) :=
        of_decide_eq_false hno
      exact hroom ⟨h0, by omega⟩
    -- then nothing ran before, and all blocks were free
    have hidle₀ : ∀ i, ¬ Active (s.store i).status := by
      intro i hi
      rcases hP with ⟨-, -, hE⟩ | ⟨dead, g', rest', -, -, -, hne, -⟩
      · refine hidle₁ i ?_
        rw [show s₁.store i = s.store i from congrArg Life.data (hE.other i List.not_mem_nil)]
        exact hi
      · exact hne hnil
    have hfree := hc.free_all hinv hidle₀
    omega

/-! ### One call of `schedule` -/

/-- The blocks that a sequence can come to need. -/
def blockNeed (s : Scheduler β) (i : ℕ) : ℕ :=
  ceilDiv ((s.store i).promptLength + (s.store i).samplingParams.maxTokens.toNat)
    s.kvCache.blockSize

/-- The group fits the limits by itself. -/
structure GroupFits (s : Scheduler β) (g : SequenceGroup) : Prop where
  batch : g.sequenceIds.length ≤ s.cfg.maxBatchSize
  tokens : (g.sequenceIds.map fun i => (s.store i).promptLength).sum ≤ s.cfg.maxTokensPerStep
  blocks : (g.sequenceIds.map (blockNeed s)).sum ≤ (sizes s.kvCache).numBlocks

/-- The sequence has not reached its maximal number of outputs. -/
def Short (d : SequenceData) : Prop := (d.outputTokenIds.length : ℤ) < d.samplingParams.maxTokens

/-- The states between two steps. -/
structure Ready (s : Scheduler β) : Prop where
  inv : Inv s
  covered : Covered s
  grouped : Grouped s
  calm : Calm s
  prefilled : ∀ i, (s.store i).status ≠ .prefill
  short : ∀ i, (s.store i).Live → Short (s.store i)
  fits : ∀ g ∈ s.requestMap, GroupFits s g

theorem Ready.numTokens_le {s : Scheduler β} (h : Ready s) {i : ℕ} (hl : (s.store i).Live) :
    numTokens (s.store i) ≤
      (s.store i).promptLength + (s.store i).samplingParams.maxTokens.toNat := by
  have hshort := h.short i hl
  unfold Short at hshort
  unfold numTokens SequenceData.promptLength
  omega

/-- The copies of a swapped group fit into an empty pool. -/
theorem Ready.copies_le {s : Scheduler β} (h : Ready s) {g : SequenceGroup} (hg : g ∈ s.swapped) :
    (copies s g).sum ≤ (sizes s.kvCache).numBlocks := by
  refine le_trans ?_ (h.fits g (h.inv.swapped_mem hg)).blocks
  have hsub : ((swappedIds s g).map (blockNeed s)).sum ≤ (g.sequenceIds.map (blockNeed s)).sum :=
    (List.filter_sublist.map _).sum_le_sum fun _ _ => Nat.zero_le _
  refine le_trans (List.sum_le_sum fun i hi => ?_) hsub
  have hst := (mem_swappedIds.mp hi).2
  refine (h.calm.slim i).demand.trans (ceilDiv_mono _ (h.numTokens_le ?_))
  constructor <;> rw [hst] <;> decide

/-- A swapped group has a swapped sequence. -/
theorem Ready.swapped_ne_nil {s : Scheduler β} (h : Ready s) {g : SequenceGroup}
    (hg : g ∈ s.swapped) :
    swappedIds s g ≠ [] := by
  obtain ⟨i, hi, hl⟩ := hasActive_iff.mp (h.covered g (h.inv.swapped_mem hg)).1
  have hst := (h.inv.swapped g hg i hi).resolve_right hl.1
  exact List.ne_nil_of_mem (mem_swappedIds.mpr ⟨hi, hst⟩)

/-- A running sequence is in a running group. -/
theorem mem_runningIds {s : Scheduler β} (h : Inv s) (hcov : Covered s) (hgr : Grouped s) {i : ℕ}
    (hi : Active (s.store i).status) : i ∈ s.runningIds := by
  obtain ⟨g, hg, hig⟩ := hgr i (h.registered i hi.hasTable)
  have hq := (hcov g hg).2
  simp only [queuedGroups, List.mem_append] at hq
  rcases hq with (hq | hq) | hq
  · rw [h.waiting g hq i hig] at hi
    rcases hi with h0 | h0 <;> cases h0
  · exact List.mem_flatMap.mpr ⟨g, hq, hig⟩
  · rcases h.swapped g hq i hig with h0 | h0 <;> rw [h0] at hi <;>
      rcases hi with h1 | h1 <;> cases h1

/-- The waiting group at the head, seen after recovery. -/
theorem Ready.headFits {s s₁ : Scheduler β} (h : Ready s) (hinv : Inv s₁) (hk : Keeps s s₁)
    (hlimits : limits s₁ = limits s) {g : SequenceGroup} (hg : g ∈ s₁.waiting) :
    HeadFits s₁ (demandOfGroup s₁ g) := by
  have hreq : g ∈ s.requestMap := by
    rw [← hk.requestMap]; exact hinv.waiting_mem hg
  have hfit := h.fits g hreq
  have hsizes : sizes s₁.kvCache = sizes s.kvCache := congrArg Prod.snd hlimits
  have hstore : ∀ i ∈ g.sequenceIds, s₁.store i = s.store i := fun i hi =>
    hk.waiting i (hinv.waiting g hg i hi)
  have hall : s₁.withStatus g .waiting = g.sequenceIds :=
    List.filter_eq_self.mpr fun i hi => by simpa using hinv.waiting g hg i hi
  unfold demandOfGroup
  rw [hall]
  refine ⟨?_, ?_, ?_, ?_⟩
  · obtain ⟨i, hi, -⟩ := hasActive_iff.mp (h.covered g hreq).1
    exact fun h0 => List.ne_nil_of_mem hi (List.length_eq_zero_iff.mp h0)
  · rw [hk.cfg]; exact hfit.batch
  · rw [hk.cfg]
    refine le_trans (List.sum_le_sum fun i hi => ?_) hfit.tokens
    rw [hstore i hi]
    exact Nat.sub_le _ _
  · rw [hsizes]
    refine le_trans (List.sum_le_sum fun i hi => ?_) hfit.blocks
    rw [hstore i hi, requiredBlocks_eq, show s₁.kvCache.blockSize = s.kvCache.blockSize from
      congrArg KvConfig.blockSize hsizes]
    exact ceilDiv_mono _ (Nat.le_add_right _ _)

/-- After recovery something runs, or there is a waiting group. -/
theorem Ready.wp_recover {s : Scheduler β} (h : Ready s) (hu : Unsplit s)
    (hne : s.requestMap ≠ []) :
    wp (Scheduler.recoverSwappedGroups s.swapped) (fun _ s₁ => Inv s₁ ∧ Keeps s s₁ ∧ Calm s₁ ∧
      limits s₁ = limits s ∧ (∀ i, (s₁.store i).status ≠ .prefill) ∧
      (s₁.waiting = [] → ∃ i, Active (s₁.store i).status)) (fun _ _ => False) s := by
  refine wp_mono (wp_and (wp_and (wp_recoverSwappedGroups_keeps h.inv)
    (wp_recoverSwappedGroups_calm h.inv h.calm hu)) (wp_and (wp_recoverSwappedGroups h.inv)
    ((leaves_recoverSwappedGroups s.swapped).wp s))) ?_ fun _ _ h0 => h0.1.1
  rintro _ s₁ ⟨⟨⟨hinv, hk, he⟩, hc, hact, hfirst⟩, hrec, hlimits⟩
  have hwait : s₁.waiting = s.waiting := by
    rcases hrec with ⟨-, rfl⟩ | ⟨-, hrec⟩
    · rfl
    · exact hrec.waiting
  refine ⟨hinv, hk, hc, hlimits, fun i hi => ?_, fun hnil => ?_⟩
  · rcases he i hi with h0 | h0
    · exact h.prefilled i h0
    · exact absurd h0 List.not_mem_nil
  · by_contra hidle
    have hidle₀ : ∀ i, ¬ Active (s.store i).status := fun i hi => hidle ⟨i, hact i hi⟩
    have hfree := h.calm.free_all h.inv hidle₀
    -- every request is swapped
    have hswapped : ∀ g ∈ s.requestMap, g ∈ s.swapped := by
      intro g hg
      obtain ⟨hlive, hq⟩ := h.covered g hg
      simp only [queuedGroups, List.mem_append] at hq
      rcases hq with (hq | hq) | hq
      · rw [← hwait, hnil] at hq
        exact absurd hq List.not_mem_nil
      · obtain ⟨i, hi, hl⟩ := hasActive_iff.mp hlive
        exact absurd ((h.inv.running g hq i hi).resolve_right hl.1) (hidle₀ i)
      · exact hq
    obtain ⟨g, hg⟩ := List.exists_mem_of_ne_nil _ hne
    refine hidle (hfirst ?_ (List.ne_nil_of_mem (hswapped g hg)) fun g' hg' =>
      ⟨h.swapped_ne_nil hg', ?_⟩)
    · rw [hfree]
      exact Nat.pos_iff_ne_zero.mp (sizes s.kvCache).numBlocks_pos
    · rw [hfree]
      exact h.copies_le hg'

/-- **A call of `schedule` selects a sequence**, if there is a request and recovery splits no
group. -/
theorem Ready.wp_schedule {s : Scheduler β} (h : Ready s) (hu : Unsplit s) (hne : s.requestMap ≠ [])
    (predict : Option (String → List ℕ → ℚ)) :
    wp (Scheduler.schedule predict) (fun out _ => out.prefillSeqIds ≠ [] ∨ out.decodeSeqIds ≠ [])
      (fun _ _ => False) s := by
  have hselect : wp (Scheduler.schedule predict) (fun out s' => out.prefillSeqIds ≠ [] ∨
      (∃ i, (s'.store i).status = .decode) ∧ ((∃ i ∈ s'.runningIds, (s'.store i).status = .decode) →
        out.decodeSeqIds ≠ [])) (fun _ _ => True) s := by
    simp only [Scheduler.schedule, wp_bind, wp_current, wp_update, wp_pure]
    refine wp_mono (h.wp_recover hu hne) ?_ fun _ _ _ => trivial
    rintro _ s₁ ⟨hinv, hk, hc, hlimits, hpre, hwait⟩
    obtain ⟨W, hperm, heq⟩ := sortWaiting_eq predict s₁
    have hinv' := inv_sortWaiting hinv predict
    have hk' := hk.trans (keeps_sortWaiting predict s₁)
    have hlimits' := (limits_sortWaiting predict s₁).trans hlimits
    rw [heq] at hinv' hk' hlimits' ⊢
    have hfinish : ∀ (seqs tokens : ℕ) (out : SchedulerOutput) (s' : Scheduler β),
        (out.prefillSeqIds ≠ [] ∨ (seqs = 0 ∧ tokens = 0 ∧ ∃ i, (s'.store i).status = .decode)) →
        ((Scheduler.selectDecode s' s'.runningIds seqs tokens out).prefillSeqIds ≠ [] ∨
          (∃ i, (s'.store i).status = .decode) ∧
            ((∃ i ∈ s'.runningIds, (s'.store i).status = .decode) →
              (Scheduler.selectDecode s' s'.runningIds seqs tokens out).decodeSeqIds ≠ [])) := by
      rintro seqs tokens out s' (h0 | ⟨rfl, rfl, h0⟩)
      · obtain ⟨-, -, -, -, hp, -⟩ := selectDecode_spec s' s'.runningIds seqs tokens out
        left
        rw [hp]
        exact h0
      · exact Or.inr ⟨h0, selectDecode_ne_nil s' s'.runningIds out⟩
    cases hW : W with
    | nil =>
      subst hW
      have hnil : s₁.waiting = [] := List.perm_nil.mp hperm.symm
      refine hfinish 0 0 {} _ (Or.inr ⟨rfl, rfl, ?_⟩)
      obtain ⟨i, hi⟩ := hwait hnil
      exact ⟨i, hi.resolve_left (hpre i)⟩
    | cons g rest =>
      subst hW
      refine wp_mono (wp_admitWaiting_progress hinv' ⟨hc.slim, hc.released⟩ hpre rfl
        (h.headFits hinv' hk' hlimits' List.mem_cons_self)) ?_ fun _ _ h0 => h0
      rintro ⟨seqs, tokens, out⟩ s' h0
      exact hfinish seqs tokens out s' h0
  refine wp_mono (wp_and hselect (wp_and (wp_schedule_keeps predict h.inv)
    (ScheduleCall.wp_schedule predict h.inv))) ?_ fun _ _ h0 => h0.2.1
  rintro out s' ⟨hsel, ⟨hinv, hk, -, -⟩, hsch⟩
  refine hsel.imp_right fun hdecodes => ?_
  obtain ⟨⟨i, hi⟩, hdec⟩ := hdecodes
  refine hdec ⟨i, ?_, hi⟩
  refine mem_runningIds hinv (hk.covered h.covered) ?_ (Or.inr hi)
  intro j hj
  rw [hsch.sequenceMap] at hj
  rw [hsch.requestMap]
  exact h.grouped j hj

/-! ### `schedule` keeps states calm -/

theorem slim_event {k : ℕ} {l l' : Life β} (h : Slim k l) (he : Event k l l') : Slim k l' := by
  cases he with
  | enter hok hst he =>
    obtain ⟨rows, hrows, rfl⟩ := he
    exact h.admitted hrows
  | preempt hok hst he =>
    subst he
    refine h.preempted (hok.copy (hok.mark_false ?_))
    rcases hst with h0 | h0 <;> rw [h0] <;> decide

theorem slim_events {k : ℕ} {l l' : Life β} (h : Slim k l)
    (he : Relation.ReflTransGen (Event k) l l') : Slim k l' := by
  induction he with
  | refl => exact h
  | tail _ hlast ih => exact slim_event ih hlast

theorem calm_admitting {s s' : Scheduler β} {out : SchedulerOutput} (h : Calm s)
    (ha : Admitting s out s') : Calm s' := by
  refine ⟨fun i => ?_, fun i hi => ?_⟩
  · rw [ha.blockSize]
    exact slim_events (h.slim i) (ha.lives i)
  · have hi : (life s' i).data.status = .swapped := hi
    rcases Relation.ReflTransGen.cases_tail (ha.lives i) with heq | ⟨l, -, hlast⟩
    · rw [heq] at hi ⊢
      exact h.released i hi
    · cases hlast with
      | enter hok hst he =>
        obtain ⟨rows, -, he⟩ := he
        rw [he] at hi
        cases hi
      | preempt hok hst he => rw [he]; rfl

theorem wp_schedule_calm (predict : Option (String → List ℕ → ℚ)) {s : Scheduler β} (h : Inv s)
    (hc : Calm s) (hu : Unsplit s) :
    wp (Scheduler.schedule predict) (fun _ s' => Calm s') (fun _ _ => False) s := by
  simp only [Scheduler.schedule, wp_bind, wp_current, wp_update, wp_pure]
  refine wp_mono (wp_and (wp_recoverSwappedGroups_keeps h)
    (wp_recoverSwappedGroups_calm h hc hu)) ?_ fun _ _ h0 => h0.1
  rintro _ s₁ ⟨⟨hinv, -, -⟩, hc₁, -, -⟩
  have hinv' := inv_sortWaiting hinv predict
  have hc' : Calm (Scheduler.sortWaiting predict s₁) := by
    obtain ⟨W, -, heq⟩ := sortWaiting_eq predict s₁
    rw [heq]
    exact ⟨hc₁.slim, hc₁.released⟩
  refine wp_mono (wp_admitWaiting _ 0 0 {} _ (Admitting.start hinv') rfl) ?_ fun _ _ h0 => h0
  rintro r s' ⟨hadm, -⟩
  exact calm_admitting hc' hadm

/-! ### The tokens of a step -/

open ContinuousBatchingEngine in
theorem short_of_reason {env : Env ρ} {d : SequenceData} {t : ℕ}
    (h : (getFinishReason env d t).isSome = false) : Short d := by
  by_contra hlong
  unfold getFinishReason at h
  split_ifs at h with h1 h2
  · cases h
  · cases h
  · exact h2 (not_lt.mp hlong)
  · exact h2 (not_lt.mp hlong)

/-- The output tells the last token of the sequence, and whether it met its finish condition. -/
structure Reported (env : Env ρ) (s : Scheduler β) (o : RequestOutput) : Prop where
  last : (s.store o.seqId).outputTokenIds.getLast? = some o.tokenId
  finished : o.finished =
    (ContinuousBatchingEngine.getFinishReason env (s.store o.seqId) o.tokenId).isSome

theorem Reported.congr {env : Env ρ} {s s' : Scheduler β} {o : RequestOutput} (h : Reported env s o)
    (hs : s'.store o.seqId = s.store o.seqId) : Reported env s' o := by
  refine ⟨?_, ?_⟩
  · rw [hs]; exact h.last
  · rw [hs]; exact h.finished

theorem last_appendOutputToken {d d' : SequenceData} {t : ℕ} (h : d.appendOutputToken t = .ok d') :
    d'.outputTokenIds.getLast? = some t := by
  unfold SequenceData.appendOutputToken at h
  split at h
  · cases h
  · rw [← Except.ok.inj h]
    exact List.getLast?_concat

open ContinuousBatchingEngine in
theorem wp_acceptToken_reported (env : Env ρ) (i t : ℕ) (e : ContinuousBatchingEngine β) :
    wp (acceptToken env i t) (fun o e' => o.seqId = i ∧
      (∀ j ≠ i, e'.scheduler.store j = e.scheduler.store j) ∧ Reported env e'.scheduler o)
      (fun _ _ => True) e := by
  simp only [acceptToken, wp_bind, wp_current, wp_ite, wp_raise, implies_true, true_and]
  intro _
  cases e.sequenceToRequestId i with
  | none => exact trivial
  | some rid =>
    simp only [wp_bind, wp_onScheduler, Scheduler.appendOutput, wp_current, wp_update, wp_pure]
    cases happ : (e.scheduler.store i).appendOutputToken t with
    | error err => exact trivial
    | ok d =>
      rw [wp_ofExcept_ok]
      simp only [recordOutput, wp_bind, wp_current]
      split
      · exact trivial
      · split
        · exact trivial
        · refine ⟨trivial, fun j hj => Function.update_of_ne hj _ _, ⟨?_, rfl⟩⟩
          change (Function.update e.scheduler.store i d i).outputTokenIds.getLast? = some t
          rw [Function.update_self]
          exact last_appendOutputToken happ

open ContinuousBatchingEngine in
theorem wp_acceptTokens_reported (env : Env ρ) :
    ∀ (pairs : List (ℕ × ℕ)) (e : ContinuousBatchingEngine β),
    wp (acceptTokens env pairs) (fun outputs e' => outputs.map (·.seqId) = pairs.map Prod.fst ∧
      (∀ j ∉ pairs.map Prod.fst, e'.scheduler.store j = e.scheduler.store j) ∧
      ((pairs.map Prod.fst).Nodup → ∀ o ∈ outputs, Reported env e'.scheduler o)) (fun _ _ => True) e
  | [], e => ⟨rfl, fun _ _ => rfl, fun _ _ ho => absurd ho List.not_mem_nil⟩
  | (i, t) :: pairs, e => by
    simp only [acceptTokens, wp_bind, wp_pure]
    refine wp_mono (wp_acceptToken_reported env i t e) ?_ fun _ _ h => h
    rintro o e₁ ⟨ho, hother, hrep⟩
    refine wp_mono (wp_acceptTokens_reported env pairs e₁) ?_ fun _ _ h => h
    rintro os e' ⟨hos, hother', hrep'⟩
    refine ⟨by rw [List.map_cons, List.map_cons, ho, hos], fun j hj => ?_, fun hnd o' ho' => ?_⟩
    · rw [List.map_cons, List.mem_cons, not_or] at hj
      rw [hother' j hj.2, hother j hj.1]
    · obtain ⟨hi, hnd⟩ := List.nodup_cons.mp hnd
      rcases List.mem_cons.mp ho' with rfl | ho'
      · exact hrep.congr (hother' _ (by rw [ho]; exact hi))
      · exact hrep' hnd o' ho'

/-- What `step` knows before it calls `update_after_step`: nothing was scheduled, or the outputs
report the state of their sequences. -/
theorem wp_stepTokens_reported (env : Env ρ) (predict : Option (String → List ℕ → ℚ))
    (e : ContinuousBatchingEngine β) :
    wp (ContinuousBatchingEngine.stepTokens env predict) (fun r e' => match r with
      | none => ∃ out, (Scheduler.schedule predict).run e.scheduler = (e'.scheduler, .ok out) ∧
          out.prefillSeqIds = [] ∧ out.decodeSeqIds = []
      | some outputs => (outputs.map (·.seqId)).Nodup → ∀ o ∈ outputs, Reported env e'.scheduler o)
      (fun _ _ => True) e := by
  simp only [ContinuousBatchingEngine.stepTokens, wp_bind, wp_onScheduler]
  cases hrun : (Scheduler.schedule predict).run e.scheduler with
  | mk s₁ r =>
    cases r with
    | error err => exact wp_of_error hrun trivial
    | ok out =>
      refine wp_of_eq hrun ?_
      simp only [wp_ite, wp_pure, wp_bind, wp_current]
      refine ⟨fun h0 => ⟨out, rfl, h0⟩, fun _ => wp_of_forall (fun b e₁ => ⟨fun _ => trivial,
        fun _ => wp_of_forall (fun tokens e₂ => ?_) fun _ _ => trivial⟩) fun _ _ => trivial⟩
      refine wp_mono (wp_acceptTokens_reported env _ e₂) ?_ fun _ _ h => h
      rintro outputs e' ⟨hids, -, hrep⟩ hnd
      rw [hids] at hnd
      exact hrep hnd

/-! ### The whole step -/

open ContinuousBatchingEngine in
/-- A sequence of the batch after its step. -/
inductive Advanced (env : Env ρ) (k : ℕ) (l : Life β) : Life β → Prop
  | ended (t : ℕ) (hr : (getFinishReason env (l.appended t).data t).isSome = true) :
      Advanced env k l ((l.appended t).ended (finalStatus .finished l.data))
  | grown (t : ℕ) (l' : Life β) (hr : (getFinishReason env (l.appended t).data t).isSome = false)
      (hg : Grown k (l.appended t) l') : Advanced env k l l'
  | parked (t : ℕ) (hr : (getFinishReason env (l.appended t).data t).isSome = false)
      (hst : ¬ Active l.data.status) : Advanced env k l (l.appended t)

/-- A completed sequence does not grow. -/
theorem life_of_completed {s s' : Scheduler β} {completed ids : List ℕ}
    (hE : Each (Updated s completed) ids s s') {i : ℕ} (hi : i ∈ completed) :
    life s' i = life s i := by
  by_cases hnew : i ∈ ids
  · have hupd := hE.each i hnew
    unfold Updated at hupd
    rwa [if_neg fun h0 => h0.2.1 hi] at hupd
  · exact hE.other i hnew

open ContinuousBatchingEngine in
/-- The sequences outside the batch are as `schedule` left them, and those of the batch advance. -/
theorem step_life {env : Env ρ} {predict : Option (String → List ℕ → ℚ)}
    {e e₁ : ContinuousBatchingEngine β} {out : SchedulerOutput} {s₁ s₂ s₃ : Scheduler β}
    {tokens : List ℕ} {outputs : List RequestOutput}
    (hacc : Accepted env predict e out s₁ tokens outputs e₁)
    (hrep : ∀ o ∈ outputs, Reported env e₁.scheduler o)
    (hE : Each (Updated e₁.scheduler (completedSeqIds outputs)) (fromkeys (newDecodeSeqIds outputs))
      e₁.scheduler s₂)
    (hE₂ : Each (Closed s₂) (fromkeys (completedSeqIds outputs)) s₂ s₃)
    (i : ℕ) : i ∉ batchIds out ∧ life s₃ i = life s₁ i ∨
      i ∈ batchIds out ∧ Advanced env s₁.kvCache.blockSize (life s₁ i) (life s₃ i) := by
  have hids : ∀ j, j ∈ batchIds out ↔ j ∈ completedSeqIds outputs ∨ j ∈ newDecodeSeqIds outputs :=
    Selection.mem_batch_iff hacc.outputs
  have hreg : ∀ j ∈ batchIds out, j ∈ e₁.scheduler.sequenceMap := by
    intro j hj
    rw [hacc.lives.same.sequenceMap]
    exact hacc.scheduled.inv.registered j ((batch_spec hacc.scheduled).2 j hj)
  have hnodup : (outputs.map (·.seqId)).Nodup := by rw [hacc.outputs]; exact hacc.nodup
  by_cases hb : i ∈ batchIds out
  · refine Or.inr ⟨hb, ?_⟩
    obtain ⟨t, -, hl⟩ := hacc.lives.each i hb
    have hdata : e₁.scheduler.store i = ((life s₁ i).appended t).data := congrArg Life.data hl
    -- the output of the sequence reports the token that was appended
    have hreason : ∀ o ∈ outputs, o.seqId = i →
        o.finished = (getFinishReason env ((life s₁ i).appended t).data t).isSome := by
      rintro o ho rfl
      have hlast := (hrep o ho).last
      rw [hdata] at hlast
      have ht : t = o.tokenId := Option.some.inj (List.getLast?_concat.symm.trans hlast)
      rw [(hrep o ho).finished, hdata, ht]
    by_cases hdone : i ∈ completedSeqIds outputs
    · have hclosed := hE₂.each i (mem_fromkeys.mpr hdone)
      unfold Closed at hclosed
      rw [if_pos (by rw [hE.same.sequenceMap]; exact hreg i hb), life_of_completed hE hdone, hl]
        at hclosed
      obtain ⟨o, ho, hid⟩ := List.mem_map.mp hdone
      obtain ⟨ho, hfin⟩ := List.mem_filter.mp ho
      rw [show life s₃ i = _ from hclosed.2]
      exact .ended t (by rw [← hreason o ho hid]; exact hfin)
    · have hnew := ((hids i).mp hb).resolve_left hdone
      rw [hE₂.other i fun h0 => hdone (mem_fromkeys.mp h0)]
      obtain ⟨o, ho, hid⟩ := List.mem_map.mp hnew
      obtain ⟨ho, hfin⟩ := List.mem_filter.mp ho
      have hr : (getFinishReason env ((life s₁ i).appended t).data t).isSome = false := by
        rw [← hreason o ho hid]
        simpa using hfin
      have hupd := hE.each i (mem_fromkeys.mpr hnew)
      unfold Updated at hupd
      split_ifs at hupd with hgrows
      · rw [hl, hacc.lives.same.blockSize] at hupd
        exact .grown t _ hr hupd
      · rw [hupd, hl]
        refine .parked t hr fun hact => hgrows ⟨hreg _ hb, hdone, ?_⟩
        rw [hdata]
        exact hact
  · have hdone : i ∉ completedSeqIds outputs := fun h0 => hb ((hids i).mpr (Or.inl h0))
    have hnew : i ∉ newDecodeSeqIds outputs := fun h0 => hb ((hids i).mpr (Or.inr h0))
    refine Or.inl ⟨hb, ?_⟩
    rw [hE₂.other i fun h0 => hdone (mem_fromkeys.mp h0),
      hE.other i fun h0 => hnew (mem_fromkeys.mp h0), hacc.lives.other i hb]

theorem finalStatus_final (d : SequenceData) :
    finalStatus .finished d = .finished ∨ finalStatus .finished d = .cancelled := by
  unfold finalStatus
  split_ifs with hlive
  · exact Or.inl rfl
  · unfold SequenceData.Live at hlive
    by_cases hf : d.status = .finished
    · exact Or.inl hf
    · exact Or.inr (not_not.mp fun hc => hlive ⟨hf, hc⟩)

section Advanced

variable {env : Env ρ} {k : ℕ} {l l' : Life β}

theorem Advanced.slim (h : Advanced env k l l') (hl : Slim k l) (hk : 0 < k) : Slim k l' := by
  cases h with
  | ended t hr => exact (hl.appended t).ended _
  | grown t _ hr hg => exact hl.grown hk hg
  | parked t hr hst => exact hl.appended t

theorem Advanced.ne_prefill (h : Advanced env k l l') : l'.data.status ≠ .prefill := by
  cases h with
  | ended t hr =>
    rintro (h0 : finalStatus .finished l.data = .prefill)
    rcases finalStatus_final l.data with h1 | h1 <;> rw [h0] at h1 <;> cases h1
  | grown t _ hr hg =>
    obtain ⟨n, new, -, -, rfl⟩ := hg
    intro h0
    cases h0
  | parked t hr hst => exact fun h0 => hst (Or.inl h0)

theorem Advanced.of_swapped (h : Advanced env k l l') (hst : l'.data.status = .swapped) :
    l.data.status = .swapped ∧ l'.share.rows = l.share.rows := by
  cases h with
  | ended t hr =>
    have hst : finalStatus .finished l.data = .swapped := hst
    rcases finalStatus_final l.data with h1 | h1 <;> rw [hst] at h1 <;> cases h1
  | grown t _ hr hg =>
    obtain ⟨n, new, -, -, rfl⟩ := hg
    cases hst
  | parked t hr hst' => exact ⟨hst, rfl⟩

theorem Advanced.short (h : Advanced env k l l') (hl : l'.data.Live) : Short l'.data := by
  cases h with
  | ended t hr =>
    rcases finalStatus_final l.data with h1 | h1
    · exact absurd h1 hl.1
    · exact absurd h1 hl.2
  | grown t _ hr hg =>
    obtain ⟨n, new, -, -, rfl⟩ := hg
    exact short_of_reason hr
  | parked t hr hst => exact short_of_reason hr

theorem Advanced.data (h : Advanced env k l l') :
    l'.data.promptTokenIds = l.data.promptTokenIds ∧
    l'.data.samplingParams = l.data.samplingParams := by
  cases h with
  | ended t hr => exact ⟨rfl, rfl⟩
  | grown t _ hr hg =>
    obtain ⟨n, new, -, -, rfl⟩ := hg
    exact ⟨rfl, rfl⟩
  | parked t hr hst => exact ⟨rfl, rfl⟩

end Advanced

theorem GroupFits.congr {s s' : Scheduler β} {g : SequenceGroup} (h : GroupFits s g)
    (hlimits : limits s' = limits s)
    (hd : ∀ i ∈ g.sequenceIds, (s'.store i).promptTokenIds = (s.store i).promptTokenIds ∧
      (s'.store i).samplingParams = (s.store i).samplingParams) : GroupFits s' g := by
  have hcfg : s'.cfg = s.cfg := congrArg Prod.fst hlimits
  have hsizes : sizes s'.kvCache = sizes s.kvCache := congrArg Prod.snd hlimits
  have hlen : ∀ i ∈ g.sequenceIds, (s'.store i).promptLength =
      (s.store i).promptLength := fun i hi =>
    congrArg List.length (hd i hi).1
  have hneed : ∀ i ∈ g.sequenceIds, blockNeed s' i = blockNeed s i := by
    intro i hi
    unfold blockNeed
    rw [hlen i hi, (hd i hi).2, show s'.kvCache.blockSize = s.kvCache.blockSize from
      congrArg KvConfig.blockSize hsizes]
  refine ⟨by rw [hcfg]; exact h.batch, ?_, ?_⟩
  · rw [hcfg, List.map_congr_left hlen]
    exact h.tokens
  · rw [hsizes, List.map_congr_left hneed]
    exact h.blocks

/-- **The state after a step**: the batch has advanced, and the rest is as `schedule` left it. -/
theorem Ready.advance {predict : Option (String → List ℕ → ℚ)} {s s₁ s' : Scheduler β}
    {out : SchedulerOutput} (env : Env ρ) (batch : List ℕ) (h : Ready s)
    (hs : Scheduled predict s out s₁) (hk : Keeps s s₁) (he : Entered s out s₁) (hc : Calm s₁)
    (hbatch : ∀ i ∈ out.prefillSeqIds, i ∈ batch)
    (hlife : ∀ i, i ∉ batch ∧ life s' i = life s₁ i ∨
      i ∈ batch ∧ Advanced env s₁.kvCache.blockSize (life s₁ i) (life s' i))
    (hinv : Inv s') (hcov : Covered s') (hgr : Grouped s') (hlimits : limits s' = limits s)
    (hmap : ∀ g ∈ s'.requestMap, g ∈ s.requestMap) : Ready s' := by
  have hsize : s'.kvCache.blockSize = s₁.kvCache.blockSize := by
    rw [hs.blockSize]
    exact congrArg (fun p : SchedConfig × KvConfig => p.2.blockSize) hlimits
  have hstore : ∀ i, life s' i = life s₁ i → s'.store i = s₁.store i := fun i h0 =>
    congrArg Life.data h0
  have hstatus := statusOnly_scheduled hs
  refine ⟨hinv, hcov, hgr, ⟨fun i => ?_, fun i hi => ?_⟩, fun i hi => ?_, fun i hi => ?_,
    fun g hg => (h.fits g (hmap g hg)).congr hlimits fun i _ => ?_⟩
  · rw [hsize]
    rcases hlife i with ⟨-, heq⟩ | ⟨-, hadv⟩
    · rw [heq]; exact hc.slim i
    · exact hadv.slim (hc.slim i) s₁.kvCache.blockAllocator.cfg.blockSize_pos
  · rcases hlife i with ⟨-, heq⟩ | ⟨-, hadv⟩
    · rw [heq]
      exact hc.released i (by rw [← hstore i heq]; exact hi)
    · obtain ⟨hst, hrows⟩ := hadv.of_swapped hi
      rw [hrows]
      exact hc.released i hst
  · rcases hlife i with ⟨hno, heq⟩ | ⟨-, hadv⟩
    · rw [hstore i heq] at hi
      rcases he i hi with h0 | h0
      · exact h.prefilled i h0
      · exact hno (hbatch i h0)
    · exact hadv.ne_prefill hi
  · rcases hlife i with ⟨-, heq⟩ | ⟨-, hadv⟩
    · rw [hstore i heq] at hi ⊢
      have hshort := h.short i ((hk.live i).mp hi)
      unfold Short at hshort ⊢
      rw [(hstatus i).1]
      exact hshort
    · exact hadv.short hi
  · have hpair : (s'.store i).promptTokenIds = (s₁.store i).promptTokenIds ∧
        (s'.store i).samplingParams = (s₁.store i).samplingParams := by
      rcases hlife i with ⟨-, heq⟩ | ⟨-, hadv⟩
      · rw [hstore i heq]
        exact ⟨rfl, rfl⟩
      · exact hadv.data
    rw [hpair.1, hpair.2, (hstatus i).1]
    exact ⟨rfl, rfl⟩

end MoeInfinity.Serving.Progress
