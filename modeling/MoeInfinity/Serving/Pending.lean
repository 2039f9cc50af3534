import MoeInfinity.Serving.Progress

/-! # Runs of the engine in which pending requests are served

Between two operations the engine is steady: the scheduler is ready (`Ready`), and every live
sequence that the engine knows is registered with the scheduler. Requests that fit by themselves,
aborts, and steps that return keep this, as long as recovery brings no group back in part; so a step
with a pending request always makes progress. -/

namespace MoeInfinity.Serving.Pending

open MoeInfinity.Python MoeInfinity.Lib.Imperative MoeInfinity.Lib.Runs
open MoeInfinity.Serving.Sequence MoeInfinity.Serving.KvCache MoeInfinity.Serving.KvCacheSpec
open MoeInfinity.Serving.Schedule MoeInfinity.Serving.Lifecycle MoeInfinity.Serving.ScheduleSpec
open MoeInfinity.Serving.ScheduleInv MoeInfinity.Serving.ScheduleCall
  MoeInfinity.Serving.ScheduleOps
open MoeInfinity.Serving.ModelRunner MoeInfinity.Serving.Engine MoeInfinity.Serving.EngineInv
open MoeInfinity.Serving.EngineStep MoeInfinity.Serving.Pool MoeInfinity.Serving.Queues
open MoeInfinity.Serving.Occupancy MoeInfinity.Serving.Progress MoeInfinity.Serving.Selection
open MoeInfinity.Serving.Callbacks

variable {β ρ : Type}

/-! ### The engine -/

/-- Every live sequence that the engine knows is registered with the scheduler. -/
def Linked (e : ContinuousBatchingEngine β) : Prop :=
  ∀ r ids, e.requestToSeqIds r = some ids → ∀ i ∈ ids, i ∈ e.sequences →
    (e.scheduler.store i).Live → i ∈ e.scheduler.sequenceMap

/-- The states of the engine between two operations. -/
structure Steady (e : ContinuousBatchingEngine β) : Prop where
  consistent : Consistent e
  ready : Ready e.scheduler
  pending : Linked e

theorem Steady.requestMap_ne_nil {e : ContinuousBatchingEngine β} (h : Steady e)
    (hp : e.HasPendingRequests) : e.scheduler.requestMap ≠ [] := by
  obtain ⟨r, ids, hr, i, hi, hmem, hlive⟩ := hp
  obtain ⟨g, hg, -⟩ := h.ready.grouped i (h.pending r ids hr i hi hmem hlive)
  exact List.ne_nil_of_mem hg

/-- A live sequence stays registered when requests are pruned. -/
theorem registered_of_prunes {s s' : Scheduler β} (hp : Prunes s s') (hgr : Grouped s)
    (hinv : Inv s') {i : ℕ} (hi : i ∈ s.sequenceMap) (hl : (s'.store i).Live) :
    i ∈ s'.sequenceMap := by
  obtain ⟨g, hg, hig⟩ := hgr i hi
  refine hinv.member g ?_ i hig
  rw [hp.requestMap]
  exact List.mem_filter.mpr ⟨hg, hasActive_iff.mpr ⟨i, hig, hl⟩⟩

open ContinuousBatchingEngine in
/-- **A step that returns from `update_after_step`** leaves a steady state. -/
theorem Steady.wp_advance {e : ContinuousBatchingEngine β} (h : Steady e) (env : Env ρ)
    (predict : Option (String → List ℕ → ℚ)) (hu : Unsplit e.scheduler) :
    wp (advance env predict) (fun _ e' => Ready e'.scheduler ∧ Linked e') (fun _ _ => True) e := by
  obtain ⟨out, s₁, hrun, hpost⟩ := schedule_run predict h.ready.inv
  obtain ⟨hinv₁, hk, -, he⟩ := wp_ok (wp_schedule_keeps predict h.ready.inv) hrun
  have hc₁ : Calm s₁ := wp_ok (wp_schedule_calm predict h.ready.inv h.ready.calm hu) hrun
  have hcov₁ := hk.covered h.ready.covered
  have hgr₁ : Grouped s₁ := by
    intro j hj
    rw [hpost.sequenceMap] at hj
    rw [hpost.requestMap]
    exact h.ready.grouped j hj
  rw [advance, wp_bind]
  refine wp_mono (wp_and (wp_and (wp_stepTokens env predict h.consistent)
    (wp_stepTokens_reported env predict e)) ((leaves_stepTokens env predict).wp e)) ?_
    fun _ _ _ => trivial
  rintro r e₁ ⟨⟨htokens, hshort⟩, hlimits⟩
  have hlimits : limits e₁.scheduler = limits e.scheduler := hlimits
  cases r with
  | none =>
    obtain ⟨out', hrun', hpre, -⟩ := hshort
    obtain ⟨out'', hhalt⟩ := htokens
    obtain ⟨hs, hout⟩ := Prod.mk.inj (hrun'.symm.trans hrun)
    have hout : out' = out := Except.ok.inj hout
    subst hout
    rw [wp_pure]
    rw [hs] at hlimits ⊢
    refine ⟨h.ready.advance env [] hpost hk he hc₁ (fun i hi => ?_)
      (fun i => Or.inl ⟨List.not_mem_nil, rfl⟩) hinv₁ hcov₁ hgr₁ hlimits fun g hg => ?_,
      fun r ids hr i hi hmem hl => ?_⟩
    · rw [hpre] at hi
      exact hi
    · rw [← hpost.requestMap]; exact hg
    · rw [hhalt.maps.requestToSeqIds] at hr
      rw [hhalt.maps.sequences] at hmem
      rw [hs] at hl ⊢
      rw [hpost.sequenceMap]
      exact h.pending r ids hr i hi hmem ((hk.live i).mp hl)
  | some outputs =>
    obtain ⟨out', s₁', tokens, hacc⟩ := htokens
    obtain ⟨hs, hout⟩ := Prod.mk.inj (hrun.symm.trans hacc.ran)
    have hout : out = out' := Except.ok.inj hout
    subst hout hs
    have hrep := hshort (by rw [hacc.outputs]; exact hacc.nodup)
    have hinv := hacc.consistent.inv
    -- appending the outputs changes neither the requests nor what is live
    have hlive : ∀ i, (e₁.scheduler.store i).Live ↔ (s₁.store i).Live := by
      intro i
      by_cases hb : i ∈ batchIds out
      · obtain ⟨t, -, hl⟩ := hacc.lives.each i hb
        rw [show e₁.scheduler.store i = ((life s₁ i).appended t).data from congrArg Life.data hl]
        exact Iff.rfl
      · rw [show e₁.scheduler.store i = s₁.store i from congrArg Life.data (hacc.lives.other i hb)]
    have hcov := hcov₁.of_live hacc.lives.same.requestMap hlive fun g hg _ => by
      unfold queuedGroups
      rw [hacc.lives.same.waiting, hacc.lives.same.running, hacc.lives.same.swapped]
      exact hg
    simp only [wp_bind, wp_onScheduler, wp_pure]
    refine wp_mono (wp_and (wp_and (wp_updateAfterStep (completedSeqIds outputs)
      (newDecodeSeqIds outputs) hinv) (wp_updateAfterStep_prunes (completedSeqIds outputs)
      (newDecodeSeqIds outputs) hinv)) ((leaves_updateAfterStep (completedSeqIds outputs)
      (newDecodeSeqIds outputs)).wp e₁.scheduler)) ?_ fun _ _ _ => trivial
    rintro _ s' ⟨⟨⟨s₂, s₃, hE, hE₂, rfl⟩, hp⟩, hlimits'⟩
    have hstep := step_life hacc hrep hE hE₂
    have h₂ : Inv s₂ := (inv_of_each hinv hE fun j _ l h0 => interrupted_spec hinv (Or.inl h0)).1
    have h₃ : Inv s₃ := (inv_of_each h₂ hE₂ fun j _ l h0 => closed_spec h₂ h0).1
    have hinv' := inv_prune h₃
    have hshrink := ((shrinks_of_each hE).trans (shrinks_of_each hE₂)).trans (shrinks_prune s₃)
    have hmap : e₁.scheduler.requestMap = e.scheduler.requestMap :=
      hacc.lives.same.requestMap.trans hpost.requestMap
    have hseq : e₁.scheduler.sequenceMap = e.scheduler.sequenceMap :=
      hacc.lives.same.sequenceMap.trans hpost.sequenceMap
    have hgr : Grouped e₁.scheduler := by
      intro j hj
      rw [hseq] at hj
      rw [hmap]
      exact h.ready.grouped j hj
    refine ⟨h.ready.advance env (batchIds out) hpost hk he hc₁
      (fun i hi => List.mem_append_left _ hi) (fun i => by rw [life_prune]; exact hstep i) hinv'
      (hp.covered hcov) (hshrink.grouped hgr) (hlimits'.trans hlimits) fun g hg => ?_,
      fun r ids hr i hi hmem hl => ?_⟩
    · rw [← hmap]
      exact hshrink.requestMap g hg
    · have hr : e₁.requestToSeqIds r = some ids := hr
      have hmem : i ∈ e₁.sequences := hmem
      rw [hacc.maps.requestToSeqIds] at hr
      rw [hacc.maps.sequences] at hmem
      refine registered_of_prunes hp hgr hinv' ?_ hl
      rw [hseq]
      refine h.pending r ids hr i hi hmem ((hk.live i).mp ?_)
      rcases hstep i with ⟨-, heq⟩ | ⟨hb, -⟩
      · rw [show s₁.store i = s₃.store i from congrArg Life.data heq.symm]
        have hl : (Scheduler.pruneFinishedAndCancelledRequests s₃).store i = s₃.store i :=
          congrArg Life.data (life_prune s₃ i)
        rw [← hl]
        assumption
      · exact ((batch_spec hpost).2 i hb).live

/-- **A step** leaves a steady state, also where a callback or the eviction hook raises. -/
theorem Steady.stepped {e : ContinuousBatchingEngine β} (h : Steady e) {env : Env ρ}
    {predict : Option (String → List ℕ → ℚ)} (hu : Unsplit e.scheduler)
    (hret : ((advance env predict).run e).2.isOk = true) :
    Steady (runOp env e (.step predict)) := by
  have hannounced : ∀ (e₁ : ContinuousBatchingEngine β) n e',
      Announced { e₁ with numSteps := n } e' → Ready e₁.scheduler ∧ Linked e₁ → Ready e'.scheduler ∧
      Linked e' := by
    rintro e₁ n _ ⟨C, c, d, v, rfl⟩ h₁
    exact h₁
  obtain ⟨hready, hlinked⟩ := step_of_advance hannounced (h.wp_advance env predict hu) hret
  exact ⟨consistent_runOp env h.consistent (.step predict), hready, hlinked⟩

/-! ### Adding and aborting requests -/

/-- The request fits the limits of the engine by itself. -/
def Fits (cfg : SchedConfig) (kvCfg : KvConfig) (prompt : List ℕ)
    (params : SamplingParams) (n : ℕ) :
    Prop :=
  n ≤ cfg.maxBatchSize ∧ n * prompt.length ≤ cfg.maxTokensPerStep ∧
    n * ceilDiv (prompt.length + params.maxTokens.toNat) kvCfg.blockSize ≤ kvCfg.numBlocks ∧
    prompt ≠ [] ∧ 1 ≤ params.maxTokens

instance (cfg : SchedConfig) (kvCfg : KvConfig) (prompt : List ℕ)
    (params : SamplingParams) (n : ℕ) :
    Decidable (Fits cfg kvCfg prompt params n) := inferInstanceAs (Decidable (_ ∧ _))

open ContinuousBatchingEngine in
/-- What `add_request` registers. -/
theorem wp_addRequest_registers (rid : String) (prompt : List ℕ) (params : SamplingParams) (n : ℕ)
    (onToken : Option Callback) {e : ContinuousBatchingEngine β} (h : Inv e.scheduler) :
    wp (addRequest rid prompt params n onToken) (fun _ e' => n ≠ 0 ∧
      e'.requestToSeqIds = Function.update e.requestToSeqIds rid
        (some ((newSequences e.nextSeqId n prompt params).map (·.seqId))) ∧
      e'.sequences = e.sequences ∪
        ((newSequences e.nextSeqId n prompt params).map (·.seqId)).toFinset ∧
      ∃ t, Registering e.scheduler (newSequences e.nextSeqId n prompt params) t ∧
        e'.scheduler = { t with
          requestMap := t.requestMap ++
            [⟨rid, (newSequences e.nextSeqId n prompt params).map (·.seqId)⟩]
          waiting := t.waiting ++
            [⟨rid, (newSequences e.nextSeqId n prompt params).map (·.seqId)⟩] })
      (fun _ _ => True) e := by
  simp only [addRequest, wp_bind, wp_current, wp_ite, wp_raise, wp_update, wp_onScheduler]
  refine ⟨fun _ => trivial, fun _ => ⟨fun _ => trivial, fun hn => ?_⟩⟩
  refine wp_mono (ScheduleOps.wp_addRequest rid (newSequences e.nextSeqId n prompt params) h) ?_
    fun _ _ _ => trivial
  rintro _ s' ⟨-, t, hreg, rfl⟩
  exact ⟨hn, trivial, trivial, t, hreg, rfl⟩

theorem newSequences_ne_nil (firstId : ℕ) {n : ℕ} (hn : n ≠ 0) (prompt : List ℕ)
    (params : SamplingParams) :
    ContinuousBatchingEngine.newSequences firstId n prompt params ≠ [] := by
  intro h0
  have hlen := congrArg List.length h0
  simp only [ContinuousBatchingEngine.newSequences, List.length_map, List.length_range,
    List.length_nil] at hlen
  exact hn hlen

/-- A sequence that has just been registered owns nothing. -/
theorem slim_registered {s : Scheduler β} (h : Inv s) {i : ℕ} (hst : (s.store i).status = .waiting)
    (k : ℕ) : Slim k (life s i) := by
  have hok := h.ok i
  have hno : ¬ HasTable (s.store i).status := by
    rw [hst]
    rintro (h0 | h0 | h0) <;> cases h0
  have htok := hok.tokens_none hno
  have hbuf : (life s i).share.buffer = none :=
    hok.copy (hok.mark_false fun h0 => hno (Or.inr (Or.inr h0)))
  refine ⟨?_, ?_, fun h0 => absurd hbuf h0, ?_⟩
  · rw [htok]; exact Nat.zero_le _
  · rw [hok.rows htok]; exact Nat.zero_le _
  · rw [hbuf]; exact Nat.zero_le _

theorem groupFits_new {s : Scheduler β} (rid : String) {ids : List ℕ} {prompt : List ℕ}
    {params : SamplingParams} {n : ℕ} (hlen : ids.length = n)
    (hnew : ∀ i ∈ ids, (s.store i).promptTokenIds = prompt ∧ (s.store i).samplingParams = params)
    (hfit : Fits s.cfg (sizes s.kvCache) prompt params n) : GroupFits s ⟨rid, ids⟩ := by
  obtain ⟨hbatch, htokens, hblocks, -, -⟩ := hfit
  have hsum : ∀ (f : ℕ → ℕ) (c : ℕ), (∀ i ∈ ids, f i = c) → (ids.map f).sum = n * c := by
    intro f c hf
    rw [List.map_congr_left hf, List.map_const', List.sum_replicate_nat, hlen]
  refine ⟨hlen.trans_le hbatch, ?_, ?_⟩
  · exact (hsum _ _ fun i hi => congrArg List.length (hnew i hi).1).trans_le htokens
  · refine (hsum _ _ fun i hi => ?_).trans_le hblocks
    unfold blockNeed SequenceData.promptLength
    rw [(hnew i hi).1, (hnew i hi).2]
    rfl

open ContinuousBatchingEngine in
/-- **A request that fits** leaves a steady state. -/
theorem Steady.wp_addRequest {e : ContinuousBatchingEngine β} (h : Steady e) (rid : String)
    {prompt : List ℕ} {params : SamplingParams} {n : ℕ} (onToken : Option Callback)
    (hfit : Fits e.scheduler.cfg (sizes e.scheduler.kvCache) prompt params n) :
    wp (addRequest rid prompt params n onToken) (fun _ e' => Steady e')
      (fun _ e' => Steady e') e := by
  refine wp_mono (wp_and (wp_and (EngineInv.wp_addRequest rid prompt params n onToken h.consistent)
    (wp_addRequest_registers rid prompt params n onToken h.ready.inv))
    ((leaves_engineAdd rid prompt params n onToken).wp e)) ?_ ?_
  · rintro _ e' ⟨⟨⟨hcon, hadd⟩, hn, hmap, hkeys, t, hreg, heq⟩, hlimits⟩
    have hlimits : limits e'.scheduler = limits e.scheduler := hlimits
    have hcfg : e'.scheduler.cfg = e.scheduler.cfg := congrArg Prod.fst hlimits
    have hsizes : sizes e'.scheduler.kvCache = sizes e.scheduler.kvCache :=
      congrArg Prod.snd hlimits
    set ids := (newSequences e.nextSeqId n prompt params).map (·.seqId) with hids
    have hnew : ∀ i ∈ ids, e'.scheduler.store i =
        { seqId := i, promptTokenIds := prompt, samplingParams := params } := fun i hi =>
      hadd.new i (seqId_newSequences.mp hi).1 (seqId_newSequences.mp hi).2
    have hold : ∀ i, i ∉ ids → e'.scheduler.store i = e.scheduler.store i := fun i hi =>
      hadd.other i fun h0 => hi (seqId_newSequences.mpr h0)
    have hlife : ∀ i, i ∉ ids → life e'.scheduler i = life e.scheduler i := by
      intro i hi
      unfold life
      rw [hold i hi, hadd.share i]
    have hcov : Covered e'.scheduler := by
      rw [heq]
      exact covered_addRequest rid h.ready.inv h.ready.covered (newSequences_ne_nil _ hn _ _) hreg
    have hlen : ids.length = n := by
      rw [hids]
      simp only [newSequences, List.length_map, List.length_range]
    refine ⟨hcon, ⟨hcon.inv, hcov, hcon.grouped, ⟨fun i => ?_, fun i hi => ?_⟩, fun i hi => ?_,
      fun i hi => ?_, fun g hg => ?_⟩, fun r ids' hr i hi hmem hl => ?_⟩
    · by_cases hi : i ∈ ids
      · exact slim_registered hcon.inv (by rw [hnew i hi]) _
      · rw [hlife i hi, hadd.blockSize]
        exact h.ready.calm.slim i
    · by_cases hi' : i ∈ ids
      · rw [hnew i hi'] at hi
        cases hi
      · rw [hold i hi'] at hi
        rw [hlife i hi']
        exact h.ready.calm.released i hi
    · by_cases hi' : i ∈ ids
      · rw [hnew i hi'] at hi
        cases hi
      · rw [hold i hi'] at hi
        exact h.ready.prefilled i hi
    · by_cases hi' : i ∈ ids
      · rw [hnew i hi']
        exact hfit.2.2.2.2
      · rw [hold i hi'] at hi ⊢
        exact h.ready.short i hi
    · have hg : g ∈ t.requestMap ++ [⟨rid, ids⟩] := by
        rw [heq] at hg
        exact hg
      rcases List.mem_append.mp hg with hg | hg
      · rw [hreg.requestMap] at hg
        refine (h.ready.fits g hg).congr hlimits fun i hi => ?_
        have hi' : i ∉ ids := by
          intro h0
          obtain ⟨d, hd, rfl⟩ := List.mem_map.mp h0
          exact hreg.new d hd (h.ready.inv.member g hg _ hi)
        rw [hold i hi']
        exact ⟨rfl, rfl⟩
      · rw [List.mem_singleton.mp hg]
        refine groupFits_new rid hlen (fun i hi => ?_) (by rw [hcfg, hsizes]; exact hfit)
        rw [hnew i hi]
        exact ⟨rfl, rfl⟩
    · rw [hmap] at hr
      rw [heq]
      change i ∈ t.sequenceMap
      rw [hreg.sequenceMap, Finset.mem_union, List.mem_toFinset]
      by_cases hi' : i ∈ ids
      · exact Or.inr hi'
      · refine Or.inl ?_
        rw [hkeys, Finset.mem_union, List.mem_toFinset] at hmem
        have hr : e.requestToSeqIds r = some ids' := by
          by_cases hrid : r = rid
          · rw [hrid, Function.update_self] at hr
            rw [← Option.some.inj hr] at hi
            exact absurd hi hi'
          · rwa [Function.update_of_ne hrid] at hr
        rw [hold i hi'] at hl
        exact h.pending r ids' hr i hi (hmem.resolve_right hi') hl
  · rintro _ e' ⟨⟨⟨h0, -⟩, -⟩, -⟩
    rw [h0]
    exact h

/-- Requests may have left the scheduler and the maps of the engine. -/
structure Reduced (e e' : ContinuousBatchingEngine β) : Prop where
  scheduler : e'.scheduler = e.scheduler ∨ Prunes e.scheduler e'.scheduler
  requestToSeqIds : ∀ r ids, e'.requestToSeqIds r = some ids → e.requestToSeqIds r = some ids
  sequences : e'.sequences ⊆ e.sequences

open ContinuousBatchingEngine in
theorem wp_abortRequest_shrinks (env : Env ρ) (rid : String) {e : ContinuousBatchingEngine β}
    (h : Inv e.scheduler) :
    wp (abortRequest env rid) (fun _ e' => Reduced e e') (fun _ e' => Reduced e e') e := by
  simp only [abortRequest, popCallbacks, wp_bind, wp_current, wp_onScheduler, wp_update]
  refine wp_mono (wp_abortRequest_prunes rid h) ?_ fun _ _ h0 => h0.elim
  intro _ s' hs
  simp only [wp_ite, wp_pure, wp_bind, wp_update]
  refine ⟨fun _ => ⟨hs, fun _ _ hr => hr, Finset.Subset.refl _⟩,
    fun _ => wp_mono (wp_notifyEviction env .aborted rid) ?_ ?_⟩
  case refine_2 =>
    rintro _ _ ⟨-, rfl⟩
    exact ⟨hs, fun _ _ hr => hr, Finset.Subset.refl _⟩
  rintro _ _ ⟨-, rfl⟩
  refine ⟨hs, fun r ids hr => ?_, Finset.sdiff_subset⟩
  have hr : Function.update e.requestToSeqIds rid none r = some ids := hr
  by_cases hrid : r = rid
  · rw [hrid, Function.update_self] at hr
    cases hr
  · rwa [Function.update_of_ne hrid] at hr

/-- An abort leaves a steady state. -/
theorem Steady.aborted {e e' : ContinuousBatchingEngine β} (h : Steady e) (ha : Aborted e e')
    (hr : Reduced e e') (hlimits : engineLimits e' = engineLimits e) : Steady e' := by
  obtain ⟨hcon, -, -, hsize, hlives⟩ := ha
  obtain ⟨hs, hids, hkeys⟩ := hr
  have hlimits : limits e'.scheduler = limits e.scheduler := hlimits
  have hended : ∀ i, e'.scheduler.store i = e.scheduler.store i ∨
      (e'.scheduler.store i).status = .finished ∨ (e'.scheduler.store i).status = .cancelled := by
    intro i
    rcases hlives i with h0 | h0
    · exact Or.inl (congrArg Life.data h0)
    · exact Or.inr (ended_spec h.ready.inv (Or.inr rfl) h0).2.2
  have hlive : ∀ i, (e'.scheduler.store i).Live → e'.scheduler.store i = e.scheduler.store i := by
    intro i hl
    rcases hended i with h0 | h0 | h0
    · exact h0
    · exact absurd h0 hl.1
    · exact absurd h0 hl.2
  have hcov : Covered e'.scheduler := by
    rcases hs with hs | hs
    · rw [hs]; exact h.ready.covered
    · exact hs.covered h.ready.covered
  have hmap : ∀ g ∈ e'.scheduler.requestMap, g ∈ e.scheduler.requestMap := by
    rcases hs with hs | hs
    · rw [hs]; exact fun _ hg => hg
    · rw [hs.requestMap]; exact fun _ hg => (List.mem_filter.mp hg).1
  refine ⟨hcon, ⟨hcon.inv, hcov, hcon.grouped, ⟨fun i => ?_, fun i hi => ?_⟩, fun i hi => ?_,
    fun i hi => ?_, fun g hg => ?_⟩, fun r ids hr i hi hmem hl => ?_⟩
  · rw [hsize]
    rcases hlives i with h0 | h0
    · rw [h0]; exact h.ready.calm.slim i
    · rw [h0]; exact (h.ready.calm.slim i).ended _
  · rcases hlives i with h0 | h0
    · have hst : (e.scheduler.store i).status = .swapped := by
        rw [← show e'.scheduler.store i = e.scheduler.store i from congrArg Life.data h0]
        exact hi
      rw [h0]
      exact h.ready.calm.released i hst
    · rcases (ended_spec h.ready.inv (Or.inr rfl) h0).2.2 with h1 | h1
      · exact absurd (h1.symm.trans hi) (by decide)
      · exact absurd (h1.symm.trans hi) (by decide)
  · rcases hended i with h0 | h0 | h0
    · rw [h0] at hi
      exact h.ready.prefilled i hi
    · exact absurd (h0.symm.trans hi) (by decide)
    · exact absurd (h0.symm.trans hi) (by decide)
  · have hstore := hlive i hi
    rw [hstore] at hi ⊢
    exact h.ready.short i hi
  · refine (h.ready.fits g (hmap g hg)).congr hlimits fun i _ => ?_
    rcases hlives i with h0 | h0
    · rw [show e'.scheduler.store i = e.scheduler.store i from congrArg Life.data h0]
      exact ⟨rfl, rfl⟩
    · have hdata := (statusOnly_ended (by decide) h0).1
      have hdata : e'.scheduler.store i = { e.scheduler.store i with
          status := (e'.scheduler.store i).status } := hdata
      rw [hdata]
      exact ⟨rfl, rfl⟩
  · have hl' : (e.scheduler.store i).Live := by
      rw [← hlive i hl]
      exact hl
    have hreg := h.pending r ids (hids r ids hr) i hi (hkeys hmem) hl'
    rcases hs with hs | hs
    · rw [hs]; exact hreg
    · exact registered_of_prunes hs h.ready.grouped hcon.inv hreg hl

open ContinuousBatchingEngine in
/-- **`abort_request`** leaves a steady state, also where the eviction hook raises. -/
theorem Steady.wp_abortRequest {e : ContinuousBatchingEngine β} (h : Steady e) (env : Env ρ)
    (rid : String) :
    wp (abortRequest env rid) (fun _ e' => Steady e') (fun _ e' => Steady e') e :=
  wp_mono (wp_and (wp_and (EngineInv.wp_abortRequest env rid h.consistent)
    (wp_abortRequest_shrinks env rid h.ready.inv)) ((leaves_engineAbort env rid).wp e))
    (fun _ _ h0 => h.aborted h0.1.1 h0.1.2 h0.2) fun _ _ h0 => h.aborted h0.1.1 h0.1.2 h0.2

/-! ### Runs -/

/-- The requests that are added fit the limits of the engine by themselves. -/
def Admissible (e : ContinuousBatchingEngine β) : Op → Prop
  | .addRequest _ prompt params n _ =>
    Fits e.scheduler.cfg (sizes e.scheduler.kvCache) prompt params n
  | _ => True

/-- A step brings back no swapped group in part, and raises in its callbacks or the eviction hook at
most. -/
def Whole (env : Env ρ) (e : ContinuousBatchingEngine β) : Op → Prop
  | .step predict => Unsplit e.scheduler ∧ ((advance env predict).run e).2.isOk = true
  | _ => True

instance (e : ContinuousBatchingEngine β) : (o : Op) → Decidable (Admissible e o)
  | .addRequest _ prompt params n _ => inferInstanceAs (Decidable (Fits _ _ prompt params n))
  | .step _ => inferInstanceAs (Decidable True)
  | .abortRequest _ => inferInstanceAs (Decidable True)

instance (env : Env ρ) (e : ContinuousBatchingEngine β) : (o : Op) → Decidable (Whole env e o)
  | .addRequest .. => inferInstanceAs (Decidable True)
  | .step _ => inferInstanceAs (Decidable (_ ∧ _))
  | .abortRequest _ => inferInstanceAs (Decidable True)

/-- The next step serves a pending request: `schedule` selects a sequence, and `step` does not
return without outputs, which `run_until_done` takes for a failure. -/
def Serves (env : Env ρ) (e : ContinuousBatchingEngine β) : Prop :=
  ∀ predict, wp (Scheduler.schedule predict)
      (fun out _ => out.prefillSeqIds ≠ [] ∨ out.decodeSeqIds ≠ []) (fun _ _ => False) e.scheduler ∧
    wp (ContinuousBatchingEngine.step env predict) (fun outputs _ => outputs ≠ [])
      (fun _ _ => True) e

theorem steady_start (cfg : SchedConfig) (kvCfg : KvConfig) (kv : ℕ → β) :
    Steady (start cfg kvCfg kv) := by
  have hcon := consistent_new cfg kvCfg kv
  refine ⟨hcon, ⟨hcon.inv, fun g hg => absurd hg List.not_mem_nil, hcon.grouped, ⟨fun i => ?_,
    fun i hi => ?_⟩, fun i hi => ?_, fun i hi => ?_, fun g hg => absurd hg List.not_mem_nil⟩,
    fun r ids hr => ?_⟩
  · exact slim_registered hcon.inv rfl _
  · cases hi
  · cases hi
  · change (0 : ℤ) < 256
    decide
  · cases hr

/-- **A steady engine** with a pending request makes progress. -/
theorem Steady.serves {e : ContinuousBatchingEngine β} (h : Steady e) (env : Env ρ)
    (hp : e.HasPendingRequests) (hu : Unsplit e.scheduler) : Serves env e := by
  intro predict
  have hsched := h.ready.wp_schedule hu (h.requestMap_ne_nil hp) predict
  refine ⟨hsched, ?_⟩
  rw [ContinuousBatchingEngine.step, wp_bind]
  refine wp_mono (wp_and (wp_stepTokens env predict h.consistent)
    (wp_stepTokens_reported env predict e)) ?_ fun _ _ _ => trivial
  rintro r e₁ ⟨htokens, hshort⟩
  cases r with
  | none =>
    obtain ⟨out, hrun, hpre, hdec⟩ := hshort
    rcases wp_ok hsched hrun with h0 | h0
    · exact absurd hpre h0
    · exact absurd hdec h0
  | some outputs =>
    obtain ⟨out, s₁, tokens, hacc⟩ := htokens
    simp only [wp_bind, wp_onScheduler, wp_update, wp_pure]
    refine wp_of_forall (fun _ _ => wp_of_forall (fun _ _ hnil => ?_) fun _ _ => trivial)
      fun _ _ => trivial
    have hids := hacc.outputs
    rw [hnil] at hids
    have hempty : out.prefillSeqIds ++ out.decodeSeqIds = [] := hids.symm
    rcases wp_ok hsched hacc.ran with h0 | h0
    · exact h0 (List.append_eq_nil_iff.mp hempty).1
    · exact h0 (List.append_eq_nil_iff.mp hempty).2

/-- **Every operation** keeps the engine steady. -/
theorem Steady.runOp {e : ContinuousBatchingEngine β} (h : Steady e) {env : Env ρ} {o : Op}
    (hfit : Admissible e o) (hwhole : Whole env e o) : Steady (runOp env e o) := by
  cases o with
  | addRequest rid prompt params n onToken => exact inv_of_wp (h.wp_addRequest rid onToken hfit)
  | abortRequest rid => exact inv_of_wp (h.wp_abortRequest env rid)
  | step predict => exact h.stepped hwhole.1 hwhole.2

/-- **Pending requests are served**: if every request fits by itself, every step returned or raised
only in its callbacks or the eviction hook, and no swapped group is brought back in part, the next
step makes progress. -/
theorem pending_served (env : Env ρ) (cfg : SchedConfig) (kvCfg : KvConfig) (kv : ℕ → β)
    (ops : List Op) (hfit : Along (runOp env) Admissible (start cfg kvCfg kv) ops)
    (hwhole : Along (runOp env) (Whole env) (start cfg kvCfg kv) ops)
    (hp : (exec (runOp env) (start cfg kvCfg kv) ops).HasPendingRequests)
    (hu : Unsplit (exec (runOp env) (start cfg kvCfg kv) ops).scheduler) :
    Serves env (exec (runOp env) (start cfg kvCfg kv) ops) := by
  have hsteady := inv_exec (I := Steady)
    (G := fun e o => Admissible e o ∧ Whole env e o) (fun e o h hG => h.runOp hG.1 hG.2) ops
    (start cfg kvCfg kv) (steady_start cfg kvCfg kv) (along_and hfit hwhole)
  exact hsteady.serves env hp hu

/-- The request `a` is preempted for the request `b`. -/
def preemptedOnce : List Op :=
  [.addRequest "a" [1, 2, 3] { temperature := 0, maxTokens := 3 } 1 none, .step none,
    .addRequest "b" [4, 5, 6, 7, 8] { temperature := 0, maxTokens := 3 } 1 none, .step none]

theorem pending_served_preemptedOnce :
    Along (runOp repeatLast) Admissible (engineWith 2 (by decide)) preemptedOnce ∧
      Along (runOp repeatLast) (Whole repeatLast) (engineWith 2 (by decide)) preemptedOnce ∧
      (exec (runOp repeatLast) (engineWith 2 (by decide)) preemptedOnce).scheduler.swapped =
        [⟨"a", [0]⟩] ∧
      Serves repeatLast (exec (runOp repeatLast) (engineWith 2 (by decide)) preemptedOnce) :=
  ⟨by decide, by decide, by decide, pending_served repeatLast ⟨8, 64, by decide, by decide⟩
    ⟨2, 4, by decide, by decide⟩ (fun b => b) preemptedOnce (by decide) (by decide)
    ⟨"a", [0], by decide, 0, by decide, by decide, by decide⟩ (by decide)⟩

/-- The two sequences of `c` are preempted for `a`, and `b` waits. -/
def threeRequests : List Op :=
  [.addRequest "c" [1, 2, 3, 4, 5] { temperature := 0, maxTokens := 3 } 2 none, .step none,
    .addRequest "a" [6] { temperature := 0, maxTokens := 3 } 1 none, .step none,
    .addRequest "b" [1, 2, 3, 4, 5, 6, 7, 8, 9] { temperature := 0, maxTokens := 3 } 1 none]

/-- One sequence of `c` comes back and keeps its blocks, the other one does not find any; `a` is
then preempted for `b`, which still does not fit. -/
theorem no_progress : ¬ ∀ (env : Env ℕ) (cfg : SchedConfig) (kvCfg : KvConfig) (kv : ℕ → ℕ)
    (ops : List Op), Along (runOp env) Admissible (start cfg kvCfg kv) ops →
    (exec (runOp env) (start cfg kvCfg kv) ops).HasPendingRequests →
    Serves env (exec (runOp env) (start cfg kvCfg kv) ops) := by
  intro h
  have hserves : Serves repeatLast
      (exec (runOp repeatLast) (engineWith 4 (by decide)) threeRequests) :=
    h repeatLast ⟨8, 64, by decide, by decide⟩ ⟨4, 4, by decide, by decide⟩
      (fun b => b) threeRequests (by decide)
      ⟨"a", [2], by decide, 2, by decide, by decide, by decide⟩
  have hout : ((Scheduler.schedule none).run (exec (runOp repeatLast) (engineWith 4 (by decide))
      threeRequests).scheduler).2 = .ok ⟨[], [], [2], 0, 0⟩ := by decide
  have hsome := wp_ok (hserves none).1 (Prod.ext rfl hout)
  exact hsome.elim (fun h0 => h0 rfl) fun h0 => h0 rfl

end MoeInfinity.Serving.Pending
