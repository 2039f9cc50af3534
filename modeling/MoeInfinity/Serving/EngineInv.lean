import MoeInfinity.Serving.Callbacks
import MoeInfinity.Serving.ScheduleOps

/-! # The invariant of the engine

The maps of the engine know every request that the scheduler still has. Under this invariant a
request with a new id is always accepted, and a step raises only for what the model, the sampler or
the growth of a sequence raise: the tokens of a batch are all accepted (`wp_acceptTokens`), each by
its own sequence. -/

namespace MoeInfinity.Serving.EngineInv

open MoeInfinity.Python MoeInfinity.Lib.Imperative
open MoeInfinity.Serving.Sequence MoeInfinity.Serving.KvCache MoeInfinity.Serving.KvCacheSpec
open MoeInfinity.Serving.Schedule MoeInfinity.Serving.Lifecycle MoeInfinity.Serving.ScheduleSpec
open MoeInfinity.Serving.ScheduleInv MoeInfinity.Serving.ScheduleCall
  MoeInfinity.Serving.ScheduleOps
open MoeInfinity.Serving.Batch MoeInfinity.Serving.ModelRunner MoeInfinity.Serving.Engine
open MoeInfinity.Serving.Engine.ContinuousBatchingEngine MoeInfinity.Serving.Callbacks

variable {β ρ : Type}

/-! ### The invariant -/

/-- There is a list of outputs for the sequence `i` of the request `r`. -/
def Recorded (e : ContinuousBatchingEngine β) (r : String) (i : ℕ) : Prop :=
  ∃ outputs, e.requestOutputs r = some outputs ∧ (outputs i).isSome

/-- **The invariant** of the engine. -/
structure Consistent (e : ContinuousBatchingEngine β) : Prop where
  inv : Inv e.scheduler
  grouped : Grouped e.scheduler
  used : ∀ i ∈ e.scheduler.sequenceMap, i < e.nextSeqId
  known : ∀ g ∈ e.scheduler.requestMap, (e.requestToSeqIds g.requestId).isSome
  owner : ∀ g ∈ e.scheduler.requestMap, ∀ i ∈ g.sequenceIds,
    i ∈ e.sequences ∧ e.sequenceToRequestId i = some g.requestId ∧ Recorded e g.requestId i
  lists : ∀ r ids, e.requestToSeqIds r = some ids → ∀ i ∈ ids, e.sequenceToRequestId i = some r
  bound : ∀ i r, e.sequenceToRequestId i = some r → i < e.nextSeqId

theorem consistent_new (cfg : SchedConfig) (kvCfg : KvConfig) (kv : ℕ → β) :
    Consistent (ContinuousBatchingEngine.new (Scheduler.new cfg (PagedKVCache.new kvCfg kv))) := by
  refine ⟨inv_new cfg kvCfg kv, fun i hi => ?_, fun i hi => ?_, fun g hg => ?_, fun g hg => ?_,
    fun r ids h => ?_, fun i r h => ?_⟩
  · exact absurd hi (Finset.notMem_empty i)
  · exact absurd hi (Finset.notMem_empty i)
  · exact absurd hg List.not_mem_nil
  · exact absurd hg List.not_mem_nil
  · cases h
  · cases h

/-- The maps are the same, up to outputs that were appended. -/
structure SameMaps (e e' : ContinuousBatchingEngine β) : Prop where
  nextSeqId : e'.nextSeqId = e.nextSeqId
  sequences : e'.sequences = e.sequences
  sequenceToRequestId : e'.sequenceToRequestId = e.sequenceToRequestId
  requestToSeqIds : e'.requestToSeqIds = e.requestToSeqIds
  recorded : ∀ r i, Recorded e r i → Recorded e' r i

theorem SameMaps.refl (e : ContinuousBatchingEngine β) : SameMaps e e :=
  ⟨rfl, rfl, rfl, rfl, fun _ _ h => h⟩

theorem SameMaps.trans {e e' e'' : ContinuousBatchingEngine β} (h : SameMaps e e')
    (h' : SameMaps e' e'') : SameMaps e e'' :=
  ⟨h'.nextSeqId.trans h.nextSeqId, h'.sequences.trans h.sequences,
    h'.sequenceToRequestId.trans h.sequenceToRequestId,
    h'.requestToSeqIds.trans h.requestToSeqIds, fun r i hr => h'.recorded r i (h.recorded r i hr)⟩

/-- The scheduler may drop requests; the engine keeps what it knows. -/
theorem Consistent.of_shrinks {e e' : ContinuousBatchingEngine β} (h : Consistent e)
    (hm : SameMaps e e') (hinv : Inv e'.scheduler) (hs : Shrinks e.scheduler e'.scheduler) :
    Consistent e' := by
  refine ⟨hinv, hs.grouped h.grouped, fun i hi => ?_, fun g hg => ?_, fun g hg i hi => ?_,
    fun r ids hr => ?_, fun i r hr => ?_⟩
  · rw [hm.nextSeqId]; exact h.used i (hs.sequenceMap i hi)
  · rw [hm.requestToSeqIds]; exact h.known g (hs.requestMap g hg)
  · obtain ⟨h1, h2, h3⟩ := h.owner g (hs.requestMap g hg) i hi
    rw [hm.sequences, hm.sequenceToRequestId]
    exact ⟨h1, h2, hm.recorded _ _ h3⟩
  · rw [hm.requestToSeqIds] at hr
    rw [hm.sequenceToRequestId]
    exact h.lists r ids hr
  · rw [hm.sequenceToRequestId] at hr
    rw [hm.nextSeqId]
    exact h.bound i r hr

/-- Callbacks and the eviction hook do not touch the maps. -/
theorem SameMaps.of_announced {e e' : ContinuousBatchingEngine β} (h : Announced e e') :
    SameMaps e e' := by
  obtain ⟨C, c, d, v, rfl⟩ := h
  exact ⟨rfl, rfl, rfl, rfl, fun _ _ hr => hr⟩

theorem Consistent.of_announced {e e' : ContinuousBatchingEngine β} (h : Consistent e)
    (ha : Announced e e') : Consistent e' := by
  obtain ⟨C, c, d, v, rfl⟩ := ha
  exact ⟨h.inv, h.grouped, h.used, h.known, h.owner, h.lists, h.bound⟩

/-- A registered sequence is known to the engine. -/
theorem Consistent.registered {e : ContinuousBatchingEngine β} (h : Consistent e) {i : ℕ}
    (hi : i ∈ e.scheduler.sequenceMap) :
    i ∈ e.sequences ∧ ∃ r, e.sequenceToRequestId i = some r ∧ Recorded e r i := by
  obtain ⟨g, hg, hig⟩ := h.grouped i hi
  obtain ⟨h1, h2, h3⟩ := h.owner g hg i hig
  exact ⟨h1, g.requestId, h2, h3⟩

theorem wp_onScheduler {α : Type} {m : Prog PyError (Scheduler β) α}
    {e : ContinuousBatchingEngine β} {Q : α → ContinuousBatchingEngine β → Prop}
    {R : PyError → ContinuousBatchingEngine β → Prop} :
    wp (onScheduler m) Q R e ↔ wp m (fun a s => Q a { e with scheduler := s })
      (fun err s => R err { e with scheduler := s }) e.scheduler := wp_zoom

/-! ### Adding and aborting requests -/

theorem mem_newSequences {firstId n : ℕ} {prompt : List ℕ} {params : SamplingParams}
    {d : SequenceData} : d ∈ newSequences firstId n prompt params ↔
      ∃ k < n,
        d = { seqId := firstId + k, promptTokenIds := prompt, samplingParams := params } := by
  unfold newSequences
  rw [List.mem_map]
  constructor
  · rintro ⟨k, hk, rfl⟩
    exact ⟨k, List.mem_range.mp hk, rfl⟩
  · rintro ⟨k, hk, rfl⟩
    exact ⟨k, List.mem_range.mpr hk, rfl⟩

theorem seqId_newSequences {firstId n : ℕ} {prompt : List ℕ} {params : SamplingParams} {i : ℕ} :
    i ∈ (newSequences firstId n prompt params).map (·.seqId) ↔ firstId ≤ i ∧ i < firstId + n := by
  rw [List.mem_map]
  constructor
  · rintro ⟨d, hd, rfl⟩
    obtain ⟨k, hk, rfl⟩ := mem_newSequences.mp hd
    show firstId ≤ firstId + k ∧ firstId + k < firstId + n
    omega
  · rintro ⟨h1, h2⟩
    refine ⟨_, mem_newSequences.mpr ⟨i - firstId, by omega, rfl⟩, ?_⟩
    show firstId + (i - firstId) = i
    omega

/-- What `add_request` does: the new sequences are registered, the others are as before. -/
structure Added (prompt : List ℕ) (params : SamplingParams) (n : ℕ)
    (e e' : ContinuousBatchingEngine β) : Prop where
  calls : e'.calls = e.calls
  nextSeqId : e'.nextSeqId = e.nextSeqId + n
  blockSize : e'.scheduler.kvCache.blockSize = e.scheduler.kvCache.blockSize
  share : ∀ i, share e'.scheduler.kvCache i = share e.scheduler.kvCache i
  other : ∀ i, ¬ (e.nextSeqId ≤ i ∧ i < e.nextSeqId + n) →
    e'.scheduler.store i = e.scheduler.store i
  new : ∀ i, e.nextSeqId ≤ i → i < e.nextSeqId + n → e'.scheduler.store i =
    { seqId := i, promptTokenIds := prompt, samplingParams := params }

/-- **`add_request`** raises only for an id that is in use and for `n = 0`. -/
theorem wp_addRequest (requestId : String) (prompt : List ℕ) (params : SamplingParams) (n : ℕ)
    (onToken : Option Callback) {e : ContinuousBatchingEngine β} (h : Consistent e) :
    wp (addRequest requestId prompt params n onToken)
      (fun _ e' => Consistent e' ∧ Added prompt params n e e')
      (fun _ e' => e' = e ∧ ((e.requestToSeqIds requestId).isSome = true ∨ n = 0)) e := by
  simp only [addRequest, wp_bind, wp_current, wp_ite, wp_raise, wp_update, wp_onScheduler]
  refine ⟨fun h0 => ⟨trivial, Or.inl h0⟩,
    fun hnew => ⟨fun h0 => ⟨trivial, Or.inr h0⟩, fun hn => ?_⟩⟩
  have hnone : e.requestToSeqIds requestId = none := by
    cases hr : e.requestToSeqIds requestId with
    | none => rfl
    | some ids => rw [hr] at hnew; exact absurd rfl hnew
  have hfresh : ∀ i ∈ (newSequences e.nextSeqId n prompt params).map (·.seqId),
      i ∉ e.scheduler.sequenceMap ∧ e.sequenceToRequestId i = none := by
    intro i hi
    obtain ⟨h1, -⟩ := seqId_newSequences.mp hi
    constructor
    · intro h0
      have := h.used i h0
      omega
    · cases hr : e.sequenceToRequestId i with
      | none => rfl
      | some r =>
        have := h.bound i r hr
        omega
  refine wp_mono
    (ScheduleOps.wp_addRequest requestId (newSequences e.nextSeqId n prompt params) h.inv) ?_ ?_
  · rintro _ s' ⟨hinv, t, hreg, rfl⟩
    refine ⟨⟨hinv, fun i hi => ?_, fun i hi => ?_, fun g hg => ?_, fun g hg i hi => ?_,
      fun r ids hr i hi => ?_, fun i r hr => ?_⟩, ⟨rfl, rfl, hreg.blockSize, hreg.share,
      fun i hi => ?_,
      fun i h1 h2 => ?_⟩⟩
    · have hi : i ∈ t.sequenceMap := hi
      rw [hreg.sequenceMap, Finset.mem_union, List.mem_toFinset] at hi
      rcases hi with hi | hi
      · obtain ⟨g, hg, hig⟩ := h.grouped i hi
        refine ⟨g, List.mem_append_left _ ?_, hig⟩
        rw [hreg.requestMap]; exact hg
      · exact ⟨_, List.mem_append_right _ (List.mem_singleton_self _), hi⟩
    · have hi : i ∈ t.sequenceMap := hi
      rw [hreg.sequenceMap, Finset.mem_union, List.mem_toFinset] at hi
      show i < e.nextSeqId + n
      rcases hi with hi | hi
      · have := h.used i hi
        omega
      · exact (seqId_newSequences.mp hi).2
    · show (Function.update e.requestToSeqIds requestId _ g.requestId).isSome
      by_cases hr : g.requestId = requestId
      · rw [hr, Function.update_self]; rfl
      · rw [Function.update_of_ne hr]
        rcases List.mem_append.mp hg with hg | hg
        · rw [hreg.requestMap] at hg
          exact h.known g hg
        · rw [List.mem_singleton.mp hg] at hr
          exact absurd rfl hr
    · rcases List.mem_append.mp hg with hg | hg
      · rw [hreg.requestMap] at hg
        obtain ⟨h1, h2, h3⟩ := h.owner g hg i hi
        have hi' : i ∉ (newSequences e.nextSeqId n prompt params).map (·.seqId) := by
          intro h0
          rw [(hfresh i h0).2] at h2
          cases h2
        have hr : g.requestId ≠ requestId := by
          intro h0
          have := h.known g hg
          rw [h0, hnone] at this
          cases this
        refine ⟨Finset.mem_union_left _ h1, ?_, ?_⟩
        · show (if i ∈ _ then some requestId else _) = _
          rw [if_neg hi']; exact h2
        · obtain ⟨outputs, ho, hs⟩ := h3
          refine ⟨outputs, ?_, hs⟩
          show Function.update e.requestOutputs requestId _ g.requestId = _
          rw [Function.update_of_ne hr]; exact ho
      · rw [List.mem_singleton.mp hg] at hi ⊢
        have hi : i ∈ (newSequences e.nextSeqId n prompt params).map (·.seqId) := hi
        refine ⟨Finset.mem_union_right _ (List.mem_toFinset.mpr hi), if_pos hi, ?_⟩
        refine ⟨_, Function.update_self _ _ _, ?_⟩
        simp only [hi, if_true, Option.isSome_some]
    · show (if i ∈ (newSequences e.nextSeqId n prompt params).map (·.seqId) then some requestId
        else e.sequenceToRequestId i) = some r
      by_cases hreq : r = requestId
      · subst hreq
        have hr : Function.update e.requestToSeqIds r _ r = some ids := hr
        rw [Function.update_self] at hr
        rw [if_pos (by rw [Option.some.inj hr]; exact hi)]
      · have hr : Function.update e.requestToSeqIds requestId _ r = some ids := hr
        rw [Function.update_of_ne hreq] at hr
        have hold := h.lists r ids hr i hi
        rw [if_neg fun h0 => ?_]
        · exact hold
        · rw [(hfresh i h0).2] at hold
          cases hold
    · have hr : (if i ∈ (newSequences e.nextSeqId n prompt params).map (·.seqId) then some requestId
        else e.sequenceToRequestId i) = some r := hr
      show i < e.nextSeqId + n
      split_ifs at hr with hi
      · exact (seqId_newSequences.mp hi).2
      · have := h.bound i r hr
        omega
    · exact hreg.other i fun h0 => hi (seqId_newSequences.mp h0)
    · exact hreg.registered _ (mem_newSequences.mpr ⟨i - e.nextSeqId, by omega, by
        rw [show e.nextSeqId + (i - e.nextSeqId) = i by omega]⟩)
  · rintro err s' (⟨hold, -⟩ | ⟨done, d, rest, hsplit, hreg, hbad⟩)
    · obtain ⟨g, hg, hr⟩ := List.mem_map.mp hold
      have := h.known g hg
      rw [hr, hnone] at this
      cases this
    · exfalso
      have hd : d ∈ newSequences e.nextSeqId n prompt params := by rw [hsplit]; simp
      have hnd : ((newSequences e.nextSeqId n prompt params).map (·.seqId)).Nodup := by
        unfold newSequences
        rw [List.map_map]
        exact List.nodup_range.map fun a b hab => by
          have hab : e.nextSeqId + a = e.nextSeqId + b := hab
          omega
      rw [hsplit, List.map_append, List.map_cons] at hnd
      rcases hbad with hbad | hbad
      · rw [hreg.sequenceMap, Finset.mem_union, List.mem_toFinset] at hbad
        rcases hbad with hbad | hbad
        · exact (hfresh d.seqId (List.mem_map_of_mem hd)).1 hbad
        · exact (List.nodup_append'.mp hnd).2.2 hbad List.mem_cons_self
      · obtain ⟨k, -, rfl⟩ := mem_newSequences.mp hd
        exact hbad rfl

/-- The maps no longer know a request that the scheduler has dropped. -/
theorem Consistent.removed {e : ContinuousBatchingEngine β} (h : Consistent e) (requestId : String)
    (hgone : ∀ g ∈ e.scheduler.requestMap, g.requestId ≠ requestId) (C : Finset String) :
    Consistent { e with
      cancelledRequestIds := C
      requestOutputs := Function.update e.requestOutputs requestId none
      requestToSeqIds := Function.update e.requestToSeqIds requestId none
      sequenceToRequestId := fun i =>
        if i ∈ (e.requestToSeqIds requestId).getD [] then none else e.sequenceToRequestId i
      sequences := e.sequences \ ((e.requestToSeqIds requestId).getD []).toFinset } := by
  refine ⟨h.inv, h.grouped, h.used, fun g hg => ?_, fun g hg i hi => ?_, fun r ids hr i hi => ?_,
    fun i r hr => ?_⟩
  · show (Function.update e.requestToSeqIds requestId none g.requestId).isSome
    rw [Function.update_of_ne (hgone g hg)]
    exact h.known g hg
  · obtain ⟨h1, h2, outputs, ho, hs⟩ := h.owner g hg i hi
    have hi' : i ∉ (e.requestToSeqIds requestId).getD [] := by
      intro h0
      cases hr : e.requestToSeqIds requestId with
      | none => rw [hr] at h0; cases h0
      | some ids =>
        rw [hr] at h0
        have hown := h.lists requestId ids hr i h0
        have h2 : e.sequenceToRequestId i = some g.requestId := h2
        rw [hown] at h2
        exact hgone g hg (Option.some.inj h2).symm
    refine ⟨?_, ?_, outputs, ?_, hs⟩
    · exact Finset.mem_sdiff.mpr ⟨h1, fun h0 => hi' (List.mem_toFinset.mp h0)⟩
    · show (if i ∈ (e.requestToSeqIds requestId).getD [] then none
        else e.sequenceToRequestId i) = some g.requestId
      rw [if_neg hi']; exact h2
    · show Function.update e.requestOutputs requestId none g.requestId = _
      rw [Function.update_of_ne (hgone g hg)]; exact ho
  · show (if i ∈ (e.requestToSeqIds requestId).getD [] then none
      else e.sequenceToRequestId i) = some r
    have hne : r ≠ requestId := by
      rintro rfl
      have hr : Function.update e.requestToSeqIds r none r = some ids := hr
      rw [Function.update_self] at hr
      cases hr
    have hr : Function.update e.requestToSeqIds requestId none r = some ids := hr
    rw [Function.update_of_ne hne] at hr
    have hown := h.lists r ids hr i hi
    rw [if_neg fun h0 => ?_]
    · exact hown
    · cases hq : e.requestToSeqIds requestId with
      | none => rw [hq] at h0; cases h0
      | some ids' =>
        rw [hq] at h0
        rw [h.lists requestId ids' hq i h0] at hown
        exact hne (Option.some.inj hown).symm
  · have hr : (if i ∈ (e.requestToSeqIds requestId).getD [] then none
      else e.sequenceToRequestId i) = some r := hr
    split_ifs at hr with hi
    exact h.bound i r hr

/-- What `abort_request` does: sequences of the request have ended, the others are as before. -/
structure Aborted (e e' : ContinuousBatchingEngine β) : Prop where
  consistent : Consistent e'
  calls : e'.calls = e.calls
  nextSeqId : e'.nextSeqId = e.nextSeqId
  blockSize : e'.scheduler.kvCache.blockSize = e.scheduler.kvCache.blockSize
  lives : ∀ i, life e'.scheduler i = life e.scheduler i ∨
    Ended .cancelled (life e.scheduler i) (life e'.scheduler i)

/-- **`abort_request`** ends the sequences of the request, also where the eviction hook raises. -/
theorem wp_abortRequest (env : Env ρ) (requestId : String) {e : ContinuousBatchingEngine β}
    (h : Consistent e) :
    wp (abortRequest env requestId) (fun _ e' => Aborted e e') (fun _ e' => Aborted e e') e := by
  simp only [abortRequest, popCallbacks, wp_bind, wp_current, wp_onScheduler, wp_update]
  refine wp_mono (ScheduleOps.wp_abortRequest requestId h.inv) ?_ fun _ _ h0 => h0.elim
  rintro _ s' ⟨hinv, hshrink, hgone, hlives⟩
  have hkept : ∀ c v,
      Consistent { e with scheduler := s', callbacks := c, evictions := v } := fun c v =>
    h.of_shrinks ⟨rfl, rfl, rfl, rfl, fun _ _ h0 => h0⟩ hinv hshrink
  have haborted : ∀ c v, Aborted e { e with scheduler := s', callbacks := c, evictions := v } :=
    fun c v => ⟨hkept c v, rfl, rfl, hshrink.blockSize, hlives⟩
  simp only [wp_ite, wp_pure, wp_bind, wp_update]
  refine ⟨fun _ => haborted _ _, fun _ => wp_mono (wp_notifyEviction env .aborted requestId) ?_ ?_⟩
  · rintro _ _ ⟨-, rfl⟩
    exact ⟨(hkept _ _).removed requestId hgone _, rfl, rfl, hshrink.blockSize, hlives⟩
  · rintro _ _ ⟨-, rfl⟩
    exact haborted _ _

/-! ### Accepting the sampled tokens -/

theorem wp_recordOutput {e : ContinuousBatchingEngine β} {r : String} {i : ℕ} (t : ℕ)
    (h : Recorded e r i) :
    wp (recordOutput r i t) (fun _ e' => SameMaps e e' ∧ e'.calls = e.calls ∧
      e'.scheduler = e.scheduler) (fun _ _ => False) e := by
  obtain ⟨outputs, ho, hs⟩ := h
  obtain ⟨tokens, ht⟩ := Option.isSome_iff_exists.mp hs
  simp only [recordOutput, wp_bind, wp_current, ho, ht, wp_update]
  refine ⟨⟨rfl, rfl, rfl, rfl, fun r' j hr => ?_⟩, trivial, trivial⟩
  by_cases hreq : r' = r
  · subst hreq
    refine ⟨_, Function.update_self _ _ _, ?_⟩
    by_cases hj : j = i
    · rw [hj, Function.update_self]; rfl
    · rw [Function.update_of_ne hj]
      obtain ⟨outputs', ho', hs'⟩ := hr
      rw [ho] at ho'
      rw [Option.some.inj ho']
      exact hs'
  · obtain ⟨outputs', ho', hs'⟩ := hr
    refine ⟨outputs', ?_, hs'⟩
    show Function.update e.requestOutputs r _ r' = _
    rw [Function.update_of_ne hreq]
    exact ho'

/-- A live sequence accepts its token. -/
theorem wp_acceptToken (env : Env ρ) {e : ContinuousBatchingEngine β} (h : Consistent e) {i : ℕ}
    (hi : i ∈ e.scheduler.sequenceMap) (hlive : (e.scheduler.store i).Live) (t : ℕ) :
    wp (acceptToken env i t) (fun o e' => Consistent e' ∧ SameMaps e e' ∧ e'.calls = e.calls ∧
      o.seqId = i ∧ Each (fun _ l l' => l' = l.appended t) [i] e.scheduler e'.scheduler)
      (fun _ _ => False) e := by
  obtain ⟨hmem, r, hr, hrec⟩ := h.registered hi
  simp only [acceptToken, wp_bind, wp_current, wp_ite, wp_raise]
  refine ⟨fun h0 => h0 hmem, fun _ => ?_⟩
  simp only [hr, wp_bind, wp_onScheduler]
  refine wp_mono (wp_appendOutput h.inv i t) ?_ fun _ _ h0 => h0.2 hlive
  rintro _ s' ⟨hinv, hE⟩
  have hrec' : Recorded { e with scheduler := s' } r i := hrec
  refine wp_mono (wp_recordOutput t hrec') ?_ fun _ _ h0 => h0
  rintro _ e₁ ⟨hm, hcalls, hsched⟩
  simp only [wp_update, wp_current, wp_pure]
  have hm' : SameMaps e { e₁ with totalGeneratedTokens := e₁.totalGeneratedTokens + 1 } :=
    ⟨hm.nextSeqId, hm.sequences, hm.sequenceToRequestId, hm.requestToSeqIds, hm.recorded⟩
  refine ⟨h.of_shrinks hm' ?_ ?_, hm', hcalls, trivial, ?_⟩
  · show Inv e₁.scheduler
    rw [hsched]; exact hinv
  · show Shrinks e.scheduler e₁.scheduler
    rw [hsched]; exact shrinks_of_each hE
  · show Each _ _ e.scheduler e₁.scheduler
    rw [hsched]; exact hE

/-- **The tokens of a batch** are all accepted, each by its own sequence. -/
theorem wp_acceptTokens (env : Env ρ) : ∀ (pairs : List (ℕ × ℕ)) (e : ContinuousBatchingEngine β),
    Consistent e → (pairs.map Prod.fst).Nodup →
    (∀ i ∈ pairs.map Prod.fst, i ∈ e.scheduler.sequenceMap ∧ (e.scheduler.store i).Live) →
    wp (acceptTokens env pairs) (fun outputs e' => Consistent e' ∧ SameMaps e e' ∧
      e'.calls = e.calls ∧ outputs.map (·.seqId) = pairs.map Prod.fst ∧
      Each (fun i l l' => ∃ t, (i, t) ∈ pairs ∧ l' = l.appended t) (pairs.map Prod.fst) e.scheduler
        e'.scheduler) (fun _ _ => False) e
  | [], e, h, _, _ => ⟨h, SameMaps.refl e, rfl, rfl, Each.nil h.inv.wf⟩
  | (i, t) :: pairs, e, h, hnd, hlive => by
    obtain ⟨hi, hnd⟩ := List.nodup_cons.mp hnd
    obtain ⟨hreg, hli⟩ := hlive i List.mem_cons_self
    simp only [acceptTokens, wp_bind, wp_pure]
    refine wp_mono (wp_acceptToken env h hreg hli t) ?_ fun _ _ h0 => h0
    rintro o e₁ ⟨h₁, hm₁, hc₁, ho, hE₁⟩
    refine wp_mono (wp_acceptTokens env pairs e₁ h₁ hnd fun j hj => ?_) ?_ fun _ _ h0 => h0
    · obtain ⟨hreg', hlj⟩ := hlive j (List.mem_cons_of_mem i hj)
      have hstore : e₁.scheduler.store j = e.scheduler.store j := by
        refine congrArg Life.data (hE₁.other j fun h0 => hi ?_)
        rw [← List.mem_singleton.mp h0]
        exact hj
      rw [hE₁.same.sequenceMap, hstore]
      exact ⟨hreg', hlj⟩
    · rintro outputs e' ⟨h', hm', hc', hos, hE'⟩
      refine ⟨h', hm₁.trans hm', hc'.trans hc₁, ?_, ?_⟩
      · rw [List.map_cons, List.map_cons, ho, hos]
      · refine Each.cons hi (hE₁.mono fun j hj hl => ?_) (hE'.mono fun j hj hl => ?_)
        · rw [List.mem_singleton.mp hj] at hl ⊢
          exact ⟨t, List.mem_cons_self, hl⟩
        · obtain ⟨t', ht', hl⟩ := hl
          exact ⟨t', List.mem_cons_of_mem _ ht', hl⟩

end MoeInfinity.Serving.EngineInv
