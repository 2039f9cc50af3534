import MoeInfinity.Serving.EngineStep

/-! # What `schedule` selects

The result of `schedule` is right (`OutputOk`) if its three lists are disjoint and without
duplicates, the statuses fit, and every selected sequence has the blocks that its tokens need. In
runs of the engine three things break this, and nothing else does:

* recovery tries a CPU copy that does not fit, and loses it (`CopiesFit`);
* admission preempts a group that it has itself just admitted (`NoFreshVictim`);
* `update_after_step` runs out of blocks in the middle of its first loop, after the outputs have
  been appended (`GrowthFits`). -/

namespace MoeInfinity.Serving.Selection

open MoeInfinity.Python MoeInfinity.Lib.Imperative MoeInfinity.Lib.Runs
open MoeInfinity.Serving.Sequence MoeInfinity.Serving.KvCache MoeInfinity.Serving.KvCacheSpec
open MoeInfinity.Serving.Schedule MoeInfinity.Serving.Lifecycle MoeInfinity.Serving.ScheduleSpec
open MoeInfinity.Serving.ScheduleInv MoeInfinity.Serving.ScheduleCall
  MoeInfinity.Serving.ScheduleOps
open MoeInfinity.Serving.ModelRunner MoeInfinity.Serving.Engine
open MoeInfinity.Serving.Engine.ContinuousBatchingEngine MoeInfinity.Serving.EngineInv
open MoeInfinity.Serving.Callbacks MoeInfinity.Serving.EngineStep

variable {β ρ : Type}

/-! ### The property and the condition -/

/-- The result of `schedule`, in the state that `schedule` leaves. -/
structure OutputOk (s : Scheduler β) (out : SchedulerOutput) : Prop where
  prefill_nodup : out.prefillSeqIds.Nodup
  decode_nodup : out.decodeSeqIds.Nodup
  preempted_nodup : out.preemptedSeqIds.Nodup
  prefill_decode : ∀ i ∈ out.prefillSeqIds, i ∉ out.decodeSeqIds
  prefill_preempted : ∀ i ∈ out.prefillSeqIds, i ∉ out.preemptedSeqIds
  decode_preempted : ∀ i ∈ out.decodeSeqIds, i ∉ out.preemptedSeqIds
  prefill_status : ∀ i ∈ out.prefillSeqIds, (s.store i).status = .prefill
  decode_status : ∀ i ∈ out.decodeSeqIds, (s.store i).status = .decode
  prefill_blocks : ∀ i ∈ out.prefillSeqIds,
    (owned s.kvCache i).length = ceilDiv (s.store i).promptLength s.kvCache.blockSize
  decode_blocks : ∀ i ∈ out.decodeSeqIds, (owned s.kvCache i).length =
    ceilDiv ((s.store i).promptLength + (s.store i).outputTokenIds.length) s.kvCache.blockSize

/-- `schedule` returns, and its result is right. -/
def SelectsWell (e : ContinuousBatchingEngine β) : Op → Prop
  | .step predict => wp (Scheduler.schedule predict) (fun out s' => OutputOk s' out)
      (fun _ _ => False) e.scheduler
  | _ => True

/-- When `update_after_step` is called, the free blocks suffice for the sequences that grow. -/
def GrowthFits (env : Env ρ) (predict : Option (String → List ℕ → ℚ))
    (e : ContinuousBatchingEngine β) : Prop :=
  match (stepTokens env predict).run e with
  | (e₁, .ok (some outputs)) => growthNeed e₁.scheduler (completedSeqIds outputs)
      (newDecodeSeqIds outputs) ≤ e₁.scheduler.numFreeBlocks
  | _ => True

instance (env : Env ρ) (predict : Option (String → List ℕ → ℚ)) (e : ContinuousBatchingEngine β) :
    Decidable (GrowthFits env predict e) := by
  unfold GrowthFits
  split <;> infer_instance

/-- The condition on a step, in the state before it. -/
def Uncrowded (env : Env ρ) (e : ContinuousBatchingEngine β) : Op → Prop
  | .step predict =>
    CopiesFit e.scheduler ∧ NoFreshVictim predict e.scheduler ∧ GrowthFits env predict e
  | _ => True

instance (env : Env ρ) (e : ContinuousBatchingEngine β) : ∀ o : Op, Decidable (Uncrowded env e o)
  | .step _ => inferInstanceAs (Decidable (_ ∧ _))
  | .addRequest _ _ _ _ _ => isTrue trivial
  | .abortRequest _ => isTrue trivial

/-! ### The invariant -/

/-- Every sequence has the blocks that its tokens need. -/
def AlignedAll (s : Scheduler β) : Prop := ∀ i, (life s i).Aligned s.kvCache.blockSize

theorem aligned_event {k : ℕ} {l l' : Life β} (h : l.Aligned k) (he : Event k l l') :
    l'.Aligned k := by
  cases he with
  | enter hok hst he =>
    obtain ⟨rows, hrows, rfl⟩ := he
    exact h.admitted hst hrows
  | preempt hok hst he =>
    subst he
    exact h.preempted hok hst

theorem aligned_events {k : ℕ} {l l' : Life β} (h : l.Aligned k)
    (he : Relation.ReflTransGen (Event k) l l') : l'.Aligned k := by
  induction he with
  | refl => exact h
  | tail _ hlast ih => exact aligned_event ih hlast

/-- `schedule` keeps the blocks of all sequences in line, if the CPU copies fit. -/
theorem aligned_scheduled {predict : Option (String → List ℕ → ℚ)} {s s' : Scheduler β}
    {out : SchedulerOutput} (h : Inv s) (ha : AlignedAll s) (hfit : CopiesFit s)
    (hs : Scheduled predict s out s') : AlignedAll s' := by
  intro i
  rw [hs.blockSize]
  obtain ⟨l, hret, hev⟩ := hs.lives i
  refine aligned_events ?_ hev
  rcases hret with rfl | ⟨hst, rfl | ⟨hF, -⟩⟩
  · exact ha i
  · exact (ha i).recovered (h.ok i) hst
  · exact absurd hfit hF

/-- The output of a `schedule` that serves all groups is right. -/
theorem outputOk_scheduled {predict : Option (String → List ℕ → ℚ)} {s s' : Scheduler β}
    {out : SchedulerOutput} (h : Inv s) (ha : AlignedAll s) (hfit : CopiesFit s)
    (hserve : NoFreshVictim predict s) (hs : Scheduled predict s out s') : OutputOk s' out := by
  have hkept := hs.kept hfit hserve
  have ha' := aligned_scheduled h ha hfit hs
  have hlen : ∀ i, (owned s'.kvCache i).length = (life s' i).share.rows.length := fun i =>
    (share_rows_length s'.kvCache i).symm
  refine ⟨hs.prefill_nodup, hs.decode_nodup, hs.preempted_nodup, fun i hi hi' => ?_,
    fun i hi hi' => ?_, fun i hi hi' => ?_, hkept, hs.decode, fun i hi => ?_, fun i hi => ?_⟩
  · have h1 := hkept i hi
    rw [hs.decode i hi'] at h1; cases h1
  · have h1 := hkept i hi
    rw [hs.preempted i hi'] at h1; cases h1
  · have h1 := hs.decode i hi
    rw [hs.preempted i hi'] at h1; cases h1
  · have hal := ha' i
    have hst : (life s' i).data.status = .prefill := hkept i hi
    simp only [Life.Aligned, hst] at hal
    obtain ⟨hout, -, hrows⟩ := hal
    rw [hlen, hrows, numTokens, hout]
    rfl
  · have hal := ha' i
    have hst : (life s' i).data.status = .decode := hs.decode i hi
    simp only [Life.Aligned, hst] at hal
    rw [hlen, hal.2]
    rfl

/-! ### After the tokens -/

theorem mem_batch_iff {outputs : List RequestOutput} {ids : List ℕ}
    (h : outputs.map (·.seqId) = ids) (i : ℕ) :
    i ∈ ids ↔ i ∈ completedSeqIds outputs ∨ i ∈ newDecodeSeqIds outputs := by
  subst h
  simp only [completedSeqIds, newDecodeSeqIds, List.mem_map, List.mem_filter]
  constructor
  · rintro ⟨o, ho, rfl⟩
    cases hf : o.finished with
    | true => exact Or.inl ⟨o, ⟨ho, hf⟩, rfl⟩
    | false => exact Or.inr ⟨o, ⟨ho, by rw [hf]; rfl⟩, rfl⟩
  · rintro (⟨o, ⟨ho, -⟩, rfl⟩ | ⟨o, ⟨ho, -⟩, rfl⟩)
    · exact ⟨o, ho, rfl⟩
    · exact ⟨o, ho, rfl⟩

/-- A running sequence that has got a token and then grows is in line again. -/
theorem aligned_grown {k : ℕ} (hk : 0 < k) {l l' : Life β} (h : l.Aligned k)
    (hst : Active l.data.status) {t : ℕ} (hg : Grown k (l.appended t) l') : l'.Aligned k := by
  obtain ⟨htok, hrows⟩ := h.active hst
  obtain ⟨n, new, hn, hnew, rfl⟩ := hg
  have hn : some (numTokens l.data) = some n := htok.symm.trans hn
  have hcount : numTokens (l.appended t).data = n + 1 := by
    rw [← Option.some.inj hn]
    simp only [numTokens, Life.appended, List.length_append, List.length_singleton]
    omega
  refine ⟨congrArg some hcount.symm, ?_⟩
  show (l.share.rows ++ new).length = ceilDiv (numTokens (l.appended t).data) k
  rw [hcount, List.length_append, hrows, hnew, Option.some.inj hn, ceilDiv_succ hk]

/-- `update_after_step` brings every sequence of the batch back in line. -/
theorem aligned_closing {env : Env ρ} {predict : Option (String → List ℕ → ℚ)}
    {e e₁ : ContinuousBatchingEngine β} {out : SchedulerOutput} {s₁ : Scheduler β}
    {tokens : List ℕ} {outputs : List RequestOutput}
    (hacc : Accepted env predict e out s₁ tokens outputs e₁) (ha : AlignedAll s₁)
    (hact : ∀ i ∈ batchIds out, Active (s₁.store i).status)
    (hroom : growthNeed e₁.scheduler (completedSeqIds outputs) (newDecodeSeqIds outputs) ≤
      e₁.scheduler.numFreeBlocks) :
    AlignedAll ((Scheduler.updateAfterStep (completedSeqIds outputs)
      (newDecodeSeqIds outputs)).state e₁.scheduler) := by
  have hinv := hacc.consistent.inv
  have hids := mem_batch_iff hacc.outputs
  have hlife : ∀ i ∈ batchIds out, ∃ t, life e₁.scheduler i = (life s₁ i).appended t := by
    intro i hi
    obtain ⟨t, -, hl⟩ := hacc.lives.each i hi
    exact ⟨t, hl⟩
  have hstatus : ∀ i ∈ batchIds out, Active (e₁.scheduler.store i).status := by
    intro i hi
    obtain ⟨t, hl⟩ := hlife i hi
    rw [show e₁.scheduler.store i = ((life s₁ i).appended t).data from congrArg Life.data hl]
    exact hact i hi
  have hreg : ∀ i ∈ batchIds out, i ∈ e₁.scheduler.sequenceMap := fun i hi =>
    hinv.registered i (hstatus i hi).hasTable
  refine inv_of_wp (I := AlignedAll)
    (wp_mono (wp_updateAfterStep (completedSeqIds outputs) (newDecodeSeqIds outputs) hinv) ?_ ?_)
  · rintro _ s' ⟨s₂, s₃, hE, hE', rfl⟩ i
    have hk₃ : s₃.kvCache.blockSize = s₁.kvCache.blockSize :=
      (hE'.same.blockSize.trans hE.same.blockSize).trans hacc.lives.same.blockSize
    rw [life_prune, (shrinks_prune s₃).blockSize, hk₃]
    by_cases hdone : i ∈ completedSeqIds outputs
    · -- a completed sequence ends
      have hi : i ∈ batchIds out := (hids i).mpr (Or.inl hdone)
      have hclosed := hE'.each i (mem_fromkeys.mpr hdone)
      unfold Closed at hclosed
      rw [if_pos (by rw [hE.same.sequenceMap]; exact hreg i hi)] at hclosed
      have h₂ : Inv s₂ :=
        (inv_of_each hinv hE fun j _ l hl => interrupted_spec hinv (Or.inl hl)).1
      have hst := (ended_spec h₂ (Or.inl rfl) hclosed.2).2.2
      rw [hclosed.2] at hst ⊢
      exact Life.Aligned.of_ended hst
    · rw [hE'.other i fun h0 => hdone (mem_fromkeys.mp h0)]
      by_cases hnew : i ∈ newDecodeSeqIds outputs
      · -- the others grow
        have hi : i ∈ batchIds out := (hids i).mpr (Or.inr hnew)
        have hupd := hE.each i (mem_fromkeys.mpr hnew)
        unfold Updated at hupd
        rw [if_pos ⟨hreg i hi, hdone, hstatus i hi⟩] at hupd
        obtain ⟨t, hl⟩ := hlife i hi
        rw [hl, hacc.lives.same.blockSize] at hupd
        exact aligned_grown s₁.kvCache.blockAllocator.cfg.blockSize_pos (ha i) (hact i hi) hupd
      · rw [hE.other i fun h0 => hnew (mem_fromkeys.mp h0),
          hacc.lives.other i fun h0 => ((hids i).mp h0).elim hdone hnew]
        exact ha i
  · rintro err s' (⟨hlt, -⟩ | ⟨s₂, hE, ⟨i, hi, hmem, hst⟩, -⟩)
    · omega
    · -- a completed sequence is not waiting
      have hb : i ∈ batchIds out := (hids i).mpr (Or.inl hi)
      have hstore := statusOnly_each hE (fun _ _ _ hl => statusOnly_interrupted (Or.inl hl)) i
      have hw := hstore.2 hst
      rcases hstatus i hb with h1 | h1 <;> rw [hw] at h1 <;> cases h1

/-! ### Runs -/

/-- The invariant of uncrowded runs. -/
structure InLine (e : ContinuousBatchingEngine β) : Prop where
  consistent : Consistent e
  aligned : AlignedAll e.scheduler

theorem inLine_start (cfg : SchedConfig) (kvCfg : KvConfig) (kv : ℕ → β) :
    InLine (start cfg kvCfg kv) := ⟨consistent_new cfg kvCfg kv, fun _ => rfl⟩

theorem InLine.selectsWell {env : Env ρ} {e : ContinuousBatchingEngine β} (h : InLine e) {o : Op}
    (hu : Uncrowded env e o) : SelectsWell e o := by
  cases o with
  | step predict =>
    exact wp_mono (wp_schedule predict h.consistent.inv)
      (fun out s' hs => outputOk_scheduled h.consistent.inv h.aligned hu.1 hu.2.1 hs)
      fun _ _ h0 => h0
  | addRequest rid prompt params n onToken => exact trivial
  | abortRequest rid => exact trivial

/-- The sequences of an uncrowded batch run. -/
theorem active_batch {predict : Option (String → List ℕ → ℚ)} {s s₁ : Scheduler β}
    {out : SchedulerOutput} (hfit : CopiesFit s) (hserve : NoFreshVictim predict s)
    (hs : Scheduled predict s out s₁) : ∀ i ∈ batchIds out, Active (s₁.store i).status := by
  intro i hi
  rcases List.mem_append.mp hi with hi | hi
  · exact Or.inl (hs.kept hfit hserve i hi)
  · exact Or.inr (hs.decode i hi)

theorem InLine.aligned_step {env : Env ρ} {e : ContinuousBatchingEngine β} (h : InLine e)
    {predict : Option (String → List ℕ → ℚ)} (hu : Uncrowded env e (.step predict)) :
    AlignedAll (runOp env e (.step predict)).scheduler := by
  obtain ⟨hfit, hserve, hgrow⟩ := hu
  have htokens := wp_stepTokens env predict h.consistent
  have hhalt : ∀ e' : ContinuousBatchingEngine β, (∃ out, Halted env predict e out e') →
      AlignedAll e'.scheduler := fun e' ⟨out, h0⟩ =>
    aligned_scheduled h.consistent.inv h.aligned hfit h0.scheduled
  refine inv_of_wp (I := fun e' : ContinuousBatchingEngine β => AlignedAll e'.scheduler) ?_
  rw [ContinuousBatchingEngine.step, wp_bind]
  cases hrun : (stepTokens env predict).run e with
  | mk e₁ r =>
    cases r with
    | error err => exact wp_of_error hrun (hhalt e₁ ((wp_error htokens hrun).imp fun _ h0 => h0.1))
    | ok r =>
      refine wp_of_eq hrun ?_
      have hr := wp_ok htokens hrun
      cases r with
      | none => exact hhalt e₁ hr
      | some outputs =>
        obtain ⟨out, s₁, tokens, hacc⟩ := hr
        unfold GrowthFits at hgrow
        rw [hrun] at hgrow
        simp only [wp_bind, wp_onScheduler, wp_update, wp_pure]
        have hclosing := wp_of_state (aligned_closing hacc
          (aligned_scheduled h.consistent.inv h.aligned hfit hacc.scheduled)
          (active_batch hfit hserve hacc.scheduled) hgrow)
        exact wp_mono hclosing (fun _ s' hs' => wp_announce_scheduler env outputs hs')
          fun _ _ hs' => hs'

/-- **One operation** of an uncrowded run keeps the invariant. -/
theorem InLine.runOp {env : Env ρ} {e : ContinuousBatchingEngine β} (h : InLine e) {o : Op}
    (hu : Uncrowded env e o) : InLine (runOp env e o) := by
  refine ⟨consistent_runOp env h.consistent o, ?_⟩
  cases o with
  | step predict => exact h.aligned_step hu
  | addRequest rid prompt params n onToken =>
    rcases add_cases rid prompt params n onToken h.consistent env with h0 | ⟨-, h0⟩
    · rw [h0]; exact h.aligned
    · intro i
      rw [h0.blockSize]
      by_cases hi : e.nextSeqId ≤ i ∧ i < e.nextSeqId + n
      · unfold life
        rw [h0.new i hi.1 hi.2]
        exact rfl
      · unfold life
        rw [h0.other i hi, h0.share i]
        exact h.aligned i
  | abortRequest rid =>
    obtain ⟨-, -, -, hk, hlives⟩ := abort_cases rid h.consistent env
    intro i
    rw [hk]
    rcases hlives i with h0 | h0
    · rw [h0]; exact h.aligned i
    · have hst := (ended_spec h.consistent.inv (Or.inr rfl) h0).2.2
      rw [h0] at hst ⊢
      exact Life.Aligned.of_ended hst

/-- **`schedule` selects well** at every step of a run in which at every step the CPU copies fit, no
group is preempted by the call that admits it, and the blocks suffice for the growth. -/
theorem selectsWell_of_uncrowded (env : Env ρ) (cfg : SchedConfig) (kvCfg : KvConfig) (kv : ℕ → β)
    (ops : List Op) (h : Along (runOp env) (Uncrowded env) (start cfg kvCfg kv) ops) :
    Along (runOp env) SelectsWell (start cfg kvCfg kv) ops :=
  along_of_inv (fun _ _ hs hu => hs.runOp hu) (fun _ _ hs hu => hs.selectsWell hu) ops _
    (inLine_start cfg kvCfg kv) h

/-! ### Both cases at a small pool -/

theorem four_slots : 0 < 4 := by decide

theorem eight_sequences : 0 < 8 := by decide

theorem sixtyFour_tokens : 0 < 64 := by decide

/-- A model whose logits are the tokens themselves: every sequence repeats its last token. -/
def repeatLast : Env ℕ where
  pagedClasses := false
  hasBackend := false
  runnerBlockSize := 4
  runnerBlockSize_pos := four_slots
  forward := fun _ inputs => .ok (.rank3 inputs.inputIds)
  argmax := id
  draw := fun _ row _ => row
  eosTokenId := none
  decodeTokens := fun _ => none

/-- An engine with `n` blocks of four slots. -/
def engineWith (n : ℕ) (hn : 0 < n) : ContinuousBatchingEngine ℕ :=
  start ⟨8, 64, eight_sequences, sixtyFour_tokens⟩ ⟨n, 4, hn, four_slots⟩ fun b => b

/-- A request that needs a second block for its last token. -/
def growingRequest : List Op :=
  [.addRequest "a" [1, 2, 3] { temperature := 0, maxTokens := 3 } 1 none, .step none,
    .step none, .step none]

theorem selectsWell_growingRequest :
    Along (runOp repeatLast) (Uncrowded repeatLast) (engineWith 2 (by decide)) growingRequest ∧
      Along (runOp repeatLast) SelectsWell (engineWith 2 (by decide)) growingRequest ∧
      ((exec (runOp repeatLast) (engineWith 2 (by decide)) growingRequest).scheduler.store
        0).outputTokenIds = [3, 3, 3] :=
  ⟨by decide, selectsWell_of_uncrowded _ _ _ _ _ (by decide), by decide⟩

/-- Two requests, each of one block. -/
def twoRequests : List Op :=
  [.addRequest "a" [1, 2] { temperature := 0 } 1 none,
    .addRequest "b" [3, 4] { temperature := 0 } 1 none]

/-- With one block, `schedule` admits sequence `0`, preempts it again for sequence `1`, and still
lists it for prefill. -/
theorem prefill_of_preempted : ¬ ∀ (env : Env ℕ) (cfg : SchedConfig) (kvCfg : KvConfig) (kv : ℕ → ℕ)
    (ops : List Op), Along (runOp env) SelectsWell (start cfg kvCfg kv) ops := by
  intro h
  have hrun : Along (runOp repeatLast) SelectsWell (engineWith 1 (by decide))
      (twoRequests ++ [.step none]) :=
    h repeatLast ⟨8, 64, by decide, by decide⟩ ⟨1, 4, by decide, by decide⟩ (fun b => b) _
  have hlast := (along_append.mp hrun).2.1
  have hout : ((Scheduler.schedule none).run (exec (runOp repeatLast) (engineWith 1 (by decide))
      twoRequests).scheduler).2 = .ok ⟨[0, 1], [], [0], 4, 0⟩ := by decide
  unfold SelectsWell at hlast
  have hok := wp_ok hlast (Prod.ext rfl hout)
  exact hok.prefill_preempted 0 (by decide) (by decide)

end MoeInfinity.Serving.Selection
