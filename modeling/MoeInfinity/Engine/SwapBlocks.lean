import MoeInfinity.Engine.KvOps

/-! # Runs of the engine scheduler and the CPU blocks

Runs of `add_request`, `schedule`, `finish_request` and `abort_request`, over any transfer
scheduler. The manager is where the steps in `issued` lead, and each of them does what is required
as long as every swap-out meets `FreshKeys` (`swapsWell_of_freshKeys`).

The map from GPU ids to CPU blocks is shared, and a swap-out frees the GPU blocks. When the next
request gets the same GPU blocks and is swapped out too, it takes over the keys of the first one:
both now have the same CPU block, and the CPU block of the first is lost
(`two_copies_one_block`). -/

namespace MoeInfinity.Engine.SwapBlocks

open MoeInfinity.Python MoeInfinity.Lib.Imperative MoeInfinity.Lib.Runs
open MoeInfinity.Memory.Blocks MoeInfinity.Memory.KvManager
open MoeInfinity.Memory.SwapRecords MoeInfinity.Memory.KvManagerSpec
open MoeInfinity.Engine.Transfer MoeInfinity.Engine.Schedule MoeInfinity.Engine.Schedule.Scheduler
open MoeInfinity.Engine.KvOps

variable {τ : Type}

/-! ### Runs -/

/-- The operations of a run. -/
inductive Op where
  | addRequest (request : Request)
  | schedule (predict : Option (String → List ℕ → ℚ))
  | finishRequest (requestId : String)
  | abortRequest (requestId : String)

/-- One operation; when it raises, the state it has reached is kept. -/
def step (env : Env τ) (s : Scheduler τ) : Op → Scheduler τ
  | .addRequest r => s.addRequest r
  | .schedule predict => (Scheduler.schedule env predict).state s
  | .finishRequest rid => (Scheduler.finishRequest env rid).state s
  | .abortRequest rid => (Scheduler.abortRequest env rid).state s

/-- A request is added under an id that no queued request has. -/
def NewId (s : Scheduler τ) : Op → Prop
  | .addRequest r => ∀ r' ∈ s.waiting ++ s.running ++ s.swapped, r'.requestId ≠ r.requestId
  | _ => True

instance (s : Scheduler τ) : ∀ o : Op, Decidable (NewId s o)
  | .addRequest _ => inferInstanceAs (Decidable (∀ _ ∈ _, _))
  | .schedule _ => isTrue trivial
  | .finishRequest _ => isTrue trivial
  | .abortRequest _ => isTrue trivial

/-! ### How often an id is queued -/

/-- The number of requests with the id `i`. -/
def named (i : String) (q : List Request) : ℕ := q.countP fun r => r.requestId = i

@[simp] theorem named_nil (i : String) : named i [] = 0 := rfl

@[simp] theorem named_cons (i : String) (r : Request) (q : List Request) :
    named i (r :: q) = named i q + if r.requestId = i then 1 else 0 := by
  simp [named, List.countP_cons]

@[simp] theorem named_append (i : String) (q q' : List Request) :
    named i (q ++ q') = named i q + named i q' := List.countP_append

theorem named_pos {q : List Request} {r : Request} (h : r ∈ q) : 0 < named r.requestId q :=
  List.countP_pos_iff.mpr ⟨r, h, by simp⟩

theorem named_eq_zero {i : String} {q : List Request} (h : ∀ r ∈ q, r.requestId ≠ i) :
    named i q = 0 :=
  List.countP_eq_zero.mpr fun r hr => by simpa using h r hr

theorem named_filter_le (i : String) (p : Request → Bool) (q : List Request) :
    named i (q.filter p) ≤ named i q := List.Sublist.countP_le List.filter_sublist

theorem named_perm {i : String} {q q' : List Request} (h : q.Perm q') : named i q = named i q' :=
  h.countP_eq _

theorem requestId_transitionTo {r r' : Request} {st : SequenceStatus}
    (h : r.transitionTo st = .ok r') :
    r'.requestId = r.requestId := by
  unfold Request.transitionTo at h
  split_ifs at h
  cases h
  rfl

/-! ### The invariant -/

/-- The request is flagged, or the scheduler knows the GPU ids its copy is recorded under. -/
def Sync (s : Scheduler τ) (i : String) : Prop :=
  i ∈ s.swapNeedsReprefill ∨ s.swappedGpuIds i = s.kvMgr.seqToSwappedGpuBlocks i

/-- Within a call, `pending` are swapped requests that are not in the queue, and `other` are
requests in the hands of the call. -/
structure Live (env : Env τ) (k₀ : KVCacheManager) (pending other : List Request)
    (s : Scheduler τ) :
    Prop where
  once : ∀ i, named i s.waiting + named i s.running + named i s.swapped + named i pending +
    named i other ≤ 1
  synced : ∀ r, r ∈ s.swapped ∨ r ∈ pending → Sync s r.requestId
  sound : Sound s.kvMgr
  run : s.kvMgr = exec (kvStep env.hashBlockTokens) k₀ s.issued
  good : Along (kvStep env.hashBlockTokens) FreshKeys k₀ s.issued → Kept (records s.kvMgr) ∧
    Along (kvStep env.hashBlockTokens) (SwapsWell env.hashBlockTokens) k₀ s.issued

section

variable {env : Env τ} {k₀ : KVCacheManager} {pending other : List Request} {s : Scheduler τ}
  {x : Request}

theorem Live.ne (h : Live env k₀ pending other s) (hx : x ∈ other) {r : Request}
    (hr : r ∈ s.swapped ∨ r ∈ pending) : r.requestId ≠ x.requestId := by
  intro heq
  have h1 := h.once x.requestId
  have h2 := named_pos hx
  rcases hr with hr | hr
  · have h3 := named_pos hr
    rw [heq] at h3
    omega
  · have h3 := named_pos hr
    rw [heq] at h3
    omega

theorem Live.mono {pending' other' : List Request} (h : Live env k₀ pending other s)
    (hsub : ∀ r ∈ pending', r ∈ pending)
    (hle : ∀ i, named i pending' + named i other' ≤ named i pending + named i other) :
    Live env k₀ pending' other' s := by
  refine ⟨fun i => ?_, fun r hr => h.synced r (hr.imp_right (hsub r)), h.sound, h.run, h.good⟩
  have h1 := h.once i
  have h2 := hle i
  omega

theorem Live.forget (h : Live env k₀ pending other s) : Live env k₀ [] [] s :=
  h.mono (fun _ h0 => by cases h0) fun i => by simp

/-- What the scheduler keeps for other purposes does not matter. -/
theorem Live.congr {s' : Scheduler τ} (h : Live env k₀ pending other s)
    (hw : s'.waiting = s.waiting) (hr : s'.running = s.running) (hs : s'.swapped = s.swapped)
    (hk : s'.kvMgr = s.kvMgr) (hi : s'.issued = s.issued)
    (hsync : ∀ r, r ∈ s.swapped ∨ r ∈ pending → Sync s r.requestId → Sync s' r.requestId) :
    Live env k₀ pending other s' := by
  refine ⟨fun i => ?_, fun r hr' => ?_, ?_, ?_, ?_⟩
  · rw [hw, hr, hs]; exact h.once i
  · rw [hs] at hr'
    exact hsync r hr' (h.synced r hr')
  · rw [hk]; exact h.sound
  · rw [hk, hi]; exact h.run
  · rw [hk, hi]; exact h.good

theorem Live.transfer (h : Live env k₀ pending other s) (t : τ) :
    Live env k₀ pending other { s with transfer := t } :=
  ⟨h.once, h.synced, h.sound, h.run, h.good⟩

theorem Live.dropBlockHashes (h : Live env k₀ pending other s) (i : String) :
    Live env k₀ pending other (dropBlockHashes i s) :=
  ⟨h.once, h.synced, h.sound, h.run, h.good⟩

theorem Live.noteMove (h : Live env k₀ pending other s) (i : String) (b : Bool) (ids : List ℕ)
    (s₀ : Scheduler τ) : Live env k₀ pending other (noteMove i b ids s₀ s) := by
  unfold Scheduler.noteMove
  split_ifs
  · exact h
  · exact ⟨h.once, h.synced, h.sound, h.run, h.good⟩

theorem Live.setGenerated (h : Live env k₀ pending other s) (f : String → Option ℕ) :
    Live env k₀ pending other { s with seqGeneratedTokens := f } :=
  ⟨h.once, h.synced, h.sound, h.run, h.good⟩

theorem Live.setSwappedGpuIds (h : Live env k₀ pending other s) (hx : x ∈ other)
    (ids : Option (List ℕ)) : Live env k₀ pending other (setSwappedGpuIds x.requestId ids s) := by
  refine h.congr rfl rfl rfl rfl rfl fun r hr hsync => hsync.imp_right fun h0 => ?_
  exact (Function.update_of_ne (h.ne hx hr) _ _).trans h0

theorem Live.flag (h : Live env k₀ pending other s) (i : String) :
    Live env k₀ pending other (flag i s) :=
  h.congr rfl rfl rfl rfl rfl fun _ _ hsync => hsync.imp_left fun h0 => Finset.mem_insert_of_mem h0

theorem Live.unflag (h : Live env k₀ pending other s) (hx : x ∈ other) :
    Live env k₀ pending other (unflag x.requestId s) :=
  h.congr rfl rfl rfl rfl rfl fun _ hr hsync =>
    hsync.imp_left fun h0 => Finset.mem_erase.mpr ⟨h.ne hx hr, h0⟩

/-- **A step of the manager** that keeps the copies of the swapped requests. -/
theorem Live.issue (h : Live env k₀ pending other s) (op : KvOp) (hask : AsksRecorded s.kvMgr op)
    (hsame : ∀ r, r ∈ s.swapped ∨ r ∈ pending →
      (kvStep env.hashBlockTokens s.kvMgr op).seqToSwappedGpuBlocks r.requestId =
        s.kvMgr.seqToSwappedGpuBlocks r.requestId) :
    Live env k₀ pending other
      { issue op s with kvMgr := kvStep env.hashBlockTokens s.kvMgr op } := by
  refine ⟨h.once, fun r hr => ?_, sound_kvStep _ h.sound op, ?_, fun hf => ?_⟩
  · exact (h.synced r hr).imp_right fun h0 => h0.trans (hsame r hr).symm
  · change kvStep env.hashBlockTokens s.kvMgr op = exec _ k₀ (s.issued ++ [op])
    rw [exec_append, ← h.run]
    rfl
  · have hf : Along (kvStep env.hashBlockTokens) FreshKeys k₀ (s.issued ++ [op]) := hf
    rw [along_append, ← h.run] at hf
    obtain ⟨hf, hop, -⟩ := hf
    obtain ⟨hk, hgood⟩ := h.good hf
    have hk' := kept_kvStep env.hashBlockTokens h.sound hk hop hask
    refine ⟨hk', ?_⟩
    change Along _ _ k₀ (s.issued ++ [op])
    rw [along_append, ← h.run]
    exact ⟨hgood, ⟨accounted_of_kept (sound_kvStep _ h.sound op) hk',
      returnsGiven_of_kept h.sound hk hask⟩, trivial⟩

/-- A step of the manager for a request in hand. -/
theorem Live.issueOwn (h : Live env k₀ pending other s) (hx : x ∈ other) (op : KvOp)
    (hop : seqIdOf op = x.requestId) (hask : AsksRecorded s.kvMgr op) :
    Live env k₀ pending other
      { Scheduler.issue op s with kvMgr := kvStep env.hashBlockTokens s.kvMgr op } :=
  h.issue op hask fun r hr => swapped_kvStep_of_ne _ h.sound (by rw [hop]; exact h.ne hx hr)

/-! ### Small programs -/

theorem wp_onKv {α : Type} {m : Prog PyError KVCacheManager α} {k k' : KVCacheManager} {a : α}
    (hk : s.kvMgr = k) (hm : m.run k = (k', .ok a)) {Q : α → Scheduler τ → Prop}
    {R : PyError → Scheduler τ → Prop} (hQ : Q a { s with kvMgr := k' }) : wp (onKv m) Q R s := by
  rw [onKv, wp_zoom, hk]
  exact wp_of_eq hm hQ

theorem wp_onKv_state {α : Type} {m : Prog PyError KVCacheManager α} {I : Scheduler τ → Prop}
    (h : I { s with kvMgr := m.state s.kvMgr }) : wp (onKv m) (fun _ => I) (fun _ => I) s := by
  rw [onKv, wp_zoom]
  exact wp_of_state (I := fun k => I { s with kvMgr := k }) h

theorem wp_onTransfer {α : Type} {f : τ → α × τ} {Q : α → Scheduler τ → Prop}
    {R : PyError → Scheduler τ → Prop} :
    wp (onTransfer f) Q R s ↔ Q (f s.transfer).1 { s with transfer := (f s.transfer).2 } := Iff.rfl

theorem wp_freeSequence (h : Live env k₀ pending other s) (hx : x ∈ other) :
    wp (Scheduler.freeSequence x.requestId) (fun _ => Live env k₀ pending other)
      (fun _ => Live env k₀ pending other) s := by
  simp only [Scheduler.freeSequence, wp_bind, wp_update]
  exact wp_onKv_state (I := Live env k₀ pending other)
    (h.issueOwn hx (.freeSequence x.requestId) rfl trivial)

theorem wp_toSwapped {Q : Unit → Scheduler τ → Prop} {R : PyError → Scheduler τ → Prop}
    (hR : ∀ e, R e s) (hQ : ∀ x' : Request, x'.requestId = x.requestId →
      Q () { s with swapped := s.swapped ++ [x'] }) : wp (toSwapped x) Q R s := by
  simp only [toSwapped, wp_bind]
  cases hx : x.transitionTo .swapped with
  | error e => exact hR e
  | ok x' => exact hQ x' (requestId_transitionTo hx)

theorem wp_toWaiting {Q : Unit → Scheduler τ → Prop} {R : PyError → Scheduler τ → Prop}
    (hR : ∀ e, R e s) (hQ : ∀ x' : Request, x'.requestId = x.requestId →
      Q () { s with waiting := x' :: s.waiting }) : wp (toWaiting x) Q R s := by
  simp only [toWaiting, wp_bind]
  cases hx : x.transitionTo .waiting with
  | error e => exact hR e
  | ok x' => exact hQ x' (requestId_transitionTo hx)

theorem wp_toRunning {Q : Unit → Scheduler τ → Prop} {R : PyError → Scheduler τ → Prop}
    (hR : ∀ e, R e s) (hQ : ∀ x' : Request, x'.requestId = x.requestId →
      Q () { s with running := s.running ++ [x'] }) : wp (toRunning x) Q R s := by
  simp only [toRunning, wp_bind]
  cases hx : x.transitionTo .waiting with
  | error e => exact hR e
  | ok x₁ =>
    simp only [wp_ofExcept_ok]
    cases hx₁ : x₁.transitionTo .running with
    | error e => exact hR e
    | ok x' => exact hQ x' ((requestId_transitionTo hx₁).trans (requestId_transitionTo hx))

theorem Live.toSwapped (h : Live env k₀ pending (x :: other) s) (hsync : Sync s x.requestId)
    {x' : Request} (hx' : x'.requestId = x.requestId) :
    Live env k₀ pending other { s with swapped := s.swapped ++ [x'] } := by
  refine ⟨fun i => ?_, fun r hr => ?_, h.sound, h.run, h.good⟩
  · have h1 := h.once i
    simp only [named_append, named_cons, named_nil, hx'] at h1 ⊢
    omega
  · rcases hr with hr | hr
    · rcases List.mem_append.mp hr with hr | hr
      · exact h.synced r (Or.inl hr)
      · rw [List.mem_singleton.mp hr, hx']; exact hsync
    · exact h.synced r (Or.inr hr)

theorem Live.toWaiting (h : Live env k₀ pending (x :: other) s) {x' : Request}
    (hx' : x'.requestId = x.requestId) :
    Live env k₀ pending other { s with waiting := x' :: s.waiting } := by
  refine ⟨fun i => ?_, h.synced, h.sound, h.run, h.good⟩
  have h1 := h.once i
  simp only [named_cons, hx'] at h1 ⊢
  omega

theorem Live.toRunning (h : Live env k₀ pending (x :: other) s) {x' : Request}
    (hx' : x'.requestId = x.requestId) :
    Live env k₀ pending other { s with running := s.running ++ [x'] } := by
  refine ⟨fun i => ?_, h.synced, h.sound, h.run, h.good⟩
  have h1 := h.once i
  simp only [named_append, named_cons, named_nil, hx'] at h1 ⊢
  omega

/-! ### Preemption -/

theorem wp_transferOut {k₂ : KVCacheManager} {pairs : List (ℕ × ℕ)}
    (hrun : (KVCacheManager.commitSwapOut x.requestId pairs).run s.kvMgr = (k₂, .ok ()))
    (hlive : Live env k₀ pending (x :: other) { s with kvMgr := k₂ })
    (hsync : Sync { s with kvMgr := k₂ } x.requestId) :
    wp (transferOut env x.requestId pairs)
      (fun _ s' => Live env k₀ pending (x :: other) s' ∧ Sync s' x.requestId)
      (fun _ => Live env k₀ [] []) s := by
  have hx : x ∈ x :: other := List.mem_cons_self
  unfold transferOut
  cases env.transferScheduler with
  | none => exact wp_onKv (by rfl) hrun ⟨hlive, hsync⟩
  | some ts =>
    simp only [wp_bind, wp_onTransfer, wp_ite]
    refine ⟨fun _ => wp_onKv (by rfl) hrun ⟨hlive.transfer _, hsync⟩, fun _ => ?_⟩
    refine wp_onKv (by rfl) hrun ?_
    simp only [wp_update]
    refine wp_mono (wp_freeSequence ((hlive.transfer _).dropBlockHashes x.requestId) hx) ?_
      fun _ _ h0 => h0.forget
    intro _ s₃ h₃
    exact ⟨(h₃.setSwappedGpuIds hx none).flag x.requestId, Or.inl (Finset.mem_insert_self _ _)⟩

/-- **Preemption** of a request in hand. -/
theorem wp_preemptWithTransfer (h : Live env k₀ pending (x :: other) s) :
    wp (preemptWithTransfer env x) (fun _ => Live env k₀ pending other)
      (fun _ => Live env k₀ [] []) s := by
  have hx : x ∈ x :: other := List.mem_cons_self
  have hlive := h.issueOwn hx (.swapOut x.requestId) rfl trivial
  have hkv : kvStep env.hashBlockTokens s.kvMgr (.swapOut x.requestId) =
    (swapOut x.requestId).state s.kvMgr := rfl
  obtain ⟨k₁, pairs, hrun, -, hcase⟩ := swapOut_run h.sound x.requestId
  simp only [preemptWithTransfer, wp_bind, wp_current, wp_update]
  refine wp_onKv (by rfl) hrun ?_
  rcases hcase with ⟨hp, hst, -, -⟩ | ⟨hp, hfst, -, -, k₂, hrun₂, hst, -, hrec⟩
  · rw [hkv, hst] at hlive
    simp only [wp_ite, hp, forall_const, not_true, false_imp_iff, and_true, wp_bind, wp_update]
    refine wp_mono (wp_freeSequence (hlive.dropBlockHashes x.requestId) hx) ?_
      fun _ _ h0 => h0.forget
    intro _ s₃ h₃
    refine wp_toSwapped (fun _ => h₃.forget) fun x' hx' => ?_
    exact (h₃.flag x.requestId).toSwapped (Or.inl (Finset.mem_insert_self _ _)) hx'
  · rw [hkv, hst] at hlive
    simp only [wp_ite, hp, false_imp_iff, true_and, not_false_eq_true, forall_const,
      wp_bind, wp_update]
    have hlive₂ := hlive.setSwappedGpuIds hx (some (pairs.map (·.1)))
    have hsw : k₂.seqToSwappedGpuBlocks x.requestId = some (pairs.map (·.1)) :=
      (congrFun (congrArg Records.swapped hrec) _).trans (Function.update_self _ _ _)
    refine wp_mono (wp_transferOut hrun₂ hlive₂ (Or.inr ?_)) ?_ fun _ _ h0 => h0
    · exact (Function.update_self _ _ _).trans hsw.symm
    · rintro _ s₃ ⟨h₃, hsync₃⟩
      exact wp_toSwapped (fun _ => h₃.forget) fun x' hx' =>
        (h₃.toSwapped hsync₃ hx').noteMove _ _ _ _

theorem wp_allocateWithPrefixCache (h : Live env k₀ pending other s) (hx : x ∈ other) :
    wp (allocateWithPrefixCache env x) (fun _ => Live env k₀ pending other)
      (fun _ => Live env k₀ [] []) s := by
  simp only [allocateWithPrefixCache, wp_bind, wp_update]
  refine wp_mono (wp_onKv_state (I := Live env k₀ pending other)
    (h.issueOwn hx (.allocate x.requestId x.promptTokenIds) rfl trivial)) ?_
    fun _ _ h0 => h0.forget
  rintro ⟨allocated, n⟩ s₁ h₁
  simp only [wp_ite, wp_bind, wp_update, wp_pure]
  exact ⟨fun _ => ⟨h₁.once, h₁.synced, h₁.sound, h₁.run, h₁.good⟩, fun _ => h₁⟩

theorem wp_preemptLoop (hx : x ∈ other) : ∀ (n : ℕ) (r : Bool × ℕ) (preempted : List String)
    {s : Scheduler τ}, Live env k₀ pending other s →
    wp (preemptLoop env x n r preempted) (fun _ => Live env k₀ pending other)
      (fun _ => Live env k₀ [] []) s
  | 0, _, _, _, h => h
  | n + 1, r, preempted, s, h => by
    rw [preemptLoop]
    simp only [wp_bind, wp_current, wp_ite, wp_pure]
    refine ⟨fun _ => h, fun _ => ?_⟩
    split
    · exact h
    · next victim rest hrun =>
      simp only [wp_bind, wp_update]
      have h₁ : Live env k₀ pending (victim :: other) { s with running := rest } := by
        refine ⟨fun i => ?_, h.synced, h.sound, h.run, h.good⟩
        have h1 := h.once i
        rw [hrun] at h1
        simp only [named_cons] at h1 ⊢
        omega
      refine wp_mono (wp_preemptWithTransfer h₁) (fun _ s₂ h₂ => ?_) fun _ _ h0 => h0
      refine wp_mono (wp_allocateWithPrefixCache h₂ hx) (fun r' s₃ h₃ => ?_) fun _ _ h0 => h0
      exact wp_preemptLoop hx n r' _ h₃

/-! ### Admission -/

theorem wp_admissionLoop : ∀ (n : ℕ) (round : Round) {s : Scheduler τ},
    Live env k₀ pending round.newRunning s →
    wp (admissionLoop env n round) (fun round' => Live env k₀ pending round'.newRunning)
      (fun _ => Live env k₀ [] []) s
  | 0, _, _, h => h
  | n + 1, round, s, h => by
    rw [admissionLoop]
    simp only [wp_bind, wp_current]
    split
    · exact h
    · next req rest hw =>
      simp only [wp_ite, wp_pure, wp_bind, wp_update]
      refine ⟨fun _ => h, fun _ => ?_⟩
      have hreq : req ∈ req :: round.newRunning := List.mem_cons_self
      have h₁ : Live env k₀ pending (req :: round.newRunning) { s with waiting := rest } := by
        refine ⟨fun i => ?_, h.synced, h.sound, h.run, h.good⟩
        have h1 := h.once i
        rw [hw] at h1
        simp only [named_cons] at h1 ⊢
        omega
      refine wp_mono (wp_allocateWithPrefixCache h₁ hreq) (fun r s₂ h₂ => ?_) fun _ _ h0 => h0
      refine wp_mono (wp_preemptLoop hreq _ r _ h₂) ?_ fun _ _ h0 => h0
      rintro ⟨r', preempted⟩ s₃ h₃
      refine ⟨fun _ => h₃.toWaiting rfl, fun _ => ⟨fun _ => ?_, fun _ => ?_⟩⟩
      · exact wp_mono (wp_freeSequence (h₃.dropBlockHashes req.requestId) hreq)
          (fun _ s₄ h₄ => h₄.toWaiting rfl) fun _ _ h0 => h0.forget
      · cases hreq' : req.transitionTo .running with
        | error e => exact h₃.forget
        | ok req' =>
          simp only [wp_ofExcept_ok]
          refine wp_admissionLoop n _ ⟨fun i => ?_, h₃.synced, h₃.sound, h₃.run, h₃.good⟩
          have h1 := h₃.once i
          simp only [named_append, named_cons, named_nil, requestId_transitionTo hreq'] at h1 ⊢
          omega

/-! ### Coming back -/

theorem wp_transferIn {k₂ : KVCacheManager} {ids : List ℕ} {pairs : List (ℕ × ℕ)}
    (hrun : (KVCacheManager.commitSwapIn x.requestId ids pairs).run s.kvMgr = (k₂, .ok ()))
    (hlive : Live env k₀ pending (x :: other) { s with kvMgr := k₂ }) :
    wp (transferIn env x ids pairs) (fun _ => Live env k₀ pending other)
      (fun _ => Live env k₀ [] []) s := by
  have hx : x ∈ x :: other := List.mem_cons_self
  have hdone : ∀ t, wp (do
      update (setSwappedGpuIds x.requestId none)
      toRunning x) (fun _ => Live env k₀ pending other) (fun _ => Live env k₀ [] [])
      { s with kvMgr := k₂, transfer := t } := by
    intro t
    simp only [wp_bind, wp_update]
    have h₁ := (hlive.transfer t).setSwappedGpuIds hx none
    exact wp_toRunning (fun _ => h₁.forget) fun x' hx' => h₁.toRunning hx'
  unfold transferIn
  cases env.transferScheduler with
  | none =>
    rw [wp_bind]
    exact wp_onKv (by rfl) hrun (hdone s.transfer)
  | some ts =>
    simp only [wp_bind, wp_onTransfer, wp_ite]
    refine ⟨fun _ => wp_onKv (by rfl) hrun ?_, fun _ => wp_onKv (by rfl) hrun ?_⟩
    · have h₁ := hdone (ts.wait (ts.enqueue (swapInTransfer x.requestId (pairs.map (·.1)))
        s.transfer).1 (ts.enqueue (swapInTransfer x.requestId (pairs.map (·.1))) s.transfer).2).2
      rw [wp_bind] at h₁
      exact h₁
    · simp only [wp_update]
      refine wp_mono (wp_freeSequence ((hlive.transfer _).dropBlockHashes x.requestId) hx) ?_
        fun _ _ h0 => h0.forget
      intro _ s₃ h₃
      have h₄ := (h₃.setSwappedGpuIds hx none).flag x.requestId
      exact wp_toWaiting (fun _ => h₄.forget) fun x' hx' => h₄.toWaiting hx'

/-- **A request comes back**, or stays with its copy. -/
theorem wp_swapInRequest (h : Live env k₀ (x :: pending) other s) :
    wp (swapInRequest env x) (fun returned s' =>
        if returned then Live env k₀ pending other s' else Live env k₀ (x :: pending) other s')
      (fun _ => Live env k₀ [] []) s := by
  have hx : x ∈ x :: other := List.mem_cons_self
  have hsync := h.synced x (Or.inr List.mem_cons_self)
  have h₁ : Live env k₀ pending (x :: other) s :=
    h.mono (fun r hr => List.mem_cons_of_mem _ hr) fun i => by simp only [named_cons]; omega
  simp only [swapInRequest, wp_bind, wp_current, wp_ite, wp_update, wp_pure]
  refine ⟨fun _ => ?_, fun hflag => ?_⟩
  · have h₂ := h₁.unflag hx
    exact wp_toWaiting (fun _ => h₂.forget) fun x' hx' => h₂.toWaiting hx'
  · have hids : (s.swappedGpuIds x.requestId).getD [] = (records s.kvMgr).keysOf x.requestId := by
      rw [hsync.resolve_left hflag]
      rfl
    set ids := (s.swappedGpuIds x.requestId).getD []
    have hlive := h₁.issueOwn hx (.swapIn x.requestId ids) rfl hids
    have hkv : kvStep env.hashBlockTokens s.kvMgr (.swapIn x.requestId ids) =
      (swapIn x.requestId ids).state s.kvMgr := rfl
    obtain ⟨k₁, pairs, hrun, hg, hcase⟩ := swapIn_run h.sound x.requestId ids
    refine wp_onKv (by rfl) hrun ?_
    rcases hcase with ⟨hp, hst, -⟩ | ⟨hp, -, k₂, hrun₂, hst, -⟩
    · rw [hkv, hst] at hlive
      simp only [hp, forall_const, not_true, false_imp_iff, and_true,
        Bool.false_eq_true, if_false]
      refine ⟨fun i => ?_, fun r hr => ?_, hlive.sound, hlive.run, hlive.good⟩
      · have h1 := hlive.once i
        simp only [named_cons] at h1 ⊢
        omega
      · by_cases hrx : r.requestId = x.requestId
        · rw [hrx]
          refine hsync.imp_right fun h0 => h0.trans ?_
          exact (congrFun (congrArg Records.swapped hg.records) _).symm
        · rcases hr with hr | hr
          · exact hlive.synced r (Or.inl hr)
          · refine hlive.synced r (Or.inr ((List.mem_cons.mp hr).resolve_left ?_))
            rintro rfl
            exact hrx rfl
    · rw [hkv, hst] at hlive
      simp only [hp, false_imp_iff, true_and, not_false_eq_true, forall_const]
      exact wp_mono (wp_transferIn hrun₂ hlive) (fun _ _ h0 => h0.noteMove _ _ _ _) fun _ _ h0 => h0

theorem Live.keepSwapped (h : Live env k₀ (x :: pending) other s) :
    Live env k₀ pending other { s with swapped := s.swapped ++ [x] } := by
  have h₁ : Live env k₀ pending (x :: other) s :=
    h.mono (fun r hr => List.mem_cons_of_mem _ hr) fun i => by simp only [named_cons]; omega
  exact h₁.toSwapped (h.synced x (Or.inr List.mem_cons_self)) rfl

theorem wp_swapInLoop : ∀ (reqs : List Request) (swappedIn : List String) {s : Scheduler τ},
    Live env k₀ reqs [] s →
    wp (swapInLoop env reqs swappedIn) (fun _ => Live env k₀ [] []) (fun _ => Live env k₀ [] []) s
  | [], _, _, h => h
  | x :: reqs, swappedIn, s, h => by
    rw [swapInLoop]
    simp only [wp_bind, wp_current, wp_ite, wp_update]
    refine ⟨fun _ => wp_swapInLoop reqs _ h.keepSwapped, fun _ => ?_⟩
    refine wp_mono (wp_swapInRequest h) (fun returned s₁ h₁ => ?_) fun _ _ h0 => h0
    cases returned with
    | true => exact ⟨fun _ => wp_swapInLoop reqs _ h₁, fun h0 => absurd rfl h0⟩
    | false => exact ⟨fun h0 => (by cases h0), fun _ => wp_swapInLoop reqs _ (Live.keepSwapped h₁)⟩

/-! ### The operations -/

theorem wp_decodeLoop (scheduledIds : List String) :
    ∀ (reqs : List Request) (scheduled : List String) (n : ℕ) {s : Scheduler τ},
      Live env k₀ [] [] s →
    wp (decodeLoop env scheduledIds reqs scheduled n) (fun _ => Live env k₀ [] [])
      (fun _ => Live env k₀ [] []) s
  | [], _, _, _, h => h
  | req :: reqs, scheduled, n, s, h => by
    rw [decodeLoop]
    simp only [wp_ite, wp_pure, wp_bind, wp_update]
    refine ⟨fun _ => wp_decodeLoop scheduledIds reqs _ _ h, fun _ => ⟨fun _ => h, fun _ => ?_⟩⟩
    exact wp_decodeLoop scheduledIds reqs _ _ (h.setGenerated _)

theorem named_sortWaiting (predict : Option (String → List ℕ → ℚ)) (s : Scheduler τ) (i : String) :
    named i (sortWaiting predict s).waiting = named i s.waiting := by
  unfold sortWaiting
  split
  · rfl
  · split_ifs
    · exact named_perm (List.perm_insertionSort _ _)
    · rfl

theorem sortWaiting_eq (predict : Option (String → List ℕ → ℚ)) (s : Scheduler τ) :
    sortWaiting predict s = { s with waiting := (sortWaiting predict s).waiting } := by
  unfold sortWaiting
  split
  · rfl
  · split_ifs <;> rfl

theorem Live.sortWaiting (h : Live env k₀ pending other s)
    (predict : Option (String → List ℕ → ℚ)) :
    Live env k₀ pending other (sortWaiting predict s) := by
  rw [sortWaiting_eq]
  refine ⟨fun i => ?_, h.synced, h.sound, h.run, h.good⟩
  change named i (Scheduler.sortWaiting predict s).waiting + _ + _ + _ + _ ≤ 1
  rw [named_sortWaiting]
  exact h.once i

theorem wp_schedule (h : Live env k₀ [] [] s) (predict : Option (String → List ℕ → ℚ)) :
    wp (schedule env predict) (fun _ => Live env k₀ [] []) (fun _ => Live env k₀ [] []) s := by
  simp only [schedule, wp_bind, wp_current, wp_update]
  have h₁ : Live env k₀ s.swapped [] { s with swapped := [] } := by
    refine ⟨fun i => ?_, fun r hr => h.synced r ?_, h.sound, h.run, h.good⟩
    · have h1 := h.once i
      simp only [named_nil] at h1 ⊢
      omega
    · rcases hr with hr | hr
      · cases hr
      · exact Or.inl hr
  refine wp_mono (wp_admissionLoop _ {} (h₁.sortWaiting predict)) (fun round s₂ h₂ => ?_)
    fun _ _ h0 => h0
  have h₃ : Live env k₀ s.swapped [] { s₂ with running := s₂.running ++ round.newRunning } := by
    refine ⟨fun i => ?_, h₂.synced, h₂.sound, h₂.run, h₂.good⟩
    have h1 := h₂.once i
    simp only [named_append, named_nil] at h1 ⊢
    omega
  refine wp_mono (wp_swapInLoop s.swapped [] h₃) (fun _ s₄ h₄ => ?_) fun _ _ h0 => h0
  exact wp_mono (wp_decodeLoop _ _ _ _ h₄) (fun _ _ h0 => h0) fun _ _ h0 => h0

/-- The queues without a request have room for it. -/
theorem Live.withoutRequest (h : Live env k₀ [] [] s) (i : String) :
    Live env k₀ [] [⟨i, [], .waiting⟩] (withoutRequest i s) := by
  refine ⟨fun j => ?_, fun r hr => h.synced r ?_, h.sound, h.run, h.good⟩
  · have hno : ∀ q : List Request, named i (q.filter (·.requestId ≠ i)) = 0 := fun q =>
      named_eq_zero fun r hr => by simpa using (List.mem_filter.mp hr).2
    have h1 := h.once j
    have h2 := named_filter_le j (·.requestId ≠ i) s.waiting
    have h3 := named_filter_le j (·.requestId ≠ i) s.running
    have h4 := named_filter_le j (·.requestId ≠ i) s.swapped
    simp only [Scheduler.withoutRequest, named_cons, named_nil] at h1 ⊢
    by_cases hj : i = j
    · subst hj
      rw [hno, hno, hno]
      simp
    · rw [if_neg hj]
      omega
  · rcases hr with hr | hr
    · exact Or.inl (List.mem_filter.mp hr).1
    · cases hr

theorem wp_finishRequest (h : Live env k₀ [] [] s) (rid : String) :
    wp (finishRequest env rid) (fun _ => Live env k₀ [] []) (fun _ => Live env k₀ [] []) s := by
  have hrest : ∀ s₁ : Scheduler τ, Live env k₀ [] [] s₁ → wp (do
      update (Scheduler.withoutRequest rid)
      update (Scheduler.setSwappedGpuIds rid none)
      update (Scheduler.unflag rid)
      update fun s => { s with seqGeneratedTokens := Function.update s.seqGeneratedTokens rid none }
      update (Scheduler.dropBlockHashes rid)
      Scheduler.freeSequence rid : Prog PyError (Scheduler τ) Unit)
      (fun _ => Live env k₀ [] []) (fun _ => Live env k₀ [] []) s₁ := by
    intro s₁ h₁
    simp only [wp_bind, wp_update]
    set x : Request := ⟨rid, [], .waiting⟩
    have hx : x ∈ [x] := List.mem_singleton.mpr rfl
    have h₂ := (((h₁.withoutRequest rid).setSwappedGpuIds hx none).unflag hx)
    exact wp_mono (wp_freeSequence (x := x) ((h₂.setGenerated _).dropBlockHashes rid) hx)
      (fun _ _ h0 => h0.forget) fun _ _ h0 => h0.forget
  simp only [finishRequest, wp_bind, wp_current] at hrest ⊢
  split
  · exact hrest s h
  · next request hfind =>
    simp only [wp_ite, wp_bind, wp_update]
    refine ⟨fun _ => ?_, fun _ => hrest s h⟩
    have h₁ := h.issue (.register request.requestId request.promptTokenIds) trivial
      fun r _ => congrFun (congrArg Records.swapped (inv_of_wp
        (wp_register env.hashBlockTokens h.sound request.requestId request.promptTokenIds)).2) _
    exact wp_mono (wp_onKv_state (I := Live env k₀ [] []) h₁) (fun _ s₁ h0 => hrest s₁ h0)
      fun _ _ h0 => h0

/-- **One operation** keeps the invariant. -/
theorem Live.step (h : Live env k₀ [] [] s) {o : Op} (ho : NewId s o) :
    Live env k₀ [] [] (SwapBlocks.step env s o) := by
  cases o with
  | addRequest r =>
    refine ⟨fun i => ?_, h.synced, h.sound, h.run, h.good⟩
    have h1 := h.once i
    change named i (s.waiting ++ [r]) + named i s.running + named i s.swapped + _ + _ ≤ 1
    simp only [named_append, named_cons, named_nil] at h1 ⊢
    by_cases hi : r.requestId = i
    · have hno := named_eq_zero (i := i) fun r' hr' => by rw [← hi]; exact ho r' hr'
      simp only [named_append] at hno
      rw [if_pos hi]
      omega
    · rw [if_neg hi]
      omega
  | schedule predict => exact inv_of_wp (wp_schedule h predict)
  | finishRequest rid => exact inv_of_wp (wp_finishRequest h rid)
  | abortRequest rid => exact inv_of_wp (wp_finishRequest h rid)

end

theorem kept_new (numGpu numCpu blockSize : ℕ) :
    Kept (records (KVCacheManager.new numGpu numCpu blockSize)) where
  nodup := fun _ => List.nodup_nil
  mapped := fun _ _ h => by cases h
  apart := fun _ _ _ h => by cases h
  inj := fun _ _ _ h => by cases h
  live := fun _ _ h => by cases h
  owned := fun c h => absurd h (Finset.notMem_empty c)
  given := fun _ _ h => by cases h

theorem live_new (env : Env τ) (numGpu numCpu blockSize : ℕ) (t : τ) :
    Live env (KVCacheManager.new numGpu numCpu blockSize) [] []
      (Scheduler.new (KVCacheManager.new numGpu numCpu blockSize) t) where
  once := fun i => by simp [Scheduler.new]
  synced := fun r hr => by
    rcases hr with hr | hr <;> cases hr
  sound := sound_new numGpu numCpu blockSize
  run := rfl
  good := fun _ => ⟨kept_new numGpu numCpu blockSize, trivial⟩

/-- **The CPU blocks of swapped sequences** are accounted for after every step that the scheduler
has the manager do, and come back as they were given, in every run in which each swap-out meets
`FreshKeys`. -/
theorem swapsWell_of_freshKeys (env : Env τ) (numGpu numCpu blockSize : ℕ) (t : τ) (ops : List Op)
    (hids : Along (step env) NewId
      (Scheduler.new (KVCacheManager.new numGpu numCpu blockSize) t) ops)
    (hkeys : Along (kvStep env.hashBlockTokens) FreshKeys
      (KVCacheManager.new numGpu numCpu blockSize)
      (exec (step env) (Scheduler.new (KVCacheManager.new numGpu numCpu blockSize) t) ops).issued) :
    (exec (step env) (Scheduler.new (KVCacheManager.new numGpu numCpu blockSize) t) ops).kvMgr =
        exec (kvStep env.hashBlockTokens) (KVCacheManager.new numGpu numCpu blockSize)
          (exec (step env) (Scheduler.new (KVCacheManager.new numGpu numCpu blockSize) t)
            ops).issued ∧
      Along (kvStep env.hashBlockTokens) (SwapsWell env.hashBlockTokens)
        (KVCacheManager.new numGpu numCpu blockSize)
        (exec (step env) (Scheduler.new (KVCacheManager.new numGpu numCpu blockSize) t)
          ops).issued := by
  have hlive := inv_exec (I := Live env (KVCacheManager.new numGpu numCpu blockSize) [] [])
    (fun s o hs ho => hs.step ho) ops _ (live_new env numGpu numCpu blockSize t) hids
  exact ⟨hlive.run, (hlive.good hkeys).2⟩

/-! ### Both cases at a small pool -/

/-- Without a transfer scheduler; prompts shorter than a block are never hashed. -/
def noTransfers : Env Unit where
  hashBlockTokens := fun parent tokens => parent + tokens.length
  transferScheduler := none

/-- One GPU block of four tokens and two CPU blocks. -/
def oneGpuBlock : Scheduler Unit := Scheduler.new (KVCacheManager.new 1 2 4) ()

/-- A request is swapped out for another one and comes back after that has finished. -/
def outAndBack : List Op :=
  [.addRequest ⟨"a", [1], .waiting⟩, .schedule none, .addRequest ⟨"b", [2], .waiting⟩,
    .schedule none, .finishRequest "b", .schedule none]

theorem swapsWell_outAndBack :
    Along (kvStep noTransfers.hashBlockTokens) (SwapsWell noTransfers.hashBlockTokens)
        (KVCacheManager.new 1 2 4) (exec (step noTransfers) oneGpuBlock outAndBack).issued ∧
      KvOp.swapIn "a" [0] ∈ (exec (step noTransfers) oneGpuBlock outAndBack).issued ∧
      (exec (step noTransfers) oneGpuBlock outAndBack).running.map (·.requestId) = ["a"] :=
  ⟨(swapsWell_of_freshKeys noTransfers 1 2 4 () outAndBack (by decide) (by decide)).2, by decide,
    by decide⟩

/-- Two requests are swapped out of the same GPU block. -/
def outAndOut : List Op :=
  [.addRequest ⟨"a", [1], .waiting⟩, .schedule none, .addRequest ⟨"b", [2], .waiting⟩,
    .schedule none, .addRequest ⟨"c", [3], .waiting⟩, .schedule none]

/-- Both swapped requests have the CPU block `1`. -/
theorem two_copies_one_block : ¬ ∀ (env : Env Unit) (numGpu numCpu blockSize : ℕ) (ops : List Op),
    Along (step env) NewId (Scheduler.new (KVCacheManager.new numGpu numCpu blockSize) ()) ops →
    Accounted (exec (step env)
      (Scheduler.new (KVCacheManager.new numGpu numCpu blockSize) ()) ops).kvMgr := by
  intro h
  have hacc := h noTransfers 1 2 4 outAndOut (by decide)
  have ha : 1 ∈ cpuBlocks (exec (step noTransfers) oneGpuBlock outAndOut).kvMgr "a" := by decide
  have hb : 1 ∈ cpuBlocks (exec (step noTransfers) oneGpuBlock outAndOut).kvMgr "b" := by decide
  exact hacc.apart "a" "b" (by decide) ha hb

end MoeInfinity.Engine.SwapBlocks
