import Mathlib.Logic.Relation
import MoeInfinity.Engine.SwapBlocks

/-! # What the scheduler asks of the transfer scheduler

A call of the engine scheduler reaches the transfer scheduler in one way only: `enqueue`, `wait`
and, if `wait` reports no completion, `cancel`. Seen from there, a call is a sequence of such trips
(`schedule_trips`), and a request is moved after a trip that was reported complete. -/

namespace MoeInfinity.Engine.Moves

open MoeInfinity.Python MoeInfinity.Lib.Imperative
open MoeInfinity.Memory.Blocks MoeInfinity.Memory.KvManager
  MoeInfinity.Memory.KvManager.KVCacheManager
open MoeInfinity.Engine.Transfer MoeInfinity.Engine.Schedule MoeInfinity.Engine.Schedule.Scheduler

variable {τ : Type}

/-! ### Trips -/

/-- `enqueue` and `wait`: whether the transfer is reported complete, and its id. -/
def trip (ts : TransferScheduler τ) (request : TransferRequest) (t : τ) : (Bool × String) × τ :=
  let e := ts.enqueue request t
  let w := ts.wait e.1 e.2
  ((w.1, e.1), w.2)

/-- `cancel`, after a trip that was not reported complete. -/
def giveUp (ts : TransferScheduler τ) (request : TransferRequest) (t : τ) : τ :=
  (ts.cancel (trip ts request t).1.2 (trip ts request t).2).2

/-- The transfer of a move. -/
inductive TransferOf (m : Move τ) : TransferRequest → Prop
  | swapOut (h : m.swapIn = false) : TransferOf m (swapOutTransfer m.requestId m.gpuIds)
  | swapIn (h : m.swapIn = true) (cpuIds : List ℕ)
      (hfree : m.gpuIds = m.freeGpu.take m.origGpuIds.length) :
      TransferOf m (swapInTransfer m.requestId cpuIds)

/-- The transfers that the scheduler enqueues. -/
inductive IsSwap : TransferRequest → Prop
  | swapOut (i : String) (ids : List ℕ) : IsSwap (swapOutTransfer i ids)
  | swapIn (i : String) (ids : List ℕ) : IsSwap (swapInTransfer i ids)

theorem TransferOf.isSwap {m : Move τ} {r : TransferRequest} (h : TransferOf m r) : IsSwap r := by
  cases h with
  | swapOut h => exact IsSwap.swapOut _ _
  | swapIn h cpuIds hfree => exact IsSwap.swapIn _ _

/-- One trip, on the state of the transfer scheduler and the requests moved so far. -/
inductive Trip (ts : TransferScheduler τ) : τ × List (Move τ) → τ × List (Move τ) → Prop
  | refused {r : TransferRequest} (hr : IsSwap r) (t : τ) (ms : List (Move τ))
      (h : (trip ts r t).1.1 = false) : Trip ts (t, ms) (giveUp ts r t, ms)
  | unmoved {r : TransferRequest} (hr : IsSwap r) (t : τ) (ms : List (Move τ))
      (h : (trip ts r t).1.1 = true) : Trip ts (t, ms) ((trip ts r t).2, ms)
  | moved {r : TransferRequest} {m : Move τ} (hr : TransferOf m r) (ms : List (Move τ))
      (h : (trip ts r m.before).1.1 = true) (ha : m.after = (trip ts r m.before).2) :
      Trip ts (m.before, ms) (m.after, ms ++ [m])

section

variable {env : Env τ} {ts : TransferScheduler τ} {c : τ × List (Move τ)} {s : Scheduler τ}

/-- The trips since `c`. -/
def Trips (ts : TransferScheduler τ) (c : τ × List (Move τ)) (s : Scheduler τ) : Prop :=
  Relation.ReflTransGen (Trip ts) c (s.transfer, s.moves)

theorem wp_onKv_any {α : Type} {m : Prog PyError KVCacheManager α} {Q : α → Scheduler τ → Prop}
    {R : PyError → Scheduler τ → Prop} (hQ : ∀ a k, Q a { s with kvMgr := k })
    (hR : ∀ e k, R e { s with kvMgr := k }) : wp (onKv m) Q R s := by
  rw [onKv, wp_zoom]
  exact wp_of_forall hQ hR

theorem wp_freeSequence_trips (ts : TransferScheduler τ) (h : Trips ts c s) (i : String) :
    wp (Scheduler.freeSequence i) (fun _ => Trips ts c) (fun _ => Trips ts c) s := by
  simp only [Scheduler.freeSequence, wp_bind, wp_update]
  exact wp_onKv_any (fun _ _ => h) fun _ _ => h

theorem wp_allocate_trips (ts : TransferScheduler τ) (h : Trips ts c s) (req : Request) :
    wp (allocateWithPrefixCache env req) (fun _ => Trips ts c) (fun _ => Trips ts c) s := by
  simp only [allocateWithPrefixCache, wp_bind, wp_update]
  refine wp_onKv_any (fun r k => ?_) fun _ _ => h
  obtain ⟨allocated, n⟩ := r
  simp only [wp_ite, wp_bind, wp_update, wp_pure]
  exact ⟨fun _ => h, fun _ => h⟩

/-! ### New GPU blocks -/

theorem wp_allocateBlock_head {p : BlockPool} {R : PyError → BlockPool → Prop} :
    wp BlockPool.allocateBlock (fun r p' => r = none ∨
      ∃ b, r = some b ∧ p.freeQueue = b :: p'.freeQueue) R p := by
  simp only [BlockPool.allocateBlock, wp_bind, wp_current]
  split
  · exact Or.inl rfl
  · next b rest hq =>
    refine Or.inr ⟨b, rfl, ?_⟩
    rw [hq]
    exact congrArg (b :: ·) (rehashed_dropHash b { p with freeQueue := rest }).freeQueue.symm

/-- A swap-in takes its blocks from the head of the free queue. -/
theorem wp_prepareSwapInLoop_free {free : List ℕ} : ∀ (gs : List ℕ) (pairs : List (ℕ × ℕ))
    (k : KVCacheManager), free = pairs.map (·.2) ++ k.gpuPool.freeQueue →
    wp (prepareSwapInLoop gs pairs) (fun res _ => res = [] ∨
      res.map (·.2) = free.take (pairs.length + gs.length)) (fun _ _ => True) k
  | [], pairs, k, h => by
    refine Or.inr ?_
    have hlen : pairs.length = (pairs.map (·.2)).length := (List.length_map _).symm
    rw [h, List.length_nil, Nat.add_zero, hlen, List.take_left]
  | g :: gs, pairs, k, h => by
    rw [prepareSwapInLoop]
    simp only [wp_bind, wp_current]
    split
    · simp only [wp_bind, wp_pure]
      exact wp_of_forall (fun _ _ => Or.inl trivial) fun _ _ => trivial
    · next c hg =>
      simp only [wp_bind, onGpu, wp_zoom]
      refine wp_mono (wp_allocateBlock_head (R := fun _ _ => True)) ?_ fun _ _ h0 => h0
      rintro _ p (rfl | ⟨b, rfl, hq⟩)
      · simp only [wp_bind, wp_pure]
        exact wp_of_forall (fun _ _ => Or.inl trivial) fun _ _ => trivial
      · simp only [wp_bind, wp_update]
        have hlen : pairs.length + (g :: gs).length = (pairs ++ [(c, b)]).length + gs.length := by
          simp only [List.length_append, List.length_cons, List.length_nil]
          omega
        rw [hlen]
        refine wp_prepareSwapInLoop_free gs (pairs ++ [(c, b)]) _ ?_
        rw [h, hq]
        simp [track]

theorem wp_prepareSwapIn_free (i : String) (ids : List ℕ) (k : KVCacheManager) :
    wp (prepareSwapIn i ids) (fun res _ => res = [] ∨
      res.map (·.2) = k.gpuPool.freeQueue.take ids.length) (fun _ _ => True) k := by
  have h := wp_prepareSwapInLoop_free ids [] k rfl
  simp only [List.length_nil, Nat.zero_add] at h
  exact h

/-! ### Preemption -/

/-- The transfer `r` from the state `t` was reported complete, and nothing was moved since. -/
def Tripped (ts : TransferScheduler τ) (c : τ × List (Move τ)) (r : TransferRequest) (t : τ)
    (s : Scheduler τ) : Prop :=
  Relation.ReflTransGen (Trip ts) c (t, s.moves) ∧ (trip ts r t).1.1 = true ∧
    s.transfer = (trip ts r t).2

theorem Tripped.trips {r : TransferRequest} {t : τ} (h : Tripped ts c r t s) (hr : IsSwap r) :
    Trips ts c s := by
  obtain ⟨htrips, hdone, hafter⟩ := h
  unfold Trips
  rw [hafter]
  exact htrips.tail (Trip.unmoved hr t s.moves hdone)

/-- The request is moved by the transfer, unless it is flagged. -/
theorem Tripped.noteMove {r : TransferRequest} {s₀ : Scheduler τ} {i : String} {b : Bool}
    {ids : List ℕ} (h : Tripped ts c r s₀.transfer s)
    (hr : TransferOf ⟨i, b, ids, (s₀.swappedGpuIds i).getD [], s₀.kvMgr.gpuPool.freeQueue,
      s₀.transfer, s.kvMgr.seqToGpuBlocks, s.transfer⟩ r) : Trips ts c (noteMove i b ids s₀ s) := by
  unfold Scheduler.noteMove
  split_ifs with hflag
  · exact h.trips hr.isSwap
  · obtain ⟨htrips, hdone, hafter⟩ := h
    exact htrips.tail (Trip.moved hr s.moves hdone hafter)

theorem Trips.noteMove_flagged {i : String} {b : Bool} {ids : List ℕ} {s₀ : Scheduler τ}
    (h : Trips ts c s) (hi : i ∈ s.swapNeedsReprefill) : Trips ts c (noteMove i b ids s₀ s) := by
  unfold Scheduler.noteMove
  rw [if_pos hi]
  exact h

/-- A request that was given up: flagged, and its transfer cancelled. -/
def GivenUp (ts : TransferScheduler τ) (c : τ × List (Move τ)) (i : String)
    (s : Scheduler τ) : Prop :=
  Trips ts c s ∧ i ∈ s.swapNeedsReprefill

theorem wp_transferOut_trips (hts : env.transferScheduler = some ts) (h : Trips ts c s) (i : String)
    (pairs : List (ℕ × ℕ)) :
    wp (transferOut env i pairs) (fun _ s' =>
        Tripped ts c (swapOutTransfer i (pairs.map (·.1))) s.transfer s' ∨ GivenUp ts c i s')
      (fun _ => Trips ts c) s := by
  set r := swapOutTransfer i (pairs.map (·.1))
  have hr : IsSwap r := IsSwap.swapOut _ _
  simp only [transferOut, hts, wp_bind, SwapBlocks.wp_onTransfer, wp_ite]
  refine ⟨fun hdone => ?_, fun hdone => ?_⟩
  · have h₁ : Tripped ts c r s.transfer { s with transfer := (trip ts r s.transfer).2 } :=
      ⟨h, hdone, rfl⟩
    exact wp_onKv_any (fun _ _ => Or.inl h₁) fun _ _ => Tripped.trips h₁ hr
  · have h₁ : Trips ts c { s with transfer := giveUp ts r s.transfer } :=
      h.tail (Trip.refused hr s.transfer s.moves (Bool.eq_false_of_not_eq_true hdone))
    refine wp_onKv_any (fun _ k => ?_) fun _ _ => h₁
    simp only [wp_update]
    refine wp_mono (wp_freeSequence_trips ts (c := c) ?_ i) ?_ fun _ _ h0 => h0
    · exact h₁
    · exact fun _ s₃ h₃ => Or.inr ⟨h₃, Finset.mem_insert_self _ _⟩

theorem wp_preemptWithTransfer_trips (hts : env.transferScheduler = some ts) (h : Trips ts c s)
    (victim : Request) :
    wp (preemptWithTransfer env victim) (fun _ => Trips ts c) (fun _ => Trips ts c) s := by
  simp only [preemptWithTransfer, wp_bind, wp_current, wp_update]
  refine wp_onKv_any (fun pairs k => ?_) fun _ _ => h
  simp only [wp_ite, wp_bind, wp_update]
  refine ⟨fun _ => ?_, fun _ => ?_⟩
  · refine wp_mono (wp_freeSequence_trips ts (c := c) ?_ victim.requestId)
      (fun _ s₂ h₂ => ?_) fun _ _ h0 => h0
    · exact h
    · exact SwapBlocks.wp_toSwapped (fun _ => h₂) fun _ _ => h₂
  · refine wp_mono (wp_transferOut_trips (c := c) hts ?_ victim.requestId pairs) (fun _ s₂ h₂ => ?_)
      fun _ _ h0 => h0
    · exact h
    · rcases h₂ with h₂ | ⟨h₂, hflag⟩
      · have h₂ : Tripped ts c (swapOutTransfer victim.requestId (pairs.map (·.1)))
          s.transfer s₂ := h₂
        refine SwapBlocks.wp_toSwapped (fun _ => h₂.trips (IsSwap.swapOut _ _)) fun x' _ => ?_
        exact Tripped.noteMove (s := { s₂ with swapped := s₂.swapped ++ [x'] }) h₂
          (TransferOf.swapOut rfl)
      · refine SwapBlocks.wp_toSwapped (fun _ => h₂) fun x' _ => ?_
        exact Trips.noteMove_flagged (s := { s₂ with swapped := s₂.swapped ++ [x'] }) h₂ hflag

/-! ### Coming back -/

theorem wp_transferIn_trips (hts : env.transferScheduler = some ts) (h : Trips ts c s)
    (req : Request) (ids : List ℕ) (pairs : List (ℕ × ℕ)) :
    wp (transferIn env req ids pairs) (fun _ s' =>
        Tripped ts c (swapInTransfer req.requestId (pairs.map (·.1))) s.transfer s' ∨
          GivenUp ts c req.requestId s')
      (fun _ => Trips ts c) s := by
  set r := swapInTransfer req.requestId (pairs.map (·.1))
  have hr : IsSwap r := IsSwap.swapIn _ _
  simp only [transferIn, hts, wp_bind, SwapBlocks.wp_onTransfer, wp_ite]
  refine ⟨fun hdone => ?_, fun hdone => ?_⟩
  · have h₁ : Tripped ts c r s.transfer { s with transfer := (trip ts r s.transfer).2 } :=
      ⟨h, hdone, rfl⟩
    refine wp_onKv_any (fun _ k => ?_) fun _ _ => Tripped.trips h₁ hr
    simp only [wp_update]
    exact SwapBlocks.wp_toRunning (fun _ => Tripped.trips h₁ hr) fun _ _ => Or.inl h₁
  · have h₁ : Trips ts c { s with transfer := giveUp ts r s.transfer } :=
      h.tail (Trip.refused hr s.transfer s.moves (Bool.eq_false_of_not_eq_true hdone))
    refine wp_onKv_any (fun _ k => ?_) fun _ _ => h₁
    simp only [wp_update]
    refine wp_mono (wp_freeSequence_trips ts (c := c) ?_ req.requestId) (fun _ s₃ h₃ => ?_)
      fun _ _ h0 => h0
    · exact h₁
    · exact SwapBlocks.wp_toWaiting (fun _ => h₃) fun _ _ => Or.inr ⟨h₃, Finset.mem_insert_self _ _⟩

theorem wp_swapInRequest_trips (hts : env.transferScheduler = some ts) (h : Trips ts c s)
    (req : Request) :
    wp (swapInRequest env req) (fun _ => Trips ts c) (fun _ => Trips ts c) s := by
  simp only [swapInRequest, wp_bind, wp_current, wp_ite, wp_update, wp_pure]
  refine ⟨fun _ => SwapBlocks.wp_toWaiting (fun _ => h) fun _ _ => h, fun _ => ?_⟩
  set ids := (s.swappedGpuIds req.requestId).getD []
  rw [onKv, wp_zoom]
  refine wp_mono (wp_prepareSwapIn_free req.requestId ids s.kvMgr) (fun pairs k hfree => ?_)
    fun _ _ _ => h
  refine ⟨fun _ => h, fun hne => ?_⟩
  refine wp_mono (wp_transferIn_trips (c := c) hts ?_ req ids pairs) (fun _ s₂ h₂ => ?_)
    fun _ _ h0 => h0
  · exact h
  · rcases h₂ with h₂ | ⟨h₂, hflag⟩
    · exact Tripped.noteMove h₂ (TransferOf.swapIn rfl _ (hfree.resolve_left hne))
    · exact Trips.noteMove_flagged h₂ hflag

/-! ### The operations -/

theorem wp_preemptLoop_trips (hts : env.transferScheduler = some ts) (req : Request) :
    ∀ (n : ℕ) (r : Bool × ℕ) (preempted : List String) {s : Scheduler τ}, Trips ts c s →
      wp (preemptLoop env req n r preempted) (fun _ => Trips ts c) (fun _ => Trips ts c) s
  | 0, _, _, _, h => h
  | n + 1, r, preempted, s, h => by
    rw [preemptLoop]
    simp only [wp_bind, wp_current, wp_ite, wp_pure]
    refine ⟨fun _ => h, fun _ => ?_⟩
    split
    · exact h
    · next victim rest hrun =>
      simp only [wp_bind, wp_update]
      refine wp_mono (wp_preemptWithTransfer_trips (c := c) hts ?_ victim) (fun _ s₂ h₂ => ?_)
        fun _ _ h0 => h0
      · exact h
      · refine wp_mono (wp_allocate_trips ts h₂ req) (fun r' s₃ h₃ => ?_) fun _ _ h0 => h0
        exact wp_preemptLoop_trips hts req n r' _ h₃

theorem wp_admissionLoop_trips (hts : env.transferScheduler = some ts) :
    ∀ (n : ℕ) (round : Round) {s : Scheduler τ}, Trips ts c s →
      wp (admissionLoop env n round) (fun _ => Trips ts c) (fun _ => Trips ts c) s
  | 0, _, _, h => h
  | n + 1, round, s, h => by
    rw [admissionLoop]
    simp only [wp_bind, wp_current]
    split
    · exact h
    · next req rest hw =>
      simp only [wp_ite, wp_pure, wp_bind, wp_update]
      refine ⟨fun _ => h, fun _ => ?_⟩
      refine wp_mono (wp_allocate_trips ts (c := c) ?_ req) (fun r s₂ h₂ => ?_) fun _ _ h0 => h0
      · exact h
      · refine wp_mono (wp_preemptLoop_trips hts req _ r _ h₂) ?_ fun _ _ h0 => h0
        rintro ⟨r', preempted⟩ s₃ h₃
        refine ⟨fun _ => h₃, fun _ => ⟨fun _ => ?_, fun _ => ?_⟩⟩
        · refine wp_mono (wp_freeSequence_trips ts (c := c) ?_ req.requestId)
            (fun _ _ h0 => h0) fun _ _ h0 => h0
          exact h₃
        · cases req.transitionTo .running with
          | error e => exact h₃
          | ok req' =>
            simp only [wp_ofExcept_ok]
            refine wp_admissionLoop_trips hts n _ ?_
            exact h₃

theorem wp_swapInLoop_trips (hts : env.transferScheduler = some ts) :
    ∀ (reqs : List Request) (swappedIn : List String) {s : Scheduler τ}, Trips ts c s →
      wp (swapInLoop env reqs swappedIn) (fun _ => Trips ts c) (fun _ => Trips ts c) s
  | [], _, _, h => h
  | x :: reqs, swappedIn, s, h => by
    rw [swapInLoop]
    simp only [wp_bind, wp_current, wp_ite, wp_update]
    refine ⟨fun _ => ?_, fun _ => ?_⟩
    · refine wp_swapInLoop_trips hts reqs _ ?_
      exact h
    · refine wp_mono (wp_swapInRequest_trips hts h x) (fun returned s₁ h₁ => ?_) fun _ _ h0 => h0
      refine ⟨fun _ => wp_swapInLoop_trips hts reqs _ h₁, fun _ => ?_⟩
      refine wp_swapInLoop_trips hts reqs _ ?_
      exact h₁

theorem wp_decodeLoop_trips (scheduledIds : List String) :
    ∀ (reqs : List Request) (scheduled : List String) (n : ℕ) {s : Scheduler τ}, Trips ts c s →
      wp (decodeLoop env scheduledIds reqs scheduled n) (fun _ => Trips ts c)
        (fun _ => Trips ts c) s
  | [], _, _, _, h => h
  | req :: reqs, scheduled, n, s, h => by
    rw [decodeLoop]
    simp only [wp_ite, wp_pure, wp_bind, wp_update]
    refine ⟨fun _ => wp_decodeLoop_trips scheduledIds reqs _ _ h,
      fun _ => ⟨fun _ => h, fun _ => ?_⟩⟩
    refine wp_decodeLoop_trips scheduledIds reqs _ _ ?_
    exact h

theorem wp_schedule_trips (hts : env.transferScheduler = some ts) (h : Trips ts c s)
    (predict : Option (String → List ℕ → ℚ)) :
    wp (schedule env predict) (fun _ => Trips ts c) (fun _ => Trips ts c) s := by
  simp only [schedule, wp_bind, wp_current, wp_update]
  refine wp_mono (wp_admissionLoop_trips (c := c) hts _ {} ?_) (fun round s₂ h₂ => ?_)
    fun _ _ h0 => h0
  · rw [SwapBlocks.sortWaiting_eq]
    exact h
  · refine wp_mono (wp_swapInLoop_trips (c := c) hts s.swapped [] ?_) (fun _ s₄ h₄ => ?_)
      fun _ _ h0 => h0
    · exact h₂
    · exact wp_mono (wp_decodeLoop_trips _ _ _ _ h₄) (fun _ _ h0 => h0) fun _ _ h0 => h0

theorem wp_finishRequest_trips (h : Trips ts c s) (rid : String) :
    wp (finishRequest env rid) (fun _ => Trips ts c) (fun _ => Trips ts c) s := by
  have hrest : ∀ s₁ : Scheduler τ, Trips ts c s₁ → wp (do
      update (Scheduler.withoutRequest rid)
      update (Scheduler.setSwappedGpuIds rid none)
      update (Scheduler.unflag rid)
      update fun s => { s with seqGeneratedTokens := Function.update s.seqGeneratedTokens rid none }
      update (Scheduler.dropBlockHashes rid)
      Scheduler.freeSequence rid : Prog PyError (Scheduler τ) Unit)
      (fun _ => Trips ts c) (fun _ => Trips ts c) s₁ := by
    intro s₁ h₁
    simp only [wp_bind, wp_update]
    refine wp_freeSequence_trips ts ?_ rid
    exact h₁
  simp only [finishRequest, wp_bind, wp_current] at hrest ⊢
  split
  · exact hrest s h
  · next request hfind =>
    simp only [wp_ite, wp_bind, wp_update]
    refine ⟨fun _ => ?_, fun _ => hrest s h⟩
    refine wp_onKv_any (fun _ k => hrest _ ?_) fun _ _ => ?_
    all_goals exact h

/-- **An operation of the scheduler** is a sequence of trips. -/
theorem Trips.step (hts : env.transferScheduler = some ts) (h : Trips ts c s) (o : SwapBlocks.Op) :
    Trips ts c (SwapBlocks.step env s o) := by
  cases o with
  | addRequest r => exact h
  | schedule predict => exact inv_of_wp (wp_schedule_trips hts h predict)
  | finishRequest rid => exact inv_of_wp (wp_finishRequest_trips h rid)
  | abortRequest rid => exact inv_of_wp (wp_finishRequest_trips h rid)

end

end MoeInfinity.Engine.Moves
