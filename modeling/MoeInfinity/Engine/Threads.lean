import MoeInfinity.Engine.Moves
import MoeInfinity.Engine.Trust

/-! # The engine scheduler over the transfer scheduler

The thread of the engine scheduler and the worker thread, in every interleaving: at each point where
the first can be overtaken within a call of the transfer scheduler, the worker takes the next turn
of a script. A `wait` that finds the event not set after the worker's turn has timed out. -/

namespace MoeInfinity.Engine.Threads

open MoeInfinity.Python MoeInfinity.Lib.Runs
open MoeInfinity.Memory.KvManager
open MoeInfinity.Engine.Transfer MoeInfinity.Engine.Unified MoeInfinity.Engine.TransferRuns
open MoeInfinity.Engine.Unified.UnifiedTransferScheduler
open MoeInfinity.Engine.Schedule MoeInfinity.Engine.Schedule.Scheduler
open MoeInfinity.Engine.Moves MoeInfinity.Engine.Trust

variable {δ : Type}

/-! ### The service -/

/-- The transfer scheduler, the turns that its worker will take, and the steps taken so far. -/
structure Service (δ : Type) where
  uts : UnifiedTransferScheduler δ
  script : List (List WorkerStep)
  done : List Unified.Op

variable (handle : TransferRequest → δ → δ)

def runOp (s : Service δ) (o : Unified.Op) : Service δ :=
  { s with uts := step handle s.uts o, done := s.done ++ [o] }

/-- The worker takes its next turn. -/
def workerTurn (s : Service δ) : Service δ :=
  match s.script with
  | [] => s
  | ws :: script => exec (runOp handle) { s with script := script } (ws.map Unified.Op.worker)

/-- `wait`: the pending event is read under the lock, and then waited for. -/
def wait (transferId : String) (s : Service δ) : Bool × Service δ :=
  let s := workerTurn handle s
  match s.uts.pending transferId with
  | none => ((s.uts.results transferId).isSome, s)
  | some n =>
    let s := workerTurn handle s
    (n ∈ s.uts.eventsSet, s)

/-- The methods that the engine scheduler calls. It gives every transfer an id, so `enqueue` draws
none. -/
def service : TransferScheduler (Service δ) where
  enqueue := fun request s =>
    (transferIdOf request "", runOp handle (workerTurn handle s) (.enqueue request ""))
  cancel := fun transferId s =>
    let s := workerTurn handle s
    ((s.uts.cancel transferId).1, runOp handle s (.cancel transferId))
  wait := wait handle

/-- A transfer scheduler with the handlers of a coordinator. -/
def registered (device : δ) : UnifiedTransferScheduler δ :=
  ((UnifiedTransferScheduler.new device).registerHandler .kvSwapOut).registerHandler .kvSwapIn

/-- The state in which the engine scheduler finds it. -/
def Service.start (device : δ) (script : List (List WorkerStep)) : Service δ :=
  ⟨registered device, script, []⟩

/-! ### What is required -/

/-- The id of the transfer that a move rests on. -/
def transferIdOfMove {τ : Type} (m : Move τ) : String :=
  if m.swapIn then "swap_in_" ++ m.requestId else "swap_out_" ++ m.requestId

/-- The transfer that was enqueued for the move is completed: its handler has returned, and it was
not cancelled. -/
structure Returned (m : Move (Service δ)) : Prop where
  enqueued : m.after.uts.seqCounter = m.before.uts.seqCounter + 1
  transferId : (m.after.uts.lives m.after.uts.seqCounter).transferId = transferIdOfMove m
  status : (m.after.uts.lives m.after.uts.seqCounter).status = some .completed
  finished : 0 < (m.after.uts.lives m.after.uts.seqCounter).finished
  kept : (m.after.uts.lives m.after.uts.seqCounter).cancelledPending = false

/-! ### The transfers of the engine scheduler -/

theorem swapOut_ne_swapIn (i j : String) : "swap_out_" ++ i ≠ "swap_in_" ++ j := by
  intro h
  have h1 := congrArg String.toList h
  simp at h1

theorem transferIdOf_swap {r : TransferRequest} (h : IsSwap r) :
    transferIdOf r "" = r.transferId := by
  unfold transferIdOf
  cases h with
  | swapOut i ids => simp [swapOutTransfer]
  | swapIn i ids => simp [swapInTransfer]

/-- The id of a swap determines its priority. -/
theorem priority_swap {r r' : TransferRequest} (h : IsSwap r) (h' : IsSwap r')
    (hid : r.transferId = r'.transferId) : r.priority = r'.priority := by
  cases h with
  | swapOut i ids => cases h' with
    | swapOut j ids' => rfl
    | swapIn j ids' => exact absurd hid (swapOut_ne_swapIn i j)
  | swapIn i ids => cases h' with
    | swapOut j ids' => exact absurd hid.symm (swapOut_ne_swapIn j i)
    | swapIn j ids' => rfl

theorem transferIdOf_move {τ : Type} {m : Move τ} {r : TransferRequest} (h : TransferOf m r) :
    r.transferId = transferIdOfMove m := by
  unfold transferIdOfMove
  cases h with
  | swapOut h => rw [h]; rfl
  | swapIn h cpuIds hfree => rw [h]; rfl

/-- All transfers without a result are swaps. -/
def Swaps (u : UnifiedTransferScheduler δ) : Prop := ∀ e ∈ left u, IsSwap e.request

section

variable {handle} {u : UnifiedTransferScheduler δ}

theorem Swaps.workerStep (h : Swaps u) (w : WorkerStep) : Swaps (workerStep handle u w) := by
  intro e he
  refine h e ?_
  by_cases hrec : w = .record
  · subst hrec
    simp only [UnifiedTransferScheduler.workerStep] at he
    split at he
    · have hq : e ∈ u.queue := he
      exact List.mem_append_right _ hq
    · exact he
  · exact (quiet_workerStep handle hrec).left.subset he

theorem Swaps.enqueue (h : Swaps u) {r : TransferRequest} (hr : IsSwap r) :
    Swaps (u.enqueue r "") := by
  intro e he
  have hperm := (List.perm_orderedInsert Entry.Le
    ⟨u.seqCounter + 1, { r with transferId := transferIdOf r "" }⟩ u.queue).append_left
    (held u ++ (active u).toList)
  rcases List.mem_cons.mp (List.perm_middle.subset (hperm.subset he)) with rfl | he
  · rw [transferIdOf_swap hr]
    exact hr
  · exact h e he

theorem Swaps.cancel (h : Swaps u) (x : String) : Swaps (u.cancel x).2 := by
  unfold UnifiedTransferScheduler.cancel
  split
  · exact h
  · exact h

end

/-! ### The invariant -/

/-- What is known of the transfer scheduler in a run of careful steps. -/
structure Swapping (u : UnifiedTransferScheduler δ) : Prop where
  fair : Fair u
  swaps : Swaps u

variable {handle}

theorem Swapping.enqueue {u : UnifiedTransferScheduler δ} (h : Swapping u) {r : TransferRequest}
    (hr : IsSwap r) (hc : Careful u (.enqueue r "")) : Swapping (u.enqueue r "") := by
  refine ⟨h.fair.enqueue hc fun e he hex => ?_, h.swaps.enqueue hr⟩
  have hprio := priority_swap (h.swaps e (List.mem_append_right _ he)) hr
    (hex.trans (transferIdOf_swap hr))
  unfold Entry.priority
  rw [hprio]

/-- The service is where its steps lead, and careful steps keep what is known. -/
structure Good (handle : TransferRequest → δ → δ) (u₀ : UnifiedTransferScheduler δ)
    (s : Service δ) :
    Prop where
  run : s.uts = exec (step handle) u₀ s.done
  handlers : ∀ {r}, IsSwap r → r.transferType ∈ s.uts.handlers
  swapping : Along (step handle) Careful u₀ s.done → Swapping s.uts

variable {u₀ : UnifiedTransferScheduler δ} {s : Service δ}

theorem Good.runOp (h : Good handle u₀ s) {o : Unified.Op}
    (hh : (step handle s.uts o).handlers = s.uts.handlers)
    (hs : Swapping s.uts → Careful s.uts o → Swapping (step handle s.uts o)) :
    Good handle u₀ (runOp handle s o) := by
  refine ⟨?_, fun hr => ?_, fun ha => ?_⟩
  · change step handle s.uts o = exec (step handle) u₀ (s.done ++ [o])
    rw [exec_append, ← h.run]
    rfl
  · change _ ∈ (step handle s.uts o).handlers
    rw [hh]
    exact h.handlers hr
  · have ha : Along (step handle) Careful u₀ (s.done ++ [o]) := ha
    rw [along_append, ← h.run] at ha
    exact hs (h.swapping ha.1) ha.2.1

theorem handlers_workerStep (u : UnifiedTransferScheduler δ) (w : WorkerStep) :
    (workerStep handle u w).handlers = u.handlers := by
  by_cases hrec : w = .record
  · subst hrec
    simp only [UnifiedTransferScheduler.workerStep]
    split <;> rfl
  · exact (quiet_workerStep handle hrec).handlers

/-- What every worker step keeps, a turn of the worker keeps. -/
theorem workerTurn_keeps {P : Service δ → Prop}
    (hP : ∀ s w, P s → P (runOp handle s (.worker w)))
    (hscript : ∀ s ws, P s → P { s with script := ws }) (h : P s) : P (workerTurn handle s) := by
  have hexec : ∀ (ws : List WorkerStep) (s : Service δ), P s →
      P (exec (runOp handle) s (ws.map Unified.Op.worker)) := by
    intro ws
    induction ws with
    | nil => intro s hs; exact hs
    | cons w ws ih => intro s hs; exact ih _ (hP s w hs)
  unfold workerTurn
  split
  · exact h
  · exact hexec _ _ (hscript s _ h)

theorem Good.workerTurn (h : Good handle u₀ s) : Good handle u₀ (workerTurn handle s) :=
  workerTurn_keeps (P := Good handle u₀)
    (fun _ w hs => hs.runOp (handlers_workerStep _ w) fun h0 hw =>
      ⟨h0.fair.workerStep handle hw, h0.swaps.workerStep w⟩)
    (fun _ _ hs => ⟨hs.run, hs.handlers, hs.swapping⟩) h

theorem asked_workerTurn (handle : TransferRequest → δ → δ) {n : ℕ} {x : String}
    (h : Asked s.uts n x) :
    Asked (workerTurn handle s).uts n x :=
  workerTurn_keeps (P := fun s => Asked s.uts n x) (fun _ w hs => hs.workerStep handle w)
    (fun _ _ hs => hs) h

theorem seqCounter_workerTurn {n : ℕ} (h : s.uts.seqCounter = n) :
    (workerTurn handle s).uts.seqCounter = n := by
  refine workerTurn_keeps (P := fun s => s.uts.seqCounter = n) (fun s w hs => ?_)
    (fun _ _ hs => hs) h
  refine Eq.trans ?_ hs
  change (workerStep handle s.uts w).seqCounter = _
  by_cases hrec : w = .record
  · subst hrec
    simp only [UnifiedTransferScheduler.workerStep]
    split <;> rfl
  · exact (quiet_workerStep handle hrec).seqCounter

theorem done_workerTurn {os : List Unified.Op} (h : os <+: s.done) :
    os <+: (workerTurn handle s).done :=
  workerTurn_keeps (P := fun s => os <+: s.done) (fun _ _ hs => hs.trans (List.prefix_append _ _))
    (fun _ _ hs => hs) h

/-! ### Trips -/

theorem Good.wait (h : Good handle u₀ s) (x : String) : Good handle u₀ (wait handle x s).2 := by
  unfold Threads.wait
  simp only
  split
  · exact h.workerTurn
  · exact h.workerTurn.workerTurn

theorem done_wait {os : List Unified.Op} (h : os <+: s.done) (x : String) :
    os <+: (wait handle x s).2.done := by
  unfold Threads.wait
  simp only
  split
  · exact done_workerTurn h
  · exact done_workerTurn (done_workerTurn h)

/-- A wait that reports completion has found the event set. -/
theorem asked_wait {n : ℕ} {x : String} (h : Asked s.uts n x) (hw : (wait handle x s).1 = true) :
    Asked (wait handle x s).2.uts n x ∧ n ∈ (wait handle x s).2.uts.eventsSet := by
  have h₁ := asked_workerTurn handle h
  unfold Threads.wait at hw ⊢
  simp only at hw ⊢
  split
  · next hp =>
    refine ⟨h₁, ?_⟩
    rcases h₁.event with h0 | h0
    · rw [hp] at h0
      cases h0
    · exact h0.2
  · next m hp =>
    rw [hp] at hw
    have hm : m = n := by
      rcases h₁.event with h0 | h0
      · rw [hp] at h0
        exact Option.some.inj h0
      · rw [hp] at h0
        cases h0.1
    subst hm
    exact ⟨asked_workerTurn handle h₁, of_decide_eq_true hw⟩

theorem Good.enqueue (h : Good handle u₀ s) {r : TransferRequest} (hr : IsSwap r) :
    Good handle u₀ ((service handle).enqueue r s).2 :=
  h.workerTurn.runOp rfl fun h0 hc => h0.enqueue hr hc

theorem Good.trip (h : Good handle u₀ s) {r : TransferRequest} (hr : IsSwap r) :
    Good handle u₀ (trip (service handle) r s).2 :=
  (h.enqueue hr).wait _

theorem Good.giveUp (h : Good handle u₀ s) {r : TransferRequest} (hr : IsSwap r) :
    Good handle u₀ (giveUp (service handle) r s) := by
  refine (h.trip hr).workerTurn.runOp ?_ fun h0 _ => ⟨h0.fair.cancel _, h0.swaps.cancel _⟩
  change ((UnifiedTransferScheduler.cancel _ _).2).handlers = _
  unfold UnifiedTransferScheduler.cancel
  split <;> rfl

theorem done_trip (r : TransferRequest) : s.done <+: (trip (service handle) r s).2.done :=
  done_wait ((done_workerTurn (List.prefix_refl _)).trans (List.prefix_append _ _)) _

theorem done_giveUp (r : TransferRequest) : s.done <+: (giveUp (service handle) r s).done :=
  (done_workerTurn (done_trip r)).trans (List.prefix_append _ _)

theorem asked_trip (h : Good handle u₀ s) {r : TransferRequest} (hr : IsSwap r)
    (hw : (trip (service handle) r s).1.1 = true) :
    Asked (trip (service handle) r s).2.uts (s.uts.seqCounter + 1) r.transferId ∧
      s.uts.seqCounter + 1 ∈ (trip (service handle) r s).2.uts.eventsSet := by
  have hid := transferIdOf_swap hr
  have hseq : (workerTurn handle s).uts.seqCounter = s.uts.seqCounter := seqCounter_workerTurn rfl
  have hask : Asked ((service handle).enqueue r s).2.uts (s.uts.seqCounter + 1) r.transferId := by
    have h0 := asked_enqueue "" (h.workerTurn.handlers hr)
    rw [hseq, hid] at h0
    exact h0
  have henq : ((service handle).enqueue r s).1 = r.transferId := hid
  unfold Moves.trip at hw ⊢
  simp only [henq] at hw ⊢
  exact asked_wait hask hw

/-- **A move rests on a completed transfer** if the steps up to it were careful. -/
theorem returned_of_trip {m : Move (Service δ)} {r : TransferRequest} (h : Good handle u₀ m.before)
    (hr : TransferOf m r) (hw : (trip (service handle) r m.before).1.1 = true)
    (ha : m.after = (trip (service handle) r m.before).2)
    (hc : Along (step handle) Careful u₀ m.after.done) : Returned m := by
  obtain ⟨hask, hset⟩ := asked_trip h hr.isSwap hw
  have hgood := h.trip hr.isSwap
  rw [← ha] at hask hset hgood
  obtain ⟨hst, hfin⟩ := (hgood.swapping hc).fair.completed _ hset hask.kept
  refine ⟨hask.seq, ?_, ?_, ?_, ?_⟩
  all_goals rw [hask.seq]
  · rw [hask.life, transferIdOf_move hr]
  · exact hst
  · exact hfin hask.handler
  · exact hask.kept

/-! ### Runs -/

/-- The service after some trips, and the moves that rest on them. -/
structure GoodMoves (handle : TransferRequest → δ → δ) (u₀ : UnifiedTransferScheduler δ)
    (c : Service δ × List (Move (Service δ))) : Prop where
  good : Good handle u₀ c.1
  returned : Along (step handle) Careful u₀ c.1.done → ∀ m ∈ c.2, Returned m

theorem careful_of_shorter {os os' : List Unified.Op} (h : Along (step handle) Careful u₀ os')
    (hp : os <+: os') : Along (step handle) Careful u₀ os := by
  obtain ⟨rest, rfl⟩ := hp
  exact (along_append.mp h).1

theorem GoodMoves.trip {c c' : Service δ × List (Move (Service δ))} (h : GoodMoves handle u₀ c)
    (ht : Trip (service handle) c c') : GoodMoves handle u₀ c' := by
  cases ht with
  | refused hr t ms hw =>
    exact ⟨h.good.giveUp hr, fun hc => h.returned (careful_of_shorter hc (done_giveUp _))⟩
  | unmoved hr t ms hw =>
    exact ⟨h.good.trip hr, fun hc => h.returned (careful_of_shorter hc (done_trip _))⟩
  | @moved r m hr ms hw ha =>
    have hgood : Good handle u₀ m.after := by
      rw [ha]
      exact h.good.trip hr.isSwap
    refine ⟨hgood, fun hc m' hm' => ?_⟩
    rcases List.mem_append.mp hm' with hm' | hm'
    · refine h.returned (careful_of_shorter hc ?_) m' hm'
      change m.before.done <+: m.after.done
      rw [ha]
      exact done_trip _
    · rw [List.mem_singleton.mp hm']
      exact returned_of_trip h.good hr hw ha hc

theorem GoodMoves.trips {c c' : Service δ × List (Move (Service δ))} (h : GoodMoves handle u₀ c)
    (ht : Relation.ReflTransGen (Trip (service handle)) c c') : GoodMoves handle u₀ c' := by
  induction ht with
  | refl => exact h
  | tail _ ht ih => exact ih.trip ht

theorem good_start (handle : TransferRequest → δ → δ) (device : δ)
    (script : List (List WorkerStep)) :
    Good handle (registered device) (Service.start device script) where
  run := rfl
  handlers := fun hr => by
    cases hr with
    | swapOut i ids => exact Finset.mem_insert_of_mem (Finset.mem_insert_self _ _)
    | swapIn i ids => exact Finset.mem_insert_self _ _
  swapping := fun _ =>
    ⟨((fair_new device).registerHandler .kvSwapOut).registerHandler .kvSwapIn,
      fun e he => by cases he⟩

/-- The engine scheduler over the transfer scheduler, at the start. -/
def startState (device : δ) (script : List (List WorkerStep)) (numGpu numCpu blockSize : ℕ) :
    Scheduler (Service δ) :=
  Scheduler.new (KVCacheManager.new numGpu numCpu blockSize) (Service.start device script)

theorem trips_exec {env : Env (Service δ)} (hts : env.transferScheduler = some (service handle))
    (device : δ) (script : List (List WorkerStep)) (numGpu numCpu blockSize : ℕ)
    (ops : List SwapBlocks.Op) :
    Trips (service handle) (Service.start device script, [])
      (exec (SwapBlocks.step env) (startState device script numGpu numCpu blockSize) ops) :=
  inv_exec_all (fun _ o hs => hs.step hts o) ops _ Relation.ReflTransGen.refl

/-- **A request is left swapped, or comes back, on a completed transfer** in every run of the engine
scheduler over the transfer scheduler, for every script of the worker, whose steps are careful. -/
theorem returned_of_careful (handle : TransferRequest → δ → δ) (env : Env (Service δ))
    (hts : env.transferScheduler = some (service handle)) (device : δ)
    (script : List (List WorkerStep)) (numGpu numCpu blockSize : ℕ) (ops : List SwapBlocks.Op)
    (hc : Along (step handle) Careful (registered device)
      (exec (SwapBlocks.step env) (startState device script numGpu numCpu blockSize)
        ops).transfer.done) :
    ∀ m ∈ (exec (SwapBlocks.step env) (startState device script numGpu numCpu blockSize) ops).moves,
      Returned m := by
  have hstart : GoodMoves handle (registered device) (Service.start device script, []) :=
    ⟨good_start handle device script, fun _ m hm => by cases hm⟩
  exact (hstart.trips (trips_exec hts device script numGpu numCpu blockSize ops)).returned hc

/-! ### Both cases for one request -/

/-- Over the transfer scheduler; prompts shorter than a block are never hashed. -/
def overTransfers : Env (Service Unit) where
  hashBlockTokens := fun parent tokens => parent + tokens.length
  transferScheduler := some (service fun _ d => d)

/-- The worker runs one transfer while it is waited for; the handler returns or raises. -/
def oneTransfer (raises : Bool) : List (List WorkerStep) :=
  [[], [], [.pop, .check, .start, .finish raises, .record]]

theorem returned_outAndBack :
    (∀ m ∈ (exec (SwapBlocks.step overTransfers)
        (startState () (oneTransfer false ++ oneTransfer false) 1 2 4) SwapBlocks.outAndBack).moves,
      Returned m) ∧
    ((exec (SwapBlocks.step overTransfers)
        (startState () (oneTransfer false ++ oneTransfer false) 1 2 4)
        SwapBlocks.outAndBack).moves.map
      fun m => (m.requestId, m.swapIn)) = [("a", false), ("a", true)] :=
  ⟨returned_of_careful (fun _ d => d) overTransfers rfl () (oneTransfer false ++ oneTransfer false)
    1 2 4 SwapBlocks.outAndBack (by decide), by decide⟩

/-- A request is swapped out for another one. -/
def preemptedOnce : List SwapBlocks.Op :=
  [.addRequest ⟨"a", [1], .waiting⟩, .schedule none, .addRequest ⟨"b", [2], .waiting⟩,
    .schedule none]

/-- The handler of the swap-out raises, and the request is left swapped without a flag. -/
theorem failed_copy_trusted : ¬ ∀ (script : List (List WorkerStep)) (ops : List SwapBlocks.Op),
    ∀ m ∈ (exec (SwapBlocks.step overTransfers) (startState () script 1 2 4) ops).moves,
      Returned m := by
  intro h
  have hall := h (oneTransfer true) preemptedOnce
  have hmoves : ((exec (SwapBlocks.step overTransfers) (startState () (oneTransfer true) 1 2 4)
      preemptedOnce).moves.map fun m =>
        (m.after.uts.lives m.after.uts.seqCounter).status) = [some .failed] := by decide
  obtain ⟨m, hm, hst⟩ := List.mem_map.mp (by rw [hmoves]; exact List.mem_singleton.mpr rfl)
  rw [(hall m hm).status] at hst
  cases hst

end MoeInfinity.Engine.Threads
