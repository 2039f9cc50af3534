import MoeInfinity.Engine.Threads
import MoeInfinity.Serving.KvCache

/-! # The KV cache offload coordinator (`engine/kv_cache_offload_coordinator.py`)

The coordinator handles the transfers of swaps: a swap-out copies GPU blocks to the CPU and keeps
the copy under the id of its transfer, a swap-in takes the copy under the id of *its* transfer and
writes it back. The engine scheduler names these `swap_out_…` and `swap_in_…`, so that no swap-in
ever finds a copy: it returns at once, and the blocks of the request hold whatever they held before
(`restored_iff`).

A run interleaves operations of the engine scheduler, turns of the worker and changes of the tensors
by the model. -/

namespace MoeInfinity.Engine.Offload

open MoeInfinity.Lib.Runs
open MoeInfinity.Memory.KvManager
open MoeInfinity.Serving.KvCache (gather scatter)
open MoeInfinity.Engine.Transfer MoeInfinity.Engine.Unified
open MoeInfinity.Engine.Unified.UnifiedTransferScheduler
open MoeInfinity.Engine.Schedule MoeInfinity.Engine.Schedule.Scheduler
open MoeInfinity.Engine.Moves MoeInfinity.Engine.Trust MoeInfinity.Engine.Threads

/-! ### The coordinator -/

/-- The GPU tensors, by their contents at each block: one for keys and values, or one for each. -/
inductive KVTensors (β : Type) where
  | joint (kv : ℕ → β)
  | split (kCache vCache : ℕ → β)

/-- Copies of blocks. -/
inductive CpuData (β : Type) where
  | joint (blocks : List β)
  | split (kBlocks vBlocks : List β)
deriving DecidableEq, Repr

structure KVCacheOffloadCoordinator (β : Type) where
  kvTensors : Option (KVTensors β)
  cpuCache : String → Option (CpuData β)

variable {β : Type}

/-- The contents of the given blocks, in their order. -/
def KVTensors.select : KVTensors β → List ℕ → CpuData β
  | .joint kv, blockIds => .joint (gather kv blockIds)
  | .split k v, blockIds => .split (gather k blockIds) (gather v blockIds)

namespace KVCacheOffloadCoordinator

def handleSwapOut (request : TransferRequest) (c : KVCacheOffloadCoordinator β) :
    KVCacheOffloadCoordinator β :=
  match c.kvTensors with
  | none => c
  | some t => { c with
      cpuCache := Function.update c.cpuCache request.transferId (some (t.select request.blockIds)) }

/-- The tensors after a copy was written to the given blocks; a copy of the other kind is
ignored. -/
def restore (blockIds : List ℕ) : CpuData β → KVTensors β → KVTensors β
  | .split kBlocks vBlocks, .split k v =>
    .split (scatter k blockIds kBlocks) (scatter v blockIds vBlocks)
  | .joint blocks, .joint kv => .joint (scatter kv blockIds blocks)
  | _, t => t

def handleSwapIn (request : TransferRequest) (c : KVCacheOffloadCoordinator β) :
    KVCacheOffloadCoordinator β :=
  match c.kvTensors with
  | none => c
  | some t => match c.cpuCache request.transferId with
    | none => c
    | some cpuData => ⟨some (restore request.blockIds cpuData t),
        Function.update c.cpuCache request.transferId none⟩

/-- The handlers that `register_with_scheduler` registers. -/
def handle (request : TransferRequest) (c : KVCacheOffloadCoordinator β) :
    KVCacheOffloadCoordinator β :=
  match request.transferType with
  | .kvSwapOut => c.handleSwapOut request
  | .kvSwapIn => c.handleSwapIn request
  | _ => c

end KVCacheOffloadCoordinator

open KVCacheOffloadCoordinator

/-! ### Runs -/

/-- The steps of a run. -/
inductive Op (β : Type) where
  | scheduler (o : SwapBlocks.Op)
  | worker (ws : List WorkerStep)
  /-- The model has computed: the tensors are now these. -/
  | write (t : KVTensors β)

def setTensors (t : KVTensors β) (s : Service (KVCacheOffloadCoordinator β)) :
    Service (KVCacheOffloadCoordinator β) :=
  { s with uts := { s.uts with device := { s.uts.device with kvTensors := some t } } }

def step (env : Env (Service (KVCacheOffloadCoordinator β)))
    (s : Scheduler (Service (KVCacheOffloadCoordinator β))) :
    Op β → Scheduler (Service (KVCacheOffloadCoordinator β))
  | .scheduler o => SwapBlocks.step env s o
  | .worker ws => { s with transfer := exec (runOp handle) s.transfer (ws.map Unified.Op.worker) }
  | .write t => { s with transfer := setTensors t s.transfer }

/-- At the start there are tensors and no copies. -/
def start (t : KVTensors β) (script : List (List WorkerStep)) (numGpu numCpu blockSize : ℕ) :
    Scheduler (Service (KVCacheOffloadCoordinator β)) :=
  startState ⟨some t, fun _ => none⟩ script numGpu numCpu blockSize

/-! ### What is required -/

/-- The contents of the given blocks in a state of the transfer scheduler. -/
def contents (s : Service (KVCacheOffloadCoordinator β)) (blockIds : List ℕ) : Option (CpuData β) :=
  s.uts.device.kvTensors.map (·.select blockIds)

/-- The request of `mi` was swapped out by `mo` and has come back by `mi`. -/
structure OutAndIn (moves : List (Move (Service (KVCacheOffloadCoordinator β))))
    (mo mi : Move (Service (KVCacheOffloadCoordinator β))) : Prop where
  order : [mo, mi].Sublist moves
  requestId : mo.requestId = mi.requestId
  out : mo.swapIn = false
  back : mi.swapIn = true

/-- The request finds in its new blocks what its old blocks held, and the blocks of the other
requests are as they were. -/
structure Restored (mo mi : Move (Service (KVCacheOffloadCoordinator β))) : Prop where
  own : contents mi.after mi.gpuIds = contents mo.before mo.gpuIds
  others : ∀ i, i ≠ mi.requestId → ∀ b ∈ (mi.tables i).getD [],
    contents mi.after [b] = contents mi.before [b]

/-- The free blocks that the swap-in will take hold the contents already. -/
def InPlace (mo mi : Move (Service (KVCacheOffloadCoordinator β))) : Prop :=
  contents mi.before (mi.freeGpu.take mi.origGpuIds.length) = contents mo.before mo.gpuIds

/-! ### Nothing is copied back -/

/-- No copy is kept under the id of a swap-in. -/
structure NoCopies (u : UnifiedTransferScheduler (KVCacheOffloadCoordinator β)) : Prop where
  swaps : Swaps u
  cpuCache : ∀ i, u.device.cpuCache ("swap_in_" ++ i) = none

/-- Handling a swap leaves the tensors as they are. -/
theorem handle_swap {r : TransferRequest} (hr : IsSwap r) {c : KVCacheOffloadCoordinator β}
    (h : ∀ i, c.cpuCache ("swap_in_" ++ i) = none) :
    (handle r c).kvTensors = c.kvTensors ∧ ∀ i, (handle r c).cpuCache ("swap_in_" ++ i) = none := by
  cases hr with
  | swapOut j ids =>
    change (c.handleSwapOut (swapOutTransfer j ids)).kvTensors = _ ∧
      ∀ i, (c.handleSwapOut (swapOutTransfer j ids)).cpuCache _ = none
    unfold handleSwapOut
    split
    · exact ⟨rfl, h⟩
    · refine ⟨rfl, fun i => ?_⟩
      have hne : "swap_in_" ++ i ≠ (swapOutTransfer j ids).transferId :=
        (swapOut_ne_swapIn j i).symm
      simp only [Function.update_of_ne hne]
      exact h i
  | swapIn j ids =>
    have heq : handle (swapInTransfer j ids) c = c := by
      change c.handleSwapIn (swapInTransfer j ids) = c
      unfold handleSwapIn
      split
      · rfl
      · have hnone : c.cpuCache (swapInTransfer j ids).transferId = none := h j
        rw [hnone]
    rw [heq]
    exact ⟨rfl, h⟩

section

variable {u : UnifiedTransferScheduler (KVCacheOffloadCoordinator β)}
  {s : Service (KVCacheOffloadCoordinator β)}

/-- The device changes only when a handler returns. -/
theorem device_workerStep {δ : Type} {f : TransferRequest → δ → δ} {u : UnifiedTransferScheduler δ}
    (w : WorkerStep) :
    (workerStep f u w).device = u.device ∨
      ∃ e ∈ left u, (workerStep f u w).device = f e.request u.device := by
  cases w with
  | pop =>
    simp only [UnifiedTransferScheduler.workerStep]
    split <;> exact Or.inl rfl
  | check =>
    simp only [UnifiedTransferScheduler.workerStep]
    split
    · split_ifs <;> exact Or.inl rfl
    · exact Or.inl rfl
  | start =>
    simp only [UnifiedTransferScheduler.workerStep]
    split
    · split_ifs <;> exact Or.inl rfl
    · exact Or.inl rfl
  | finish raises =>
    simp only [UnifiedTransferScheduler.workerStep]
    split
    · next e hw =>
      split_ifs
      · exact Or.inl rfl
      · refine Or.inr ⟨e, ?_, rfl⟩
        unfold left TransferRuns.active
        rw [hw]
        simp
    · exact Or.inl rfl
  | record =>
    simp only [UnifiedTransferScheduler.workerStep]
    split <;> exact Or.inl rfl

theorem NoCopies.workerStep (h : NoCopies u) (w : WorkerStep) :
    NoCopies (workerStep handle u w) ∧
      (workerStep handle u w).device.kvTensors = u.device.kvTensors := by
  rcases device_workerStep (f := handle) (u := u) w with hd | ⟨e, he, hd⟩
  · exact ⟨⟨h.swaps.workerStep w, fun i => by rw [hd]; exact h.cpuCache i⟩, by rw [hd]⟩
  · obtain ⟨h1, h2⟩ := handle_swap (h.swaps e he) h.cpuCache
    exact ⟨⟨h.swaps.workerStep w, fun i => by rw [hd]; exact h2 i⟩, by rw [hd]; exact h1⟩

/-- The service, with the tensors `t`. -/
structure Holding (t : Option (KVTensors β))
    (s : Service (KVCacheOffloadCoordinator β)) : Prop where
  noCopies : NoCopies s.uts
  tensors : s.uts.device.kvTensors = t

variable {t : Option (KVTensors β)}

theorem Holding.worker (h : Holding t s) (w : WorkerStep) :
    Holding t (runOp handle s (.worker w)) := by
  obtain ⟨h1, h2⟩ := h.noCopies.workerStep w
  exact ⟨h1, h2.trans h.tensors⟩

theorem Holding.workerTurn (h : Holding t s) : Holding t (workerTurn handle s) :=
  workerTurn_keeps (P := Holding t) (fun _ w hs => hs.worker w)
    (fun _ _ hs => ⟨hs.noCopies, hs.tensors⟩) h

theorem Holding.trip (h : Holding t s) {r : TransferRequest} (hr : IsSwap r) :
    Holding t (trip (service handle) r s).2 := by
  have h₁ := h.workerTurn
  have h₂ : Holding t ((service handle).enqueue r s).2 :=
    ⟨⟨h₁.noCopies.swaps.enqueue hr, h₁.noCopies.cpuCache⟩, h₁.tensors⟩
  change Holding t (wait handle _ ((service handle).enqueue r s).2).2
  unfold Threads.wait
  simp only
  split
  · exact h₂.workerTurn
  · exact h₂.workerTurn.workerTurn

theorem Holding.giveUp (h : Holding t s) {r : TransferRequest} (hr : IsSwap r) :
    Holding t (giveUp (service handle) r s) := by
  have h₁ := (h.trip hr).workerTurn
  have hdev : ∀ (x : String) (u : UnifiedTransferScheduler (KVCacheOffloadCoordinator β)),
      (u.cancel x).2.device = u.device := by
    intro x u
    unfold UnifiedTransferScheduler.cancel
    split <;> rfl
  refine ⟨⟨h₁.noCopies.swaps.cancel _, fun i => ?_⟩, ?_⟩
  · refine Eq.trans ?_ (h₁.noCopies.cpuCache i)
    exact congrFun (congrArg cpuCache (hdev _ _)) _
  · exact (congrArg kvTensors (hdev _ _)).trans h₁.tensors

end

/-! ### All runs -/

/-- A move leaves the tensors as they are, and a request comes back to the first free blocks. -/
structure Plain (m : Move (Service (KVCacheOffloadCoordinator β))) : Prop where
  tensors : m.after.uts.device.kvTensors = m.before.uts.device.kvTensors
  gpuIds : m.swapIn = true → m.gpuIds = m.freeGpu.take m.origGpuIds.length

/-- The tensors stay as they are during an operation of the engine scheduler. -/
structure PlainMoves (t : Option (KVTensors β))
    (c : Service (KVCacheOffloadCoordinator β) × List
      (Move (Service (KVCacheOffloadCoordinator β)))) :
    Prop where
  holding : Holding t c.1
  plain : ∀ m ∈ c.2, Plain m

section

variable {t : Option (KVTensors β)}
  {c c' : Service (KVCacheOffloadCoordinator β) × List
    (Move (Service (KVCacheOffloadCoordinator β)))}

theorem PlainMoves.trip (h : PlainMoves t c) (ht : Trip (service handle) c c') :
    PlainMoves t c' := by
  cases ht with
  | refused hr s ms hw => exact ⟨h.holding.giveUp hr, h.plain⟩
  | unmoved hr s ms hw => exact ⟨h.holding.trip hr, h.plain⟩
  | @moved r m hr ms hw ha =>
    have hafter : Holding t m.after := by
      rw [ha]
      exact h.holding.trip hr.isSwap
    refine ⟨hafter, fun m' hm' => ?_⟩
    rcases List.mem_append.mp hm' with hm' | hm'
    · exact h.plain m' hm'
    · rw [List.mem_singleton.mp hm']
      refine ⟨hafter.tensors.trans h.holding.tensors.symm, fun hin => ?_⟩
      cases hr with
      | swapOut hout => rw [hout] at hin; cases hin
      | swapIn _ cpuIds hfree => exact hfree

theorem PlainMoves.trips (h : PlainMoves t c)
    (ht : Relation.ReflTransGen (Trip (service handle)) c c') : PlainMoves t c' := by
  induction ht with
  | refl => exact h
  | tail _ ht ih => exact ih.trip ht

end

/-- The invariant of a run. -/
def PlainState (s : Scheduler (Service (KVCacheOffloadCoordinator β))) : Prop :=
  PlainMoves s.transfer.uts.device.kvTensors (s.transfer, s.moves)

/-- **One step** of a run. -/
theorem PlainState.step {env : Env (Service (KVCacheOffloadCoordinator β))}
    (hts : env.transferScheduler = some (service handle))
    {s : Scheduler (Service (KVCacheOffloadCoordinator β))} (h : PlainState s) (o : Op β) :
    PlainState (Offload.step env s o) := by
  cases o with
  | scheduler o =>
    have htrips : Trips (service handle) (s.transfer, s.moves) (SwapBlocks.step env s o) :=
      Trips.step hts Relation.ReflTransGen.refl o
    have hmoves := PlainMoves.trips h htrips
    exact ⟨⟨hmoves.holding.noCopies, rfl⟩, hmoves.plain⟩
  | worker ws =>
    have hexec := inv_exec_all (I := Holding s.transfer.uts.device.kvTensors)
      (fun _ w hs => hs.worker w) ws s.transfer h.holding
    rw [exec, ← List.foldl_map] at hexec
    exact ⟨⟨hexec.noCopies, rfl⟩, h.plain⟩
  | write t => exact ⟨⟨⟨h.holding.noCopies.swaps, h.holding.noCopies.cpuCache⟩, rfl⟩, h.plain⟩

theorem plainState_start (t : KVTensors β) (script : List (List WorkerStep))
    (numGpu numCpu blockSize : ℕ) : PlainState (start t script numGpu numCpu blockSize) :=
  ⟨⟨⟨fun e he => (by cases he), fun _ => rfl⟩, rfl⟩, fun m hm => by cases hm⟩

/-- **A request comes back with its contents** if and only if they are in the blocks it gets. -/
theorem restored_iff (env : Env (Service (KVCacheOffloadCoordinator β)))
    (hts : env.transferScheduler = some (service handle)) (t : KVTensors β)
    (script : List (List WorkerStep)) (numGpu numCpu blockSize : ℕ) (ops : List (Op β))
    (mo mi : Move (Service (KVCacheOffloadCoordinator β)))
    (hm : OutAndIn (exec (step env) (start t script numGpu numCpu blockSize) ops).moves mo mi) :
    Restored mo mi ↔ InPlace mo mi := by
  have hplain := inv_exec_all (I := PlainState) (fun _ o hs => hs.step hts o) ops _
    (plainState_start t script numGpu numCpu blockSize)
  have hmi := hplain.plain mi (hm.order.subset (List.mem_cons_of_mem _ List.mem_cons_self))
  have hsame : ∀ ids, contents mi.after ids = contents mi.before ids := by
    intro ids
    unfold contents
    rw [hmi.tensors]
  have hids := hmi.gpuIds hm.back
  constructor
  · intro h
    unfold InPlace
    rw [← hids, ← hsame]
    exact h.own
  · intro h
    refine ⟨?_, fun _ _ b _ => hsame [b]⟩
    rw [hsame, hids]
    exact h

/-! ### Both cases for one request -/

/-- Over a transfer scheduler with a coordinator; prompts shorter than a block are never hashed. -/
def withCoordinator : Env (Service (KVCacheOffloadCoordinator ℕ)) where
  hashBlockTokens := fun parent tokens => parent + tokens.length
  transferScheduler := some (service handle)

/-- Both transfers are run while they are waited for. -/
def twoTransfers : List (List WorkerStep) := oneTransfer false ++ oneTransfer false

/-- A request has computed its only block, is swapped out for another one and comes back after that
has finished; the other one may compute too. -/
def outAndBack (other : List (Op ℕ)) : List (Op ℕ) :=
  [.scheduler (.addRequest ⟨"a", [1], .waiting⟩), .scheduler (.schedule none),
    .write (.joint fun _ => 7), .scheduler (.addRequest ⟨"b", [2], .waiting⟩),
    .scheduler (.schedule none)] ++ other ++
  [.scheduler (.finishRequest "b"), .scheduler (.schedule none)]

/-- The moves of such a run. -/
def movesOf (other : List (Op ℕ)) : List (Move (Service (KVCacheOffloadCoordinator ℕ))) :=
  (exec (step withCoordinator) (start (.joint fun _ => 0) twoTransfers 1 2 4)
    (outAndBack other)).moves

theorem exists_outAndIn (other : List (Op ℕ))
    (h : (movesOf other).map (fun m => (m.requestId, m.swapIn)) = [("a", false), ("a", true)]) :
    ∃ mo mi, movesOf other = [mo, mi] ∧ OutAndIn (movesOf other) mo mi := by
  obtain ⟨mo, rest, hms, ho, hrest⟩ := List.map_eq_cons_iff.mp h
  obtain ⟨mi, rest', rfl, hi, hrest'⟩ := List.map_eq_cons_iff.mp hrest
  rw [List.map_eq_nil_iff] at hrest'
  subst hrest'
  rw [Prod.mk.injEq] at ho hi
  refine ⟨mo, mi, hms, ?_, ho.1.trans hi.1.symm, ho.2, hi.2⟩
  rw [hms]

/-- Nothing is computed while the request is away, so its contents are still there. -/
theorem restored_untouched :
    ∃ mo mi, OutAndIn (movesOf []) mo mi ∧ Restored mo mi ∧
      contents mi.after mi.gpuIds = some (.joint [7]) := by
  obtain ⟨mo, mi, hms, hm⟩ := exists_outAndIn [] (by decide)
  have hplace : (movesOf []).map (fun m => contents m.before (m.freeGpu.take m.origGpuIds.length)) =
      [some (.joint []), some (.joint [7])] := by decide
  have hold : (movesOf []).map (fun m => contents m.before m.gpuIds) =
      [some (.joint [7]), some (.joint [7])] := by decide
  have hnew : (movesOf []).map (fun m => contents m.after m.gpuIds) =
      [some (.joint [7]), some (.joint [7])] := by decide
  rw [hms] at hplace hold hnew
  simp only [List.map_cons, List.map_nil, List.cons.injEq, and_true] at hplace hold hnew
  refine ⟨mo, mi, hm, ?_, hnew.2⟩
  refine (restored_iff withCoordinator rfl (.joint fun _ => 0) twoTransfers 1 2 4
    (outAndBack []) mo mi hm).mpr ?_
  exact hplace.2.trans hold.1.symm

/-- The other request computes in the same block, and the first one comes back to that. -/
theorem contents_lost :
    ¬ ∀ (ops : List (Op ℕ)) (mo mi : Move (Service (KVCacheOffloadCoordinator ℕ))),
    OutAndIn
      (exec (step withCoordinator) (start (.joint fun _ => 0) twoTransfers 1 2 4) ops).moves mo mi →
    Restored mo mi := by
  intro h
  obtain ⟨mo, mi, hms, hm⟩ := exists_outAndIn [.write (.joint fun _ => 9)] (by decide)
  have hown := (h (outAndBack [.write (.joint fun _ => 9)]) mo mi hm).own
  have hold : (movesOf [.write (.joint fun _ => 9)]).map (fun m => contents m.before m.gpuIds) =
      [some (.joint [7]), some (.joint [9])] := by decide
  have hnew : (movesOf [.write (.joint fun _ => 9)]).map (fun m => contents m.after m.gpuIds) =
      [some (.joint [7]), some (.joint [9])] := by decide
  rw [hms] at hold hnew
  simp only [List.map_cons, List.map_nil, List.cons.injEq, and_true] at hold hnew
  rw [hnew.2, hold.1] at hown
  cases hown

end MoeInfinity.Engine.Offload
