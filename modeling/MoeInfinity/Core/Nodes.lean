import Mathlib.Algebra.BigOperators.Group.List.Basic
import Mathlib.Algebra.Module.Defs
import Mathlib.Algebra.Ring.Int.Defs
import Mathlib.Algebra.Ring.Nat
import Mathlib.Data.Finset.Erase
import Mathlib.Data.Finset.Filter
import Mathlib.Data.Finset.Insert

/-! # Nodes, tasks and experts (`core/model`, `core/prefetch`, `core/parallel`)

A node is a group of tensors that moves as a whole between the host and a GPU. Its `execState` is
taken by a compare-and-swap from `idle` to `fetching` and given back by a store. Three parts of the
program share the nodes: the tensor handle, whose caller acquires and releases tensors, the task
pool with one worker a GPU, and the expert dispatcher with one fetcher and some executors a GPU.

Devices: `none` is the CPU. All GPUs are valid devices, and the default host is the CPU. -/

namespace MoeInfinity.Core.Nodes

/-- An expert of the dispatcher; the keys of its cache are these pairs. -/
structure Expert where
  layerIdx : ℕ
  expertIdx : ℕ
deriving DecidableEq, Repr

/-- What does not change in a run: the GPUs, the executors of each, the topology and the memory
limits, and the forward of the experts on a row of the hidden states. -/
structure Setup where
  gpus : ℕ
  threads : ℕ
  Row : Type
  Weight : Type
  [rows : AddCommMonoid Row]
  [weights : SMul Weight Row]
  forward : Expert → Row → Row
  nodeOf : ℕ → ℕ
  tensorIds : ℕ → Finset ℕ
  mem_tensorIds : ∀ t, t ∈ tensorIds (nodeOf t)
  layer : ℕ → ℕ
  isSparse : ℕ → Bool
  byteSize : ℕ → ℤ
  defaultDevice : ℕ → Fin gpus
  sparseNodes : List ℕ
  denseNodes : List ℕ
  memoryCapacity : Fin gpus → ℤ
  deviceCacheLimit : Fin gpus → ℤ
  node : Expert → ℕ
  node_injective : Function.Injective node

attribute [instance] Setup.rows Setup.weights

variable {S : Setup}

/-! ### Nodes -/

inductive NodeExecState where
  | idle
  | fetching
deriving DecidableEq, Repr

/-- A node; `state` is up while its tensors are being acquired. -/
structure Node (S : Setup) where
  device : Option (Fin S.gpus) := none
  execState : NodeExecState := .idle
  state : Bool := false
  isPrefetching : Bool := false
  pendingDispatches : ℤ := 0
  incacheVisitCount : ℕ := 0
  isOverflow : Bool := false
deriving DecidableEq, Repr

abbrev NodeMap (S : Setup) := ℕ → Node S

def modify (nodes : NodeMap S) (n : ℕ) (f : Node S → Node S) : NodeMap S :=
  Function.update nodes n (f (nodes n))

def store (nodes : NodeMap S) (n : ℕ) (st : NodeExecState) : NodeMap S :=
  modify nodes n fun x => { x with execState := st }

/-- `SetDevice`: nothing happens if the node is on a device of this type already. -/
def setDevice (nodes : NodeMap S) (n : ℕ) (target : Option (Fin S.gpus)) : NodeMap S :=
  modify nodes n fun x => if x.device.isSome = target.isSome then x else { x with device := target }

def setState (nodes : NodeMap S) (n : ℕ) (state : Bool) : NodeMap S :=
  modify nodes n fun x => { x with state := state }

def setPrefetching (nodes : NodeMap S) (n : ℕ) (isPrefetching : Bool) : NodeMap S :=
  modify nodes n fun x => { x with isPrefetching := isPrefetching }

def addPending (nodes : NodeMap S) (n : ℕ) (d : ℤ) : NodeMap S :=
  modify nodes n fun x => { x with pendingDispatches := x.pendingDispatches + d }

def countVisit (nodes : NodeMap S) (n : ℕ) : NodeMap S :=
  modify nodes n fun x => { x with incacheVisitCount := x.incacheVisitCount + 1 }

def setOverflow (nodes : NodeMap S) (n : ℕ) : NodeMap S :=
  modify nodes n fun x => { x with isOverflow := true }

/-! ### Fields of a changed node -/

section Fields

variable (nodes : NodeMap S) (n m : ℕ)

theorem field_modify {β : Type*} (field : Node S → β) {f : Node S → Node S}
    (h : ∀ x, field (f x) = field x) : field (modify nodes n f m) = field (nodes m) := by
  unfold modify
  by_cases hm : m = n
  · subst hm; rw [Function.update_self, h]
  · rw [Function.update_of_ne hm]

theorem field_modify_self {β : Type*} (field : Node S → β) (f : Node S → Node S) :
    field (modify nodes n f m) = if m = n then field (f (nodes n)) else field (nodes m) := by
  unfold modify
  by_cases hm : m = n
  · subst hm; rw [Function.update_self, if_pos rfl]
  · rw [Function.update_of_ne hm, if_neg hm]

@[simp] theorem execState_store (st : NodeExecState) :
    (store nodes n st m).execState = if m = n then st else (nodes m).execState :=
  field_modify_self nodes n m (·.execState) _

@[simp] theorem state_setState (b : Bool) :
    (setState nodes n b m).state = if m = n then b else (nodes m).state :=
  field_modify_self nodes n m (·.state) _

theorem device_setDevice (target : Option (Fin S.gpus)) :
    (setDevice nodes n target m).device =
      if m = n ∧ (nodes n).device.isSome ≠ target.isSome then target else (nodes m).device := by
  rw [setDevice, field_modify_self nodes n m (·.device)]
  by_cases hm : m = n
  · subst hm
    by_cases h : (nodes m).device.isSome = target.isSome <;> simp [h]
  · simp [hm]

@[simp] theorem execState_setDevice (target : Option (Fin S.gpus)) :
    (setDevice nodes n target m).execState = (nodes m).execState :=
  field_modify nodes n m (·.execState) fun x => by split <;> rfl

@[simp] theorem state_setDevice (target : Option (Fin S.gpus)) :
    (setDevice nodes n target m).state = (nodes m).state :=
  field_modify nodes n m (·.state) fun x => by split <;> rfl

@[simp] theorem execState_setState (b : Bool) :
    (setState nodes n b m).execState = (nodes m).execState :=
  field_modify nodes n m (·.execState) fun _ => rfl

@[simp] theorem execState_setPrefetching (b : Bool) :
    (setPrefetching nodes n b m).execState = (nodes m).execState :=
  field_modify nodes n m (·.execState) fun _ => rfl

@[simp] theorem execState_addPending (d : ℤ) :
    (addPending nodes n d m).execState = (nodes m).execState :=
  field_modify nodes n m (·.execState) fun _ => rfl

@[simp] theorem execState_countVisit :
    (countVisit nodes n m).execState = (nodes m).execState :=
  field_modify nodes n m (·.execState) fun _ => rfl

@[simp] theorem execState_setOverflow :
    (setOverflow nodes n m).execState = (nodes m).execState :=
  field_modify nodes n m (·.execState) fun _ => rfl

@[simp] theorem device_store (st : NodeExecState) :
    (store nodes n st m).device = (nodes m).device := field_modify nodes n m (·.device) fun _ => rfl

@[simp] theorem device_setState (b : Bool) :
    (setState nodes n b m).device = (nodes m).device :=
  field_modify nodes n m (·.device) fun _ => rfl

@[simp] theorem device_setPrefetching (b : Bool) :
    (setPrefetching nodes n b m).device = (nodes m).device :=
  field_modify nodes n m (·.device) fun _ => rfl

@[simp] theorem device_addPending (d : ℤ) :
    (addPending nodes n d m).device = (nodes m).device :=
  field_modify nodes n m (·.device) fun _ => rfl

@[simp] theorem device_countVisit :
    (countVisit nodes n m).device = (nodes m).device :=
  field_modify nodes n m (·.device) fun _ => rfl

@[simp] theorem device_setOverflow :
    (setOverflow nodes n m).device = (nodes m).device :=
  field_modify nodes n m (·.device) fun _ => rfl

@[simp] theorem state_store (st : NodeExecState) :
    (store nodes n st m).state = (nodes m).state := field_modify nodes n m (·.state) fun _ => rfl

@[simp] theorem state_setPrefetching (b : Bool) :
    (setPrefetching nodes n b m).state = (nodes m).state :=
  field_modify nodes n m (·.state) fun _ => rfl

@[simp] theorem state_addPending (d : ℤ) :
    (addPending nodes n d m).state = (nodes m).state :=
  field_modify nodes n m (·.state) fun _ => rfl

@[simp] theorem state_countVisit :
    (countVisit nodes n m).state = (nodes m).state := field_modify nodes n m (·.state) fun _ => rfl

@[simp] theorem state_setOverflow :
    (setOverflow nodes n m).state = (nodes m).state := field_modify nodes n m (·.state) fun _ => rfl

end Fields

/-! ### The task pool and the tensor handle -/

structure Task (S : Setup) where
  node : ℕ
  onDemand : Bool := false
  priority : ℕ
  srcDevice : Option (Fin S.gpus)
  dstDevice : Fin S.gpus
  removeLayer : Bool := false
deriving DecidableEq, Repr

/-- The task of `StartExec`. -/
def demandTask (n : ℕ) (src : Option (Fin S.gpus)) : Task S :=
  ⟨n, true, 0, src, S.defaultDevice n, false⟩

/-- The task of `FetchExec`. -/
def fetchTask (n : ℕ) (src : Option (Fin S.gpus)) : Task S :=
  ⟨n, false, 0, src, S.defaultDevice n, false⟩

/-- The task of `EnqueuePrefetch`. -/
def prefetchTask (n : ℕ) (src : Option (Fin S.gpus)) : Task S :=
  ⟨n, false, 1, src, S.defaultDevice n, false⟩

def numPriority : ℕ := 20

/-- The queues of the pool, its record of acquired nodes and of cache candidates, and the books of
the handle: the tensors of a node that are not released. -/
structure Tasks (S : Setup) where
  unifiedQueue : ℕ → List (Task S) := fun _ => []
  execQueue : Finset ℕ := ∅
  candidates : Finset ℕ := ∅
  nodeIdToTensorIds : ℕ → Option (Finset ℕ) := fun _ => none
  lastLayerId : ℕ := 0
  lastNode : Option ℕ := none

/-- `node_id_to_tensor_ids_[node]`. -/
def Tasks.acquired (tasks : Tasks S) (n : ℕ) : Finset ℕ := (tasks.nodeIdToTensorIds n).getD ∅

def Tasks.setAcquired (tasks : Tasks S) (n : ℕ) (tensorIds : Finset ℕ) : Tasks S :=
  { tasks with nodeIdToTensorIds := Function.update tasks.nodeIdToTensorIds n (some tensorIds) }

/-- `remove_if` on the queues of the priorities from `first` on. -/
def Tasks.removeIf (tasks : Tasks S) (first : ℕ) (p : Task S → Bool) : Tasks S :=
  { tasks with unifiedQueue := fun i =>
      if first ≤ i ∧ i < numPriority then (tasks.unifiedQueue i).filter fun t => !p t
      else tasks.unifiedQueue i }

def Tasks.push (tasks : Tasks S) (t : Task S) : Tasks S :=
  { tasks with unifiedQueue :=
      Function.update tasks.unifiedQueue t.priority (tasks.unifiedQueue t.priority ++ [t]) }

def Tasks.setExecQueue (tasks : Tasks S) (q : Finset ℕ) : Tasks S := { tasks with execQueue := q }

def Tasks.setCandidates (tasks : Tasks S) (ns : Finset ℕ) : Tasks S :=
  { tasks with candidates := ns }

/-- The node of the last release, and its layer. -/
def Tasks.setLast (tasks : Tasks S) (n : ℕ) : Tasks S :=
  { tasks with lastLayerId := S.layer n, lastNode := some n }

/-- The tasks that the `remove_if` of `EnqueueTask` takes out. -/
def outdated (task t : Task S) : Bool :=
  (t.node == task.node && task.priority ≤ t.priority) ||
    (task.removeLayer && S.layer t.node < S.layer task.node)

/-- The nodes of the tasks that `EnqueueTask` takes out. -/
def Tasks.prunedNodes (tasks : Tasks S) (task : Task S) : List ℕ :=
  (((List.range numPriority).drop 1).flatMap fun i =>
    (tasks.unifiedQueue i).filter fun t => outdated task t).map (·.node)

/-- The task that the worker of a GPU takes: the first one for its GPU in the first queue that is
not empty. -/
def Tasks.popTask (tasks : Tasks S) (g : Fin S.gpus) : Option (Task S) :=
  match (List.range numPriority).find? fun i => !(tasks.unifiedQueue i).isEmpty with
  | none => none
  | some i => (tasks.unifiedQueue i).find? fun t => t.dstDevice = g

/-! ### Room on a device -/

/-- Who makes room: an acquire, whose evictions follow its node's kind, or a prefetch. -/
inductive Room (S : Setup) where
  | dense (n : ℕ)
  | sparse (n : ℕ)
  | prefetch (task : Task S)
deriving DecidableEq

def Room.node : Room S → ℕ
  | .dense n => n
  | .sparse n => n
  | .prefetch task => task.node

def Room.isDense : Room S → Bool
  | .dense _ => true
  | _ => false

/-- The nodes of a list that are on a GPU. -/
def onDevice (nodes : NodeMap S) (ns : List ℕ) (g : Fin S.gpus) : List ℕ :=
  ns.filter fun n => (nodes n).device = some g

def sizeOn (nodes : NodeMap S) (ns : List ℕ) (g : Fin S.gpus) : ℤ :=
  ((onDevice nodes ns g).map S.byteSize).sum

def getSparseCacheLimit (nodes : NodeMap S) (g : Fin S.gpus) : ℤ :=
  S.memoryCapacity g - sizeOn nodes S.denseNodes g

/-- The nodes that may be evicted for a room, and their limit. -/
def Room.nodes (r : Room S) : List ℕ := if r.isDense then S.denseNodes else S.sparseNodes

def Room.cacheLimit (r : Room S) (nodes : NodeMap S) : ℤ :=
  if r.isDense then S.deviceCacheLimit (S.defaultDevice r.node)
  else getSparseCacheLimit nodes (S.defaultDevice r.node) - S.byteSize r.node

/-- The order of the evictions: lower layers first, or the more visited first. -/
def Room.before (r : Room S) (nodes : NodeMap S) (n m : ℕ) : Bool :=
  if r.isDense then S.layer n ≤ S.layer m
  else (nodes m).incacheVisitCount ≤ (nodes n).incacheVisitCount

/-- An eviction under way: the nodes that were in use when it began, the limit, and the size so
far. -/
structure Eviction (S : Setup) where
  room : Room S
  nodesExec : Finset ℕ
  cacheLimit : ℤ
  cacheSize : ℤ
deriving DecidableEq

/-- Evictions of sparse nodes leave out candidates that did not overflow and nodes in use. -/
def Eviction.skips (ev : Eviction S) (nodes : NodeMap S) (tasks : Tasks S) (v : ℕ) : Bool :=
  !ev.room.isDense && ((v ∈ tasks.candidates && !(nodes v).isOverflow) || v ∈ ev.nodesExec)

/-! ### The expert dispatcher -/

structure CallArgs (S : Setup) where
  expert : Expert
  gpuId : Fin S.gpus
  waitForPrefetch : Bool := false
deriving DecidableEq, Repr

structure ExecArgs where
  expert : Expert
  evict : Bool
deriving DecidableEq, Repr

/-- The rows that an expert has computed, and the tokens they are for. -/
structure Output (S : Setup) where
  args : ExecArgs
  rows : List S.Row
  tokenMask : List Bool

/-- The dispatcher; `waiterAsleep` and `fetcherAsleep` are the threads that its condition variables
hold. -/
structure Dispatcher (S : Setup) where
  inputQueue : Fin S.gpus → List (CallArgs S) := fun _ => []
  execQueue : Fin S.gpus → List ExecArgs := fun _ => []
  gpuOverload : Fin S.gpus → Bool := fun _ => false
  cacheSizes : Fin S.gpus → ℤ
  cachedExperts : Fin S.gpus → Finset Expert := fun _ => ∅
  pending : ℤ := 0
  hiddenStates : List S.Row := []
  routerMask : ℕ → ℕ → Bool := fun _ _ => false
  routerWeight : ℕ → ℕ → S.Weight
  finalHiddenStates : List S.Row := []
  waiterAsleep : Bool := false
  fetcherAsleep : Fin S.gpus → Bool := fun _ => false

def Dispatcher.setInputQueue (d : Dispatcher S) (g : Fin S.gpus) (q : List (CallArgs S)) :
    Dispatcher S :=
  { d with inputQueue := Function.update d.inputQueue g q }

def Dispatcher.setExecQueue (d : Dispatcher S) (g : Fin S.gpus) (q : List ExecArgs) :
    Dispatcher S :=
  { d with execQueue := Function.update d.execQueue g q }

def Dispatcher.pushInput (d : Dispatcher S) (args : CallArgs S) : Dispatcher S :=
  d.setInputQueue args.gpuId (d.inputQueue args.gpuId ++ [args])

def Dispatcher.pushExec (d : Dispatcher S) (g : Fin S.gpus) (args : ExecArgs) : Dispatcher S :=
  d.setExecQueue g (d.execQueue g ++ [args])

def Dispatcher.setInputs (d : Dispatcher S) (hiddenStates : List S.Row) (routerMask : ℕ → ℕ → Bool)
    (routerWeight : ℕ → ℕ → S.Weight) : Dispatcher S :=
  { d with
    hiddenStates := hiddenStates
    routerMask := routerMask
    routerWeight := routerWeight
    finalHiddenStates := hiddenStates.map fun _ => 0 }

def Dispatcher.setPending (d : Dispatcher S) (pending : ℤ) : Dispatcher S :=
  { d with pending := pending }

def Dispatcher.setFinal (d : Dispatcher S) (rows : List S.Row) : Dispatcher S :=
  { d with finalHiddenStates := rows }

def Dispatcher.setWaiter (d : Dispatcher S) (asleep : Bool) : Dispatcher S :=
  { d with waiterAsleep := asleep }

def Dispatcher.setOverload (d : Dispatcher S) (g : Fin S.gpus) (overload : Bool) : Dispatcher S :=
  { d with gpuOverload := Function.update d.gpuOverload g overload }

def Dispatcher.sleep (d : Dispatcher S) (g : Fin S.gpus) (asleep : Bool) : Dispatcher S :=
  { d with fetcherAsleep := Function.update d.fetcherAsleep g asleep }

def intMax : ℕ := 2 ^ 31 - 1

/-- The experts that `FindExpertEvict` looks at. -/
def Dispatcher.evictable (d : Dispatcher S) (nodes : NodeMap S) (g : Fin S.gpus) : Finset Expert :=
  (d.cachedExperts g).filter fun e =>
    (nodes (S.node e)).device.isSome ∧ (nodes (S.node e)).incacheVisitCount < intMax ∧
      (nodes (S.node e)).pendingDispatches = 0 ∧ (nodes (S.node e)).execState = .idle

/-- `FindExpertEvict` may return this: one of the least visited, in no particular order. -/
def Dispatcher.FindsExpertEvict (d : Dispatcher S) (nodes : NodeMap S) (g : Fin S.gpus) :
    Option Expert → Prop
  | none => d.evictable nodes g = ∅
  | some e => e ∈ d.evictable nodes g ∧ ∀ e' ∈ d.evictable nodes g,
      (nodes (S.node e)).incacheVisitCount ≤ (nodes (S.node e')).incacheVisitCount

instance (d : Dispatcher S) (nodes : NodeMap S) (g : Fin S.gpus) :
    ∀ r, Decidable (d.FindsExpertEvict nodes g r)
  | none => inferInstanceAs (Decidable (_ = ∅))
  | some _ => inferInstanceAs (Decidable (_ ∧ ∀ _ ∈ _, _))

/-- The books of the cache when an expert leaves it. -/
def Dispatcher.evicted (d : Dispatcher S) (g : Fin S.gpus) (e : Expert) : Dispatcher S :=
  { d with
    cacheSizes := Function.update d.cacheSizes g (d.cacheSizes g + S.byteSize (S.node e))
    cachedExperts := Function.update d.cachedExperts g ((d.cachedExperts g).erase e) }

/-- The books of the cache when an expert enters it. -/
def Dispatcher.entered (d : Dispatcher S) (g : Fin S.gpus) (e : Expert) : Dispatcher S :=
  { d with
    cacheSizes := Function.update d.cacheSizes g (d.cacheSizes g - S.byteSize (S.node e))
    cachedExperts := Function.update d.cachedExperts g (insert e (d.cachedExperts g)) }

/-- The column of the router mask for an expert. -/
def Dispatcher.tokenMask (d : Dispatcher S) (e : Expert) : List Bool :=
  (List.range d.hiddenStates.length).map fun t => d.routerMask t e.expertIdx

/-- `hidden_states[mask]`. -/
def maskedRows {α : Type*} (rows : List α) (mask : List Bool) : List α :=
  ((rows.zip mask).filter (·.2)).map (·.1)

/-- The input of an expert: a single token is taken whatever its mask. -/
def Dispatcher.input (d : Dispatcher S) (e : Expert) : List S.Row :=
  if d.hiddenStates.length = 1 then d.hiddenStates else maskedRows d.hiddenStates (d.tokenMask e)

def Dispatcher.output (d : Dispatcher S) (args : ExecArgs) : Output S where
  args := args
  rows := (d.input args.expert).map (S.forward args.expert)
  tokenMask := d.tokenMask args.expert

@[simp] theorem args_output (d : Dispatcher S) (args : ExecArgs) :
    (d.output args).args = args := rfl

/-- `index_add_`. -/
def indexAdd {α : Type*} [Add α] (rows : List α) (added : List (ℕ × α)) : List α :=
  added.foldl (fun acc x => acc.modify x.1 (· + x.2)) rows

/-- `torch.nonzero(mask)`. -/
def tokenIndices (mask : List Bool) : List ℕ := maskedRows (List.range mask.length) mask

/-- What `OutputFunc` adds to the final hidden states. -/
def Dispatcher.accumulate (d : Dispatcher S) (out : Output S) : List S.Row :=
  let weight := fun t => d.routerWeight t out.args.expert.expertIdx
  if d.hiddenStates.length = 1 then
    d.finalHiddenStates.mapIdx fun t row => row + (out.rows[t]?).elim 0 fun v => weight t • v
  else
    indexAdd d.finalHiddenStates <|
      (tokenIndices out.tokenMask).zip
        (List.zipWith (fun t v => weight t • v) (tokenIndices out.tokenMask) out.rows)

/-! ### The whole state -/

structure Shared (S : Setup) where
  node : NodeMap S := fun _ => {}
  tasks : Tasks S := {}
  dispatcher : Dispatcher S

end MoeInfinity.Core.Nodes
