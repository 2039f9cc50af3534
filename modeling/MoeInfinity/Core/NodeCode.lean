import Mathlib.Data.Finset.Dedup
import Mathlib.Data.Fintype.Sigma
import Mathlib.Data.Fintype.Sum
import Mathlib.Data.List.Perm.Basic
import Mathlib.Tactic.DeriveFintype
import MoeInfinity.Core.Nodes
import MoeInfinity.Lib.Threads

/-! # The threads that share the nodes

The functions of the tensor handle, the task pool and the expert dispatcher, cut into the steps that
other threads can observe: an atomic operation, a queue operation or a section under a mutex is one
instruction, with the reads and writes of the thread's own data around it. An instruction carries
what its function has in its local variables. A waiting loop is an instruction that is not enabled;
so is one where the process ends (a failed `DLOG_FATAL_IF`, a null pointer).

* `PoolInstr`: `AcquireTensor`, `ReleaseTensor`, `ReplaceCacheCandidates`, `EnqueuePrefetch` and
  `FetchTensors` of the handle with what they call in the pool, and the workers (`GPUThreadFunc`).
* `DispatchInstr`: `Enqueue`, `GPUFetchFunc`, `GPUExecFunc`, `OutputFunc` and `WaitHiddenStates` of
  the dispatcher.

The calls come from Python, which runs them one at a time: they are one thread, the caller. It alone
uses the books of the handle; so `acquireNode` may fill the set of the node when its spin ends and
not before it. -/

namespace MoeInfinity.Core.Nodes

variable {S : Setup}

/-- What the program does not determine: the order in which equal nodes are evicted, which of the
least visited experts is found, whether the work of an executor succeeds, and spurious wakeups. -/
structure Choice where
  order : List ℕ := []
  evictee : Option Expert := none
  ok : Bool := true
  spurious : Bool := false
deriving DecidableEq

/-! ### The handle and the task pool -/

/-- The instructions of the handle and of the pool. `own` tells whether the node whose state is
stored was listed as acquired before. -/
inductive PoolInstr (S : Setup) where
  | acquireTensor (t : ℕ)
  | acquireNode (t : ℕ)
  | overflow (n : ℕ)
  | removeCached (r : Room S)
  | snapshotExec (r : Room S)
  | measure (r : Room S) (nodesExec : Finset ℕ)
  | nextVictim (ev : Eviction S) (victims : List ℕ)
  | takeVictim (ev : Eviction S) (v : ℕ) (victims : List ℕ)
  | moveVictim (ev : Eviction S) (v : ℕ) (victims : List ℕ)
  | freeVictim (ev : Eviction S) (v : ℕ) (victims : List ℕ)
  | startExec (n : ℕ)
  | startPrune (n : ℕ) (src : Option (Fin S.gpus))
  | startQueue (n : ℕ) (src : Option (Fin S.gpus))
  | pushDemand (n : ℕ) (src : Option (Fin S.gpus))
  | awaitNode (n : ℕ)
  | releaseTensor (t : ℕ)
  | releaseOwn (t : ℕ)
  | stopExec (n : ℕ) (own : Bool)
  | execErase (n : ℕ) (own : Bool)
  | freeNode (n : ℕ) (own : Bool)
  | takeCandidate (t : ℕ)
  | replaceCandidates (ts : List ℕ)
  | enqueuePrefetch (t : ℕ)
  | enqueuePrune (n : ℕ) (src : Option (Fin S.gpus))
  | pushPrefetch (n : ℕ) (src : Option (Fin S.gpus))
  | fetchExec (t : ℕ)
  | fetchPrune (n : ℕ) (src : Option (Fin S.gpus))
  | pushFetch (n : ℕ) (src : Option (Fin S.gpus))
  | sameDevice (n : ℕ)
  | popTask (g : Fin S.gpus)
  | moveDemand (task : Task S)
  | arrived (n : ℕ)
  | beginPrefetch (task : Task S)
  | takePrefetch (task : Task S)
  | movePrefetch (task : Task S)
  | freePrefetch (n : ℕ)
  | clearPrefetching (n : ℕ)

/-- What follows `RemoveCachedSparseNode` or `RemoveCachedDenseNode`, by their result. -/
def Room.done : Room S → Bool → List (PoolInstr S)
  | .dense n, _ => [.startExec n]
  | .sparse n, true => [.startExec n]
  | .sparse n, false => [.overflow n, .startExec n]
  | .prefetch task, true => [.beginPrefetch task]
  | .prefetch _, false => []

/-- The end of an iteration of the eviction loop. -/
def Eviction.goOn (ev : Eviction S) (victims : List ℕ) : List (PoolInstr S) :=
  if ev.cacheSize ≤ ev.cacheLimit then ev.room.done true else [.nextVictim ev victims]

/-- One instruction of the handle or of the pool. -/
def PoolInstr.run (c : Choice) (nodes : NodeMap S) (tasks : Tasks S) :
    PoolInstr S → Option (NodeMap S × Tasks S × List (PoolInstr S))
  | .acquireTensor t => some (setState nodes (S.nodeOf t) true, tasks, [.acquireNode t])
  | .acquireNode t =>
    let n := S.nodeOf t
    if tasks.acquired n ≠ ∅ then some (nodes, tasks, [])
    else if (nodes n).execState = .idle then
      some (store nodes n .fetching, tasks.setAcquired n (S.tensorIds n),
        [.removeCached (if S.isSparse n then .sparse n else .dense n)])
    else none
  | .overflow n => some (setOverflow nodes n, tasks, [])
  | .removeCached r =>
    if (nodes r.node).device.isSome then some (nodes, tasks, r.done true)
    else if r.isDense then some (nodes, tasks, [.measure r ∅])
    else some (nodes, tasks, [.snapshotExec r])
  | .snapshotExec r => some (nodes, tasks, [.measure r tasks.execQueue])
  | .measure r nodesExec =>
    let cacheLimit := r.cacheLimit nodes
    let cacheSize := sizeOn nodes r.nodes (S.defaultDevice r.node)
    if cacheSize ≤ cacheLimit then some (nodes, tasks, r.done true)
    else if c.order.Perm (onDevice nodes r.nodes (S.defaultDevice r.node)) ∧
        c.order.Pairwise fun n m => r.before nodes n m then
      some (nodes, tasks, [.nextVictim ⟨r, nodesExec, cacheLimit, cacheSize⟩ c.order])
    else none
  | .nextVictim ev [] => some (nodes, tasks, ev.room.done (ev.cacheSize ≤ ev.cacheLimit))
  | .nextVictim ev (v :: victims) =>
    if ev.skips nodes tasks v then some (nodes, tasks, [.nextVictim ev victims])
    else some (nodes, tasks, [.takeVictim ev v victims])
  | .takeVictim ev v victims =>
    if (nodes v).execState = .idle then
      some (store nodes v .fetching, tasks, [.moveVictim ev v victims])
    else some (nodes, tasks, ev.goOn victims)
  | .moveVictim ev v victims => some (setDevice nodes v none, tasks, [.freeVictim ev v victims])
  | .freeVictim ev v victims =>
    some (store nodes v .idle, tasks,
      { ev with cacheSize := ev.cacheSize - S.byteSize v : Eviction S }.goOn victims)
  | .startExec n =>
    if (nodes n).device.isSome then
      some (countVisit nodes n, tasks, [.startPrune n (nodes n).device])
    else some (nodes, tasks, [.startPrune n none])
  | .startPrune n src =>
    some (nodes, tasks.removeIf 0 fun t => t.node == n || S.layer t.node < S.layer n,
      [.startQueue n src])
  | .startQueue n src =>
    if src.isSome then
      some (setState nodes n false, tasks.setExecQueue (insert n tasks.execQueue),
        [.awaitNode n])
    else if n ∈ tasks.execQueue then some (setState nodes n false, tasks, [.awaitNode n])
    else
      some (nodes, tasks.setExecQueue (insert n tasks.execQueue),
        [.pushDemand n src, .awaitNode n])
  | .pushDemand n src => some (nodes, tasks.push (demandTask n src), [])
  | .awaitNode n => if (nodes n).state then none else some (nodes, tasks, [])
  | .releaseTensor t =>
    let n := S.nodeOf t
    match tasks.nodeIdToTensorIds n with
    | none => some (nodes, tasks, [])
    | some _ =>
      if S.layer n = tasks.lastLayerId then some (nodes, tasks, [.releaseOwn t])
      else
        match tasks.lastNode with
        | none => none
        | some last =>
          if tasks.acquired last = ∅ then some (nodes, tasks, [.releaseOwn t])
          else some (nodes, tasks.setAcquired last ∅, [.stopExec last true, .releaseOwn t])
  | .releaseOwn t =>
    let n := S.nodeOf t
    let left := (tasks.acquired n).erase t
    some (nodes, (tasks.setAcquired n left).setLast n,
      if left = ∅ then [.stopExec n (tasks.acquired n ≠ ∅)] else [])
  | .stopExec n own => some (setState nodes n false, tasks, [.execErase n own])
  | .execErase n own =>
    some (nodes, tasks.setExecQueue (tasks.execQueue.erase n), [.freeNode n own])
  | .freeNode n _ => some (store nodes n .idle, tasks, [])
  | .takeCandidate t => some (store nodes (S.nodeOf t) .fetching, tasks, [])
  | .replaceCandidates ts =>
    some (nodes, (tasks.removeIf 1 fun _ => true).setCandidates (ts.map S.nodeOf).toFinset, [])
  | .enqueuePrefetch t =>
    some (nodes, tasks, [.enqueuePrune (S.nodeOf t) (nodes (S.nodeOf t)).device])
  | .enqueuePrune n src =>
    some ((tasks.prunedNodes (prefetchTask n src)).foldl (fun ns m => store ns m .idle) nodes,
      tasks.removeIf 1 (outdated (prefetchTask n src)),
      if src = some (S.defaultDevice n) then [.sameDevice n] else [.pushPrefetch n src])
  | .pushPrefetch n src => some (nodes, tasks.push (prefetchTask n src), [])
  | .fetchExec t => some (nodes, tasks, [.fetchPrune (S.nodeOf t) (nodes (S.nodeOf t)).device])
  | .fetchPrune n src =>
    some (nodes, tasks.removeIf 1 fun t => t.node == n || S.layer t.node ≤ S.layer n,
      if src = some (S.defaultDevice n) then [.sameDevice n] else [.pushFetch n src])
  | .pushFetch n src => some (nodes, tasks.push (fetchTask n src), [])
  | .sameDevice n => some (setState nodes n false, tasks, [])
  | .popTask g =>
    match tasks.popTask g with
    | none => none
    | some task =>
      some (countVisit nodes task.node,
        tasks.removeIf 0 fun t => t.node == task.node && t.dstDevice = task.dstDevice,
        if task.onDemand then [.moveDemand task] else [.removeCached (.prefetch task)])
  | .moveDemand task =>
    some (setDevice nodes task.node (some task.dstDevice), tasks, [.arrived task.node])
  | .arrived n => some (setState nodes n false, tasks, [])
  | .beginPrefetch task => some (setPrefetching nodes task.node true, tasks, [.takePrefetch task])
  | .takePrefetch task =>
    if (nodes task.node).execState = .idle then
      some (store nodes task.node .fetching, tasks, [.movePrefetch task])
    else some (nodes, tasks, [.clearPrefetching task.node])
  | .movePrefetch task =>
    some (setDevice nodes task.node (some task.dstDevice), tasks, [.freePrefetch task.node])
  | .freePrefetch n => some (store nodes n .idle, tasks, [.clearPrefetching n])
  | .clearPrefetching n => some (setPrefetching nodes n false, tasks, [])

/-! ### The expert dispatcher -/

/-- The instructions of the dispatcher. In `load` and `fetched`, `own` tells whether the overload
slot was taken for this expert. -/
inductive DispatchInstr (S : Setup) where
  | setInputs (hiddenStates : List S.Row) (routerMask : ℕ → ℕ → Bool)
      (routerWeight : ℕ → ℕ → S.Weight)
  | setExpectedQueue (expected : ℕ)
  | enqueue (e : Expert) (g : Fin S.gpus)
  | enqueueBusy (e : Expert)
  | countDispatch (e : Expert)
  | enqueueRoute (e : Expert) (g : Fin S.gpus)
  | pushInput (args : CallArgs S)
  | pushExec (g : Fin S.gpus) (args : ExecArgs)
  | popInput (g : Fin S.gpus)
  | awaitIdle (g : Fin S.gpus) (args : CallArgs S)
  | claim (g : Fin S.gpus) (args : CallArgs S)
  | uncount (g : Fin S.gpus) (args : CallArgs S)
  | claimed (g : Fin S.gpus) (args : CallArgs S)
  | fetch (g : Fin S.gpus) (args : CallArgs S)
  | awaitOverload (g : Fin S.gpus) (args : CallArgs S)
  | takeOverload (g : Fin S.gpus) (args : CallArgs S)
  | findEvict (g : Fin S.gpus) (args : CallArgs S)
  | cacheTest (g : Fin S.gpus) (args : CallArgs S)
  | cacheBlock (g : Fin S.gpus) (args : CallArgs S)
  | cacheAsleep (g : Fin S.gpus) (args : CallArgs S)
  | findAgain (g : Fin S.gpus) (args : CallArgs S) (retries : ℕ)
  | evict (g : Fin S.gpus) (args : CallArgs S) (victim : Expert)
  | load (g : Fin S.gpus) (args : CallArgs S) (own : Bool)
  | fetched (g : Fin S.gpus) (args : CallArgs S) (own : Bool)
  | popExec (g : Fin S.gpus)
  | execute (g : Fin S.gpus) (args : ExecArgs)
  | freeExecuted (g : Fin S.gpus) (out : Output S)
  | unload (g : Fin S.gpus) (out : Output S)
  | clearOverload (g : Fin S.gpus) (out : Output S)
  | notifyCache (g : Fin S.gpus) (out : Output S)
  | accumulate (out : Output S)
  | freeFailed (e : Expert) (own : Bool)
  | decrement
  | testPending
  | notifyPending
  | waitTest
  | waitBlock
  | waitAsleep

/-- One instruction of the dispatcher. -/
def DispatchInstr.run (c : Choice) (nodes : NodeMap S) (d : Dispatcher S) :
    DispatchInstr S → Option (NodeMap S × Dispatcher S × List (DispatchInstr S))
  | .setInputs hiddenStates routerMask routerWeight =>
    some (nodes, d.setInputs hiddenStates routerMask routerWeight, [])
  | .setExpectedQueue expected => some (nodes, d.setPending expected, [])
  | .enqueue e g =>
    if (nodes (S.node e)).execState = .idle then
      some (store nodes (S.node e) .fetching, d, [.enqueueRoute e g])
    else some (nodes, d, [.enqueueBusy e])
  | .enqueueBusy e =>
    if (nodes (S.node e)).isPrefetching then some (nodes, d, [.countDispatch e]) else none
  | .countDispatch e =>
    some (addPending nodes (S.node e) 1, d, [.pushInput ⟨e, S.defaultDevice (S.node e), true⟩])
  | .enqueueRoute e g =>
    match (nodes (S.node e)).device with
    | some g' => some (nodes, d, [.pushExec g' ⟨e, false⟩])
    | none => some (nodes, d, [.pushInput ⟨e, g, false⟩])
  | .pushInput args => some (nodes, d.pushInput args, [])
  | .pushExec g args => some (nodes, d.pushExec g args, [])
  | .popInput g =>
    match d.inputQueue g with
    | [] => none
    | args :: rest =>
      some (nodes, d.setInputQueue g rest,
        [if args.waitForPrefetch then .awaitIdle g args else .fetch g args])
  | .awaitIdle g args =>
    if (nodes (S.node args.expert)).execState = .idle then
      some (nodes, d, [.claim g args]) else none
  | .claim g args => some (store nodes (S.node args.expert) .fetching, d, [.uncount g args])
  | .uncount g args => some (addPending nodes (S.node args.expert) (-1), d, [.claimed g args])
  | .claimed g args =>
    let n := S.node args.expert
    if (nodes n).device.isSome then some (countVisit nodes n, d, [.pushExec g ⟨args.expert, false⟩])
    else some (nodes, d, [.fetch g args])
  | .fetch g args =>
    let n := S.node args.expert
    if (nodes n).device = none ∧ d.cacheSizes g < S.byteSize n then
      if 1 < d.hiddenStates.length then some (nodes, d, [.awaitOverload g args])
      else some (nodes, d, [.findEvict g args])
    else some (nodes, d, [.load g args false])
  | .awaitOverload g args =>
    if d.gpuOverload g then none else some (nodes, d, [.takeOverload g args])
  | .takeOverload g args => some (nodes, d.setOverload g true, [.load g args true])
  | .findEvict g args =>
    if d.FindsExpertEvict nodes g c.evictee then
      match c.evictee with
      | none => some (nodes, d, [.cacheTest g args])
      | some v => some (nodes, d, [.evict g args v])
    else none
  | .cacheTest g args =>
    if d.evictable nodes g = ∅ then some (nodes, d, [.cacheBlock g args])
    else some (nodes, d, [.findAgain g args 100])
  | .cacheBlock g args => some (nodes, d.sleep g true, [.cacheAsleep g args])
  | .cacheAsleep g args =>
    if d.fetcherAsleep g ∧ ¬ c.spurious then none
    else some (nodes, d.sleep g false, [.cacheTest g args])
  | .findAgain g args retries =>
    if d.FindsExpertEvict nodes g c.evictee then
      match c.evictee, retries with
      | none, 0 => none
      | none, retries + 1 => some (nodes, d, [.findAgain g args retries])
      | some v, _ => some (nodes, d, [.evict g args v])
    else none
  | .evict g args victim =>
    if victim ∈ d.cachedExperts g then
      some (setDevice nodes (S.node victim) none, d.evicted g victim, [.load g args false])
    else none
  | .load g args own =>
    some (setDevice nodes (S.node args.expert) (some g),
      if d.gpuOverload g then d else d.entered g args.expert, [.fetched g args own])
  | .fetched g args _ =>
    some (countVisit nodes (S.node args.expert), d, [.pushExec g ⟨args.expert, d.gpuOverload g⟩])
  | .popExec g =>
    match d.execQueue g with
    | [] => none
    | args :: rest =>
      some (nodes, d.setExecQueue g rest, [.execute g args])
  | .execute g args =>
    if c.ok then some (nodes, d, [.freeExecuted g (d.output args)])
    else some (nodes, d, [.freeFailed args.expert true])
  | .freeExecuted g out =>
    some (store nodes (S.node out.args.expert) .idle, d,
      [if out.args.evict then .unload g out else .notifyCache g out])
  | .unload g out => some (setDevice nodes (S.node out.args.expert) none, d, [.clearOverload g out])
  | .clearOverload g out => some (nodes, d.setOverload g false, [.notifyCache g out])
  | .notifyCache g out => some (nodes, d.sleep g false, [.accumulate out])
  | .accumulate out =>
    if c.ok then some (nodes, d.setFinal (d.accumulate out), [.decrement])
    else some (nodes, d, [.freeFailed out.args.expert false])
  | .freeFailed e _ => some (store nodes (S.node e) .idle, d, [.decrement])
  | .decrement => some (nodes, d.setPending (d.pending - 1), [.testPending])
  | .testPending => some (nodes, d, if d.pending = 0 then [.notifyPending] else [])
  | .notifyPending => some (nodes, d.setWaiter false, [])
  | .waitTest => some (nodes, d, if d.pending = 0 then [] else [.waitBlock])
  | .waitBlock => some (nodes, d.setWaiter true, [.waitAsleep])
  | .waitAsleep =>
    if d.waiterAsleep ∧ ¬ c.spurious then none
    else some (nodes, d.setWaiter false, [.waitTest])

/-! ### All threads -/

inductive Instr (S : Setup) where
  | pool (i : PoolInstr S)
  | dispatch (i : DispatchInstr S)

def Instr.run (c : Choice) : Instr S → Shared S → Option (Shared S × List (Instr S))
  | .pool i, sh => (i.run c sh.node sh.tasks).map fun r =>
    ({ sh with node := r.1, tasks := r.2.1 }, r.2.2.map .pool)
  | .dispatch i, sh => (i.run c sh.node sh.dispatcher).map fun r =>
    ({ sh with node := r.1, dispatcher := r.2.1 }, r.2.2.map .dispatch)

inductive Thread (S : Setup) where
  | caller
  | worker (g : Fin S.gpus)
  | fetcher (g : Fin S.gpus)
  | executor (g : Fin S.gpus) (thread : Fin S.threads)
deriving DecidableEq, Fintype

/-- What a thread of the pool or of the dispatcher does when it has nothing else to do. -/
def Thread.loop : Thread S → Option (Instr S)
  | .caller => none
  | .worker g => some (.pool (.popTask g))
  | .fetcher g => some (.dispatch (.popInput g))
  | .executor g _ => some (.dispatch (.popExec g))

/-- The calls from Python. -/
inductive Call (S : Setup) where
  | acquireTensor (t : ℕ)
  | releaseTensor (t : ℕ)
  | replaceCacheCandidates (ts : List ℕ)
  | enqueuePrefetch (t : ℕ)
  | fetchTensors (ts : List ℕ)
  | setInputs (hiddenStates : List S.Row) (routerMask : ℕ → ℕ → Bool)
      (routerWeight : ℕ → ℕ → S.Weight)
  | setExpectedQueue (expected : ℕ)
  | enqueueExpert (e : Expert) (g : Fin S.gpus)
  | waitHiddenStates

def Call.code : Call S → List (Instr S)
  | .acquireTensor t => [.pool (.acquireTensor t)]
  | .releaseTensor t => [.pool (.releaseTensor t)]
  | .replaceCacheCandidates ts =>
    ts.map (fun t => .pool (.takeCandidate t)) ++ [.pool (.replaceCandidates ts)]
  | .enqueuePrefetch t => [.pool (.enqueuePrefetch t)]
  | .fetchTensors ts => ts.map fun t => .pool (.fetchExec t)
  | .setInputs hiddenStates routerMask routerWeight =>
    [.dispatch (.setInputs hiddenStates routerMask routerWeight)]
  | .setExpectedQueue expected => [.dispatch (.setExpectedQueue expected)]
  | .enqueueExpert e g => [.dispatch (.enqueue e g)]
  | .waitHiddenStates => [.dispatch .waitTest]

/-- The whole program. -/
def program (S : Setup) : Lib.Threads.Program (Shared S) (Instr S) (Thread S) (Call S) Choice where
  run := Instr.run
  loop := Thread.loop
  caller := .caller
  callCode := Call.code

abbrev System (S : Setup) := Lib.Threads.System (Shared S) (Instr S) (Thread S)

abbrev Op (S : Setup) := Lib.Threads.Op (Thread S) (Call S) Choice

/-- A node on the host that nobody uses, as the topology leaves it, everywhere. -/
def System.init (S : Setup) (routerWeight : ℕ → ℕ → S.Weight) : System S where
  shared := { dispatcher := {
    cacheSizes := getSparseCacheLimit fun _ => {}, routerWeight := routerWeight } }
  code := fun _ => []
  log := []

end MoeInfinity.Core.Nodes
