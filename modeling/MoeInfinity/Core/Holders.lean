import MoeInfinity.Core.NodeCode

/-! # Who holds a node

A thread that has taken a node gives it back at the end of what it does with it, or it passes the
node on to another thread through a queue: an operation holds the node, wherever it is just now.
`holders` counts them: the instructions that work on the node on behalf of such an operation, the
dispatches in the queues, and the node's tensors in the books of the handle.

* `PoolInstr.run_holders`, `DispatchInstr.run_holders`: an instruction adds a holder when it takes
  the node and removes itself when it gives it back.
* `run_execState`, `run_device`: what an instruction does to the state word and to the device.

A dispatch that waits for a prefetch goes on when the node is idle, whether its compare-and-swap
succeeds or not; it counts as a holder from there on. `ReplaceCacheCandidates` takes nodes for
nobody. -/

namespace MoeInfinity.Core.Nodes

open MoeInfinity.Lib.Threads

variable {S : Setup}

/-! ### Holders -/

/-- The node that an instruction works on as its holder. -/
def PoolInstr.holds : PoolInstr S → Option ℕ
  | .moveVictim _ v _ => some v
  | .freeVictim _ v _ => some v
  | .stopExec n own => if own then some n else none
  | .execErase n own => if own then some n else none
  | .freeNode n own => if own then some n else none
  | .movePrefetch task => some task.node
  | .freePrefetch n => some n
  | _ => none

def CallArgs.holds (args : CallArgs S) : Option ℕ :=
  if args.waitForPrefetch then none else some (S.node args.expert)

def DispatchInstr.holds : DispatchInstr S → Option ℕ
  | .enqueueRoute e _ => some (S.node e)
  | .pushInput args => args.holds
  | .pushExec _ args => some (S.node args.expert)
  | .uncount _ args => some (S.node args.expert)
  | .claimed _ args => some (S.node args.expert)
  | .fetch _ args => some (S.node args.expert)
  | .awaitOverload _ args => some (S.node args.expert)
  | .takeOverload _ args => some (S.node args.expert)
  | .findEvict _ args => some (S.node args.expert)
  | .cacheTest _ args => some (S.node args.expert)
  | .cacheBlock _ args => some (S.node args.expert)
  | .cacheAsleep _ args => some (S.node args.expert)
  | .findAgain _ args _ => some (S.node args.expert)
  | .evict _ args _ => some (S.node args.expert)
  | .load _ args _ => some (S.node args.expert)
  | .fetched _ args _ => some (S.node args.expert)
  | .execute _ args => some (S.node args.expert)
  | .freeExecuted _ out => some (S.node out.args.expert)
  | .freeFailed e own => if own then some (S.node e) else none
  | _ => none

def Instr.holds : Instr S → Option ℕ
  | .pool i => i.holds
  | .dispatch i => i.holds

/-- One for the node, zero for the others. -/
def one (n : ℕ) (o : Option ℕ) : ℕ := if o = some n then 1 else 0

@[simp] theorem one_none (n : ℕ) : one n none = 0 := rfl

@[simp] theorem one_self (n : ℕ) : one n (some n) = 1 := if_pos rfl

theorem one_of_ne {n m : ℕ} (h : m ≠ n) : one n (some m) = 0 := if_neg (by simpa using h)

theorem one_le (n : ℕ) (o : Option ℕ) : one n o ≤ 1 := by unfold one; split <;> omega

def PoolInstr.held (n : ℕ) (i : PoolInstr S) : ℕ := one n i.holds

def DispatchInstr.held (n : ℕ) (i : DispatchInstr S) : ℕ := one n i.holds

def Instr.held (n : ℕ) (i : Instr S) : ℕ := one n i.holds

def Tasks.holders (tasks : Tasks S) (n : ℕ) : ℕ := if tasks.acquired n = ∅ then 0 else 1

def CallArgs.held (n : ℕ) (args : CallArgs S) : ℕ := one n args.holds

def ExecArgs.held (n : ℕ) (args : ExecArgs) : ℕ := one n (some (S.node args.expert))

def Dispatcher.holders (d : Dispatcher S) (n : ℕ) : ℕ :=
  sumWeight (CallArgs.held n) d.inputQueue + sumWeight (ExecArgs.held (S := S) n) d.execQueue

def Shared.holders (n : ℕ) (sh : Shared S) : ℕ := sh.tasks.holders n + sh.dispatcher.holders n

/-- The number of the operations that hold a node. -/
def holders (s : System S) (n : ℕ) : ℕ := total (Instr.held n) (Shared.holders n) s

/-! ### What an instruction does to the nodes -/

/-- The nodes to which an instruction stores `IDLE`. -/
def PoolInstr.stores (tasks : Tasks S) : PoolInstr S → List ℕ
  | .freeVictim _ v _ => [v]
  | .freeNode n _ => [n]
  | .freePrefetch n => [n]
  | .enqueuePrune n src => tasks.prunedNodes (prefetchTask n src)
  | _ => []

def DispatchInstr.stores : DispatchInstr S → List ℕ
  | .freeExecuted _ out => [S.node out.args.expert]
  | .freeFailed e _ => [S.node e]
  | _ => []

/-- The node that an instruction takes by a compare-and-swap. -/
def PoolInstr.takes (nodes : NodeMap S) (tasks : Tasks S) (i : PoolInstr S) : Option ℕ :=
  let free n := if (nodes n).execState = .idle then some n else none
  match i with
  | .acquireNode t => if tasks.acquired (S.nodeOf t) = ∅ then free (S.nodeOf t) else none
  | .takeVictim _ v _ => free v
  | .takePrefetch task => free task.node
  | .takeCandidate t => free (S.nodeOf t)
  | _ => none

def DispatchInstr.takes (nodes : NodeMap S) (i : DispatchInstr S) : Option ℕ :=
  let free n := if (nodes n).execState = .idle then some n else none
  match i with
  | .enqueue e _ => free (S.node e)
  | .claim _ args => free (S.node args.expert)
  | _ => none

/-- The node on which an instruction calls `SetDevice`. -/
def PoolInstr.moves : PoolInstr S → Option ℕ
  | .moveVictim _ v _ => some v
  | .moveDemand task => some task.node
  | .movePrefetch task => some task.node
  | _ => none

def DispatchInstr.moves : DispatchInstr S → Option ℕ
  | .evict _ _ victim => some (S.node victim)
  | .load _ args _ => some (S.node args.expert)
  | .unload _ out => some (S.node out.args.expert)
  | _ => none

/-- The node that has one more holder after an instruction. -/
def PoolInstr.acquires (nodes : NodeMap S) (tasks : Tasks S) (i : PoolInstr S) : Option ℕ :=
  match i with
  | .takeCandidate _ => none
  | i => i.takes nodes tasks

def DispatchInstr.acquires (nodes : NodeMap S) (i : DispatchInstr S) : Option ℕ :=
  match i with
  | .claim _ args => some (S.node args.expert)
  | i => i.takes nodes

/-- The node that an instruction gives back as its holder. -/
def PoolInstr.gives (i : PoolInstr S) : Option ℕ :=
  match i with
  | .freeVictim _ v _ => some v
  | .freeNode n own => if own then some n else none
  | .freePrefetch n => some n
  | _ => none

def DispatchInstr.gives (i : DispatchInstr S) : Option ℕ :=
  match i with
  | .freeExecuted _ out => some (S.node out.args.expert)
  | .freeFailed e own => if own then some (S.node e) else none
  | _ => none

/-! ### Weights of code -/

theorem held_map_pool (n : ℕ) (code : List (PoolInstr S)) :
    codeWeight (Instr.held n) (code.map .pool) = codeWeight (PoolInstr.held n) code := by
  rw [codeWeight, List.map_map]
  rfl

theorem held_map_dispatch (n : ℕ) (code : List (DispatchInstr S)) :
    codeWeight (Instr.held n) (code.map .dispatch) = codeWeight (DispatchInstr.held n) code := by
  rw [codeWeight, List.map_map]
  rfl

@[simp] theorem Room.held_done (r : Room S) (b : Bool) (n : ℕ) :
    codeWeight (PoolInstr.held n) (r.done b) = 0 := by
  cases r <;> cases b <;> simp [Room.done, PoolInstr.held, PoolInstr.holds]

@[simp] theorem Eviction.held_goOn (ev : Eviction S) (victims : List ℕ) (n : ℕ) :
    codeWeight (PoolInstr.held n) (ev.goOn victims) = 0 := by
  unfold Eviction.goOn
  split
  · exact Room.held_done _ _ n
  · simp [PoolInstr.held, PoolInstr.holds]

/-! ### The books of the handle -/

theorem acquired_setAcquired (tasks : Tasks S) (n m : ℕ) (ts : Finset ℕ) :
    (tasks.setAcquired n ts).acquired m = if m = n then ts else tasks.acquired m := by
  unfold Tasks.acquired Tasks.setAcquired
  by_cases h : m = n
  · subst h; simp
  · simp [h]

theorem tensorIds_ne_empty (t : ℕ) : S.tensorIds (S.nodeOf t) ≠ ∅ :=
  Finset.ne_empty_of_mem (S.mem_tensorIds t)

theorem holders_setAcquired (tasks : Tasks S) (n m : ℕ) (ts : Finset ℕ) :
    (tasks.setAcquired n ts).holders m =
      if m = n then (if ts = ∅ then 0 else 1) else tasks.holders m := by
  unfold Tasks.holders
  rw [acquired_setAcquired]
  split <;> rfl

@[simp] theorem holders_removeIf (tasks : Tasks S) (first : ℕ) (q : Task S → Bool) (n : ℕ) :
    (tasks.removeIf first q).holders n = tasks.holders n := rfl

@[simp] theorem holders_push (tasks : Tasks S) (t : Task S) (n : ℕ) :
    (tasks.push t).holders n = tasks.holders n := rfl

@[simp] theorem holders_setExecQueue (tasks : Tasks S) (q : Finset ℕ) (n : ℕ) :
    (tasks.setExecQueue q).holders n = tasks.holders n := rfl

@[simp] theorem holders_setCandidates (tasks : Tasks S) (ns : Finset ℕ) (n : ℕ) :
    (tasks.setCandidates ns).holders n = tasks.holders n := rfl

@[simp] theorem holders_setLast (tasks : Tasks S) (m n : ℕ) :
    (tasks.setLast m).holders n = tasks.holders n := rfl

/-- **Holders**: an instruction of the pool. -/
theorem PoolInstr.run_holders {c : Choice} {nodes nodes' : NodeMap S} {tasks tasks' : Tasks S}
    {i : PoolInstr S} {code : List (PoolInstr S)}
    (h : i.run c nodes tasks = some (nodes', tasks', code)) (n : ℕ) :
    tasks'.holders n + codeWeight (held n) code + one n i.gives =
      tasks.holders n + i.held n + one n (i.acquires nodes tasks) := by
  cases i with
  | acquireTensor | overflow | snapshotExec | enqueuePrefetch | fetchExec | arrived | sameDevice
  | moveDemand | beginPrefetch | clearPrefetching | takeCandidate | moveVictim | movePrefetch
  | freePrefetch | pushDemand | pushPrefetch | pushFetch | startPrune | stopExec | execErase
  | freeNode | freeVictim | replaceCandidates =>
    cases h
    simp [held, holds, gives, acquires, takes]
  | enqueuePrune | fetchPrune =>
    cases h
    split <;> simp [held, holds, gives, acquires, takes]
  | acquireNode t =>
    simp only [run] at h
    by_cases hset : tasks.acquired (S.nodeOf t) = ∅
    · simp only [hset, ne_eq, not_true, if_false] at h
      split at h
      · next hidle =>
        cases h
        simp only [held, holds, gives, acquires, takes, hset, hidle, if_true, one_none,
          holders_setAcquired, tensorIds_ne_empty, if_false, codeWeight_cons, codeWeight_nil]
        by_cases hn : n = S.nodeOf t
        · subst hn
          simp [Tasks.holders, hset]
        · simp [hn, one_of_ne (Ne.symm hn)]
      · cases h
    · simp only [ne_eq, hset, not_false_iff, if_true] at h
      cases h
      simp [held, holds, gives, acquires, takes, hset]
  | removeCached r =>
    simp only [run] at h
    split_ifs at h <;> cases h <;> simp [held, holds, gives, acquires, takes]
  | measure r nodesExec =>
    simp only [run] at h
    split_ifs at h <;> cases h <;> simp [held, holds, gives, acquires, takes]
  | nextVictim ev victims =>
    cases victims with
    | nil => cases h; simp [held, holds, gives, acquires, takes]
    | cons v victims =>
      simp only [run] at h
      split_ifs at h <;> cases h <;> simp [held, holds, gives, acquires, takes]
  | takeVictim ev v victims =>
    simp only [run] at h
    split_ifs at h with hidle <;> cases h <;> simp [held, holds, gives, acquires, takes, hidle]
  | startExec n' =>
    simp only [run] at h
    split_ifs at h <;> cases h <;> simp [held, holds, gives, acquires, takes]
  | startQueue n' src =>
    simp only [run] at h
    split_ifs at h <;> cases h <;> simp [held, holds, gives, acquires, takes]
  | awaitNode n' =>
    simp only [run] at h
    split_ifs at h
    cases h
    simp [held, holds, gives, acquires, takes]
  | releaseTensor t =>
    simp only [run] at h
    split at h
    · cases h
      simp [held, holds, gives, acquires, takes]
    · split at h
      · cases h
        simp [held, holds, gives, acquires, takes]
      · split at h
        · cases h
        · next last hlast =>
          split at h
          · cases h
            simp [held, holds, gives, acquires, takes]
          · next hset =>
            -- the books of the last node are emptied, and the code gives it back
            cases h
            simp only [holders_setAcquired, held, holds, gives, acquires, takes, if_true, one_none,
              codeWeight_cons, codeWeight_nil]
            by_cases hn : n = last
            · subst hn
              simp [Tasks.holders, hset]
            · simp [hn, one_of_ne (Ne.symm hn)]
  | releaseOwn t =>
    cases h
    simp only [held, holds, gives, acquires, takes, one_none, holders_setLast, holders_setAcquired]
    by_cases hn : n = S.nodeOf t
    · -- the last tensor of a listed node: the code gives the node back
      subst hn
      by_cases hset : tasks.acquired (S.nodeOf t) = ∅
      · simp [Tasks.holders, hset, held, holds]
      · by_cases hleft : (tasks.acquired (S.nodeOf t)).erase t = ∅ <;>
          simp [Tasks.holders, hset, hleft, held, holds]
    · by_cases hset : tasks.acquired (S.nodeOf t) = ∅ <;>
        by_cases hleft : (tasks.acquired (S.nodeOf t)).erase t = ∅ <;>
        simp [hn, hset, hleft, held, holds, one_of_ne (Ne.symm hn)]
  | popTask g =>
    simp only [run] at h
    split at h
    · cases h
    · next task hpop =>
      cases h
      cases task.onDemand <;> simp [held, holds, gives, acquires, takes]
  | takePrefetch task =>
    simp only [run] at h
    split_ifs at h with hidle <;> cases h <;> simp [held, holds, gives, acquires, takes, hidle]

/-! ### The queues of the dispatcher -/

section Queues

variable (d : Dispatcher S) (n : ℕ)

theorem holders_pushInput (args : CallArgs S) :
    (d.pushInput args).holders n = d.holders n + args.held n := by
  unfold Dispatcher.holders Dispatcher.pushInput Dispatcher.setInputQueue
  rw [sumWeight_push]
  simp only
  omega

theorem holders_pushExec (g : Fin S.gpus) (args : ExecArgs) :
    (d.pushExec g args).holders n = d.holders n + ExecArgs.held (S := S) n args := by
  unfold Dispatcher.holders Dispatcher.pushExec Dispatcher.setExecQueue
  rw [sumWeight_push]
  simp only
  omega

theorem holders_popInput {g : Fin S.gpus} {args : CallArgs S} {rest : List (CallArgs S)}
    (h : d.inputQueue g = args :: rest) :
    (d.setInputQueue g rest).holders n + args.held n = d.holders n := by
  have hsum := sumWeight_pop (CallArgs.held n) h
  unfold Dispatcher.holders Dispatcher.setInputQueue
  simp only
  omega

theorem holders_popExec {g : Fin S.gpus} {args : ExecArgs} {rest : List ExecArgs}
    (h : d.execQueue g = args :: rest) :
    (d.setExecQueue g rest).holders n + ExecArgs.held (S := S) n args = d.holders n := by
  have hsum := sumWeight_pop (ExecArgs.held (S := S) n) h
  unfold Dispatcher.holders Dispatcher.setExecQueue
  simp only
  omega

@[simp] theorem holders_setInputs (x : List S.Row) (mask : ℕ → ℕ → Bool) (w : ℕ → ℕ → S.Weight) :
    (d.setInputs x mask w).holders n = d.holders n := rfl

@[simp] theorem holders_setPending (pending : ℤ) :
    (d.setPending pending).holders n = d.holders n := rfl

@[simp] theorem holders_setFinal (rows : List S.Row) :
    (d.setFinal rows).holders n = d.holders n := rfl

@[simp] theorem holders_setWaiter (b : Bool) : (d.setWaiter b).holders n = d.holders n := rfl

@[simp] theorem holders_setOverload (g : Fin S.gpus) (b : Bool) :
    (d.setOverload g b).holders n = d.holders n := rfl

@[simp] theorem holders_sleep (g : Fin S.gpus) (b : Bool) :
    (d.sleep g b).holders n = d.holders n := rfl

@[simp] theorem holders_evicted (g : Fin S.gpus) (e : Expert) :
    (d.evicted g e).holders n = d.holders n := rfl

@[simp] theorem holders_entered (g : Fin S.gpus) (e : Expert) :
    (d.entered g e).holders n = d.holders n := rfl

end Queues

/-- **Holders**: an instruction of the dispatcher. -/
theorem DispatchInstr.run_holders {c : Choice} {nodes nodes' : NodeMap S} {d d' : Dispatcher S}
    {i : DispatchInstr S} {code : List (DispatchInstr S)}
    (h : i.run c nodes d = some (nodes', d', code)) (n : ℕ) :
    d'.holders n + codeWeight (held n) code + one n i.gives =
      d.holders n + i.held n + one n (i.acquires nodes) := by
  cases i with
  | setInputs | setExpectedQueue | unload | clearOverload | notifyCache | decrement | notifyPending
  | waitBlock | claim | uncount | takeOverload | cacheBlock | freeFailed =>
    cases h
    simp [held, holds, gives, acquires, takes]
  | countDispatch e =>
    cases h
    simp [held, holds, gives, acquires, takes, CallArgs.holds]
  | fetched g args own =>
    cases h
    simp [held, holds, gives, acquires, takes]
  | pushInput args =>
    cases h
    simp [held, holds, gives, acquires, takes, holders_pushInput, CallArgs.held]
  | pushExec g args =>
    cases h
    simp [held, holds, gives, acquires, takes, holders_pushExec, ExecArgs.held]
  | popInput g =>
    simp only [run] at h
    split at h
    · cases h
    · next args rest hq =>
      cases h
      have hpop := holders_popInput d n hq
      unfold CallArgs.held CallArgs.holds at hpop
      cases hw : args.waitForPrefetch <;> simp [hw, held, holds, gives, acquires, takes]
        at hpop ⊢ <;> omega
  | popExec g =>
    simp only [run] at h
    split at h
    · cases h
    · next args rest hq =>
      cases h
      have hpop := holders_popExec d n hq
      simpa [held, holds, gives, acquires, takes, ExecArgs.held] using hpop
  | enqueue e g =>
    simp only [run] at h
    split_ifs at h with hidle <;> cases h <;> simp [held, holds, gives, acquires, takes, hidle]
  | enqueueBusy e | awaitIdle g args | claimed g args | awaitOverload g args | cacheTest g args
  | cacheAsleep g args | evict g args v | execute g args =>
    simp only [run] at h
    split_ifs at h <;> cases h <;> simp [held, holds, gives, acquires, takes]
  | fetch g args =>
    simp only [run] at h
    split_ifs at h <;> cases h <;> simp [held, holds, gives, acquires, takes]
  | enqueueRoute e g =>
    simp only [run] at h
    split at h <;> cases h <;> simp [held, holds, gives, acquires, takes, CallArgs.holds]
  | findEvict g args =>
    simp only [run] at h
    split at h
    · split at h <;> cases h <;> simp [held, holds, gives, acquires, takes]
    · cases h
  | findAgain g args retries =>
    simp only [run] at h
    split at h
    · split at h <;> cases h <;> simp [held, holds, gives, acquires, takes]
    · cases h
  | load g args own =>
    cases h
    cases hov : d.gpuOverload g <;> simp [held, holds, gives, acquires, takes]
  | freeExecuted g out =>
    cases h
    cases out.args.evict <;> simp [held, holds, gives, acquires, takes]
  | accumulate out =>
    simp only [run] at h
    split_ifs at h <;> cases h <;> simp [held, holds, gives, acquires, takes]
  | testPending =>
    cases h
    split <;> simp [held, holds, gives, acquires, takes]
  | waitTest =>
    cases h
    split <;> simp [held, holds, gives, acquires, takes]
  | waitAsleep =>
    simp only [run] at h
    split_ifs at h
    cases h
    simp [held, holds, gives, acquires, takes]

/-! ### The state word and the device -/

theorem execState_foldl_store (ns : List ℕ) (nodes : NodeMap S) (n : ℕ) :
    (ns.foldl (fun nodes m => store nodes m .idle) nodes n).execState =
      if n ∈ ns then .idle else (nodes n).execState := by
  induction ns generalizing nodes with
  | nil => rfl
  | cons m ns ih =>
    rw [List.foldl_cons, ih, execState_store]
    by_cases hm : n = m <;> by_cases hns : n ∈ ns <;> simp [hm, hns]

theorem device_foldl_store (ns : List ℕ) (nodes : NodeMap S) (n : ℕ) :
    (ns.foldl (fun nodes m => store nodes m .idle) nodes n).device = (nodes n).device := by
  induction ns generalizing nodes with
  | nil => rfl
  | cons m ns ih => rw [List.foldl_cons, ih, device_store]

theorem eq_fetching {st : NodeExecState} (h : st ≠ .idle) : st = .fetching := by
  cases st with
  | idle => exact absurd rfl h
  | fetching => rfl

/-- **The state word** after an instruction of the pool. -/
theorem PoolInstr.run_execState {c : Choice} {nodes nodes' : NodeMap S} {tasks tasks' : Tasks S}
    {i : PoolInstr S} {code : List (PoolInstr S)}
    (h : i.run c nodes tasks = some (nodes', tasks', code)) (n : ℕ) :
    (nodes' n).execState =
      if n ∈ i.stores tasks then .idle
      else if i.takes nodes tasks = some n then .fetching else (nodes n).execState := by
  cases i with
  | acquireTensor | overflow | snapshotExec | enqueuePrefetch | fetchExec | arrived | sameDevice
  | moveDemand | beginPrefetch | clearPrefetching | moveVictim | movePrefetch | freePrefetch
  | pushDemand | pushPrefetch | pushFetch | startPrune | stopExec | execErase | freeNode
  | freeVictim | fetchPrune | replaceCandidates | releaseOwn =>
    cases h
    simp [stores, takes]
  | enqueuePrune m src =>
    cases h
    simp [stores, takes, execState_foldl_store]
  | acquireNode t =>
    simp only [run] at h
    by_cases hset : tasks.acquired (S.nodeOf t) = ∅
    · simp only [hset, ne_eq, not_true, if_false] at h
      split at h
      · next hidle =>
        cases h
        simp [stores, takes, hset, hidle, eq_comm]
      · cases h
    · simp only [ne_eq, hset, not_false_iff, if_true] at h
      cases h
      simp [stores, takes, hset]
  | takeCandidate t =>
    cases h
    by_cases hidle : (nodes (S.nodeOf t)).execState = .idle
    · simp [stores, takes, hidle, eq_comm]
    · by_cases hn : n = S.nodeOf t
      · subst hn
        simp [stores, takes, eq_fetching hidle]
      · simp [stores, takes, hidle, hn]
  | removeCached r | measure r nodesExec | startExec m | startQueue m src | awaitNode m =>
    simp only [run] at h
    split_ifs at h <;> cases h <;> simp [stores, takes]
  | nextVictim ev victims =>
    cases victims with
    | nil => cases h; simp [stores, takes]
    | cons v victims =>
      simp only [run] at h
      split_ifs at h <;> cases h <;> simp [stores, takes]
  | takeVictim ev v victims =>
    simp only [run] at h
    split_ifs at h with hidle <;> cases h <;> simp [stores, takes, hidle, eq_comm]
  | takePrefetch task =>
    simp only [run] at h
    split_ifs at h with hidle <;> cases h <;> simp [stores, takes, hidle, eq_comm]
  | releaseTensor t =>
    simp only [run] at h
    split at h
    · cases h; simp [stores, takes]
    · split at h
      · cases h; simp [stores, takes]
      · split at h
        · cases h
        · split at h <;> cases h <;> simp [stores, takes]
  | popTask g =>
    simp only [run] at h
    split at h <;> cases h
    simp [stores, takes]

/-- **The state word** after an instruction of the dispatcher. -/
theorem DispatchInstr.run_execState {c : Choice} {nodes nodes' : NodeMap S} {d d' : Dispatcher S}
    {i : DispatchInstr S} {code : List (DispatchInstr S)}
    (h : i.run c nodes d = some (nodes', d', code)) (n : ℕ) :
    (nodes' n).execState =
      if n ∈ (i.stores : List ℕ) then .idle
      else if i.takes nodes = some n then .fetching else (nodes n).execState := by
  cases i with
  | setInputs | setExpectedQueue | unload | clearOverload | notifyCache | decrement | notifyPending
  | waitBlock | uncount | takeOverload | cacheBlock | freeFailed | countDispatch | fetched
  | pushInput | pushExec | load | freeExecuted | testPending | waitTest =>
    cases h
    simp [stores, takes]
  | claim g args =>
    cases h
    by_cases hidle : (nodes (S.node args.expert)).execState = .idle
    · simp [stores, takes, hidle, eq_comm]
    · by_cases hn : n = S.node args.expert
      · subst hn
        simp [stores, takes, eq_fetching hidle]
      · simp [stores, takes, hidle, hn]
  | enqueue e g =>
    simp only [run] at h
    split_ifs at h with hidle <;> cases h <;> simp [stores, takes, hidle, eq_comm]
  | enqueueBusy e | awaitIdle g args | claimed g args | awaitOverload g args | cacheTest g args
  | cacheAsleep g args | evict g args v | execute g args | fetch g args | accumulate out
  | waitAsleep =>
    simp only [run] at h
    split_ifs at h <;> cases h <;> simp [stores, takes]
  | popInput g | popExec g | enqueueRoute e g =>
    simp only [run] at h
    split at h <;> cases h <;> simp [stores, takes]
  | findEvict g args | findAgain g args retries =>
    simp only [run] at h
    split at h
    · split at h <;> cases h <;> simp [stores, takes]
    · cases h

theorem device_setDevice_of_ne (nodes : NodeMap S) {n m : ℕ} (h : n ≠ m)
    (target : Option (Fin S.gpus)) :
    (setDevice nodes n target m).device = (nodes m).device := by
  rw [device_setDevice, if_neg fun hm => h hm.1.symm]

/-- **The device** of a node changes only where `SetDevice` is called on it. -/
theorem PoolInstr.run_device {c : Choice} {nodes nodes' : NodeMap S} {tasks tasks' : Tasks S}
    {i : PoolInstr S} {code : List (PoolInstr S)}
    (h : i.run c nodes tasks = some (nodes', tasks', code)) {n : ℕ} (hn : i.moves ≠ some n) :
    (nodes' n).device = (nodes n).device := by
  cases i with
  | acquireTensor | overflow | snapshotExec | enqueuePrefetch | fetchExec | arrived | sameDevice
  | beginPrefetch | clearPrefetching | freePrefetch | pushDemand | pushPrefetch | pushFetch
  | startPrune | stopExec | execErase | freeNode
  | freeVictim | fetchPrune | replaceCandidates | releaseOwn | takeCandidate =>
    cases h
    simp
  | moveDemand task | moveVictim ev v victims | movePrefetch task =>
    cases h
    exact device_setDevice_of_ne nodes (fun heq => hn (by rw [moves, heq])) _
  | enqueuePrune m src =>
    cases h
    exact device_foldl_store _ nodes n
  | acquireNode t =>
    simp only [run] at h
    split at h
    · cases h; rfl
    · split at h <;> cases h
      exact device_store _ _ _ _
  | removeCached r | measure r nodesExec | startExec m | startQueue m src | awaitNode m
  | takeVictim ev v victims | takePrefetch task =>
    simp only [run] at h
    split_ifs at h <;> cases h <;> simp
  | nextVictim ev victims =>
    cases victims with
    | nil => cases h; rfl
    | cons v victims =>
      simp only [run] at h
      split_ifs at h <;> cases h <;> rfl
  | releaseTensor t =>
    simp only [run] at h
    split at h
    · cases h; rfl
    · split at h
      · cases h; rfl
      · split at h
        · cases h
        · split at h <;> cases h <;> rfl
  | popTask g =>
    simp only [run] at h
    split at h <;> cases h
    simp

theorem DispatchInstr.run_device {c : Choice} {nodes nodes' : NodeMap S} {d d' : Dispatcher S}
    {i : DispatchInstr S} {code : List (DispatchInstr S)}
    (h : i.run c nodes d = some (nodes', d', code)) {n : ℕ} (hn : i.moves ≠ some n) :
    (nodes' n).device = (nodes n).device := by
  cases i with
  | setInputs | setExpectedQueue | clearOverload | notifyCache | decrement | notifyPending
  | waitBlock | uncount | takeOverload | cacheBlock | freeFailed | countDispatch | fetched
  | pushInput | pushExec | freeExecuted | testPending | waitTest | claim =>
    cases h
    simp
  | unload g out | load g args own =>
    cases h
    exact device_setDevice_of_ne nodes (fun heq => hn (by rw [moves, heq])) _
  | evict g args v =>
    simp only [run] at h
    split_ifs at h
    cases h
    exact device_setDevice_of_ne nodes (fun heq => hn (by rw [moves, heq])) _
  | enqueue e g | enqueueBusy e | awaitIdle g args | claimed g args | awaitOverload g args
  | cacheTest g args | cacheAsleep g args | execute g args | fetch g args | accumulate out
  | waitAsleep =>
    simp only [run] at h
    split_ifs at h <;> cases h <;> simp
  | popInput g | popExec g | enqueueRoute e g =>
    simp only [run] at h
    split at h <;> cases h <;> simp
  | findEvict g args | findAgain g args retries =>
    simp only [run] at h
    split at h
    · split at h <;> cases h <;> simp
    · cases h

/-! ### All instructions -/

def Instr.stores (sh : Shared S) : Instr S → List ℕ
  | .pool i => i.stores sh.tasks
  | .dispatch i => i.stores

def Instr.takes (sh : Shared S) : Instr S → Option ℕ
  | .pool i => i.takes sh.node sh.tasks
  | .dispatch i => i.takes sh.node

def Instr.moves : Instr S → Option ℕ
  | .pool i => i.moves
  | .dispatch i => i.moves

def Instr.acquires (sh : Shared S) : Instr S → Option ℕ
  | .pool i => i.acquires sh.node sh.tasks
  | .dispatch i => i.acquires sh.node

def Instr.gives : Instr S → Option ℕ
  | .pool i => i.gives
  | .dispatch i => i.gives

/-- What an instruction of the pool, or of the dispatcher, does to the whole state. -/
theorem run_pool {c : Choice} {i : PoolInstr S} {sh sh' : Shared S} {code : List (Instr S)}
    (h : Instr.run c (.pool i) sh = some (sh', code)) :
    ∃ nodes tasks is, i.run c sh.node sh.tasks = some (nodes, tasks, is) ∧
      sh' = { sh with node := nodes, tasks := tasks } ∧ code = is.map .pool := by
  obtain ⟨r, hr, heq⟩ := Option.map_eq_some_iff.mp h
  cases heq
  exact ⟨_, _, _, hr, rfl, rfl⟩

theorem run_dispatch {c : Choice} {i : DispatchInstr S} {sh sh' : Shared S} {code : List (Instr S)}
    (h : Instr.run c (.dispatch i) sh = some (sh', code)) :
    ∃ nodes d is, i.run c sh.node sh.dispatcher = some (nodes, d, is) ∧
      sh' = { sh with node := nodes, dispatcher := d } ∧ code = is.map .dispatch := by
  obtain ⟨r, hr, heq⟩ := Option.map_eq_some_iff.mp h
  cases heq
  exact ⟨_, _, _, hr, rfl, rfl⟩

theorem Instr.run_holders {c : Choice} {i : Instr S} {sh sh' : Shared S} {code : List (Instr S)}
    (h : i.run c sh = some (sh', code)) (n : ℕ) :
    sh'.holders n + codeWeight (held n) code + one n i.gives =
      sh.holders n + i.held n + one n (i.acquires sh) := by
  cases i with
  | pool i =>
    obtain ⟨nodes, tasks, is, hr, rfl, rfl⟩ := run_pool h
    have hlaw := i.run_holders hr n
    rw [held_map_pool]
    simp only [Shared.holders, Instr.gives, Instr.acquires, Instr.held, Instr.holds, PoolInstr.held]
      at hlaw ⊢
    omega
  | dispatch i =>
    obtain ⟨nodes, d, is, hr, rfl, rfl⟩ := run_dispatch h
    have hlaw := i.run_holders hr n
    rw [held_map_dispatch]
    simp only [Shared.holders, Instr.gives, Instr.acquires, Instr.held, Instr.holds,
      DispatchInstr.held] at hlaw ⊢
    omega

theorem Instr.run_execState {c : Choice} {i : Instr S} {sh sh' : Shared S} {code : List (Instr S)}
    (h : i.run c sh = some (sh', code)) (n : ℕ) :
    (sh'.node n).execState =
      if n ∈ i.stores sh then .idle
      else if i.takes sh = some n then .fetching else (sh.node n).execState := by
  cases i with
  | pool i =>
    obtain ⟨nodes, tasks, is, hr, rfl, rfl⟩ := run_pool h
    exact i.run_execState hr n
  | dispatch i =>
    obtain ⟨nodes, d, is, hr, rfl, rfl⟩ := run_dispatch h
    exact i.run_execState hr n

theorem Instr.run_device {c : Choice} {i : Instr S} {sh sh' : Shared S} {code : List (Instr S)}
    (h : i.run c sh = some (sh', code)) {n : ℕ} (hn : i.moves ≠ some n) :
    (sh'.node n).device = (sh.node n).device := by
  cases i with
  | pool i =>
    obtain ⟨nodes, tasks, is, hr, rfl, rfl⟩ := run_pool h
    exact i.run_device hr hn
  | dispatch i =>
    obtain ⟨nodes, d, is, hr, rfl, rfl⟩ := run_dispatch h
    exact i.run_device hr hn

theorem held_loop (n : ℕ) (th : Thread S) (i : Instr S) (h : (program S).loop th = some i) :
    i.held n = 0 := by
  cases th <;> cases h <;> rfl

/-- **Accounting**: the holders of a node after a step. -/
theorem holders_ran {s : System S} {th : Thread S} {c : Choice} {i : Instr S}
    {rest : List (Instr S)} {sh : Shared S} {code : List (Instr S)}
    (hn : (program S).next s th = some (i, rest))
    (hr : i.run c s.shared = some (sh, code)) (n : ℕ) :
    holders (s.ran th i rest sh code) n + one n i.gives =
      holders s n + one n (i.acquires s.shared) :=
  total_ran (Instr.held n) (Shared.holders n) (held_loop n) hn (i.run_holders hr n)

theorem held_callCode (k : Call S) (n : ℕ) : ∀ i ∈ k.code, i.held n = 0 := by
  intro i hi
  cases k with
  | replaceCacheCandidates ts =>
    rcases List.mem_append.mp hi with hi | hi
    · obtain ⟨t, -, rfl⟩ := List.mem_map.mp hi
      rfl
    · rw [List.mem_singleton.mp hi]
      rfl
  | fetchTensors ts =>
    obtain ⟨t, -, rfl⟩ := List.mem_map.mp hi
    rfl
  | acquireTensor | releaseTensor | enqueuePrefetch | setInputs | setExpectedQueue | enqueueExpert
  | waitHiddenStates =>
    rw [List.mem_singleton.mp hi]
    rfl

theorem holders_called {s : System S} (hnil : s.code .caller = []) (k : Call S) (n : ℕ) :
    holders ((program S).called s k) n = holders s n := by
  have h := total_called (p := program S) (Instr.held n) (Shared.holders n) hnil k
  have hcode : codeWeight (Instr.held n) ((program S).callCode k) = 0 :=
    codeWeight_eq_zero _ (held_callCode k n)
  rw [hcode, Nat.add_zero] at h
  exact h

end MoeInfinity.Core.Nodes
