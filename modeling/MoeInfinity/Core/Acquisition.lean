import Mathlib.Algebra.BigOperators.Intervals
import MoeInfinity.Core.Holders

/-! # Acquisitions

`AcquireTensor` takes the node of its tensor, makes room, queues an on-demand task and waits until
the worker of the device has done it. Everything in between belongs to this acquisition, also what
the worker does. There is one acquisition at a time, as there is one caller.

* `Kind`: the functions that an instruction may belong to; they stay apart in the code of the
  threads (`Apart`).
* `chained`, `demanded`: the part of an acquisition that is in the caller's code, and what has to
  happen before its `state` goes down. The second is never more than the first (`Acquiring`). -/

namespace MoeInfinity.Core.Nodes

open MoeInfinity.Lib.Threads MoeInfinity.Lib.Runs

variable {S : Setup}

/-! ### Kinds -/

/-- An acquire, another call of the handle, a worker, or the dispatcher. -/
inductive Kind where
  | acquire
  | call
  | worker
  | dispatch
deriving DecidableEq

/-- The node that is acquired. -/
def Room.acquirer : Room S → Option ℕ
  | .dense n => some n
  | .sparse n => some n
  | .prefetch _ => none

def Room.kind (r : Room S) : Kind := if r.acquirer.isSome then .acquire else .worker

def PoolInstr.kind : PoolInstr S → Kind
  | .acquireTensor _ => .acquire
  | .acquireNode _ => .acquire
  | .overflow _ => .acquire
  | .removeCached r => r.kind
  | .snapshotExec r => r.kind
  | .measure r _ => r.kind
  | .nextVictim ev _ => ev.room.kind
  | .takeVictim ev _ _ => ev.room.kind
  | .moveVictim ev _ _ => ev.room.kind
  | .freeVictim ev _ _ => ev.room.kind
  | .startExec _ => .acquire
  | .startPrune _ _ => .acquire
  | .startQueue _ _ => .acquire
  | .pushDemand _ _ => .acquire
  | .awaitNode _ => .acquire
  | .popTask _ => .worker
  | .moveDemand _ => .worker
  | .arrived _ => .worker
  | .beginPrefetch _ => .worker
  | .takePrefetch _ => .worker
  | .movePrefetch _ => .worker
  | .freePrefetch _ => .worker
  | .clearPrefetching _ => .worker
  | _ => .call

def Instr.kind : Instr S → Kind
  | .pool i => i.kind
  | .dispatch _ => .dispatch

theorem Room.kind_done (r : Room S) (b : Bool) :
    ∀ i ∈ (r.done b : List (PoolInstr S)), i.kind = r.kind := by
  cases r <;> cases b <;> simp [Room.done, Room.kind, Room.acquirer, PoolInstr.kind]

theorem Eviction.kind_goOn (ev : Eviction S) (victims : List ℕ) :
    ∀ i ∈ ev.goOn victims, i.kind = ev.room.kind := by
  unfold Eviction.goOn
  split
  · exact ev.room.kind_done true
  · simp [PoolInstr.kind]

/-- An instruction is followed by instructions of its kind. -/
theorem PoolInstr.run_kind {c : Choice} {nodes nodes' : NodeMap S} {tasks tasks' : Tasks S}
    {i : PoolInstr S} {code : List (PoolInstr S)}
    (h : i.run c nodes tasks = some (nodes', tasks', code)) :
    ∀ j ∈ code, j.kind = i.kind := by
  cases i with
  | acquireTensor | overflow | snapshotExec | enqueuePrefetch | fetchExec | arrived | sameDevice
  | moveDemand | beginPrefetch | clearPrefetching | takeCandidate | moveVictim | movePrefetch
  | freePrefetch | pushDemand | pushPrefetch | pushFetch | startPrune | stopExec | execErase
  | freeNode | replaceCandidates =>
    cases h
    simp [kind]
  | freeVictim ev v victims =>
    cases h
    exact Eviction.kind_goOn _ victims
  | enqueuePrune | fetchPrune =>
    cases h
    split <;> simp [kind]
  | acquireNode t =>
    simp only [run] at h
    split at h
    · cases h; simp
    · split at h <;> cases h
      by_cases hs : S.isSparse (S.nodeOf t) = true <;> simp [hs, kind, Room.kind, Room.acquirer]
  | removeCached r | measure r nodesExec =>
    simp only [run] at h
    split_ifs at h <;> cases h
    · exact r.kind_done true
    all_goals simp [kind]
  | nextVictim ev victims =>
    cases victims with
    | nil => cases h; exact ev.room.kind_done _
    | cons v victims =>
      simp only [run] at h
      split_ifs at h <;> cases h <;> simp [kind]
  | takeVictim ev v victims =>
    simp only [run] at h
    split_ifs at h <;> cases h
    · simp [kind]
    · exact ev.kind_goOn victims
  | startExec m | startQueue m src | awaitNode m | takePrefetch task =>
    simp only [run] at h
    split_ifs at h <;> cases h <;> simp [kind]
  | releaseTensor t =>
    simp only [run] at h
    split at h
    · cases h; simp
    · split at h
      · cases h; simp [kind]
      · split at h
        · cases h
        · split at h <;> cases h <;> simp [kind]
  | releaseOwn t =>
    cases h
    split <;> simp [kind]
  | popTask g =>
    simp only [run] at h
    split at h <;> cases h
    split <;> simp [kind, Room.kind, Room.acquirer]

theorem Instr.run_kind {c : Choice} {i : Instr S} {sh sh' : Shared S} {code : List (Instr S)}
    (h : i.run c sh = some (sh', code)) : ∀ j ∈ code, j.kind = i.kind := by
  intro j hj
  cases i with
  | pool i =>
    obtain ⟨nodes, tasks, is, hr, rfl, rfl⟩ := run_pool h
    obtain ⟨k, hk, rfl⟩ := List.mem_map.mp hj
    exact i.run_kind hr k hk
  | dispatch i =>
    obtain ⟨nodes, d, is, hr, rfl, rfl⟩ := run_dispatch h
    obtain ⟨k, -, rfl⟩ := List.mem_map.mp hj
    rfl

/-- The kinds of a thread. -/
def Thread.allows : Thread S → Kind → Prop
  | .caller, k => k ≠ .worker
  | .worker _, k => k = .worker
  | .fetcher _, k => k = .dispatch
  | .executor _ _, k => k = .dispatch

/-- The threads keep to their kinds, and the caller is in one call at a time. -/
structure Apart (s : System S) : Prop where
  allows : ∀ th, ∀ i ∈ s.code th, th.allows i.kind
  caller : ∀ i ∈ s.code .caller, ∀ j ∈ s.code .caller, i.kind = j.kind

theorem Call.kind_code (k : Call S) :
    (∀ i ∈ k.code, Thread.allows (S := S) .caller i.kind) ∧
      ∀ i ∈ k.code, ∀ j ∈ k.code, i.kind = j.kind := by
  have hkind : ∃ kd, kd ≠ Kind.worker ∧ ∀ i ∈ k.code, i.kind = kd := by
    cases k with
    | acquireTensor => exact ⟨.acquire, by simp, by simp [Call.code, Instr.kind, PoolInstr.kind]⟩
    | releaseTensor | replaceCacheCandidates | enqueuePrefetch | fetchTensors =>
      refine ⟨.call, by simp, ?_⟩
      simp [Call.code, Instr.kind, PoolInstr.kind, or_imp, forall_and]
    | setInputs | setExpectedQueue | enqueueExpert | waitHiddenStates =>
      exact ⟨.dispatch, by simp, by simp [Call.code, Instr.kind]⟩
  obtain ⟨kd, hne, hall⟩ := hkind
  refine ⟨fun i hi => ?_, fun i hi j hj => by rw [hall i hi, hall j hj]⟩
  rw [hall i hi]
  exact hne

theorem loop_allows {th : Thread S} {i : Instr S} (h : (program S).loop th = some i) :
    th.allows i.kind := by
  cases th <;> cases h <;> rfl

/-- The next instruction of a thread is of its kind. -/
theorem Apart.next {s : System S} (h : Apart s) {th : Thread S} {i : Instr S}
    {rest : List (Instr S)} (hn : (program S).next s th = some (i, rest)) : th.allows i.kind := by
  rcases next_eq_some hn with hcode | ⟨-, -, hi⟩
  · exact h.allows th i (by rw [hcode]; exact List.mem_cons_self)
  · exact loop_allows hi

theorem Apart.init (w : ℕ → ℕ → S.Weight) : Apart (System.init S w) :=
  ⟨fun _ _ hi => absurd hi List.not_mem_nil, fun _ hi => absurd hi List.not_mem_nil⟩

theorem Apart.called {s : System S} (h : Apart s) (k : Call S) :
    Apart ((program S).called s k) := by
  refine ⟨forall_code_called h.allows k.kind_code.1, ?_⟩
  rw [show ((program S).called s k).code .caller = k.code from called_code_self s k]
  exact k.kind_code.2

theorem Apart.ran {s : System S} (h : Apart s) {th : Thread S} {c : Choice} {i : Instr S}
    {rest : List (Instr S)} {sh : Shared S} {code : List (Instr S)}
    (hn : (program S).next s th = some (i, rest)) (hr : i.run c s.shared = some (sh, code)) :
    Apart (s.ran th i rest sh code) := by
  have hkind := i.run_kind hr
  refine ⟨forall_code_ran h.allows hn fun j hj => by rw [hkind j hj]; exact h.next hn, ?_⟩
  by_cases hth : th = .caller
  · subst hth
    rw [ran_code_self]
    rcases next_eq_some hn with hcode | ⟨-, -, hi⟩
    · -- the new code and the rest are of the kind of the instruction
      have hall : ∀ j ∈ code ++ rest, j.kind = i.kind := by
        intro j hj
        rcases List.mem_append.mp hj with hj | hj
        · exact hkind j hj
        · exact h.caller j (by rw [hcode]; exact List.mem_cons_of_mem i hj) i (by
            rw [hcode]; exact List.mem_cons_self)
      exact fun j hj k hk => by rw [hall j hj, hall k hk]
    · cases hi
  · rw [ran_code_of_ne s (Ne.symm hth)]
    exact h.caller

/-! ### Chains and demands -/

/-- The node of the acquisition that an instruction carries on, from the spin to the end of the
wait. -/
def PoolInstr.chain : PoolInstr S → Option ℕ
  | .acquireNode t => some (S.nodeOf t)
  | .removeCached r => r.acquirer
  | .snapshotExec r => r.acquirer
  | .measure r _ => r.acquirer
  | .nextVictim ev _ => ev.room.acquirer
  | .takeVictim ev _ _ => ev.room.acquirer
  | .moveVictim ev _ _ => ev.room.acquirer
  | .freeVictim ev _ _ => ev.room.acquirer
  | .startExec n => some n
  | .startPrune n _ => some n
  | .startQueue n _ => some n
  | .awaitNode n => some n
  | _ => none

/-- The node whose `state` will go down after an instruction: a part of its acquisition before the
wait, or its on-demand task. -/
def PoolInstr.demand : PoolInstr S → Option ℕ
  | .awaitNode _ => none
  | .pushDemand n _ => some n
  | .moveDemand task => some task.node
  | .arrived n => some n
  | i => i.chain

def PoolInstr.chained (n : ℕ) (i : PoolInstr S) : ℕ := one n i.chain

def PoolInstr.demanded (n : ℕ) (i : PoolInstr S) : ℕ := one n i.demand

/-- One for a node, zero for none. -/
def any (o : Option ℕ) : ℕ := o.elim 0 fun _ => 1

@[simp] theorem any_none : any none = 0 := rfl

@[simp] theorem any_some (n : ℕ) : any (some n) = 1 := rfl

theorem one_le_any (n : ℕ) (o : Option ℕ) : one n o ≤ any o := by
  cases o with
  | none => rfl
  | some m => exact one_le n (some m)

/-- One for every acquisition. -/
def PoolInstr.acquiring : PoolInstr S → ℕ
  | .acquireTensor _ => 1
  | i => any i.chain

def Instr.chained (n : ℕ) : Instr S → ℕ
  | .pool i => i.chained n
  | .dispatch _ => 0

def Instr.demanded (n : ℕ) : Instr S → ℕ
  | .pool i => i.demanded n
  | .dispatch _ => 0

def Instr.acquiring : Instr S → ℕ
  | .pool i => i.acquiring
  | .dispatch _ => 0

def Task.demanded (n : ℕ) (t : Task S) : ℕ := if t.onDemand ∧ t.node = n then 1 else 0

def Tasks.demanded (n : ℕ) (tasks : Tasks S) : ℕ :=
  ∑ i ∈ Finset.range numPriority, codeWeight (Task.demanded n) (tasks.unifiedQueue i)

/-- The acquisitions of a node that have begun to take it. -/
def chained (s : System S) (n : ℕ) : ℕ := total (Instr.chained n) (fun _ => 0) s

/-- What has to be done for a node before its `state` goes down. -/
def demanded (s : System S) (n : ℕ) : ℕ :=
  total (Instr.demanded n) (fun sh => sh.tasks.demanded n) s

/-- The acquisitions. -/
def acquiring (s : System S) : ℕ := total Instr.acquiring (fun _ => 0) s

@[simp] theorem Room.chained_done (r : Room S) (b : Bool) (n : ℕ) :
    codeWeight (PoolInstr.chained n) (r.done b) = one n r.acquirer := by
  cases r <;> cases b <;> simp [Room.done, PoolInstr.chained, PoolInstr.chain, Room.acquirer]

@[simp] theorem Room.demanded_done (r : Room S) (b : Bool) (n : ℕ) :
    codeWeight (PoolInstr.demanded n) (r.done b) = one n r.acquirer := by
  cases r <;> cases b <;>
    simp [Room.done, PoolInstr.demanded, PoolInstr.demand, PoolInstr.chain, Room.acquirer]

@[simp] theorem Eviction.chained_goOn (ev : Eviction S) (victims : List ℕ) (n : ℕ) :
    codeWeight (PoolInstr.chained n) (ev.goOn victims) = one n ev.room.acquirer := by
  unfold Eviction.goOn
  split <;> simp [PoolInstr.chained, PoolInstr.chain]

@[simp] theorem Eviction.demanded_goOn (ev : Eviction S) (victims : List ℕ) (n : ℕ) :
    codeWeight (PoolInstr.demanded n) (ev.goOn victims) = one n ev.room.acquirer := by
  unfold Eviction.goOn
  split <;> simp [PoolInstr.demanded, PoolInstr.demand, PoolInstr.chain]

/-! ### On-demand tasks in the queues -/

theorem codeWeight_filter_le {ι : Type*} (w : ι → ℕ) (q : ι → Bool) (l : List ι) :
    codeWeight w (l.filter q) ≤ codeWeight w l := by
  induction l with
  | nil => rfl
  | cons x l ih =>
    rw [List.filter_cons]
    split
    · rw [codeWeight_cons, codeWeight_cons]; omega
    · rw [codeWeight_cons]; omega

theorem demanded_removeIf (tasks : Tasks S) (first : ℕ) (q : Task S → Bool) (n : ℕ) :
    (tasks.removeIf first q).demanded n ≤ tasks.demanded n := by
  refine Finset.sum_le_sum fun i _ => ?_
  unfold Tasks.removeIf
  simp only
  split
  · exact codeWeight_filter_le _ _ _
  · rfl

theorem demanded_push (tasks : Tasks S) {t : Task S} (h : t.priority < numPriority) (n : ℕ) :
    (tasks.push t).demanded n = tasks.demanded n + t.demanded n := by
  unfold Tasks.demanded Tasks.push
  rw [← Finset.add_sum_erase _ _ (Finset.mem_range.mpr h),
    ← Finset.add_sum_erase (Finset.range numPriority)
      (fun i => codeWeight (Task.demanded n) (tasks.unifiedQueue i)) (Finset.mem_range.mpr h)]
  have hrest : ∑ i ∈ (Finset.range numPriority).erase t.priority, codeWeight (Task.demanded n)
      (Function.update tasks.unifiedQueue t.priority (tasks.unifiedQueue t.priority ++ [t]) i) =
      ∑ i ∈ (Finset.range numPriority).erase t.priority,
        codeWeight (Task.demanded n) (tasks.unifiedQueue i) := by
    refine Finset.sum_congr rfl fun i hi => ?_
    rw [Function.update_of_ne (Finset.ne_of_mem_erase hi)]
  simp only
  rw [hrest, Function.update_self, codeWeight_append, codeWeight_cons, codeWeight_nil]
  omega

@[simp] theorem demanded_push_demandTask (tasks : Tasks S) (m n : ℕ) (src : Option (Fin S.gpus)) :
    (tasks.push (demandTask m src)).demanded n = tasks.demanded n + one n (some m) := by
  rw [demanded_push tasks (show 0 < numPriority by decide)]
  simp [Task.demanded, demandTask, one]

@[simp] theorem demanded_push_prefetchTask (tasks : Tasks S) (m n : ℕ) (src : Option (Fin S.gpus)) :
    (tasks.push (prefetchTask m src)).demanded n = tasks.demanded n := by
  rw [demanded_push tasks (show 1 < numPriority by decide)]
  simp [Task.demanded, prefetchTask]

@[simp] theorem demanded_push_fetchTask (tasks : Tasks S) (m n : ℕ) (src : Option (Fin S.gpus)) :
    (tasks.push (fetchTask m src)).demanded n = tasks.demanded n := by
  rw [demanded_push tasks (show 0 < numPriority by decide)]
  simp [Task.demanded, fetchTask]

/-- The task that a worker takes is in one of the queues. -/
theorem mem_of_popTask {tasks : Tasks S} {g : Fin S.gpus} {t : Task S}
    (h : tasks.popTask g = some t) :
    ∃ i < numPriority, t ∈ tasks.unifiedQueue i := by
  unfold Tasks.popTask at h
  split at h
  · cases h
  · next i hi =>
    exact ⟨i, List.mem_range.mp (List.mem_of_find?_eq_some hi), List.mem_of_find?_eq_some h⟩

/-- A worker takes the task out of its queue, with the others of its node and device. -/
theorem demanded_popTask {tasks : Tasks S} {g : Fin S.gpus} {t : Task S}
    (h : tasks.popTask g = some t) (n : ℕ) :
    (tasks.removeIf 0 fun t' => t'.node == t.node && t'.dstDevice = t.dstDevice).demanded n +
      t.demanded n ≤ tasks.demanded n := by
  obtain ⟨i, hi, ht⟩ := mem_of_popTask h
  unfold Tasks.demanded Tasks.removeIf
  rw [← Finset.add_sum_erase _ _ (Finset.mem_range.mpr hi),
    ← Finset.add_sum_erase (Finset.range numPriority)
      (fun i => codeWeight (Task.demanded n) (tasks.unifiedQueue i)) (Finset.mem_range.mpr hi)]
  have hrest : ∑ j ∈ (Finset.range numPriority).erase i, codeWeight (Task.demanded n)
      (if 0 ≤ j ∧ j < numPriority then (tasks.unifiedQueue j).filter fun t' =>
        !(t'.node == t.node && t'.dstDevice = t.dstDevice) else tasks.unifiedQueue j) ≤
      ∑ j ∈ (Finset.range numPriority).erase i,
        codeWeight (Task.demanded n) (tasks.unifiedQueue j) := by
    refine Finset.sum_le_sum fun j _ => ?_
    split
    · exact codeWeight_filter_le _ _ _
    · rfl
  have hqueue : ∀ l : List (Task S), t ∈ l → codeWeight (Task.demanded n) (l.filter fun t' =>
      !(t'.node == t.node && t'.dstDevice = t.dstDevice)) + t.demanded n ≤
        codeWeight (Task.demanded n) l := by
    intro l hl
    induction l with
    | nil => cases hl
    | cons x l ih =>
      rw [List.filter_cons]
      rcases List.mem_cons.mp hl with rfl | hl
      · have := codeWeight_filter_le (Task.demanded n)
          (fun t' => !(t'.node == t.node && t'.dstDevice = t.dstDevice)) l
        simp only [beq_self_eq_true, decide_true, Bool.and_self, Bool.not_true,
          Bool.false_eq_true, if_false, codeWeight_cons]
        omega
      · have := ih hl
        split
        · rw [codeWeight_cons, codeWeight_cons]; omega
        · rw [codeWeight_cons]; omega
  have hpop := hqueue _ ht
  simp only
  rw [if_pos ⟨Nat.zero_le i, hi⟩]
  omega

@[simp] theorem demanded_setExecQueue (tasks : Tasks S) (q : Finset ℕ) (n : ℕ) :
    (tasks.setExecQueue q).demanded n = tasks.demanded n := rfl

@[simp] theorem demanded_setCandidates (tasks : Tasks S) (ns : Finset ℕ) (n : ℕ) :
    (tasks.setCandidates ns).demanded n = tasks.demanded n := rfl

@[simp] theorem demanded_setLast (tasks : Tasks S) (m n : ℕ) :
    (tasks.setLast m).demanded n = tasks.demanded n := rfl

@[simp] theorem demanded_setAcquired (tasks : Tasks S) (m n : ℕ) (ts : Finset ℕ) :
    (tasks.setAcquired m ts).demanded n = tasks.demanded n := rfl

/-! ### What an instruction does to an acquisition -/

/-- The node whose `state` goes up. -/
def PoolInstr.raises : PoolInstr S → Option ℕ
  | .acquireTensor t => some (S.nodeOf t)
  | _ => none

/-- The node whose `state` goes down, in an acquisition. -/
def PoolInstr.lowers (tasks : Tasks S) : PoolInstr S → Option ℕ
  | .arrived n => some n
  | .startQueue n src => if src.isSome ∨ n ∈ tasks.execQueue then some n else none
  | _ => none

/-- The node whose `state` goes down in another call. -/
def PoolInstr.resets : PoolInstr S → Option ℕ
  | .stopExec n _ => some n
  | .sameDevice n => some n
  | _ => none

theorem PoolInstr.run_demanded {c : Choice} {nodes nodes' : NodeMap S} {tasks tasks' : Tasks S}
    {i : PoolInstr S} {code : List (PoolInstr S)}
    (h : i.run c nodes tasks = some (nodes', tasks', code)) (n : ℕ) :
    tasks'.demanded n + codeWeight (demanded n) code + one n (i.lowers tasks) ≤
        tasks.demanded n + i.demanded n + one n i.raises ∧
      ((∀ m, i ≠ .awaitNode m) → tasks'.demanded n + codeWeight (demanded n) code + i.chained n ≤
        tasks.demanded n + i.demanded n + codeWeight (chained n) code) := by
  cases i with
  | acquireTensor | overflow | snapshotExec | enqueuePrefetch | fetchExec | arrived | sameDevice
  | moveDemand | beginPrefetch | clearPrefetching | takeCandidate | moveVictim | movePrefetch
  | freePrefetch | pushDemand | pushPrefetch | pushFetch | stopExec | execErase | freeNode
  | freeVictim =>
    cases h
    simp [demanded, demand, chained, chain, lowers, raises]
  | replaceCandidates ts =>
    cases h
    have := demanded_removeIf tasks 1 (fun _ => true) n
    simpa [demanded, demand, chained, chain, lowers, raises] using this
  | startPrune m src =>
    cases h
    have := demanded_removeIf tasks 0 (fun t => t.node == m || S.layer t.node < S.layer m) n
    simpa [demanded, demand, chained, chain, lowers, raises] using this
  | enqueuePrune m src =>
    cases h
    have := demanded_removeIf tasks 1 (outdated (prefetchTask m src)) n
    split <;> simpa [demanded, demand, chained, chain, lowers, raises] using this
  | fetchPrune m src =>
    cases h
    have := demanded_removeIf tasks 1 (fun t => t.node == m || S.layer t.node ≤ S.layer m) n
    split <;> simpa [demanded, demand, chained, chain, lowers, raises] using this
  | acquireNode t =>
    simp only [run] at h
    split at h
    · cases h
      simp [demanded, demand, chained, chain, lowers, raises]
    · split at h <;> cases h
      by_cases hs : S.isSparse (S.nodeOf t) = true <;>
        simp [demanded, demand, chained, chain, lowers, raises, hs, Room.acquirer]
  | removeCached r | measure r nodesExec =>
    simp only [run] at h
    split_ifs at h <;> cases h <;> simp [demanded, demand, chained, chain, lowers, raises]
  | nextVictim ev victims =>
    cases victims with
    | nil => cases h; simp [demanded, demand, chained, chain, lowers, raises]
    | cons v victims =>
      simp only [run] at h
      split_ifs at h <;> cases h <;> simp [demanded, demand, chained, chain, lowers, raises]
  | takeVictim ev v victims =>
    simp only [run] at h
    split_ifs at h <;> cases h <;> simp [demanded, demand, chained, chain, lowers, raises]
  | startExec m | takePrefetch task =>
    simp only [run] at h
    split_ifs at h <;> cases h <;> simp [demanded, demand, chained, chain, lowers, raises]
  | startQueue m src =>
    simp only [run] at h
    split_ifs at h with hsrc hmem <;> cases h <;>
      simp [demanded, demand, chained, chain, lowers, raises, *]
  | awaitNode m =>
    simp only [run] at h
    split_ifs at h
    cases h
    simp [demanded, demand, lowers, raises]
  | releaseTensor t =>
    simp only [run] at h
    split at h
    · cases h; simp [demanded, demand, chained, chain, lowers, raises]
    · split at h
      · cases h; simp [demanded, demand, chained, chain, lowers, raises]
      · split at h
        · cases h
        · split at h <;> cases h <;> simp [demanded, demand, chained, chain, lowers, raises]
  | releaseOwn t =>
    cases h
    split <;> simp [demanded, demand, chained, chain, lowers, raises]
  | popTask g =>
    simp only [run] at h
    split at h
    · cases h
    · next task hpop =>
      cases h
      have hle := demanded_popTask hpop n
      cases hd : task.onDemand
      · simp only [Bool.false_eq_true, if_false, codeWeight_cons, codeWeight_nil, demanded,
          demand, chained, chain, lowers, raises, Room.acquirer, one_none]
        omega
      · have hone : task.demanded n = one n (some task.node) := by simp [Task.demanded, hd, one]
        simp only [if_true, codeWeight_cons, codeWeight_nil, demanded, demand, chained,
          chain, lowers, raises, one_none]
        omega

theorem state_foldl_store (ns : List ℕ) (nodes : NodeMap S) (n : ℕ) :
    (ns.foldl (fun nodes m => store nodes m .idle) nodes n).state = (nodes n).state := by
  induction ns generalizing nodes with
  | nil => rfl
  | cons m ns ih => rw [List.foldl_cons, ih, state_store]

/-- **The `state`** of a node after an instruction of the pool. -/
theorem PoolInstr.run_state {c : Choice} {nodes nodes' : NodeMap S} {tasks tasks' : Tasks S}
    {i : PoolInstr S} {code : List (PoolInstr S)}
    (h : i.run c nodes tasks = some (nodes', tasks', code)) (n : ℕ) :
    (nodes' n).state =
      if i.lowers tasks = some n ∨ i.resets = some n then false
      else if i.raises = some n then true else (nodes n).state := by
  cases i with
  | acquireTensor t | arrived t | sameDevice t | stopExec t own =>
    cases h
    simp [lowers, resets, raises, eq_comm]
  | overflow | snapshotExec | enqueuePrefetch | fetchExec | moveDemand | beginPrefetch
  | clearPrefetching | takeCandidate | moveVictim | movePrefetch | freePrefetch | pushDemand
  | pushPrefetch | pushFetch | execErase | freeNode | freeVictim | replaceCandidates | startPrune
  | fetchPrune | releaseOwn =>
    cases h
    simp [lowers, resets, raises]
  | enqueuePrune m src =>
    cases h
    simp [lowers, resets, raises, state_foldl_store]
  | acquireNode t =>
    simp only [run] at h
    split at h
    · cases h; simp [lowers, resets, raises]
    · split at h <;> cases h
      simp [lowers, resets, raises]
  | removeCached r | measure r nodesExec | takeVictim ev v victims | startExec m | takePrefetch task
  | awaitNode m =>
    simp only [run] at h
    split_ifs at h <;> cases h <;> simp [lowers, resets, raises]
  | nextVictim ev victims =>
    cases victims with
    | nil => cases h; simp [lowers, resets, raises]
    | cons v victims =>
      simp only [run] at h
      split_ifs at h <;> cases h <;> simp [lowers, resets, raises]
  | startQueue m src =>
    simp only [run] at h
    split_ifs at h with hsrc hmem <;> cases h <;> simp [lowers, resets, raises, eq_comm, *]
  | releaseTensor t =>
    simp only [run] at h
    split at h
    · cases h; simp [lowers, resets, raises]
    · split at h
      · cases h; simp [lowers, resets, raises]
      · split at h
        · cases h
        · split at h <;> cases h <;> simp [lowers, resets, raises]
  | popTask g =>
    simp only [run] at h
    split at h <;> cases h
    simp [lowers, resets, raises]

theorem DispatchInstr.run_state {c : Choice} {nodes nodes' : NodeMap S} {d d' : Dispatcher S}
    {i : DispatchInstr S} {code : List (DispatchInstr S)}
    (h : i.run c nodes d = some (nodes', d', code)) (n : ℕ) :
    (nodes' n).state = (nodes n).state := by
  cases i with
  | setInputs | setExpectedQueue | clearOverload | notifyCache | decrement | notifyPending
  | waitBlock | uncount | takeOverload | cacheBlock | freeFailed | countDispatch | fetched
  | pushInput | pushExec | freeExecuted | testPending | waitTest | claim | unload | load =>
    cases h
    simp
  | enqueue e g | enqueueBusy e | awaitIdle g args | claimed g args | awaitOverload g args
  | cacheTest g args | cacheAsleep g args | execute g args | fetch g args | accumulate out
  | waitAsleep | evict g args v =>
    simp only [run] at h
    split_ifs at h <;> cases h <;> simp
  | popInput g | popExec g | enqueueRoute e g =>
    simp only [run] at h
    split at h <;> cases h <;> simp
  | findEvict g args | findAgain g args retries =>
    simp only [run] at h
    split at h
    · split at h <;> cases h <;> simp
    · cases h

theorem Room.acquiring_done (r : Room S) (b : Bool) :
    codeWeight PoolInstr.acquiring (r.done b) = any r.acquirer := by
  cases r <;> cases b <;> simp [Room.done, PoolInstr.acquiring, PoolInstr.chain, Room.acquirer]

theorem Eviction.acquiring_goOn (ev : Eviction S) (victims : List ℕ) :
    codeWeight PoolInstr.acquiring (ev.goOn victims) = any ev.room.acquirer := by
  unfold Eviction.goOn
  split
  · exact ev.room.acquiring_done true
  · simp [PoolInstr.acquiring, PoolInstr.chain]

/-- An instruction carries on at most the acquisition it belongs to. -/
theorem PoolInstr.run_acquiring {c : Choice} {nodes nodes' : NodeMap S} {tasks tasks' : Tasks S}
    {i : PoolInstr S} {code : List (PoolInstr S)}
    (h : i.run c nodes tasks = some (nodes', tasks', code)) :
    codeWeight acquiring code ≤ i.acquiring := by
  cases i with
  | acquireTensor | overflow | snapshotExec | enqueuePrefetch | fetchExec | arrived | sameDevice
  | moveDemand | beginPrefetch | clearPrefetching | takeCandidate | moveVictim | movePrefetch
  | freePrefetch | pushDemand | pushPrefetch | pushFetch | startPrune | stopExec | execErase
  | freeNode | replaceCandidates =>
    cases h
    simp [acquiring, chain]
  | freeVictim ev v victims =>
    cases h
    rw [Eviction.acquiring_goOn]
    simp [acquiring, chain]
  | enqueuePrune | fetchPrune =>
    cases h
    split <;> simp [acquiring, chain]
  | acquireNode t =>
    simp only [run] at h
    split at h
    · cases h; simp
    · split at h <;> cases h
      by_cases hs : S.isSparse (S.nodeOf t) = true <;> simp [hs, acquiring, chain, Room.acquirer]
  | removeCached r | measure r nodesExec =>
    simp only [run] at h
    split_ifs at h <;> cases h <;> simp [acquiring, chain, Room.acquiring_done]
  | nextVictim ev victims =>
    cases victims with
    | nil => cases h; simp [acquiring, chain, Room.acquiring_done]
    | cons v victims =>
      simp only [run] at h
      split_ifs at h <;> cases h <;> simp [acquiring, chain]
  | takeVictim ev v victims =>
    simp only [run] at h
    split_ifs at h <;> cases h <;> simp [acquiring, chain, Eviction.acquiring_goOn]
  | startExec m | startQueue m src | awaitNode m | takePrefetch task =>
    simp only [run] at h
    split_ifs at h <;> cases h <;> simp [acquiring, chain]
  | releaseTensor t =>
    simp only [run] at h
    split at h
    · cases h; simp
    · split at h
      · cases h; simp [acquiring, chain]
      · split at h
        · cases h
        · split at h <;> cases h <;> simp [acquiring, chain]
  | releaseOwn t =>
    cases h
    split <;> simp [acquiring, chain]
  | popTask g =>
    simp only [run] at h
    split at h <;> cases h
    split <;> simp [acquiring, chain, Room.acquirer]

/-- The node that an instruction works for after it was taken. -/
def PoolInstr.works (i : PoolInstr S) : Option ℕ :=
  match i with
  | .acquireNode _ => none
  | i => i.chain

theorem Room.works_done {r : Room S} {b : Bool} {n : ℕ} :
    ∀ j ∈ (r.done b : List (PoolInstr S)), j.works = some n → r.acquirer = some n := by
  cases r <;> cases b <;> simp [Room.done, PoolInstr.works, PoolInstr.chain, Room.acquirer]

theorem Eviction.works_goOn {ev : Eviction S} {victims : List ℕ} {n : ℕ} :
    ∀ j ∈ ev.goOn victims, j.works = some n → ev.room.acquirer = some n := by
  unfold Eviction.goOn
  split
  · exact Room.works_done
  · simp [PoolInstr.works, PoolInstr.chain]

/-- The books of a node that is acquired are not empty, from the moment it is taken. -/
theorem PoolInstr.run_works {c : Choice} {nodes nodes' : NodeMap S} {tasks tasks' : Tasks S}
    {i : PoolInstr S} {code : List (PoolInstr S)}
    (h : i.run c nodes tasks = some (nodes', tasks', code)) (n : ℕ) :
    (i.kind ≠ .call → tasks.acquired n ≠ ∅ → tasks'.acquired n ≠ ∅) ∧
      ∀ j ∈ code, j.works = some n → i.works = some n ∨ tasks'.acquired n ≠ ∅ := by
  cases i with
  | acquireTensor | overflow | snapshotExec | enqueuePrefetch | fetchExec | arrived | sameDevice
  | moveDemand | beginPrefetch | clearPrefetching | takeCandidate | moveVictim | movePrefetch
  | freePrefetch | pushDemand | pushPrefetch | pushFetch | startPrune | stopExec | execErase
  | freeNode | replaceCandidates =>
    cases h
    exact ⟨fun _ h => h, by simp +contextual [works, chain]⟩
  | freeVictim ev v victims =>
    cases h
    refine ⟨fun _ h => h, fun j hj hw => ?_⟩
    have hroom := Eviction.works_goOn j hj hw
    exact Or.inl hroom
  | enqueuePrune | fetchPrune =>
    cases h
    refine ⟨fun _ h => h, ?_⟩
    split <;> simp [works, chain]
  | acquireNode t =>
    simp only [run] at h
    split at h
    · cases h; exact ⟨fun _ h => h, fun _ hj => absurd hj List.not_mem_nil⟩
    · split at h <;> cases h
      simp only [acquired_setAcquired]
      refine ⟨fun _ hn => ?_, fun j hj hw => Or.inr ?_⟩
      · split
        · exact tensorIds_ne_empty t
        · exact hn
      · have hn : S.nodeOf t = n := by
          rw [List.mem_singleton.mp hj] at hw
          by_cases hs : S.isSparse (S.nodeOf t) = true <;>
            simpa [hs, works, chain, Room.acquirer] using hw
        rw [if_pos hn.symm]
        exact tensorIds_ne_empty t
  | removeCached r | measure r nodesExec =>
    simp only [run] at h
    split_ifs at h <;> cases h
    · exact ⟨fun _ h => h, fun j hj hw => Or.inl (Room.works_done j hj hw)⟩
    all_goals exact ⟨fun _ h => h, by simp +contextual [works, chain]⟩
  | nextVictim ev victims =>
    cases victims with
    | nil => cases h; exact ⟨fun _ h => h, fun j hj hw => Or.inl (Room.works_done j hj hw)⟩
    | cons v victims =>
      simp only [run] at h
      split_ifs at h <;> cases h <;> exact ⟨fun _ h => h, by simp +contextual [works, chain]⟩
  | takeVictim ev v victims =>
    simp only [run] at h
    split_ifs at h <;> cases h
    · exact ⟨fun _ h => h, by simp +contextual [works, chain]⟩
    · exact ⟨fun _ h => h, fun j hj hw => Or.inl (Eviction.works_goOn j hj hw)⟩
  | startExec m | startQueue m src | awaitNode m | takePrefetch task =>
    simp only [run] at h
    split_ifs at h <;> cases h <;> exact ⟨fun _ h => h, by simp +contextual [works, chain]⟩
  | releaseTensor t =>
    refine ⟨fun hk => absurd rfl hk, ?_⟩
    simp only [run] at h
    split at h
    · cases h; exact fun _ hj => absurd hj List.not_mem_nil
    · split at h
      · cases h; simp [works, chain]
      · split at h
        · cases h
        · split at h <;> cases h <;> simp [works, chain]
  | releaseOwn t =>
    refine ⟨fun hk => absurd rfl hk, ?_⟩
    cases h
    split <;> simp [works, chain]
  | popTask g =>
    simp only [run] at h
    split at h <;> cases h
    refine ⟨fun _ h => h, ?_⟩
    split <;> simp [works, chain, Room.acquirer]

/-! ### All instructions -/

def Instr.raises : Instr S → Option ℕ
  | .pool i => i.raises
  | .dispatch _ => none

def Instr.lowers (sh : Shared S) : Instr S → Option ℕ
  | .pool i => i.lowers sh.tasks
  | .dispatch _ => none

def Instr.resets : Instr S → Option ℕ
  | .pool i => i.resets
  | .dispatch _ => none

def Instr.works : Instr S → Option ℕ
  | .pool i => i.works
  | .dispatch _ => none

theorem chained_map_pool (n : ℕ) (code : List (PoolInstr S)) :
    codeWeight (Instr.chained n) (code.map .pool) = codeWeight (PoolInstr.chained n) code := by
  rw [codeWeight, List.map_map]
  rfl

theorem demanded_map_pool (n : ℕ) (code : List (PoolInstr S)) :
    codeWeight (Instr.demanded n) (code.map .pool) = codeWeight (PoolInstr.demanded n) code := by
  rw [codeWeight, List.map_map]
  rfl

theorem acquiring_map_pool (code : List (PoolInstr S)) :
    codeWeight Instr.acquiring (code.map .pool) = codeWeight PoolInstr.acquiring code := by
  rw [codeWeight, List.map_map]
  rfl

theorem codeWeight_map_dispatch {w : Instr S → ℕ} (hw : ∀ i, w (.dispatch i) = 0)
    (code : List (DispatchInstr S)) : codeWeight w (code.map .dispatch) = 0 := by
  refine codeWeight_eq_zero w fun i hi => ?_
  obtain ⟨j, -, rfl⟩ := List.mem_map.mp hi
  exact hw j

theorem Instr.run_demanded {c : Choice} {i : Instr S} {sh sh' : Shared S} {code : List (Instr S)}
    (h : i.run c sh = some (sh', code)) (n : ℕ) :
    sh'.tasks.demanded n + codeWeight (demanded n) code + one n (i.lowers sh) ≤
        sh.tasks.demanded n + i.demanded n + one n i.raises ∧
      ((∀ m, i ≠ .pool (.awaitNode m)) →
        sh'.tasks.demanded n + codeWeight (demanded n) code + i.chained n ≤
          sh.tasks.demanded n + i.demanded n + codeWeight (chained n) code) := by
  cases i with
  | pool i =>
    obtain ⟨nodes, tasks, is, hr, rfl, rfl⟩ := run_pool h
    obtain ⟨hlaw, hchain⟩ := i.run_demanded hr n
    rw [demanded_map_pool, chained_map_pool]
    exact ⟨hlaw, fun hne => hchain fun m hm => hne m (by rw [hm])⟩
  | dispatch i =>
    obtain ⟨nodes, d, is, hr, rfl, rfl⟩ := run_dispatch h
    rw [codeWeight_map_dispatch (fun _ => rfl), codeWeight_map_dispatch (fun _ => rfl)]
    exact ⟨Nat.le_refl _, fun _ => Nat.le_refl _⟩

theorem Instr.run_acquiring {c : Choice} {i : Instr S} {sh sh' : Shared S} {code : List (Instr S)}
    (h : i.run c sh = some (sh', code)) : codeWeight acquiring code ≤ i.acquiring := by
  cases i with
  | pool i =>
    obtain ⟨nodes, tasks, is, hr, rfl, rfl⟩ := run_pool h
    rw [acquiring_map_pool]
    exact i.run_acquiring hr
  | dispatch i =>
    obtain ⟨nodes, d, is, hr, rfl, rfl⟩ := run_dispatch h
    rw [codeWeight_map_dispatch fun _ => rfl]
    exact Nat.zero_le _

theorem Instr.run_state {c : Choice} {i : Instr S} {sh sh' : Shared S} {code : List (Instr S)}
    (h : i.run c sh = some (sh', code)) (n : ℕ) :
    (sh'.node n).state =
      if i.lowers sh = some n ∨ i.resets = some n then false
      else if i.raises = some n then true else (sh.node n).state := by
  cases i with
  | pool i =>
    obtain ⟨nodes, tasks, is, hr, rfl, rfl⟩ := run_pool h
    exact i.run_state hr n
  | dispatch i =>
    obtain ⟨nodes, d, is, hr, rfl, rfl⟩ := run_dispatch h
    simpa [Instr.lowers, Instr.resets, Instr.raises] using i.run_state hr n

theorem Instr.run_works {c : Choice} {i : Instr S} {sh sh' : Shared S} {code : List (Instr S)}
    (h : i.run c sh = some (sh', code)) (n : ℕ) :
    (i.kind ≠ .call → sh.tasks.acquired n ≠ ∅ → sh'.tasks.acquired n ≠ ∅) ∧
      ∀ j ∈ code, j.works = some n → i.works = some n ∨ sh'.tasks.acquired n ≠ ∅ := by
  cases i with
  | pool i =>
    obtain ⟨nodes, tasks, is, hr, rfl, rfl⟩ := run_pool h
    obtain ⟨hkeep, hnew⟩ := i.run_works hr n
    refine ⟨hkeep, fun j hj hw => ?_⟩
    obtain ⟨k, hk, rfl⟩ := List.mem_map.mp hj
    exact hnew k hk hw
  | dispatch i =>
    obtain ⟨nodes, d, is, hr, rfl, rfl⟩ := run_dispatch h
    refine ⟨fun _ h => h, fun j hj hw => ?_⟩
    obtain ⟨k, -, rfl⟩ := List.mem_map.mp hj
    cases hw

/-! ### The invariant -/

theorem PoolInstr.chained_le (n : ℕ) (i : PoolInstr S) : i.chained n ≤ i.acquiring := by
  have h := one_le_any n i.chain
  cases i with
  | acquireTensor t => exact Nat.zero_le _
  | _ => exact h

theorem Instr.chained_le (n : ℕ) (i : Instr S) : i.chained n ≤ i.acquiring := by
  cases i with
  | pool i => exact i.chained_le n
  | dispatch i => exact Nat.zero_le _

theorem Instr.kind_of_acquiring {i : Instr S} (h : 0 < i.acquiring) : i.kind = .acquire := by
  cases i with
  | dispatch i => exact absurd h (Nat.lt_irrefl 0)
  | pool i =>
    cases i <;> first
      | rfl
      | exact absurd h (Nat.lt_irrefl 0)
      | (simp only [acquiring, PoolInstr.acquiring, PoolInstr.chain, kind, PoolInstr.kind,
           Room.kind] at h ⊢
         split
         · rfl
         · next hnone =>
           rw [Option.not_isSome_iff_eq_none.mp hnone] at h
           exact absurd h (Nat.lt_irrefl 0))

theorem any_pos {o : Option ℕ} {n : ℕ} (h : o = some n) : 0 < any o := by rw [h]; exact Nat.one_pos

theorem Instr.acquiring_of_works {i : Instr S} {n : ℕ} (h : i.works = some n) :
    0 < i.acquiring := by
  cases i with
  | dispatch i => cases h
  | pool i =>
    cases i with
    | acquireTensor t => exact Nat.one_pos
    | acquireNode t => cases h
    | _ => exact any_pos h

/-- One acquisition at a time; its `state` stays up until everything is done that was begun for it,
and its node is in the books. -/
structure Acquiring (s : System S) : Prop where
  apart : Apart s
  single : acquiring s ≤ 1
  le : ∀ n, demanded s n ≤ chained s n
  state : ∀ n, 0 < demanded s n → (s.shared.node n).state = true
  listed : ∀ th, ∀ i ∈ s.code th, ∀ n, i.works = some n → s.shared.tasks.acquired n ≠ ∅

theorem chained_le_acquiring (s : System S) (n : ℕ) : chained s n ≤ acquiring s :=
  total_le _ _ (Instr.chained_le n) (Nat.le_refl 0)

/-- Only the caller acquires. -/
theorem Apart.caller_of_kind {s : System S} (h : Apart s) {th : Thread S} {i : Instr S}
    (hi : i ∈ s.code th) (hk : i.kind = .acquire ∨ i.kind = .call) : th = .caller := by
  have hallows := h.allows th i hi
  cases th with
  | caller => rfl
  | worker | fetcher | executor => rcases hk with hk | hk <;> rw [hk] at hallows <;> cases hallows

/-- While another call of the caller is running, or none, nothing is acquired. -/
theorem Apart.acquiring_eq_zero {s : System S} (h : Apart s)
    (hnone : ∀ i ∈ s.code .caller, i.kind ≠ .acquire) : acquiring s = 0 := by
  refine total_eq_zero _ _ rfl fun th i hi => ?_
  by_contra hne
  have hkind := i.kind_of_acquiring (Nat.pos_of_ne_zero hne)
  have hth := h.caller_of_kind hi (Or.inl hkind)
  subst hth
  exact hnone i hi hkind

theorem Apart.acquiring_of_call {s : System S} (h : Apart s) {th : Thread S} {i : Instr S}
    {rest : List (Instr S)} (hn : (program S).next s th = some (i, rest)) (hk : i.kind = .call) :
    acquiring s = 0 := by
  have hallows := h.next hn
  rw [hk] at hallows
  cases th with
  | worker | fetcher | executor => cases hallows
  | caller =>
    rcases next_eq_some hn with hcode | ⟨-, -, hi⟩
    · refine h.acquiring_eq_zero fun j hj => ?_
      rw [h.caller j hj i (by rw [hcode]; exact List.mem_cons_self), hk]
      simp
    · cases hi

section Accounting

variable {s : System S} {th : Thread S} {i : Instr S} {rest : List (Instr S)}

theorem acquiring_ran (hn : (program S).next s th = some (i, rest)) (sh : Shared S)
    (code : List (Instr S)) :
    acquiring (s.ran th i rest sh code) + i.acquiring =
      acquiring s + codeWeight Instr.acquiring code := by
  have h :=
    total_ran_add Instr.acquiring (fun _ => 0)
      (fun th i h => by cases th <;> cases h <;> rfl) sh code hn
  rwa [Nat.zero_add, Nat.zero_add] at h

theorem acquiring_ran_le {c : Choice} {sh : Shared S} {code : List (Instr S)}
    (hn : (program S).next s th = some (i, rest)) (hr : i.run c s.shared = some (sh, code)) :
    acquiring (s.ran th i rest sh code) ≤ acquiring s := by
  have hacc := acquiring_ran hn sh code
  have hle := i.run_acquiring hr
  omega

theorem chained_ran (hn : (program S).next s th = some (i, rest)) (sh : Shared S)
    (code : List (Instr S)) (n : ℕ) :
    chained (s.ran th i rest sh code) n + i.chained n =
      chained s n + codeWeight (Instr.chained n) code := by
  have h :=
    total_ran_add (Instr.chained n) (fun _ => 0)
      (fun th i h => by cases th <;> cases h <;> rfl) sh code hn
  rwa [Nat.zero_add, Nat.zero_add] at h

theorem demanded_ran (hn : (program S).next s th = some (i, rest)) (sh : Shared S)
    (code : List (Instr S)) (n : ℕ) :
    demanded (s.ran th i rest sh code) n + (s.shared.tasks.demanded n + i.demanded n) =
      demanded s n + (sh.tasks.demanded n + codeWeight (Instr.demanded n) code) :=
  total_ran_add (Instr.demanded n) (fun sh => sh.tasks.demanded n)
    (fun th i h => by cases th <;> cases h <;> rfl) sh code hn

end Accounting

theorem Call.acquiring_code (k : Call S) : codeWeight Instr.acquiring k.code ≤ 1 := by
  cases k with
  | acquireTensor | releaseTensor | enqueuePrefetch | setInputs | setExpectedQueue | enqueueExpert
  | waitHiddenStates =>
    simp [Call.code, Instr.acquiring, PoolInstr.acquiring, PoolInstr.chain]
  | replaceCacheCandidates ts | fetchTensors ts =>
    rw [codeWeight_eq_zero]
    · exact Nat.zero_le 1
    · simp [Call.code, Instr.acquiring, PoolInstr.acquiring, PoolInstr.chain, or_imp, forall_and]

theorem Call.chained_code (k : Call S) (n : ℕ) :
    codeWeight (Instr.chained n) k.code = 0 ∧ codeWeight (Instr.demanded n) k.code = 0 := by
  refine ⟨codeWeight_eq_zero _ ?_, codeWeight_eq_zero _ ?_⟩ <;>
    cases k <;>
      simp [Call.code, Instr.chained, Instr.demanded, PoolInstr.chained, PoolInstr.demanded,
        PoolInstr.demand, PoolInstr.chain, or_imp, forall_and]

theorem Call.works_code (k : Call S) : ∀ i ∈ k.code, i.works = none := by
  cases k <;> simp [Call.code, Instr.works, PoolInstr.works, PoolInstr.chain, or_imp, forall_and]

theorem Acquiring.init (w : ℕ → ℕ → S.Weight) : Acquiring (System.init S w) := by
  have hdemanded : ∀ n, demanded (System.init S w) n = 0 := fun n =>
    total_eq_zero _ _ (by simp [System.init, Tasks.demanded]) fun _ _ hi =>
      absurd hi List.not_mem_nil
  refine ⟨Apart.init w, ?_, fun n => ?_, fun n hn => ?_, fun _ _ hi => absurd hi List.not_mem_nil⟩
  · rw [(Apart.init w).acquiring_eq_zero fun _ hi => absurd hi List.not_mem_nil]
    exact Nat.zero_le 1
  · rw [hdemanded n]
    exact Nat.zero_le _
  · rw [hdemanded n] at hn
    cases hn

theorem Acquiring.called {s : System S} (h : Acquiring s) (hnil : s.code .caller = [])
    (k : Call S) :
    Acquiring ((program S).called s k) := by
  have hdemanded : ∀ n, demanded ((program S).called s k) n = demanded s n := fun n => by
    have := total_called (p := program S) (Instr.demanded n) (fun sh => sh.tasks.demanded n) hnil k
    rwa [show codeWeight (Instr.demanded n) ((program S).callCode k) = 0 from (k.chained_code n).2,
      Nat.add_zero] at this
  have hchained : ∀ n, chained ((program S).called s k) n = chained s n := fun n => by
    have := total_called (p := program S) (Instr.chained n) (fun _ => 0) hnil k
    rwa [show codeWeight (Instr.chained n) ((program S).callCode k) = 0 from (k.chained_code n).1,
      Nat.add_zero] at this
  refine ⟨h.apart.called k, ?_, fun n => ?_, fun n hn => ?_, ?_⟩
  · have hzero : acquiring s = 0 := h.apart.acquiring_eq_zero fun i hi => by
      rw [hnil] at hi
      exact absurd hi List.not_mem_nil
    have := total_called (p := program S) Instr.acquiring (fun _ => 0) hnil k
    have hcode := k.acquiring_code
    unfold acquiring at hzero ⊢
    rw [this, hzero, Nat.zero_add]
    exact hcode
  · rw [hdemanded n, hchained n]
    exact h.le n
  · rw [hdemanded n] at hn
    exact h.state n hn
  · refine forall_code_called h.listed fun i hi n hw => ?_
    rw [k.works_code i hi] at hw
    cases hw

/-- What is demanded for a node is one thing at most. -/
theorem Acquiring.demanded_le {s : System S} (h : Acquiring s) (n : ℕ) :
    demanded s n ≤ acquiring s :=
  (h.le n).trans (chained_le_acquiring s n)

theorem run_awaitNode {c : Choice} {m : ℕ} {sh sh' : Shared S} {code : List (Instr S)}
    (h : Instr.run c (.pool (.awaitNode m)) sh = some (sh', code)) :
    (sh.node m).state = false ∧ sh' = sh ∧ code = [] := by
  obtain ⟨nodes, tasks, is, hr, rfl, rfl⟩ := run_pool h
  simp only [PoolInstr.run] at hr
  split_ifs at hr with hstate
  cases hr
  exact ⟨Bool.eq_false_of_not_eq_true hstate, rfl, rfl⟩

theorem Acquiring.ran {s : System S} (h : Acquiring s) {th : Thread S} {c : Choice} {i : Instr S}
    {rest : List (Instr S)} {sh : Shared S} {code : List (Instr S)}
    (hn : (program S).next s th = some (i, rest)) (hr : i.run c s.shared = some (sh, code)) :
    Acquiring (s.ran th i rest sh code) := by
  have hcall := h.apart.acquiring_of_call hn
  refine ⟨h.apart.ran hn hr, ?_, fun n => ?_, fun n hpos => ?_, ?_⟩
  · exact (acquiring_ran_le hn hr).trans h.single
  · have hd := demanded_ran hn sh code n
    have hc := chained_ran hn sh code n
    have hle := h.le n
    by_cases hawait : ∃ m, i = .pool (.awaitNode m)
    · -- the wait ends: nothing is left to be done
      obtain ⟨m, rfl⟩ := hawait
      obtain ⟨hstate, rfl, rfl⟩ := run_awaitNode hr
      simp only [Instr.demanded, PoolInstr.demanded, PoolInstr.demand, Instr.chained,
        PoolInstr.chained, PoolInstr.chain, one_none, codeWeight_nil] at hd hc
      by_cases hm : m = n
      · subst hm
        have hzero : demanded s m = 0 := by
          by_contra hne
          have hup := h.state m (Nat.pos_of_ne_zero hne)
          rw [hstate] at hup
          cases hup
        omega
      · rw [one_of_ne hm] at hc
        omega
    · have hlaw := (i.run_demanded hr n).2 fun m hm => hawait ⟨m, hm⟩
      omega
  · have hd := demanded_ran hn sh code n
    have hlaw := (i.run_demanded hr n).1
    have hle := h.demanded_le n
    have hsingle := h.single
    rw [ran_shared, i.run_state hr n]
    split_ifs with hdown hup
    · -- nothing is demanded any more
      have hraises : i.raises = none := by
        rcases i with i | i
        · cases i <;>
            simp_all [Instr.lowers, PoolInstr.lowers, Instr.resets, PoolInstr.resets, Instr.raises,
              PoolInstr.raises]
        · rfl
      rw [hraises, one_none] at hlaw
      rcases hdown with hlow | hreset
      · rw [hlow, one_self] at hlaw
        omega
      · have hzero := hcall (by
          rcases i with i | i
          · cases i <;> simp_all [Instr.resets, PoolInstr.resets, Instr.kind, PoolInstr.kind]
          · cases hreset)
        omega
    · rfl
    · have hraises : one n i.raises = 0 := if_neg hup
      exact h.state n (by omega)
  · obtain ⟨hkeep, hnew⟩ : (∀ n, i.kind ≠ .call → s.shared.tasks.acquired n ≠ ∅ →
        sh.tasks.acquired n ≠ ∅) ∧
        ∀ n, ∀ j ∈ code, j.works = some n → i.works = some n ∨ sh.tasks.acquired n ≠ ∅ :=
      ⟨fun n => (i.run_works hr n).1, fun n => (i.run_works hr n).2⟩
    -- an instruction that is at work keeps the call from being another one
    have hold : ∀ th', ∀ j ∈ s.code th', ∀ n, j.works = some n → sh.tasks.acquired n ≠ ∅ := by
      intro th' j hj n hw
      refine hkeep n (fun hk => ?_) (h.listed th' j hj n hw)
      have hpos := j.acquiring_of_works hw
      have hle : j.acquiring ≤ acquiring s := le_total Instr.acquiring (fun _ => 0) hj
      rw [hcall hk] at hle
      omega
    refine forall_code_ran hold hn fun j hj n hw => ?_
    rcases hnew n j hj hw with hi | hset
    · rcases next_eq_some hn with hcode | ⟨-, -, hloop⟩
      · exact hold th i (by rw [hcode]; exact List.mem_cons_self) n hi
      · cases th <;> cases hloop <;> cases hi
    · exact hset

/-- **Acquisitions**: the invariant holds after every step of every thread. -/
theorem Acquiring.step {s : System S} (h : Acquiring s) (o : Op S) :
    Acquiring ((program S).step s o) :=
  step_inv (G := fun _ _ => True) (fun _ k h _ hnil => h.called hnil k)
    (fun _ _ _ _ _ _ _ h _ hn hr => h.ran hn hr) s o h trivial

end MoeInfinity.Core.Nodes
