import MoeInfinity.Core.ExecState
import MoeInfinity.Core.Stages

/-! # The overload slot

A fetch for a batch that finds no room takes the overload slot of its GPU; the expert runs without
being booked in the cache, and its execution gives the slot back and moves the expert to the host.
The flag is set by the fetcher and cleared by an executor.

* `overloads`: the tasks of a GPU with `evict`, from the moment the slot is taken for them.
* `overload_of_served`: if no such task fails before its output is there, the flag is up only while
  there is one, and each of them unloads its expert, clears the flag and counts down once.
* `overload_stays`: the exception branch does not clear the flag. -/

namespace MoeInfinity.Core.Nodes

open MoeInfinity.Lib.Threads MoeInfinity.Lib.Runs

variable {S : Setup}

/-! ### Overload tasks -/

def ExecArgs.overload (args : ExecArgs) : ℕ := args.evict.toNat

def DispatchInstr.overload (g : Fin S.gpus) : DispatchInstr S → ℕ
  | .load g' _ own => if g' = g then own.toNat else 0
  | .fetched g' _ own => if g' = g then own.toNat else 0
  | .pushExec g' args => if g' = g then args.overload else 0
  | .execute g' args => if g' = g then args.overload else 0
  | .freeExecuted g' out => if g' = g then out.args.overload else 0
  | .unload g' _ => if g' = g then 1 else 0
  | .clearOverload g' _ => if g' = g then 1 else 0
  | _ => 0

def Instr.overload (g : Fin S.gpus) : Instr S → ℕ
  | .pool _ => 0
  | .dispatch i => i.overload g

def Dispatcher.overloads (d : Dispatcher S) (g : Fin S.gpus) : ℕ :=
  codeWeight ExecArgs.overload (d.execQueue g)

/-- The tasks of a GPU that will be evicted after their execution, from the moment the slot is taken
for them. -/
def overloads (s : System S) (g : Fin S.gpus) : ℕ :=
  total (Instr.overload g) (fun sh => sh.dispatcher.overloads g) s

/-- What an instruction adds to the overload tasks. -/
def DispatchInstr.overloadIn (d : Dispatcher S) (g : Fin S.gpus) : DispatchInstr S → ℕ
  | .takeOverload g' _ => if g' = g then 1 else 0
  | .fetched g' _ _ => if g' = g then (d.gpuOverload g).toNat else 0
  | _ => 0

/-- What an instruction removes from the overload tasks. -/
def DispatchInstr.overloadOut (c : Choice) (g : Fin S.gpus) : DispatchInstr S → ℕ
  | .fetched g' _ own => if g' = g then own.toNat else 0
  | .clearOverload g' _ => if g' = g then 1 else 0
  | .execute g' args => if g' = g then (if c.ok then 0 else args.overload) else 0
  | _ => 0

section Queues

variable (d : Dispatcher S) (g : Fin S.gpus)

theorem overloads_pushExec (g' : Fin S.gpus) (args : ExecArgs) :
    (d.pushExec g' args).overloads g = d.overloads g + if g' = g then args.overload else 0 := by
  unfold Dispatcher.overloads Dispatcher.pushExec Dispatcher.setExecQueue
  by_cases h : g' = g
  · subst h
    simp
  · simp [Function.update_of_ne (Ne.symm h), h]

theorem overloads_popExec {g' : Fin S.gpus} {args : ExecArgs} {rest : List ExecArgs}
    (h : d.execQueue g' = args :: rest) :
    (d.setExecQueue g' rest).overloads g + (if g' = g then args.overload else 0) =
    d.overloads g := by
  unfold Dispatcher.overloads Dispatcher.setExecQueue
  by_cases hg : g' = g
  · subst hg
    simp only [Function.update_self, if_true, h, codeWeight_cons]
    omega
  · simp [Function.update_of_ne (Ne.symm hg), hg]

@[simp] theorem overloads_setInputs (x : List S.Row) (mask : ℕ → ℕ → Bool) (w : ℕ → ℕ → S.Weight) :
    (d.setInputs x mask w).overloads g = d.overloads g := rfl

@[simp] theorem overloads_pushInput (args : CallArgs S) :
    (d.pushInput args).overloads g = d.overloads g := rfl

@[simp] theorem overloads_setInputQueue (g' : Fin S.gpus) (q : List (CallArgs S)) :
    (d.setInputQueue g' q).overloads g = d.overloads g := rfl

@[simp] theorem overloads_setPending (pending : ℤ) :
    (d.setPending pending).overloads g = d.overloads g := rfl

@[simp] theorem overloads_setFinal (rows : List S.Row) :
    (d.setFinal rows).overloads g = d.overloads g := rfl

@[simp] theorem overloads_setWaiter (b : Bool) : (d.setWaiter b).overloads g = d.overloads g := rfl

@[simp] theorem overloads_setOverload (g' : Fin S.gpus) (b : Bool) :
    (d.setOverload g' b).overloads g = d.overloads g := rfl

@[simp] theorem overloads_sleep (g' : Fin S.gpus) (b : Bool) :
    (d.sleep g' b).overloads g = d.overloads g := rfl

@[simp] theorem overloads_evicted (g' : Fin S.gpus) (e : Expert) :
    (d.evicted g' e).overloads g = d.overloads g := rfl

@[simp] theorem overloads_entered (g' : Fin S.gpus) (e : Expert) :
    (d.entered g' e).overloads g = d.overloads g := rfl

end Queues

/-- **Overload tasks**: an instruction of the dispatcher. -/
theorem DispatchInstr.run_overloads {c : Choice} {nodes nodes' : NodeMap S} {d d' : Dispatcher S}
    {i : DispatchInstr S} {code : List (DispatchInstr S)}
    (h : i.run c nodes d = some (nodes', d', code)) (g : Fin S.gpus) :
    d'.overloads g + codeWeight (overload g) code + i.overloadOut c g =
      d.overloads g + i.overload g + i.overloadIn d g := by
  cases i with
  | setInputs | setExpectedQueue | notifyPending | waitBlock | uncount | cacheBlock | notifyCache
  | claim | freeFailed | decrement | countDispatch | pushInput | unload =>
    cases h
    simp [overload, overloadIn, overloadOut]
  | pushExec g' args =>
    cases h
    simp [overload, overloadIn, overloadOut, overloads_pushExec]
  | load g' args own =>
    cases h
    split <;> simp [overload, overloadIn, overloadOut]
  | fetched g' args own =>
    cases h
    by_cases hg : g' = g
    · subst hg
      simp only [codeWeight_cons, codeWeight_nil, overload, overloadIn, overloadOut,
        ExecArgs.overload, if_true]
      omega
    · simp [overload, overloadIn, overloadOut, hg]
  | takeOverload g' args | clearOverload g' out =>
    cases h
    by_cases hg : g' = g <;> simp [overload, overloadIn, overloadOut, hg]
  | freeExecuted g' out =>
    cases h
    by_cases hg : g' = g <;> cases hd : out.args.evict <;>
      simp [overload, overloadIn, overloadOut, ExecArgs.overload, hg, hd]
  | testPending | waitTest =>
    cases h
    split <;> simp [overload, overloadIn, overloadOut]
  | enqueue e g' | enqueueBusy e | awaitIdle g' args | claimed g' args | awaitOverload g' args
  | cacheTest g' args | cacheAsleep g' args | accumulate out | waitAsleep | evict g' args v =>
    simp only [run] at h
    split_ifs at h <;> cases h <;> simp [overload, overloadIn, overloadOut, ExecArgs.overload]
  | execute g' args =>
    simp only [run] at h
    split_ifs at h with hok <;> cases h <;> simp [overload, overloadIn, overloadOut, hok]
  | fetch g' args =>
    simp only [run] at h
    split_ifs at h <;> cases h <;> simp [overload, overloadIn, overloadOut]
  | popInput g' =>
    simp only [run] at h
    split at h <;> cases h
    split <;> simp [overload, overloadIn, overloadOut]
  | enqueueRoute e g' =>
    simp only [run] at h
    split at h <;> cases h <;> simp [overload, overloadIn, overloadOut, ExecArgs.overload]
  | popExec g' =>
    simp only [run] at h
    split at h
    · cases h
    · next args rest hq =>
      cases h
      have hpop := overloads_popExec d g hq
      simp only [codeWeight_cons, codeWeight_nil, overload, overloadIn, overloadOut]
      omega
  | findEvict g' args | findAgain g' args retries =>
    simp only [run] at h
    split at h
    · split at h <;> cases h <;> simp [overload, overloadIn, overloadOut]
    · cases h

/-- **The flag** after an instruction of the dispatcher. -/
theorem DispatchInstr.run_gpuOverload {c : Choice} {nodes nodes' : NodeMap S} {d d' : Dispatcher S}
    {i : DispatchInstr S} {code : List (DispatchInstr S)}
    (h : i.run c nodes d = some (nodes', d', code)) (g : Fin S.gpus) :
    (d'.gpuOverload g = d.gpuOverload g ∧ (∀ args, i ≠ .takeOverload g args) ∧
      ∀ out, i ≠ .clearOverload g out) ∨ (d'.gpuOverload g = true ∧
        ∃ args, i = .takeOverload g args) ∨ (d'.gpuOverload g = false ∧
          ∃ out, i = .clearOverload g out) := by
  cases i with
  | setInputs | setExpectedQueue | notifyPending | waitBlock | uncount | cacheBlock | notifyCache
  | claim | freeFailed | decrement | countDispatch | pushInput | unload | pushExec | fetched
  | freeExecuted | testPending | waitTest =>
    cases h
    exact Or.inl ⟨rfl, by simp, by simp⟩
  | load g' args own =>
    cases h
    refine Or.inl ⟨?_, by simp, by simp⟩
    split <;> rfl
  | takeOverload g' args =>
    cases h
    by_cases hg : g' = g
    · subst hg
      exact Or.inr (Or.inl ⟨Function.update_self .., args, rfl⟩)
    · exact Or.inl ⟨Function.update_of_ne (Ne.symm hg) .., by simp [hg], by simp⟩
  | clearOverload g' out =>
    cases h
    by_cases hg : g' = g
    · subst hg
      exact Or.inr (Or.inr ⟨Function.update_self .., out, rfl⟩)
    · exact Or.inl ⟨Function.update_of_ne (Ne.symm hg) .., by simp, by simp [hg]⟩
  | enqueue e g' | enqueueBusy e | awaitIdle g' args | claimed g' args | awaitOverload g' args
  | cacheTest g' args | cacheAsleep g' args | accumulate out | waitAsleep | evict g' args v
  | execute g' args | fetch g' args =>
    simp only [run] at h
    split_ifs at h <;> cases h <;> exact Or.inl ⟨rfl, by simp, by simp⟩
  | popInput g' | enqueueRoute e g' | popExec g' =>
    simp only [run] at h
    split at h <;> cases h <;> exact Or.inl ⟨rfl, by simp, by simp⟩
  | findEvict g' args | findAgain g' args retries =>
    simp only [run] at h
    split at h
    · split at h <;> cases h <;> exact Or.inl ⟨rfl, by simp, by simp⟩
    · cases h

/-- An overload task fails before its output is there. -/
def Instr.failsOverload (c : Choice) : Instr S → Bool
  | .dispatch (.execute _ args) => args.evict && !c.ok
  | _ => false

theorem overloads_ran {s : System S} {th : Thread S} {i : Instr S} {rest : List (Instr S)}
    (hn : (program S).next s th = some (i, rest)) (sh : Shared S) (code : List (Instr S))
    (g : Fin S.gpus) :
    overloads (s.ran th i rest sh code) g + (s.shared.dispatcher.overloads g + i.overload g) =
      overloads s g + (sh.dispatcher.overloads g + codeWeight (Instr.overload g) code) :=
  total_ran_add (Instr.overload g) (fun sh => sh.dispatcher.overloads g)
    (fun th i h => by cases th <;> cases h <;> rfl) sh code hn

theorem overload_map_dispatch (g : Fin S.gpus) (code : List (DispatchInstr S)) :
    codeWeight (Instr.overload g) (code.map .dispatch) =
      codeWeight (DispatchInstr.overload g) code := by
  rw [codeWeight, List.map_map]
  rfl

theorem overload_map_pool (g : Fin S.gpus) (code : List (PoolInstr S)) :
    codeWeight (Instr.overload g) (code.map .pool) = 0 := by
  refine codeWeight_eq_zero _ fun i hi => ?_
  obtain ⟨j, -, rfl⟩ := List.mem_map.mp hi
  rfl

theorem Call.overload_code (k : Call S) (g : Fin S.gpus) :
    codeWeight (Instr.overload g) k.code = 0 := by
  refine codeWeight_eq_zero _ ?_
  cases k <;> simp [Call.code, Instr.overload, DispatchInstr.overload, or_imp, forall_and]

theorem overloads_called {s : System S} (hnil : s.code .caller = []) (k : Call S) (g : Fin S.gpus) :
    overloads ((program S).called s k) g = overloads s g := by
  have h := total_called (p := program S) (Instr.overload g)
    (fun sh => sh.dispatcher.overloads g) hnil k
  rwa [show codeWeight (Instr.overload g) ((program S).callCode k) = 0 from k.overload_code g,
    Nat.add_zero] at h

/-! ### The flag -/

/-- The flag is up only while there is an overload task. -/
def Flagged (s : System S) : Prop :=
  ∀ g, s.shared.dispatcher.gpuOverload g = true → 0 < overloads s g

theorem Flagged.init (w : ℕ → ℕ → S.Weight) : Flagged (System.init S w) := by
  intro g h
  cases h

theorem Flagged.ran {s : System S} (h : Flagged s) {th : Thread S} {c : Choice} {i : Instr S}
    {rest : List (Instr S)} {sh : Shared S} {code : List (Instr S)}
    (hn : (program S).next s th = some (i, rest)) (hr : i.run c s.shared = some (sh, code))
    (hc : ¬ i.failsOverload c) : Flagged (s.ran th i rest sh code) := by
  intro g hflag
  have hacc := overloads_ran hn sh code g
  rcases i with i | i
  · obtain ⟨nodes, tasks, is, hrun, rfl, rfl⟩ := run_pool hr
    have hpos := h g hflag
    rw [overload_map_pool] at hacc
    simp only [Instr.overload] at hacc
    omega
  · obtain ⟨nodes, d, is, hrun, rfl, rfl⟩ := run_dispatch hr
    have hlaw := i.run_overloads hrun g
    rw [overload_map_dispatch] at hacc
    simp only [Instr.overload] at hacc
    rcases i.run_gpuOverload hrun g with ⟨hsame, htake, hclear⟩ | ⟨-, args, rfl⟩ | ⟨hdown, -⟩
    · have hpos := h g (hsame ▸ hflag)
      rw [ran_shared, hsame] at hflag
      -- what goes comes back with the flag
      have hle : i.overloadOut c g ≤ i.overloadIn s.shared.dispatcher g := by
        cases i with
        | fetched g' args own =>
          simp only [DispatchInstr.overloadOut, DispatchInstr.overloadIn, hflag]
          split
          · exact Bool.toNat_le own
          · exact Nat.le_refl 0
        | execute g' args =>
          simp only [DispatchInstr.overloadOut, DispatchInstr.overloadIn]
          cases hok : c.ok <;> cases he : args.evict <;>
            simp_all [Instr.failsOverload, ExecArgs.overload]
        | clearOverload g' out =>
          have hg : g' ≠ g := fun heq => hclear out (by rw [heq])
          simp [DispatchInstr.overloadOut, hg]
        | _ => exact Nat.zero_le _
      omega
    · simp only [DispatchInstr.overloadIn, DispatchInstr.overloadOut, if_true] at hlaw
      omega
    · rw [ran_shared, hdown] at hflag
      cases hflag

/-! ### The end of a task -/

def Instr.pops : Instr S → Bool
  | .dispatch (.popExec _) => true
  | _ => false

/-- The instruction unloads the expert of a task. -/
def DispatchInstr.unloads (args : ExecArgs) : DispatchInstr S → ℕ
  | .unload _ out => if out.args = args then 1 else 0
  | _ => 0

def DispatchInstr.clears (args : ExecArgs) : DispatchInstr S → ℕ
  | .clearOverload _ out => if out.args = args then 1 else 0
  | _ => 0

def DispatchInstr.decrements : DispatchInstr S → ℕ
  | .decrement => 1
  | _ => 0

/-- The unloads of a task that are to come. -/
def DispatchInstr.toUnload (args : ExecArgs) : DispatchInstr S → ℕ
  | .execute _ args' => if args' = args then args.overload else 0
  | .freeExecuted _ out => if out.args = args then args.overload else 0
  | .unload _ out => if out.args = args then 1 else 0
  | _ => 0

def DispatchInstr.toClear (args : ExecArgs) : DispatchInstr S → ℕ
  | .execute _ args' => if args' = args then args.overload else 0
  | .freeExecuted _ out => if out.args = args then args.overload else 0
  | .unload _ out => if out.args = args then 1 else 0
  | .clearOverload _ out => if out.args = args then 1 else 0
  | _ => 0

def DispatchInstr.toDecrement : DispatchInstr S → ℕ
  | .execute _ _ => 1
  | .freeExecuted _ _ => 1
  | .unload _ _ => 1
  | .clearOverload _ _ => 1
  | .notifyCache _ _ => 1
  | .accumulate _ => 1
  | .freeFailed _ _ => 1
  | .decrement => 1
  | _ => 0

/-- A weight of the instructions of the dispatcher. -/
def ofDispatch (w : DispatchInstr S → ℕ) : Instr S → ℕ
  | .pool _ => 0
  | .dispatch i => w i

theorem ofDispatch_map (w : DispatchInstr S → ℕ) (code : List (DispatchInstr S)) :
    codeWeight (ofDispatch w) (code.map .dispatch) = codeWeight w code := by
  rw [codeWeight, List.map_map]
  rfl

/-- Each instruction of an executor does a part of what its task has to do. -/
theorem DispatchInstr.run_task {c : Choice} {nodes nodes' : NodeMap S} {d d' : Dispatcher S}
    {i : DispatchInstr S} {code : List (DispatchInstr S)}
    (h : i.run c nodes d = some (nodes', d', code)) {g : Fin S.gpus} (hi : i.executes g)
    (hp : ¬ Instr.pops (.dispatch i)) (args : ExecArgs) :
    (¬ Instr.failsOverload c (.dispatch i) → i.unloads args + codeWeight (toUnload args) code =
      i.toUnload args ∧
        i.clears args + codeWeight (toClear args) code = i.toClear args) ∧
      i.decrements + codeWeight toDecrement code = i.toDecrement ∧
        ∀ g', .execute g' args ∉ code := by
  cases i with
  | popExec g' => exact absurd rfl hp
  | unload g' out | clearOverload g' out | notifyCache g' out | freeFailed e own | decrement
  | notifyPending =>
    cases h
    simp [unloads, clears, decrements, toUnload, toClear, toDecrement]
  | testPending =>
    cases h
    split <;> simp [unloads, clears, decrements, toUnload, toClear, toDecrement]
  | freeExecuted g' out =>
    cases h
    cases he : out.args.evict <;> by_cases ha : out.args = args <;>
      simp_all [unloads, clears, decrements, toUnload, toClear, toDecrement, ExecArgs.overload]
  | execute g' args' =>
    simp only [run] at h
    split_ifs at h with hok <;> cases h
    · simp [unloads, clears, decrements, toUnload, toClear, toDecrement]
      exact fun _ => rfl
    · cases he : args'.evict <;> by_cases ha : args' = args <;>
        simp_all [unloads, clears, decrements, toUnload, toClear, toDecrement, ExecArgs.overload,
          Instr.failsOverload]
  | accumulate out =>
    simp only [run] at h
    split_ifs at h <;> cases h <;>
      simp [unloads, clears, decrements, toUnload, toClear, toDecrement]
  | _ => exact absurd hi id

/-- What a thread does for its task: what it has done since it popped the task, and what is to
come. -/
def sinceAndCode (s : System S) (th : Thread S) (done todo : DispatchInstr S → ℕ) : ℕ :=
  codeWeight (ofDispatch done) (s.since Instr.pops th) + codeWeight (ofDispatch todo) (s.code th)

/-- The task of an executor of a GPU. -/
def Executing (s : System S) (th : Thread S) (args : ExecArgs) : Prop :=
  ∃ g, .dispatch (.execute g args) ∈ s.since Instr.pops th ∨ .dispatch (.execute g args) ∈ s.code th

/-- An executor does exactly what its task asks for. -/
structure TaskAccount (s : System S) (th : Thread S) (args : ExecArgs) : Prop where
  unloads : sinceAndCode s th (DispatchInstr.unloads args) (DispatchInstr.toUnload args) =
    args.overload
  clears : sinceAndCode s th (DispatchInstr.clears args) (DispatchInstr.toClear args) =
    args.overload
  decrements : sinceAndCode s th DispatchInstr.decrements DispatchInstr.toDecrement = 1

def TasksAccounted (s : System S) : Prop :=
  ∀ g t args, Executing s (.executor g t) args → TaskAccount s (.executor g t) args

theorem TasksAccounted.init (w : ℕ → ℕ → S.Weight) : TasksAccounted (System.init S w) := by
  rintro g t args ⟨g', h | h⟩ <;> cases h

theorem TasksAccounted.ran {s : System S} (h : TasksAccounted s) (hs : Staged s) (ha : Apart s)
    {th : Thread S} {c : Choice} {i : Instr S} {rest : List (Instr S)} {sh : Shared S}
    {code : List (Instr S)} (hn : (program S).next s th = some (i, rest))
    (hr : i.run c s.shared = some (sh, code)) (hc : ¬ i.failsOverload c) :
    TasksAccounted (s.ran th i rest sh code) := by
  rintro g t args ⟨g', hexec⟩
  by_cases heq : .executor g t = th
  · subst heq
    obtain ⟨rfl, j, rfl, hj⟩ := hs.next ha hn (by simp) (by simp)
    obtain ⟨nodes, d, is, hrun, rfl, rfl⟩ := run_dispatch hr
    rw [since_ran, ran_code_self, List.append_nil] at hexec
    by_cases hp : Instr.pops (.dispatch j) = true
    · -- the executor has just taken the task
      cases j with
      | popExec g'' =>
        simp only [DispatchInstr.run] at hrun
        split at hrun
        · cases hrun
        · next args' rest' hq =>
          cases hrun
          have hargs : args = args' := by
            rcases hexec with hexec | hexec
            · cases hexec
            · have hmem := List.mem_singleton.mp hexec
              cases hmem
              rfl
          subst hargs
          refine ⟨?_, ?_, ?_⟩ <;>
            simp [sinceAndCode, since_ran, Instr.pops, ofDispatch, DispatchInstr.toUnload,
              DispatchInstr.toClear, DispatchInstr.toDecrement]
      | _ => cases hp
    · rw [if_neg hp] at hexec
      obtain ⟨hlaw, hdecrement, hnot⟩ := j.run_task hrun hj hp args
      obtain ⟨hunload, hclear⟩ := hlaw hc
      have hcode : s.code (.executor g t) = [.dispatch j] := by
        rcases next_eq_some hn with hcode | ⟨-, -, hloop⟩
        · exact hcode
        · cases hloop
          exact absurd rfl hp
      have hbefore : Executing s (.executor g t) args := by
        refine ⟨g', ?_⟩
        rcases hexec with hexec | hexec
        · rcases List.mem_cons.mp hexec with hself | hold
          · exact Or.inr (by rw [hcode, hself]; exact List.mem_cons_self)
          · exact Or.inl hold
        · obtain ⟨k, hk, hkeq⟩ := List.mem_map.mp hexec
          cases hkeq
          exact absurd hk (hnot g')
      obtain ⟨hu, hcl, hd⟩ := h g t args hbefore
      unfold sinceAndCode at hu hcl hd
      rw [hcode, codeWeight_cons, codeWeight_nil, ofDispatch] at hu hcl hd
      refine ⟨?_, ?_, ?_⟩ <;>
        rw [sinceAndCode, since_ran, if_neg hp, ran_code_self, List.append_nil, ofDispatch_map,
          codeWeight_cons, ofDispatch] <;>
        omega
  · have hsame : ∀ done todo, sinceAndCode (s.ran th i rest sh code) (.executor g t) done todo =
        sinceAndCode s (.executor g t) done todo := fun done todo => by
      unfold sinceAndCode
      rw [since_ran_of_ne _ _ heq, ran_code_of_ne s heq]
    rw [since_ran_of_ne _ _ heq, ran_code_of_ne s heq] at hexec
    obtain ⟨hu, hcl, hd⟩ := h g t args ⟨g', hexec⟩
    exact ⟨by rw [hsame, hu], by rw [hsame, hcl], by rw [hsame, hd]⟩

/-- What an overload task leaves behind: its expert is on the host after the unload, the flag is
down after it is cleared, and the counter is one less after the decrement. -/
def Effects (s : System S) (o : Op S) : Prop :=
  (program S).AtStep (fun c sh i => ∀ sh' code, i.run c sh = some (sh', code) →
    (∀ g out, i = .dispatch (.unload g out) → (sh'.node (S.node out.args.expert)).device = none) ∧
      (∀ g out, i = .dispatch (.clearOverload g out) → sh'.dispatcher.gpuOverload g = false) ∧
        (i = .dispatch .decrement → sh'.dispatcher.pending = sh.dispatcher.pending - 1)) s o

theorem effects (s : System S) (o : Op S) : Effects s o := by
  refine Program.AtStep.intro fun th c i rest _ _ sh' code hr => ⟨?_, ?_, ?_⟩
  · rintro g out rfl
    cases hr
    show (setDevice s.shared.node (S.node out.args.expert) none _).device = none
    rw [device_setDevice]
    split
    · rfl
    · next h => simpa using h
  · rintro g out rfl
    cases hr
    exact Function.update_self ..
  · rintro rfl
    cases hr
    rfl

/-- The flag of a GPU is up only while there is an overload task, and an executor whose task has
ended has done for it what there was to do: an overload task was unloaded and its flag cleared, once
each, and every task was counted once. -/
structure OverloadServed (s : System S) : Prop where
  flag : ∀ g, s.shared.dispatcher.gpuOverload g = true → 0 < overloads s g
  ended : ∀ g t g' args, s.code (.executor g t) = [] →
    .dispatch (.execute g' args) ∈ s.since Instr.pops (.executor g t) →
      codeWeight (ofDispatch (DispatchInstr.unloads args)) (s.since Instr.pops (.executor g t)) =
        args.overload ∧
        codeWeight (ofDispatch (DispatchInstr.clears args)) (s.since Instr.pops (.executor g t)) =
          args.overload ∧
          codeWeight (ofDispatch DispatchInstr.decrements) (s.since Instr.pops (.executor g t)) = 1

/-- **The overload slot is given back**, in every run in which no overload task fails before its
output is there. -/
theorem overload_of_served (w : ℕ → ℕ → S.Weight) (os : List (Op S))
    (h : Along (program S).step ((program S).AtStep fun c _ i => ¬ i.failsOverload c)
      (System.init S w) os) :
    Along (program S).step (fun s o => OverloadServed s ∧ Effects s o) (System.init S w) os ∧
      OverloadServed (exec (program S).step (System.init S w) os) := by
  have hserved : ∀ s : System S, Flagged s ∧ TasksAccounted s → OverloadServed s := by
    rintro s ⟨hflag, htasks⟩
    refine ⟨hflag, fun g t g' args hnil hexec => ?_⟩
    obtain ⟨hu, hcl, hd⟩ := htasks g t args ⟨g', Or.inl hexec⟩
    unfold sinceAndCode at hu hcl hd
    rw [hnil, codeWeight_nil, Nat.add_zero] at hu hcl hd
    exact ⟨hu, hcl, hd⟩
  have hstep : ∀ (s : System S) (o : Op S),
      ((Flagged s ∧ TasksAccounted s) ∧ Staged s ∧ Acquiring s) →
      (program S).AtStep (fun c _ i => ¬ i.failsOverload c) s o →
      ((Flagged ((program S).step s o) ∧ TasksAccounted ((program S).step s o)) ∧
        Staged ((program S).step s o) ∧ Acquiring ((program S).step s o)) := by
    refine step_inv (G := (program S).AtStep fun c _ i => ¬ i.failsOverload c) ?_ ?_
    · rintro s k ⟨⟨hflag, htasks⟩, hs, ha⟩ - hnil
      refine ⟨⟨fun g hg => ?_, fun g t args hexec => ?_⟩, hs.called k, ha.called hnil k⟩
      · rw [overloads_called hnil]
        exact hflag g hg
      · have hcode : ((program S).called s k).code (.executor g t) = s.code (.executor g t) :=
          called_code_of_ne s (by simp [program]) k
        unfold Executing at hexec
        rw [hcode] at hexec
        obtain ⟨hu, hcl, hd⟩ := htasks g t args hexec
        unfold sinceAndCode at hu hcl hd
        exact ⟨by rw [sinceAndCode, hcode]; exact hu, by rw [sinceAndCode, hcode]; exact hcl,
          by rw [sinceAndCode, hcode]; exact hd⟩
    · rintro s th c i rest sh code ⟨⟨hflag, htasks⟩, hs, ha⟩ hc hn hr
      have hc := hc.run hn
      exact ⟨⟨hflag.ran hn hr hc, htasks.ran hs ha.apart hn hr hc⟩, hs.ran ha.apart hn hr,
        ha.ran hn hr⟩
  have hinit : (Flagged (System.init S w) ∧ TasksAccounted (System.init S w)) ∧
      Staged (System.init S w) ∧ Acquiring (System.init S w) :=
    ⟨⟨Flagged.init w, TasksAccounted.init w⟩, Staged.init w, Acquiring.init w⟩
  exact ⟨along_of_inv hstep (fun s o hI _ => ⟨hserved s hI.1, effects s o⟩) os _ hinit h,
    hserved _ (inv_exec hstep os _ hinit h).1⟩

/-! ### A failing forward -/

/-- A GPU with room for one expert. -/
def smallGpu : Setup := { oneGpu with memoryCapacity := fun _ => 1 }

def smallGpuInit : System smallGpu := System.init smallGpu fun _ _ => (0 : ℤ)

def small : Fin smallGpu.gpus := ⟨0, Nat.one_pos⟩

def smallExecutor : Thread smallGpu := .executor small ⟨0, Nat.one_pos⟩

/-- A batch of two tokens for two experts; the first is executed, and the second is fetched into the
overload slot. -/
def overloadRun : List (Op smallGpu) :=
  calls (.setInputs [(0 : ℤ), (0 : ℤ)] (fun _ _ => true) fun _ _ => (0 : ℤ)) 1 ++
    calls (.setExpectedQueue 2) 1 ++ calls (.enqueueExpert ⟨0, 0⟩ small) 3 ++
      runs (.fetcher small) 5 ++ runs smallExecutor 7 ++
    calls (.enqueueExpert ⟨0, 1⟩ small) 3 ++ runs (.fetcher small) 7 ++ runs smallExecutor 1

theorem overload_overloadRun :
    Along (program smallGpu).step (fun s o => OverloadServed s ∧ Effects s o)
        (System.init smallGpu fun _ _ => (0 : ℤ)) (overloadRun ++ runs smallExecutor 9) ∧
      OverloadServed (exec (program smallGpu).step (System.init smallGpu fun _ _ => (0 : ℤ))
        (overloadRun ++ runs smallExecutor 9)) :=
  overload_of_served _ _ (by decide +kernel)

/-- The forward of the overload expert raises. -/
theorem overload_stays :
    ¬ OverloadServed (exec (program smallGpu).step smallGpuInit
      (overloadRun ++ [.run smallExecutor { ok := false }] ++ runs smallExecutor 4)) := by
  intro h
  have hpos := h.flag small (by decide +kernel)
  revert hpos
  decide +kernel

end MoeInfinity.Core.Nodes
