import Mathlib.Algebra.BigOperators.Group.Finset.Basic
import MoeInfinity.Core.Overload
import MoeInfinity.Core.Wakeups

/-! # A local dispatch (`distributed/expert_executor.py`)

`dispatch_local` hands the tokens of a layer to the dispatcher and enqueues every expert that has a
token; `wait_dispatch_local` waits until nothing is pending and returns the final hidden states. The
experts go through the queues in any order, and each adds its rows at the end.

* `share`: what an expert adds to the row of a token.
* `jobs`: what is to be done for the experts, wherever their tasks are. A job is executed,
  accumulated and counted once each, so what has been added and what is to come make up the sum
  (`Running`).
* `dispatch_sums`: when the wait returns, every expert with a token was executed and accumulated
  once, and each row is the weighted sum over its experts. -/

namespace MoeInfinity.Core.Nodes

open MoeInfinity.Lib.Threads MoeInfinity.Lib.Runs

variable {S : Setup}

/-! ### The rows that an expert adds -/

section Rows

variable {α β : Type*}

theorem maskedRows_map (n : ℕ) (mask : ℕ → Bool) (f : ℕ → α) :
    maskedRows ((List.range n).map f) ((List.range n).map mask) =
      ((List.range n).filter mask).map f := by
  unfold maskedRows
  rw [List.zip_map', List.filter_map, List.map_map]
  rfl

theorem tokenIndices_map (n : ℕ) (mask : ℕ → Bool) :
    tokenIndices ((List.range n).map mask) = (List.range n).filter mask := by
  unfold tokenIndices
  have h := maskedRows_map n mask id
  rw [List.map_id, List.map_id] at h
  rwa [List.length_map, List.length_range]

theorem getElem?_indexAdd [Add α] (v : ℕ → α) : ∀ (l : List ℕ) (rows : List α) (t : ℕ), l.Nodup →
    (indexAdd rows (l.map fun i => (i, v i)))[t]? = rows[t]?.map fun row => if t ∈ l
    then row + v t else row
  | [], rows, t, _ => by simp [indexAdd]
  | i :: l, rows, t, hl => by
    obtain ⟨hi, hl⟩ := List.nodup_cons.mp hl
    have ih := getElem?_indexAdd v l (rows.modify i (· + v i)) t hl
    have hcons : indexAdd rows ((i :: l).map fun i => (i, v i)) =
        indexAdd (rows.modify i (· + v i)) (l.map fun i => (i, v i)) := rfl
    rw [hcons, ih, List.getElem?_modify]
    by_cases ht : i = t
    · subst ht
      cases rows[i]? <;> simp [hi]
    · cases rows[t]? <;> simp [ht, Ne.symm ht]

theorem length_indexAdd [Add α] (added : List (ℕ × α)) : ∀ rows : List α,
    (indexAdd rows added).length = rows.length := by
  induction added with
  | nil => exact fun _ => rfl
  | cons x added ih =>
    intro rows
    exact (ih (rows.modify x.1 (· + x.2))).trans (List.length_modify ..)

end Rows

/-- What an expert adds to the row of a token. -/
def share (routerMask : ℕ → ℕ → Bool) (routerWeight : ℕ → ℕ → S.Weight) (e : Expert) (t : ℕ)
    (row : S.Row) : S.Row :=
  if routerMask t e.expertIdx then routerWeight t e.expertIdx • S.forward e row else 0

theorem length_accumulate (d : Dispatcher S) (out : Output S) :
    (d.accumulate out).length = d.finalHiddenStates.length := by
  unfold Dispatcher.accumulate
  split
  · exact List.length_mapIdx
  · exact length_indexAdd _ _

/-- **Accumulation**: an expert with a token adds its share to every row. A single token is not
masked, but then the token is the expert's. -/
theorem getElem?_accumulate (d : Dispatcher S) (args : ExecArgs)
    (hrouted : ∃ t < d.hiddenStates.length, d.routerMask t args.expert.expertIdx = true)
    {t : ℕ} {row : S.Row} (ht : d.hiddenStates[t]? = some row) :
    (d.accumulate (d.output args))[t]? =
      d.finalHiddenStates[t]?.map (· + share d.routerMask d.routerWeight args.expert t row) := by
  obtain ⟨hlt, hrow⟩ := List.getElem?_eq_some_iff.mp ht
  unfold Dispatcher.accumulate
  by_cases hone : d.hiddenStates.length = 1
  · -- the only token
    obtain ⟨t', ht', hmask⟩ := hrouted
    have htt : t' = t := by omega
    subst htt
    rw [if_pos hone, List.getElem?_mapIdx]
    have hout : (d.output args).rows[t']? = some (S.forward args.expert row) := by
      unfold Dispatcher.output Dispatcher.input
      rw [if_pos hone, List.getElem?_map, ht]
      rfl
    rw [hout]
    simp [share, hmask]
  · rw [if_neg hone]
    have hx : d.hiddenStates = (List.range d.hiddenStates.length).map fun t =>
      d.hiddenStates.getD t 0 := by
      refine List.ext_getElem (by simp) fun i hi hi' => ?_
      simp [hi]
    have hrows : (d.output args).rows = ((List.range d.hiddenStates.length).filter
        fun t => d.routerMask t args.expert.expertIdx).map
          fun t => S.forward args.expert (d.hiddenStates.getD t 0) := by
      unfold Dispatcher.output Dispatcher.input
      rw [if_neg hone]
      have hmasked :=
        maskedRows_map d.hiddenStates.length (fun t => d.routerMask t args.expert.expertIdx)
          fun t => d.hiddenStates.getD t 0
      rw [← hx] at hmasked
      rw [Dispatcher.tokenMask, hmasked, List.map_map]
      rfl
    have hindices : tokenIndices (d.output args).tokenMask =
        (List.range d.hiddenStates.length).filter fun t => d.routerMask t args.expert.expertIdx :=
        tokenIndices_map _ _
    rw [hindices, hrows, args_output, List.zipWith_map_right, List.zipWith_self, List.zip_map_right,
      List.zip_eq_zipWith, List.zipWith_self, List.map_map]
    refine (getElem?_indexAdd _ _ _ t (List.nodup_range.filter _)).trans ?_
    congr 1
    funext final
    have hget : d.hiddenStates.getD t 0 = row := by rw [List.getD_eq_getElem?_getD, ht]; rfl
    have hin : t ∈
        (List.range d.hiddenStates.length).filter (fun t => d.routerMask t args.expert.expertIdx) ↔
        d.routerMask t args.expert.expertIdx = true := by
      rw [List.mem_filter]
      exact and_iff_right (List.mem_range.mpr hlt)
    by_cases hmask : d.routerMask t args.expert.expertIdx = true
    · rw [if_pos (hin.mpr hmask), share, if_pos hmask, hget]
    · rw [if_neg (mt hin.mp hmask), share, if_neg hmask, add_zero]

/-! ### Jobs -/

/-- What is still to be done for an expert, or to be counted. -/
inductive Job where
  | execute (e : Expert)
  | accumulate (e : Expert)
  | count
deriving DecidableEq

/-- The job that an instruction has in hand. -/
def DispatchInstr.job : DispatchInstr S → Option Job
  | .enqueue e _ => some (.execute e)
  | .enqueueBusy e => some (.execute e)
  | .countDispatch e => some (.execute e)
  | .enqueueRoute e _ => some (.execute e)
  | .pushInput args => some (.execute args.expert)
  | .pushExec _ args => some (.execute args.expert)
  | .awaitIdle _ args => some (.execute args.expert)
  | .claim _ args => some (.execute args.expert)
  | .uncount _ args => some (.execute args.expert)
  | .claimed _ args => some (.execute args.expert)
  | .fetch _ args => some (.execute args.expert)
  | .awaitOverload _ args => some (.execute args.expert)
  | .takeOverload _ args => some (.execute args.expert)
  | .findEvict _ args => some (.execute args.expert)
  | .cacheTest _ args => some (.execute args.expert)
  | .cacheBlock _ args => some (.execute args.expert)
  | .cacheAsleep _ args => some (.execute args.expert)
  | .findAgain _ args _ => some (.execute args.expert)
  | .evict _ args _ => some (.execute args.expert)
  | .load _ args _ => some (.execute args.expert)
  | .fetched _ args _ => some (.execute args.expert)
  | .execute _ args => some (.execute args.expert)
  | .freeExecuted _ out => some (.accumulate out.args.expert)
  | .unload _ out => some (.accumulate out.args.expert)
  | .clearOverload _ out => some (.accumulate out.args.expert)
  | .notifyCache _ out => some (.accumulate out.args.expert)
  | .accumulate out => some (.accumulate out.args.expert)
  | .freeFailed _ _ => some .count
  | .decrement => some .count
  | _ => none

/-- The job after the instruction. -/
def DispatchInstr.jobAfter : DispatchInstr S → Option Job
  | .execute _ args => some (.accumulate args.expert)
  | .accumulate _ => some .count
  | .decrement => none
  | i => i.job

section Jobs

variable {A : Type*} [AddCommMonoid A] (f : Job → A)

def weigh (j : Option Job) : A := j.elim 0 f

@[simp] theorem weigh_none : weigh f none = 0 := rfl

@[simp] theorem weigh_some (j : Job) : weigh f (some j) = f j := rfl

def Instr.jobWeight : Instr S → A
  | .pool _ => 0
  | .dispatch i => weigh f i.job

/-- The jobs in the queues. -/
def Dispatcher.jobs (d : Dispatcher S) : A :=
  sumWeight (fun args : CallArgs S => f (.execute args.expert)) d.inputQueue +
    sumWeight (fun args : ExecArgs => f (.execute args.expert)) d.execQueue

/-- All jobs. -/
def jobs (s : System S) : A := total (Instr.jobWeight f) (fun sh => sh.dispatcher.jobs f) s

theorem jobs_pushInput (d : Dispatcher S) (args : CallArgs S) :
    (d.pushInput args).jobs f = d.jobs f + f (.execute args.expert) := by
  unfold Dispatcher.jobs Dispatcher.pushInput Dispatcher.setInputQueue
  rw [sumWeight_push]
  exact add_right_comm _ _ _

theorem jobs_pushExec (d : Dispatcher S) (g : Fin S.gpus) (args : ExecArgs) :
    (d.pushExec g args).jobs f = d.jobs f + f (.execute args.expert) := by
  unfold Dispatcher.jobs Dispatcher.pushExec Dispatcher.setExecQueue
  rw [sumWeight_push]
  exact (add_assoc _ _ _).symm

theorem jobs_popInput {d : Dispatcher S} {g : Fin S.gpus} {args : CallArgs S}
    {rest : List (CallArgs S)} (h : d.inputQueue g = args :: rest) :
    (d.setInputQueue g rest).jobs f + f (.execute args.expert) = d.jobs f := by
  unfold Dispatcher.jobs Dispatcher.setInputQueue
  rw [add_right_comm]
  exact congrArg (· + _) (sumWeight_pop (fun args : CallArgs S => f (.execute args.expert)) h)

theorem jobs_popExec {d : Dispatcher S} {g : Fin S.gpus} {args : ExecArgs} {rest : List ExecArgs}
    (h : d.execQueue g = args :: rest) :
    (d.setExecQueue g rest).jobs f + f (.execute args.expert) = d.jobs f := by
  unfold Dispatcher.jobs Dispatcher.setExecQueue
  rw [add_assoc]
  exact congrArg (_ + ·) (sumWeight_pop (fun args : ExecArgs => f (.execute args.expert)) h)

/-- **Jobs**: an instruction passes its job on, unless it finishes a part of it. -/
theorem DispatchInstr.run_jobs {c : Choice} {nodes nodes' : NodeMap S} {d d' : Dispatcher S}
    {i : DispatchInstr S} {code : List (DispatchInstr S)}
    (h : i.run c nodes d = some (nodes', d', code)) (hok : c.ok = true) :
    d'.jobs f + codeWeight (fun j => weigh f (job j)) code = d.jobs f + weigh f i.jobAfter := by
  cases i with
  | setInputs | setExpectedQueue | notifyPending | waitBlock | uncount | cacheBlock | notifyCache
  | claim | freeFailed | decrement | countDispatch | unload | takeOverload | clearOverload =>
    cases h
    simp [job, jobAfter, Dispatcher.jobs, Dispatcher.setInputs, Dispatcher.setPending,
      Dispatcher.setWaiter, Dispatcher.sleep, Dispatcher.setOverload]
  | pushInput args =>
    cases h
    simp [job, jobAfter, jobs_pushInput]
  | pushExec g args =>
    cases h
    simp [job, jobAfter, jobs_pushExec]
  | load g args own =>
    cases h
    split <;> simp [job, jobAfter, Dispatcher.jobs, Dispatcher.entered]
  | fetched g args own =>
    cases h
    simp [job, jobAfter]
  | freeExecuted g out =>
    cases h
    split <;> simp [job, jobAfter]
  | testPending | waitTest =>
    cases h
    split <;> simp [job, jobAfter]
  | enqueue e g | enqueueBusy e | awaitIdle g args | claimed g args | awaitOverload g args
  | cacheTest g args | fetch g args =>
    simp only [run] at h
    split_ifs at h <;> cases h <;> simp [job, jobAfter]
  | cacheAsleep g args | waitAsleep | evict g args v =>
    simp only [run] at h
    split_ifs at h
    cases h
    simp [job, jobAfter, Dispatcher.jobs, Dispatcher.setWaiter, Dispatcher.sleep,
      Dispatcher.evicted]
  | execute g args | accumulate out =>
    simp only [run, hok, if_true] at h
    cases h
    simp [job, jobAfter, Dispatcher.jobs, Dispatcher.setFinal]
  | popInput g =>
    simp only [run] at h
    split at h
    · cases h
    · next args rest hq =>
      cases h
      have hpop := jobs_popInput f hq
      cases hw : args.waitForPrefetch <;> simp [jobAfter, job, hpop]
  | popExec g =>
    simp only [run] at h
    split at h
    · cases h
    · next args rest hq =>
      cases h
      have hpop := jobs_popExec f hq
      simp [jobAfter, job, hpop]
  | enqueueRoute e g =>
    simp only [run] at h
    split at h <;> cases h <;> simp [job, jobAfter]
  | findEvict g args | findAgain g args retries =>
    simp only [run] at h
    split at h
    · split at h <;> cases h <;> simp [job, jobAfter]
    · cases h

theorem jobWeight_loop (th : Thread S) (i : Instr S) (h : (program S).loop th = some i) :
    i.jobWeight f = 0 := by
  cases th <;> cases h <;> rfl

section Steps

variable {s : System S} {th : Thread S} {c : Choice} {rest : List (Instr S)}

theorem jobs_pool {i : PoolInstr S} (hn : (program S).next s th = some (.pool i, rest))
    (nodes : NodeMap S) (tasks : Tasks S) (is : List (PoolInstr S)) :
    jobs f (s.ran th (.pool i) rest { s.shared with node := nodes, tasks := tasks } (is.map .pool))
      = jobs f s := by
  have hcode : codeWeight (Instr.jobWeight f) (is.map Instr.pool) = 0 := by
    refine codeWeight_eq_zero _ fun i hi => ?_
    obtain ⟨j, -, rfl⟩ := List.mem_map.mp hi
    rfl
  have hacc :
      jobs f (s.ran th (.pool i) rest { s.shared with node := nodes, tasks := tasks }
        (is.map .pool)) + 0 = jobs f s + 0 :=
        total_ran _ _ (jobWeight_loop f) hn (by rw [hcode]; rfl)
  rwa [add_zero, add_zero] at hacc

/-- **Accounting**: the jobs after a step of the dispatcher. -/
theorem jobs_ran {i : DispatchInstr S} (hn : (program S).next s th = some (.dispatch i, rest))
    {nodes : NodeMap S} {d : Dispatcher S} {is : List (DispatchInstr S)}
    (hr : i.run c s.shared.node s.shared.dispatcher = some (nodes, d, is))
    (hok : c.ok = true) {out : A} (hout : weigh f i.jobAfter + out = weigh f i.job) :
    jobs f (s.ran th (.dispatch i) rest { s.shared with node := nodes, dispatcher := d }
      (is.map .dispatch)) + out = jobs f s := by
  have hcode : codeWeight (Instr.jobWeight f) (is.map Instr.dispatch) =
      codeWeight (fun j => weigh f (DispatchInstr.job j)) is := by
    rw [codeWeight, List.map_map]
    rfl
  have hacc : jobs f (s.ran th (.dispatch i) rest { s.shared with node := nodes, dispatcher := d }
      (is.map .dispatch)) + out = jobs f s + 0 := by
    refine total_ran _ _ (jobWeight_loop f) hn ?_
    rw [hcode, i.run_jobs f hr hok, add_assoc, hout, add_zero]
    rfl
  rwa [add_zero] at hacc

end Steps

/-- Without jobs to count there are none. -/
theorem jobs_eq_zero {s : System S} (h : jobs (fun _ => 1) s = 0) : jobs f s = 0 := by
  have hqueues : ∀ {τ ι : Type} [Fintype τ] (w : ι → A) (q : τ → List ι),
      sumWeight (fun _ => 1) q = 0 → sumWeight w q = 0 := by
    intro τ ι _ w q hq
    refine Finset.sum_eq_zero fun th _ => ?_
    have hth : codeWeight (fun _ => 1) (q th) = 0 :=
      Finset.sum_eq_zero_iff.mp hq th (Finset.mem_univ th)
    refine codeWeight_eq_zero w fun i hi => ?_
    have hle := le_codeWeight (fun _ : ι => 1) hi
    omega
  have hsplit : sumWeight (fun _ : CallArgs S => 1) s.shared.dispatcher.inputQueue +
      sumWeight (fun _ : ExecArgs => 1) s.shared.dispatcher.execQueue +
        sumWeight (Instr.jobWeight fun _ => 1) s.code = 0 := h
  have hd : s.shared.dispatcher.jobs f = 0 := by
    unfold Dispatcher.jobs
    rw [hqueues _ s.shared.dispatcher.inputQueue (by omega),
      hqueues _ s.shared.dispatcher.execQueue (by omega), add_zero]
  have hcode : sumWeight (Instr.jobWeight f) s.code = 0 := by
    have hzero : sumWeight (Instr.jobWeight fun _ => 1) s.code = 0 := by omega
    refine Finset.sum_eq_zero fun th _ => codeWeight_eq_zero _ fun i hi => ?_
    have hth : codeWeight (Instr.jobWeight fun _ => 1) (s.code th) = 0 :=
      Finset.sum_eq_zero_iff.mp hzero th (Finset.mem_univ th)
    have hle := le_codeWeight (Instr.jobWeight fun _ => 1) hi
    rcases i with i | i
    · rfl
    · cases hjob : i.job with
      | none => exact congrArg (weigh f) hjob
      | some j =>
        have hone : Instr.jobWeight (fun _ => 1) (.dispatch i : Instr S) = 1 :=
          congrArg (weigh fun _ => 1) hjob
        omega
  exact (congrArg₂ (· + ·) hd hcode).trans (add_zero 0)

end Jobs

/-! ### The dispatch of a layer -/

/-- The arguments of `dispatch_local`. -/
structure Batch (S : Setup) where
  layerId : ℕ
  hiddenStates : List S.Row
  numExpert : ℕ
  routerMask : ℕ → ℕ → Bool
  routerWeights : ℕ → ℕ → S.Weight

def Batch.expertCount (b : Batch S) (expertId : ℕ) : ℕ :=
  (List.range b.hiddenStates.length).countP fun t => b.routerMask t expertId

/-- The experts that have a token. -/
def Batch.expertList (b : Batch S) : List ℕ :=
  (List.range b.numExpert).filter fun expertId => 0 < b.expertCount expertId

/-- `expert_id % total_gpus`. -/
def gpuId (expertId : ℕ) : Fin S.gpus := ⟨expertId % S.gpus, Nat.mod_lt _ (S.defaultDevice 0).pos⟩

def Batch.dispatchLocal (b : Batch S) : List (Call S) :=
  .setInputs b.hiddenStates b.routerMask b.routerWeights :: .setExpectedQueue b.expertList.length ::
    b.expertList.map fun expertId => .enqueueExpert ⟨b.layerId, expertId⟩ (gpuId expertId)

def waitDispatchLocal : List (Call S) := [.waitHiddenStates]

/-- Nothing is queued, and no thread is at work. -/
structure Settled (s : System S) : Prop where
  inputQueue : ∀ g, s.shared.dispatcher.inputQueue g = []
  execQueue : ∀ g, s.shared.dispatcher.execQueue g = []
  code : ∀ th, s.code th = []

/-- The caller is to run `dispatch_local` and then `wait_dispatch_local`; what is run from now on is
recorded. -/
def dispatching (s : System S) (b : Batch S) : System S where
  shared := s.shared
  code := Function.update s.code .caller ((b.dispatchLocal ++ waitDispatchLocal).flatMap Call.code)
  log := []

def Batch.experts (b : Batch S) : List Expert :=
  b.expertList.map fun expertId => ⟨b.layerId, expertId⟩

/-- The expert has a token. -/
def Batch.Routed (b : Batch S) (e : Expert) : Prop :=
  e.layerIdx = b.layerId ∧ e.expertIdx < b.numExpert ∧
    ∃ t < b.hiddenStates.length, b.routerMask t e.expertIdx = true

theorem Batch.mem_expertList {b : Batch S} {expertId : ℕ} : expertId ∈ b.expertList ↔
    expertId < b.numExpert ∧ ∃ t < b.hiddenStates.length, b.routerMask t expertId = true := by
  unfold Batch.expertList Batch.expertCount
  simp [List.countP_pos_iff]

theorem Batch.mem_experts {b : Batch S} {e : Expert} : e ∈ b.experts ↔ b.Routed e := by
  unfold Batch.experts Batch.Routed
  rw [List.mem_map]
  constructor
  · rintro ⟨expertId, hin, rfl⟩
    exact ⟨rfl, mem_expertList.mp hin⟩
  · rintro ⟨hlayer, hin⟩
    refine ⟨e.expertIdx, mem_expertList.mpr hin, ?_⟩
    rw [← hlayer]

theorem Batch.nodup_experts (b : Batch S) : b.experts.Nodup := by
  refine (List.nodup_range.filter _).map ?_
  intro j j' h
  cases h
  rfl

/-! ### What has been run -/

def timesRun (p : DispatchInstr S → Bool) (s : System S) : ℕ := s.log.countP fun x => x.2.is p

theorem timesRun_ran (p : DispatchInstr S → Bool) (s : System S) (th : Thread S) (i : Instr S)
    (rest : List (Instr S)) (sh : Shared S) (code : List (Instr S)) :
    timesRun p (s.ran th i rest sh code) = timesRun p s + (i.is p).toNat := by
  unfold timesRun
  rw [show (s.ran th i rest sh code).log = (th, i) :: s.log from rfl, List.countP_cons]
  cases i.is p <;> rfl

def DispatchInstr.isExecute (e : Expert) : DispatchInstr S → Bool
  | .execute _ args => args.expert = e
  | _ => false

def DispatchInstr.isAccumulate (e : Expert) : DispatchInstr S → Bool
  | .accumulate out => out.args.expert = e
  | _ => false

/-! ### Kinds of jobs -/

def toExecute (e : Expert) : Job → ℕ
  | .execute e' => if e' = e then 1 else 0
  | _ => 0

def toAccumulate (e : Expert) : Job → ℕ
  | .execute e' => if e' = e then 1 else 0
  | .accumulate e' => if e' = e then 1 else 0
  | .count => 0

/-- What is still to be added to a row. -/
def Batch.toAdd (b : Batch S) (t : ℕ) (row : S.Row) : Job → S.Row
  | .execute e => share b.routerMask b.routerWeights e t row
  | .accumulate e => share b.routerMask b.routerWeights e t row
  | .count => 0

theorem toExecute_after (i : DispatchInstr S) (e : Expert) :
    weigh (toExecute e) i.jobAfter + (i.isExecute e).toNat = weigh (toExecute e) i.job := by
  cases i with
  | execute g args => by_cases he : args.expert = e <;>
      simp [DispatchInstr.jobAfter, DispatchInstr.job, DispatchInstr.isExecute, toExecute, he]
  | _ => rfl

theorem toAccumulate_after (i : DispatchInstr S) (e : Expert) :
    weigh (toAccumulate e) i.jobAfter + (i.isAccumulate e).toNat =
      weigh (toAccumulate e) i.job := by
  cases i with
  | accumulate out => by_cases he : out.args.expert = e <;>
      simp [DispatchInstr.jobAfter, DispatchInstr.job, DispatchInstr.isAccumulate, toAccumulate, he]
  | _ => rfl

theorem count_after (i : DispatchInstr S) :
    weigh (fun _ => 1) i.jobAfter + i.decrements = weigh (fun _ => 1) i.job := by
  cases i <;> rfl

/-- What an instruction adds to a row. -/
def Batch.adds (b : Batch S) (t : ℕ) (row : S.Row) : DispatchInstr S → S.Row
  | .accumulate out => share b.routerMask b.routerWeights out.args.expert t row
  | _ => 0

theorem toAdd_after (b : Batch S) (t : ℕ) (row : S.Row) (i : DispatchInstr S) :
    weigh (b.toAdd t row) i.jobAfter + b.adds t row i = weigh (b.toAdd t row) i.job := by
  cases i <;> simp [DispatchInstr.jobAfter, DispatchInstr.job, Batch.adds, Batch.toAdd]

/-! ### The data of the dispatch -/

def DispatchInstr.finals (d : Dispatcher S) : DispatchInstr S → List S.Row
  | .accumulate out => d.accumulate out
  | _ => d.finalHiddenStates

/-- The output that an instruction has in hand. -/
def DispatchInstr.output? : DispatchInstr S → Option (Output S)
  | .freeExecuted _ out => some out
  | .unload _ out => some out
  | .clearOverload _ out => some out
  | .notifyCache _ out => some out
  | .accumulate out => some out
  | _ => none

/-- The inputs are the same. -/
def SameInputs (d d' : Dispatcher S) : Prop :=
  d'.hiddenStates = d.hiddenStates ∧ d'.routerMask = d.routerMask ∧ d'.routerWeight = d.routerWeight

theorem SameInputs.output {d d' : Dispatcher S} (h : SameInputs d d') (args : ExecArgs) :
    d'.output args = d.output args := by
  unfold Dispatcher.output Dispatcher.input Dispatcher.tokenMask
  rw [h.1, h.2.1]

/-- **The data**: after the inputs are set, only accumulations change the rows, and only decrements
the counter. -/
theorem DispatchInstr.run_data {c : Choice} {nodes nodes' : NodeMap S} {d d' : Dispatcher S}
    {i : DispatchInstr S} {code : List (DispatchInstr S)}
    (h : i.run c nodes d = some (nodes', d', code)) (hok : c.ok = true)
    (hinputs : ∀ x mask w, i ≠ .setInputs x mask w) (hqueue : ∀ n, i ≠ .setExpectedQueue n) :
    SameInputs d d' ∧ d'.finalHiddenStates = i.finals d ∧ d'.pending = d.pending - i.decrements ∧
      ∀ j ∈ code, ∀ out, j.output? = some out → i.output? = some out ∨
        ∃ args, out = d.output args := by
  have hpending : d.pending = d.pending - ((0 : ℕ) : ℤ) := (Int.sub_zero _).symm
  cases i with
  | setInputs x mask w => exact absurd rfl (hinputs x mask w)
  | setExpectedQueue n => exact absurd rfl (hqueue n)
  | notifyPending | waitBlock | uncount | cacheBlock | notifyCache | claim
  | freeFailed | decrement | countDispatch | pushInput | unload | pushExec | fetched | takeOverload
  | clearOverload =>
    cases h
    refine ⟨⟨rfl, rfl, rfl⟩, rfl,
      by simp [Dispatcher.setPending, DispatchInstr.decrements, Dispatcher.pushInput,
        Dispatcher.pushExec, Dispatcher.setInputQueue, Dispatcher.setExecQueue,
        Dispatcher.setWaiter,
      Dispatcher.sleep, Dispatcher.setOverload], ?_⟩
    simp [output?]
  | load g args own =>
    cases h
    refine ⟨?_, ?_, ?_, by simp [output?]⟩ <;> split <;>
      first | exact ⟨rfl, rfl, rfl⟩ | rfl | exact hpending
  | freeExecuted g out =>
    cases h
    refine ⟨⟨rfl, rfl, rfl⟩, rfl, hpending, ?_⟩
    cases out.args.evict <;> simp [output?]
  | testPending | waitTest =>
    cases h
    refine ⟨⟨rfl, rfl, rfl⟩, rfl, hpending, ?_⟩
    split <;> simp [output?]
  | enqueue e g' | enqueueBusy e | awaitIdle g' args | claimed g' args | awaitOverload g' args
  | cacheTest g' args | cacheAsleep g' args | waitAsleep | fetch g' args | evict g' args v =>
    simp only [run] at h
    split_ifs at h <;> cases h <;> exact ⟨⟨rfl, rfl, rfl⟩, rfl, hpending, by simp [output?]⟩
  | execute g' args =>
    simp only [run, hok, if_true] at h
    cases h
    refine ⟨⟨rfl, rfl, rfl⟩, rfl, hpending, fun j hj out hout => Or.inr ⟨args, ?_⟩⟩
    rw [List.mem_singleton.mp hj] at hout
    exact (Option.some.inj hout).symm
  | accumulate out =>
    simp only [run, hok, if_true] at h
    cases h
    exact ⟨⟨rfl, rfl, rfl⟩, rfl, hpending, by simp [output?]⟩
  | popInput g' =>
    simp only [run] at h
    split at h <;> cases h
    refine ⟨⟨rfl, rfl, rfl⟩, rfl, hpending, ?_⟩
    split <;> simp [output?]
  | enqueueRoute e g' | popExec g' =>
    simp only [run] at h
    split at h <;> cases h <;> exact ⟨⟨rfl, rfl, rfl⟩, rfl, hpending, by simp [output?]⟩
  | findEvict g' args | findAgain g' args retries =>
    simp only [run] at h
    split at h
    · split at h <;> cases h <;> exact ⟨⟨rfl, rfl, rfl⟩, rfl, hpending, by simp [output?]⟩
    · cases h

/-! ### The caller -/

/-- A stage of `Enqueue`. -/
def DispatchInstr.enqueues : DispatchInstr S → Bool
  | .enqueue _ _ => true
  | .enqueueBusy _ => true
  | .countDispatch _ => true
  | .enqueueRoute _ _ => true
  | .pushInput _ => true
  | .pushExec _ _ => true
  | _ => false

theorem DispatchInstr.run_enqueues {c : Choice} {nodes nodes' : NodeMap S} {d d' : Dispatcher S}
    {i : DispatchInstr S} {code : List (DispatchInstr S)}
    (h : i.run c nodes d = some (nodes', d', code)) (hi : i.enqueues = true) :
    ∀ j ∈ code, j.enqueues = true := by
  cases i with
  | countDispatch | pushInput | pushExec =>
    cases h
    simp [enqueues]
  | enqueue e g | enqueueBusy e =>
    simp only [run] at h
    split_ifs at h <;> cases h <;> simp [enqueues]
  | enqueueRoute e g =>
    simp only [run] at h
    split at h <;> cases h <;> simp [enqueues]
  | _ => cases hi

theorem DispatchInstr.output_of_enqueues (i : DispatchInstr S) (h : i.enqueues = true) :
    i.output? = none := by
  cases i <;> first | rfl | cases h

/-- The wait ends when nothing is pending. -/
theorem DispatchInstr.run_isWait {c : Choice} {nodes nodes' : NodeMap S} {d d' : Dispatcher S}
    {i : DispatchInstr S} {code : List (DispatchInstr S)}
    (h : i.run c nodes d = some (nodes', d', code)) (hi : i.isWait = true) :
    (code = [] ∧ d.pending = 0) ∨ ∃ j : DispatchInstr S, code = [j] ∧ j.isWait = true := by
  cases i with
  | waitTest =>
    cases h
    by_cases hp : d.pending = 0
    · exact Or.inl ⟨if_pos hp, hp⟩
    · exact Or.inr ⟨.waitBlock, if_neg hp, rfl⟩
  | waitBlock =>
    cases h
    exact Or.inr ⟨.waitAsleep, rfl, rfl⟩
  | waitAsleep =>
    simp only [run] at h
    split_ifs at h
    cases h
    exact Or.inr ⟨.waitTest, rfl, rfl⟩
  | _ => cases hi

/-- The caller enqueues experts and waits; it has returned only when there are no jobs. -/
def CallerLeft (s : System S) : Prop :=
  (∃ l i, s.code .caller = l ++ [.dispatch i] ∧ i.isWait = true ∧
      ∀ j ∈ l, ∃ k : DispatchInstr S, j = .dispatch k ∧ k.enqueues = true) ∨
    (s.code .caller = [] ∧ jobs (fun _ => 1) s = 0)

section Caller

variable {s : System S} {th : Thread S} {c : Choice} {rest : List (Instr S)}

/-- What the caller runs next. -/
theorem CallerLeft.next (h : CallerLeft s) {i : Instr S}
    (hn : (program S).next s .caller = some (i, rest)) :
    ∃ k : DispatchInstr S, i = .dispatch k ∧ (k.isWait = true ∧ rest = [] ∨ k.enqueues = true ∧
      ∃ l j, rest = l ++ [.dispatch j] ∧ j.isWait = true ∧
        ∀ j ∈ l, ∃ k : DispatchInstr S, j = .dispatch k ∧ k.enqueues = true) := by
  have hcode : s.code .caller = i :: rest := by
    rcases next_eq_some hn with hcode | ⟨-, -, hloop⟩
    · exact hcode
    · cases hloop
  rcases h with ⟨l, j, heq, hj, hl⟩ | ⟨hnil, -⟩
  · rw [hcode] at heq
    cases l with
    | nil =>
      cases heq
      exact ⟨j, rfl, Or.inl ⟨hj, rfl⟩⟩
    | cons x l =>
      cases heq
      obtain ⟨k, rfl, hk⟩ := hl _ List.mem_cons_self
      exact ⟨k, rfl, Or.inr ⟨hk, l, j, rfl, hj, fun y hy => hl y (List.mem_cons_of_mem _ hy)⟩⟩
  · rw [hcode] at hnil
    cases hnil

theorem CallerLeft.pool (h : CallerLeft s) {i : PoolInstr S}
    (hn : (program S).next s th = some (.pool i, rest)) (nodes : NodeMap S) (tasks : Tasks S)
    (is : List (PoolInstr S)) :
    CallerLeft
      (s.ran th (.pool i) rest { s.shared with node := nodes, tasks := tasks } (is.map .pool)) := by
  have hth : Thread.caller ≠ th := by
    rintro rfl
    obtain ⟨k, hk, -⟩ := h.next hn
    cases hk
  unfold CallerLeft
  rw [ran_code_of_ne s hth, jobs_pool _ hn]
  exact h

theorem CallerLeft.ran (h : CallerLeft s)
    (hp : s.shared.dispatcher.pending = (jobs (fun _ => 1) s : ℕ)) {i : DispatchInstr S}
    (hn : (program S).next s th = some (.dispatch i, rest)) {nodes : NodeMap S} {d : Dispatcher S}
    {is : List (DispatchInstr S)}
    (hr : i.run c s.shared.node s.shared.dispatcher = some (nodes, d, is)) (hok : c.ok = true) :
    CallerLeft
      (s.ran th (.dispatch i) rest { s.shared with node := nodes, dispatcher := d }
        (is.map .dispatch)) := by
  have hjobs := jobs_ran (fun _ => 1) hn hr hok (count_after i)
  unfold CallerLeft
  by_cases hth : Thread.caller = th
  · subst hth
    rw [ran_code_self]
    obtain ⟨k, hk, hnext⟩ := h.next hn
    cases hk
    rcases hnext with ⟨hwait, rfl⟩ | ⟨henqueues, l, j, rfl, hj, hl⟩
    · rcases i.run_isWait hr hwait with ⟨rfl, hzero⟩ | ⟨j, rfl, hj⟩
      · refine Or.inr ⟨rfl, ?_⟩
        rw [hp] at hzero
        omega
      · exact Or.inl ⟨[], j, rfl, hj, fun _ hx => absurd hx List.not_mem_nil⟩
    · refine Or.inl ⟨is.map .dispatch ++ l, j, (List.append_assoc ..).symm, hj, fun x hx => ?_⟩
      rcases List.mem_append.mp hx with hx | hx
      · obtain ⟨k, hk, rfl⟩ := List.mem_map.mp hx
        exact ⟨k, rfl, i.run_enqueues hr henqueues k hk⟩
      · exact hl x hx
  · rw [ran_code_of_ne s hth]
    refine h.imp_right fun hreturned => ⟨hreturned.1, ?_⟩
    have hzero := hreturned.2
    omega

/-- Only the beginning of `dispatch_local` sets the inputs and the counter. -/
theorem CallerLeft.keeps_inputs (h : CallerLeft s) (hs : Staged s) {i : DispatchInstr S}
    (hn : (program S).next s th = some (.dispatch i, rest)) :
    (∀ x mask w, i ≠ .setInputs x mask w) ∧ ∀ n, i ≠ .setExpectedQueue n := by
  by_cases hth : th = .caller
  · subst hth
    obtain ⟨k, hk, hnext⟩ := h.next hn
    cases hk
    have hkind : i.isWait = true ∨ i.enqueues = true := hnext.imp And.left And.left
    constructor
    · rintro x mask w rfl
      rcases hkind with hkind | hkind <;> cases hkind
    · rintro n rfl
      rcases hkind with hkind | hkind <;> cases hkind
  · have hruns := hs.runs_next hn
    constructor
    · rintro x mask w rfl
      cases th with
      | caller => exact hth rfl
      | _ => exact hruns.elim
    · rintro n rfl
      cases th with
      | caller => exact hth rfl
      | _ => exact hruns.elim

end Caller

/-! ### The invariant of the dispatch -/

/-- The experts are under way: what was done and what is to be done are what the batch asks for. -/
structure Running (b : Batch S) (s : System S) : Prop where
  inputs : s.shared.dispatcher.hiddenStates = b.hiddenStates ∧
    s.shared.dispatcher.routerMask = b.routerMask ∧
    s.shared.dispatcher.routerWeight = b.routerWeights
  outputs : ∀ th i, .dispatch i ∈ s.code th → ∀ out, i.output? = some out →
    out = s.shared.dispatcher.output out.args
  executed : ∀ e, jobs (toExecute e) s + timesRun (DispatchInstr.isExecute e) s = b.experts.count e
  accumulated : ∀ e, jobs (toAccumulate e) s + timesRun (DispatchInstr.isAccumulate e) s =
    b.experts.count e
  pending : s.shared.dispatcher.pending = (jobs (fun _ => 1) s : ℕ)
  length : s.shared.dispatcher.finalHiddenStates.length = b.hiddenStates.length
  sums : ∀ t row, b.hiddenStates[t]? = some row →
    ∃ final, s.shared.dispatcher.finalHiddenStates[t]? = some final ∧
      final + jobs (b.toAdd t row) s =
        (b.experts.map fun e => share b.routerMask b.routerWeights e t row).sum
  caller : CallerLeft s

section Running

variable {b : Batch S} {s : System S} {th : Thread S} {c : Choice} {rest : List (Instr S)}

theorem Running.pool (h : Running b s) {i : PoolInstr S}
    (hn : (program S).next s th = some (.pool i, rest)) (nodes : NodeMap S) (tasks : Tasks S)
    (is : List (PoolInstr S)) :
    Running b
      (s.ran th (.pool i) rest { s.shared with node := nodes, tasks := tasks } (is.map .pool)) where
  inputs := h.inputs
  outputs := by
    intro th' j hj out hout
    rcases mem_of_mem_ran hn hj with hold | ⟨-, hnew⟩
    · exact h.outputs th' j hold out hout
    · obtain ⟨k, -, hk⟩ := List.mem_map.mp hnew
      cases hk
  executed := fun e => by
    rw [jobs_pool _ hn, timesRun_ran]
    exact h.executed e
  accumulated := fun e => by
    rw [jobs_pool _ hn, timesRun_ran]
    exact h.accumulated e
  pending := by
    rw [jobs_pool _ hn]
    exact h.pending
  length := h.length
  sums := fun t row ht => by
    rw [jobs_pool _ hn]
    exact h.sums t row ht
  caller := h.caller.pool hn nodes tasks is

/-- **One step** of the dispatcher. -/
theorem Running.ran (h : Running b s) (hs : Staged s) {i : DispatchInstr S}
    (hn : (program S).next s th = some (.dispatch i, rest)) {nodes : NodeMap S} {d : Dispatcher S}
    {is : List (DispatchInstr S)}
    (hr : i.run c s.shared.node s.shared.dispatcher = some (nodes, d, is)) (hok : c.ok = true) :
    Running b
      (s.ran th (.dispatch i) rest { s.shared with node := nodes, dispatcher := d }
        (is.map .dispatch)) := by
  obtain ⟨hinputs, hqueue⟩ := h.caller.keeps_inputs hs hn
  obtain ⟨hsame, hfinal, hpending, houtputs⟩ := i.run_data hr hok hinputs hqueue
  have hinputs' : d.hiddenStates = b.hiddenStates ∧ d.routerMask = b.routerMask ∧
      d.routerWeight = b.routerWeights :=
    ⟨hsame.1.trans h.inputs.1, hsame.2.1.trans h.inputs.2.1, hsame.2.2.trans h.inputs.2.2⟩
  have hin : ∀ out, i.output? = some out → out = s.shared.dispatcher.output out.args := by
    intro out hout
    rcases next_eq_some hn with hcode | ⟨-, -, hloop⟩
    · exact h.outputs th i (by rw [hcode]; exact List.mem_cons_self) out hout
    · cases th <;> cases hloop <;> cases hout
  refine ⟨hinputs', ?_, fun e => ?_, fun e => ?_, ?_, ?_, fun t row ht => ?_,
    h.caller.ran h.pending hn hr hok⟩
  · intro th' j hj out hout
    rw [ran_shared, hsame.output]
    rcases mem_of_mem_ran hn hj with hold | ⟨-, hnew⟩
    · exact h.outputs th' j hold out hout
    · obtain ⟨k, hk, heq⟩ := List.mem_map.mp hnew
      cases heq
      rcases houtputs j hk out hout with hout' | ⟨args, rfl⟩
      · exact hin out hout'
      · rfl
  · have hjobs := jobs_ran (toExecute e) hn hr hok (toExecute_after i e)
    have hold := h.executed e
    have hran : Instr.is (DispatchInstr.isExecute e) (.dispatch i) = i.isExecute e := rfl
    rw [timesRun_ran, hran]
    omega
  · have hjobs := jobs_ran (toAccumulate e) hn hr hok (toAccumulate_after i e)
    have hold := h.accumulated e
    have hran : Instr.is (DispatchInstr.isAccumulate e) (.dispatch i) = i.isAccumulate e := rfl
    rw [timesRun_ran, hran]
    omega
  · have hjobs := jobs_ran (fun _ => 1) hn hr hok (count_after i)
    have hold := h.pending
    rw [ran_shared, hpending]
    omega
  · rw [ran_shared, hfinal, ← h.length]
    cases i with
    | accumulate out => exact length_accumulate _ out
    | _ => rfl
  · obtain ⟨final, hget, hsum⟩ := h.sums t row ht
    have hjobs := jobs_ran (b.toAdd t row) hn hr hok (toAdd_after b t row i)
    refine ⟨final + b.adds t row i, ?_, ?_⟩
    · rw [ran_shared, hfinal]
      cases i with
      | accumulate out =>
        -- the expert is one of the batch, so it has a token
        have hmem : .dispatch (.accumulate out) ∈ s.code th := by
          rcases next_eq_some hn with hcode | ⟨-, -, hloop⟩
          · rw [hcode]
            exact List.mem_cons_self
          · cases th <;> cases hloop
        have hone := le_total (Instr.jobWeight (toAccumulate out.args.expert))
          (fun sh => sh.dispatcher.jobs (toAccumulate out.args.expert)) hmem
        have hcount := h.accumulated out.args.expert
        have hweight : Instr.jobWeight (toAccumulate out.args.expert)
            (.dispatch (.accumulate out) : Instr S) = 1 :=
          if_pos rfl
        rw [hweight] at hone
        have hrouted : b.Routed out.args.expert := by
          rw [← Batch.mem_experts, ← List.count_pos_iff]
          unfold jobs at hcount
          omega
        have hout := hin out rfl
        have hadd := getElem?_accumulate s.shared.dispatcher out.args
          (by rw [h.inputs.1, h.inputs.2.1]; exact hrouted.2.2) (by rw [h.inputs.1]; exact ht)
        rw [← hout, hget, h.inputs.2.1, h.inputs.2.2] at hadd
        exact hadd
      | _ => exact hget.trans (congrArg some (add_zero final).symm)
    · rw [← hsum, ← hjobs, add_assoc, add_comm (b.adds t row i)]

end Running

/-! ### The beginning of the dispatch -/

/-- The dispatcher has nothing to do, and has done nothing. -/
structure Idle (s : System S) : Prop where
  inputQueue : ∀ g, s.shared.dispatcher.inputQueue g = []
  execQueue : ∀ g, s.shared.dispatcher.execQueue g = []
  code : ∀ th, th ≠ .caller → ∀ i ∈ s.code th, ∃ j, i = .pool j
  log : ∀ e, timesRun (DispatchInstr.isExecute e) s = 0 ∧
    timesRun (DispatchInstr.isAccumulate e) s = 0

def Batch.enqueueCode (b : Batch S) : List (Instr S) :=
  b.expertList.map fun expertId => .dispatch (.enqueue ⟨b.layerId, expertId⟩ (gpuId expertId))

theorem Batch.code_dispatchLocal (b : Batch S) :
    (b.dispatchLocal ++ waitDispatchLocal).flatMap Call.code =
    .dispatch (.setInputs b.hiddenStates b.routerMask b.routerWeights) ::
      .dispatch (.setExpectedQueue b.expertList.length) ::
        (b.enqueueCode ++ [.dispatch .waitTest]) := by
  rw [Batch.enqueueCode, List.map_eq_flatMap]
  simp [Batch.dispatchLocal, waitDispatchLocal, Call.code, List.flatMap_map]

/-- The inputs are to be set, or the counter, or the experts are under way. -/
def Underway (b : Batch S) (s : System S) : Prop :=
  (Idle s ∧ s.code .caller = (b.dispatchLocal ++ waitDispatchLocal).flatMap Call.code) ∨
    (Idle s ∧ s.code .caller = .dispatch (.setExpectedQueue b.expertList.length) ::
        (b.enqueueCode ++ [.dispatch .waitTest]) ∧
      s.shared.dispatcher.hiddenStates = b.hiddenStates ∧
        s.shared.dispatcher.routerMask = b.routerMask ∧
        s.shared.dispatcher.routerWeight = b.routerWeights ∧
          s.shared.dispatcher.finalHiddenStates = b.hiddenStates.map fun _ => 0) ∨
    Running b s

section Idle

variable {b : Batch S} {s : System S} {th : Thread S} {c : Choice} {i : Instr S}
  {rest : List (Instr S)} {sh : Shared S} {code : List (Instr S)}

/-- Only the task pool runs, apart from the caller. -/
theorem Idle.pool_of_ne (h : Idle s) (hth : th ≠ .caller)
    (hn : (program S).next s th = some (i, rest)) (hr : i.run c s.shared = some (sh, code)) :
    ∃ j, i = .pool j := by
  rcases next_eq_some hn with hcode | ⟨-, -, hloop⟩
  · exact h.code th hth i (by rw [hcode]; exact List.mem_cons_self)
  · cases th with
    | caller => exact absurd rfl hth
    | worker g =>
      cases hloop
      exact ⟨_, rfl⟩
    | fetcher g =>
      cases hloop
      obtain ⟨nodes, d, is, hrun, -, -⟩ := run_dispatch hr
      simp only [DispatchInstr.run, h.inputQueue g] at hrun
      cases hrun
    | executor g t =>
      cases hloop
      obtain ⟨nodes, d, is, hrun, -, -⟩ := run_dispatch hr
      simp only [DispatchInstr.run, h.execQueue g] at hrun
      cases hrun

theorem Idle.ran_pool (h : Idle s) {i : PoolInstr S}
    (hn : (program S).next s th = some (.pool i, rest)) (nodes : NodeMap S) (tasks : Tasks S)
    (is : List (PoolInstr S)) :
    Idle (s.ran th (.pool i) rest { s.shared with node := nodes, tasks := tasks }
      (is.map .pool)) where
  inputQueue := h.inputQueue
  execQueue := h.execQueue
  code := by
    intro th' hth' j hj
    rcases mem_of_mem_ran hn hj with hold | ⟨-, hnew⟩
    · exact h.code th' hth' j hold
    · obtain ⟨k, -, rfl⟩ := List.mem_map.mp hnew
      exact ⟨k, rfl⟩
  log := fun e => by
    rw [timesRun_ran, timesRun_ran]
    exact h.log e

/-- An instruction of the caller that leaves the queues alone. -/
theorem Idle.ran_caller (h : Idle s) (i : DispatchInstr S) {d : Dispatcher S}
    (hin : d.inputQueue = s.shared.dispatcher.inputQueue)
    (hex : d.execQueue = s.shared.dispatcher.execQueue)
    (hi : ∀ e, i.isExecute e = false ∧ i.isAccumulate e = false) :
    Idle (s.ran .caller (.dispatch i) rest { s.shared with dispatcher := d } []) where
  inputQueue := fun g => by rw [ran_shared, hin, h.inputQueue]
  execQueue := fun g => by rw [ran_shared, hex, h.execQueue]
  code := by
    intro th hth j hj
    rw [ran_code_of_ne s hth] at hj
    exact h.code th hth j hj
  log := fun e => by
    rw [timesRun_ran, timesRun_ran]
    simp [Instr.is, hi e, h.log e]

/-- While the dispatcher is idle, all jobs are the caller's. -/
theorem Idle.jobs {A : Type*} [AddCommMonoid A] (h : Idle s) (f : Job → A) :
    jobs f s = codeWeight (Instr.jobWeight f) (s.code .caller) := by
  have hd : s.shared.dispatcher.jobs f = 0 := by
    unfold Dispatcher.jobs sumWeight
    simp only [h.inputQueue, h.execQueue, codeWeight_nil, Finset.sum_const_zero, add_zero]
  have hothers : ∑ th ∈ Finset.univ.erase (.caller : Thread S),
      codeWeight (Instr.jobWeight f) (s.code th) = 0 := by
    refine Finset.sum_eq_zero fun th hth => codeWeight_eq_zero _ fun i hi => ?_
    obtain ⟨j, rfl⟩ := h.code th (Finset.ne_of_mem_erase hth) i hi
    rfl
  unfold Nodes.jobs total
  rw [sumWeight_eq _ s.code .caller, hothers, add_zero]
  exact (congrArg (· + _) hd).trans (zero_add _)

theorem Batch.weight_enqueueCode {A : Type*} [AddCommMonoid A] (b : Batch S) (f : Job → A) :
    codeWeight (Instr.jobWeight f) (b.enqueueCode ++ [.dispatch .waitTest]) =
      (b.experts.map fun e => f (.execute e)).sum := by
  rw [codeWeight_append, codeWeight_cons, codeWeight_nil, add_zero]
  unfold codeWeight Batch.enqueueCode Batch.experts
  rw [List.map_map, List.map_map]
  exact add_zero _

theorem sum_ite_eq_count (l : List Expert) (e : Expert) :
    (l.map fun e' => if e' = e then 1 else 0).sum = l.count e := by
  induction l with
  | nil => rfl
  | cons x l ih =>
    rw [List.map_cons, List.sum_cons, ih, List.count_cons, Nat.add_comm]
    simp

/-- The experts are under way when the counter is set. -/
theorem Idle.running (h : Idle s) (hcode : s.code .caller = b.enqueueCode ++ [.dispatch .waitTest])
    (hinputs : s.shared.dispatcher.hiddenStates = b.hiddenStates ∧
      s.shared.dispatcher.routerMask = b.routerMask ∧
      s.shared.dispatcher.routerWeight = b.routerWeights)
    (hfinal : s.shared.dispatcher.finalHiddenStates = b.hiddenStates.map fun _ => 0)
    (hpending : s.shared.dispatcher.pending = b.expertList.length) : Running b s := by
  have hjobs : ∀ {A : Type} [AddCommMonoid A] (f : Job → A),
      Nodes.jobs f s = (b.experts.map fun e => f (.execute e)).sum := by
    intro A _ f
    rw [h.jobs, hcode, b.weight_enqueueCode]
  have henqueues : ∀ j ∈ b.enqueueCode, ∃ k : DispatchInstr S, j = .dispatch k ∧
      k.enqueues = true := by
    intro j hj
    obtain ⟨expertId, -, rfl⟩ := List.mem_map.mp hj
    exact ⟨_, rfl, rfl⟩
  refine ⟨hinputs, fun th i hi out hout => ?_, fun e => ?_, fun e => ?_, ?_, ?_,
    fun t row ht => ?_, ?_⟩
  · exfalso
    by_cases hth : th = .caller
    · subst hth
      rw [hcode] at hi
      rcases List.mem_append.mp hi with hi | hi
      · obtain ⟨k, hk, hkind⟩ := henqueues _ hi
        cases hk
        rw [i.output_of_enqueues hkind] at hout
        cases hout
      · cases List.mem_singleton.mp hi
        cases hout
    · obtain ⟨j, hj⟩ := h.code th hth _ hi
      cases hj
  · rw [hjobs, (h.log e).1]
    exact sum_ite_eq_count _ e
  · rw [hjobs, (h.log e).2]
    exact sum_ite_eq_count _ e
  · rw [hjobs, hpending]
    simp [Batch.experts, Function.comp_def]
  · rw [hfinal, List.length_map]
  · refine ⟨0, ?_, ?_⟩
    · rw [hfinal, List.getElem?_map, ht]
      rfl
    · rw [hjobs, zero_add]
      rfl
  · exact Or.inl ⟨b.enqueueCode, .waitTest, hcode, rfl, henqueues⟩

/-- **One step** of the dispatch. -/
theorem Underway.ran (h : Underway b s) (hs : Staged s)
    (hn : (program S).next s th = some (i, rest)) (hr : i.run c s.shared = some (sh, code))
    (hok : c.ok = true) : Underway b (s.ran th i rest sh code) := by
  have hcaller : ∀ {j : Instr S} {l : List (Instr S)}, s.code .caller = j :: l → th = .caller →
      i = j ∧ rest = l := by
    rintro j l hcode rfl
    have hnext := (next_of_code (p := program S) hcode).symm.trans hn
    cases hnext
    exact ⟨rfl, rfl⟩
  rcases h with ⟨hidle, hcode⟩ | ⟨hidle, hcode, hx, hmask, hw, hfinal⟩ | hrunning
  · rw [b.code_dispatchLocal] at hcode
    by_cases hth : th = .caller
    · obtain ⟨rfl, rfl⟩ := hcaller hcode hth
      subst hth
      cases hr
      refine Or.inr (Or.inl ⟨hidle.ran_caller (.setInputs ..) rfl rfl fun e => ⟨rfl, rfl⟩, ?_, rfl,
        rfl, rfl, rfl⟩)
      rw [ran_code_self]
      rfl
    · obtain ⟨j, rfl⟩ := hidle.pool_of_ne hth hn hr
      obtain ⟨nodes, tasks, is, -, rfl, rfl⟩ := run_pool hr
      refine Or.inl ⟨hidle.ran_pool hn nodes tasks is, ?_⟩
      rw [ran_code_of_ne s (Ne.symm hth), b.code_dispatchLocal, hcode]
  · by_cases hth : th = .caller
    · obtain ⟨rfl, rfl⟩ := hcaller hcode hth
      subst hth
      cases hr
      have hset : Idle (s.ran .caller (.dispatch (.setExpectedQueue b.expertList.length))
          (b.enqueueCode ++ [.dispatch .waitTest])
          { s.shared with dispatcher := s.shared.dispatcher.setPending b.expertList.length } []) :=
        hidle.ran_caller _ rfl rfl fun e => ⟨rfl, rfl⟩
      refine Or.inr (Or.inr (hset.running ?_ ⟨hx, hmask, hw⟩ hfinal rfl))
      rw [ran_code_self]
      rfl
    · obtain ⟨j, rfl⟩ := hidle.pool_of_ne hth hn hr
      obtain ⟨nodes, tasks, is, -, rfl, rfl⟩ := run_pool hr
      refine Or.inr (Or.inl ⟨hidle.ran_pool hn nodes tasks is, ?_, hx, hmask, hw, hfinal⟩)
      rw [ran_code_of_ne s (Ne.symm hth), hcode]
  · refine Or.inr (Or.inr ?_)
    rcases i with i | i
    · obtain ⟨nodes, tasks, is, -, rfl, rfl⟩ := run_pool hr
      exact hrunning.pool hn nodes tasks is
    · obtain ⟨nodes, d, is, hrun, rfl, rfl⟩ := run_dispatch hr
      exact hrunning.ran hs hn hrun hok

end Idle

/-! ### The sums -/

instance (b : Batch S) (e : Expert) : Decidable (b.Routed e) := by
  unfold Batch.Routed; infer_instance

/-- Each expert with a token was executed and accumulated once, and no other at all; a row is the
weighted sum over the experts of its token. -/
structure Summed (b : Batch S) (s : System S) : Prop where
  executed : ∀ e, timesRun (DispatchInstr.isExecute e) s = if b.Routed e then 1 else 0
  accumulated : ∀ e, timesRun (DispatchInstr.isAccumulate e) s = if b.Routed e then 1 else 0
  rows : s.shared.dispatcher.finalHiddenStates = b.hiddenStates.mapIdx fun t row =>
    ∑ expertId ∈ (Finset.range b.numExpert).filter (fun expertId => b.routerMask t expertId),
      b.routerWeights t expertId • S.forward ⟨b.layerId, expertId⟩ row

theorem Batch.count_experts (b : Batch S) (e : Expert) :
    b.experts.count e = if b.Routed e then 1 else 0 := by
  by_cases he : b.Routed e
  · rw [if_pos he]
    exact List.count_eq_one_of_mem b.nodup_experts (mem_experts.mpr he)
  · rw [if_neg he]
    exact List.count_eq_zero.mpr (mt mem_experts.mp he)

/-- The shares of the experts that have a token are those of the experts of this token. -/
theorem Batch.sum_shares (b : Batch S) {t : ℕ} {row : S.Row} (ht : t < b.hiddenStates.length) :
    (b.experts.map fun e => share b.routerMask b.routerWeights e t row).sum =
      ∑ expertId ∈ (Finset.range b.numExpert).filter (fun expertId => b.routerMask t expertId),
        b.routerWeights t expertId • S.forward ⟨b.layerId, expertId⟩ row := by
  have hnodup : b.expertList.Nodup := List.nodup_range.filter _
  have hfilter : b.expertList.toFinset.filter (fun expertId => b.routerMask t expertId = true) =
      (Finset.range b.numExpert).filter fun expertId => b.routerMask t expertId = true := by
    ext expertId
    rw [Finset.mem_filter, Finset.mem_filter, List.mem_toFinset, Batch.mem_expertList,
      Finset.mem_range]
    constructor
    · rintro ⟨⟨hlt, -⟩, hmask⟩
      exact ⟨hlt, hmask⟩
    · rintro ⟨hlt, hmask⟩
      exact ⟨⟨hlt, t, ht, hmask⟩, hmask⟩
  calc (b.experts.map fun e => share b.routerMask b.routerWeights e t row).sum
      = (b.expertList.map fun expertId => if b.routerMask t expertId then
          b.routerWeights t expertId • S.forward ⟨b.layerId, expertId⟩ row else 0).sum := by
        rw [Batch.experts, List.map_map]
        rfl
    _ = ∑ expertId ∈ b.expertList.toFinset, if b.routerMask t expertId then
          b.routerWeights t expertId • S.forward ⟨b.layerId, expertId⟩ row else 0 :=
        (List.sum_toFinset _ hnodup).symm
    _ = _ := by rw [← Finset.sum_filter, hfilter]

theorem Running.summed {b : Batch S} {s : System S} (h : Running b s) (hnil : s.code .caller = []) :
    Summed b s := by
  have hdone : jobs (fun _ => 1) s = 0 := by
    rcases h.caller with ⟨l, i, hcode, -⟩ | ⟨-, hzero⟩
    · rw [hnil] at hcode
      exact absurd hcode.symm (List.append_ne_nil_of_right_ne_nil l (List.cons_ne_nil _ _))
    · exact hzero
  refine ⟨fun e => ?_, fun e => ?_, List.ext_getElem? fun t => ?_⟩
  · have hexec := h.executed e
    rw [jobs_eq_zero _ hdone, Nat.zero_add] at hexec
    exact hexec.trans (b.count_experts e)
  · have hacc := h.accumulated e
    rw [jobs_eq_zero _ hdone, Nat.zero_add] at hacc
    exact hacc.trans (b.count_experts e)
  · rw [List.getElem?_mapIdx]
    cases ht : b.hiddenStates[t]? with
    | none =>
      have hle := List.getElem?_eq_none_iff.mp ht
      exact List.getElem?_eq_none (by rw [h.length]; exact hle)
    | some row =>
      obtain ⟨final, hget, hsum⟩ := h.sums t row ht
      rw [jobs_eq_zero _ hdone, add_zero, b.sum_shares (List.getElem?_eq_some_iff.mp ht).1] at hsum
      rw [hget, hsum]
      rfl

/-- The steps of threads, one after another. -/
def ranAll (s : System S) (os : List (Thread S × Choice)) : System S :=
  exec (program S).step s (os.map fun o => .run o.1 o.2)

theorem Underway.ranAll {b : Batch S} {s : System S} (h : Underway b s) (hs : Staged s)
    (ha : Apart s) (os : List (Thread S × Choice)) (hok : ∀ o ∈ os, o.2.ok = true) :
    Underway b (ranAll s os) := by
  induction os generalizing s with
  | nil => exact h
  | cons o os ih =>
    have hrest : ∀ o ∈ os, o.2.ok = true := fun o' ho' => hok o' (List.mem_cons_of_mem o ho')
    show Underway b (Nodes.ranAll ((program S).step s (.run o.1 o.2)) os)
    rcases step_cases (program S) s (.run o.1 o.2)
      with hstep | ⟨k, hk, -⟩ | ⟨th, c, i, rest, sh, code, hop, hn, hr, hstep⟩
    · rw [hstep]
      exact ih h hs ha hrest
    · cases hk
    · cases hop
      rw [hstep]
      exact ih (h.ran hs hn hr (hok o List.mem_cons_self)) (hs.ran ha hn hr) (ha.ran hn hr) hrest

/-- **A local dispatch** from any state in which nothing is queued or at work, with any steps of all
threads in which no forward fails: when `wait_dispatch_local` has returned, the rows are the
sums. -/
theorem dispatch_sums (s : System S) (hs : Settled s) (b : Batch S) (os : List (Thread S × Choice))
    (hok : ∀ o ∈ os, o.2.ok = true) (hreturned : (ranAll (dispatching s b) os).code .caller = []) :
    Summed b (ranAll (dispatching s b) os) := by
  have hothers : ∀ th, th ≠ .caller → (dispatching s b).code th = [] := fun th hth =>
    (Function.update_of_ne hth ..).trans (hs.code th)
  have hcaller : (dispatching s b).code .caller =
      (b.dispatchLocal ++ waitDispatchLocal).flatMap Call.code :=
    Function.update_self (Thread.caller : Thread S) _ s.code
  have hdispatch : ∀ i ∈ (dispatching s b).code .caller, ∃ j : DispatchInstr S, i = .dispatch j ∧
      j.isCall := by
    rw [hcaller, b.code_dispatchLocal]
    simp [Batch.enqueueCode, DispatchInstr.isCall, or_imp, forall_and]
  have hidle : Idle (dispatching s b) := by
    refine ⟨hs.inputQueue, hs.execQueue, fun th hth i hi => ?_, fun e => ⟨rfl, rfl⟩⟩
    rw [hothers th hth] at hi
    cases hi
  have hstaged : Staged (dispatching s b) := by
    refine ⟨fun th j hj => ?_, fun th hth _ => ?_⟩
    · by_cases hth : th = .caller
      · subst hth
        obtain ⟨k, hk, hcall⟩ := hdispatch _ hj
        cases hk
        exact hcall
      · rw [hothers th hth] at hj
        cases hj
    · rw [hothers th hth]
      exact Nat.zero_le 1
  have hkind : ∀ i ∈ (dispatching s b).code .caller, i.kind = .dispatch := by
    intro i hi
    obtain ⟨j, rfl, -⟩ := hdispatch i hi
    rfl
  have hapart : Apart (dispatching s b) := by
    refine ⟨fun th i hi => ?_, fun i hi j hj => (hkind i hi).trans (hkind j hj).symm⟩
    by_cases hth : th = .caller
    · subst hth
      rw [hkind i hi]
      intro hkindOf
      cases hkindOf
    · rw [hothers th hth] at hi
      cases hi
  have hunderway :=
    Underway.ranAll (Or.inl ⟨hidle, hcaller⟩ : Underway b (dispatching s b)) hstaged hapart os hok
  rcases hunderway with ⟨-, hcode⟩ | ⟨-, hcode, -⟩ | hrunning
  · rw [hreturned, b.code_dispatchLocal] at hcode
    cases hcode
  · rw [hreturned] at hcode
    cases hcode
  · exact hrunning.summed hreturned

/-! ### A small dispatch -/

/-- A GPU with room for one expert; expert `j` multiplies by `j + 2`. -/
def scalingGpu : Setup := { smallGpu with forward := fun e (v : ℤ) => ((e.expertIdx + 2) * v : ℤ) }

/-- Token `0` has the experts `0` and `1`, token `1` has expert `1`, and nobody has expert `2`. -/
def twoTokens : Batch scalingGpu where
  layerId := 0
  hiddenStates := [(3 : ℤ), (5 : ℤ)]
  numExpert := 3
  routerMask t expertId := expertId = 1 ∨ expertId = 0 ∧ t = 0
  routerWeights _ expertId := (10 ^ expertId : ℤ)

def scalingInit : System scalingGpu := System.init scalingGpu fun _ _ => (0 : ℤ)

theorem settled_init (w : ℕ → ℕ → S.Weight) : Settled (System.init S w) :=
  ⟨fun _ => rfl, fun _ => rfl, fun _ => rfl⟩

def steps (th : Thread S) (n : ℕ) : List (Thread S × Choice) := List.replicate n (th, {})

/-- Expert `0` is executed, then expert `1` in the overload slot; the caller waits. -/
def twoTokensRun : List (Thread scalingGpu × Choice) :=
  steps .caller 8 ++ steps (.fetcher ⟨0, Nat.one_pos⟩) 5 ++
    steps (.executor ⟨0, Nat.one_pos⟩ ⟨0, Nat.one_pos⟩) 7 ++ steps .caller 2 ++
      steps (.fetcher ⟨0, Nat.one_pos⟩) 7 ++
        steps (.executor ⟨0, Nat.one_pos⟩ ⟨0, Nat.one_pos⟩) 10 ++ steps .caller 2

theorem dispatch_sums_twoTokens :
    Summed twoTokens (ranAll (dispatching scalingInit twoTokens) twoTokensRun) :=
  dispatch_sums _ (settled_init _) _ _ (by decide) (List.isEmpty_iff.mp (by decide +kernel))

end MoeInfinity.Core.Nodes
