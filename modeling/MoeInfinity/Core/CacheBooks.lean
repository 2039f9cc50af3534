import Mathlib.Algebra.BigOperators.Group.Finset.Basic
import MoeInfinity.Core.Overload

/-! # The books of the expert cache

The dispatcher books the experts that it has loaded on a GPU in `cached_experts_`, and the room that
is left in `cache_sizes_`. The task pool moves the same nodes for acquires and prefetches and has no
part in these books.

* `Booked`: the room and the sizes of the booked experts make up the limit, and the booked experts
  are those on the GPU, other than one in the overload slot.
* `booked_of_apart`: this holds in a run in which the pool moves no expert, experts are loaded from
  the host only, the overload flag is not cleared behind the back of a fetcher, and no overload task
  fails.
* `prefetched_unbooked`: a prefetched expert is on the GPU and not in the books. -/

namespace MoeInfinity.Core.Nodes

open MoeInfinity.Lib.Threads MoeInfinity.Lib.Runs

variable {S : Setup}

/-! ### The overload slot -/

/-- The task is for an expert, which is to leave the GPU after it. -/
def ExecArgs.inSlot (e : Expert) (args : ExecArgs) : ℕ :=
  if args.expert = e then args.overload else 0

/-- An expert runs in the overload slot of a GPU, from the push of its task until it has left the
GPU. -/
def DispatchInstr.inSlot (g : Fin S.gpus) (e : Expert) : DispatchInstr S → ℕ
  | .pushExec g' args => if g' = g then args.inSlot e else 0
  | .execute g' args => if g' = g then args.inSlot e else 0
  | .freeExecuted g' out => if g' = g then out.args.inSlot e else 0
  | .unload g' out => if g' = g ∧ out.args.expert = e then 1 else 0
  | _ => 0

def slotTasks (s : System S) (g : Fin S.gpus) (e : Expert) : ℕ :=
  total (ofDispatch (DispatchInstr.inSlot g e))
    (fun sh => codeWeight (ExecArgs.inSlot e) (sh.dispatcher.execQueue g)) s

/-- The fetcher of a GPU has loaded an expert, and is to push its task. -/
def DispatchInstr.isFetched (g : Fin S.gpus) (e : Expert) : DispatchInstr S → Bool
  | .fetched g' args _ => g' = g ∧ args.expert = e
  | _ => false

/-- The expert is in the overload slot: loaded with the flag up, or on its way to be unloaded. -/
def InSlot (s : System S) (g : Fin S.gpus) (e : Expert) : Prop :=
  0 < slotTasks s g e ∨
    (Has s (.fetcher g) (DispatchInstr.isFetched g e) ∧ s.shared.dispatcher.gpuOverload g = true)

instance (s : System S) (g : Fin S.gpus) (e : Expert) : Decidable (InSlot s g e) :=
  inferInstanceAs (Decidable (_ ∨ (_ ∧ _)))

/-- The books of the caches are right. -/
structure Booked (s : System S) : Prop where
  room : ∀ g, s.shared.dispatcher.cacheSizes g +
    ∑ e ∈ s.shared.dispatcher.cachedExperts g,
    S.byteSize (S.node e) = getSparseCacheLimit (fun _ => {}) g
  cached : ∀ g e, e ∈ s.shared.dispatcher.cachedExperts g ↔
    (s.shared.node (S.node e)).device = some g ∧ ¬ InSlot s g e

/-! ### The condition -/

/-- The node that an instruction of the pool moves between the host and a GPU. -/
def PoolInstr.shifts (nodes : NodeMap S) : PoolInstr S → Option ℕ
  | .moveVictim _ v _ => if (nodes v).device.isSome then some v else none
  | .moveDemand task => if (nodes task.node).device.isSome then none else some task.node
  | .movePrefetch task => if (nodes task.node).device.isSome then none else some task.node
  | _ => none

/-- The fetcher of a GPU is between the two reads of the overload flag. -/
def DispatchInstr.isBetween (g : Fin S.gpus) : DispatchInstr S → Bool
  | .fetched g' _ _ => g' = g
  | _ => false

/-- An expert is loaded from the host; the flag does not go down between the two reads of the
fetcher; no overload task fails. -/
def DispatchInstr.apart (s : System S) (c : Choice) : DispatchInstr S → Prop
  | .load _ args _ => (s.shared.node (S.node args.expert)).device = none
  | .clearOverload g _ => s.shared.dispatcher.gpuOverload g = true →
      ¬ Has s (.fetcher g) (DispatchInstr.isBetween g)
  | .execute _ args => args.evict = true → c.ok = true
  | _ => True

instance (s : System S) (c : Choice) (i : DispatchInstr S) : Decidable (i.apart s c) := by
  unfold DispatchInstr.apart
  split <;> infer_instance

/-- Besides, the pool moves no expert. -/
def ApartAt (s : System S) (c : Choice) : Instr S → Prop
  | .pool i => ∀ e, i.shifts s.shared.node ≠ some (S.node e)
  | .dispatch i => i.apart s c

/-- The condition on a step. -/
def BooksApart (s : System S) (o : Op S) : Prop :=
  (program S).AtStep (fun c _ i => ApartAt s c i) s o

/-! ### Instructions -/

theorem PoolInstr.run_device_of_not_shifts {c : Choice} {nodes nodes' : NodeMap S}
    {tasks tasks' : Tasks S} {i : PoolInstr S} {code : List (PoolInstr S)}
    (h : i.run c nodes tasks = some (nodes', tasks', code)) {n : ℕ} (hn : i.shifts nodes ≠ some n) :
    (nodes' n).device = (nodes n).device := by
  by_cases hm : i.moves = some n
  · cases i with
    | moveVictim ev v victims =>
      cases h
      obtain rfl : v = n := Option.some.inj hm
      rw [device_setDevice, if_neg]
      rintro ⟨-, hne⟩
      exact hn (if_pos (Option.isSome_iff_ne_none.mpr (by simpa using hne)))
    | moveDemand task | movePrefetch task =>
      cases h
      obtain rfl : task.node = n := Option.some.inj hm
      rw [device_setDevice, if_neg]
      rintro ⟨-, hne⟩
      exact hn (if_neg (by simpa using hne))
    | _ => cases hm
  · exact i.run_device h hm

/-- **The books** change when an expert is evicted or loaded. -/
theorem DispatchInstr.run_books {c : Choice} {nodes nodes' : NodeMap S} {d d' : Dispatcher S}
    {i : DispatchInstr S} {code : List (DispatchInstr S)}
    (h : i.run c nodes d = some (nodes', d', code)) (hevict : ∀ g args v, i ≠ .evict g args v)
    (hload : ∀ g args own, i ≠ .load g args own) :
    d'.cachedExperts = d.cachedExperts ∧ d'.cacheSizes = d.cacheSizes := by
  cases i with
  | setInputs | setExpectedQueue | notifyPending | waitBlock | uncount | cacheBlock | notifyCache
  | claim | freeFailed | decrement | countDispatch | pushInput | unload | pushExec | fetched
  | freeExecuted | testPending | waitTest | takeOverload | clearOverload =>
    cases h
    exact ⟨rfl, rfl⟩
  | evict g args v => exact absurd rfl (hevict g args v)
  | load g args own => exact absurd rfl (hload g args own)
  | enqueue e g' | enqueueBusy e | awaitIdle g' args | claimed g' args | awaitOverload g' args
  | cacheTest g' args | cacheAsleep g' args | accumulate out | waitAsleep | execute g' args
  | fetch g' args =>
    simp only [run] at h
    split_ifs at h <;> cases h <;> exact ⟨rfl, rfl⟩
  | popInput g' | enqueueRoute e g' | popExec g' =>
    simp only [run] at h
    split at h <;> cases h <;> exact ⟨rfl, rfl⟩
  | findEvict g' args | findAgain g' args retries =>
    simp only [run] at h
    split at h
    · split at h <;> cases h <;> exact ⟨rfl, rfl⟩
    · cases h

/-- What an instruction adds to the tasks of the slot for an expert. -/
def DispatchInstr.slotIn (d : Dispatcher S) (g : Fin S.gpus) (e : Expert) : DispatchInstr S → ℕ
  | .fetched g' args _ => if g' = g ∧ args.expert = e then (d.gpuOverload g).toNat else 0
  | _ => 0

/-- What an instruction removes from them. -/
def DispatchInstr.slotOut (c : Choice) (g : Fin S.gpus) (e : Expert) : DispatchInstr S → ℕ
  | .unload g' out => if g' = g ∧ out.args.expert = e then 1 else 0
  | .execute g' args => if g' = g then (if c.ok then 0 else args.inSlot e) else 0
  | _ => 0

theorem inSlot_of_evict {args : ExecArgs} (h : args.evict = false) (e : Expert) :
    args.inSlot e = 0 := by
  simp [ExecArgs.inSlot, ExecArgs.overload, h]

theorem inSlot_pushExec (d : Dispatcher S) (g g' : Fin S.gpus) (args : ExecArgs) (e : Expert) :
    codeWeight (ExecArgs.inSlot e) ((d.pushExec g' args).execQueue g) =
      codeWeight (ExecArgs.inSlot e) (d.execQueue g) + if g' = g then args.inSlot e else 0 := by
  unfold Dispatcher.pushExec Dispatcher.setExecQueue
  by_cases h : g' = g
  · subst h
    simp
  · simp [Function.update_of_ne (Ne.symm h), h]

theorem inSlot_popExec {d : Dispatcher S} (g : Fin S.gpus) {g' : Fin S.gpus} {args : ExecArgs}
    {rest : List ExecArgs} (h : d.execQueue g' = args :: rest) (e : Expert) :
    codeWeight (ExecArgs.inSlot e) ((d.setExecQueue g' rest).execQueue g) +
      (if g' = g then args.inSlot e else 0) = codeWeight (ExecArgs.inSlot e) (d.execQueue g) := by
  unfold Dispatcher.setExecQueue
  by_cases hg : g' = g
  · subst hg
    simp only [Function.update_self, if_true, h, codeWeight_cons]
    omega
  · simp [Function.update_of_ne (Ne.symm hg), hg]

/-- **The tasks of the slot**: an instruction of the dispatcher. -/
theorem DispatchInstr.run_inSlot {c : Choice} {nodes nodes' : NodeMap S} {d d' : Dispatcher S}
    {i : DispatchInstr S} {code : List (DispatchInstr S)}
    (h : i.run c nodes d = some (nodes', d', code)) (g : Fin S.gpus) (e : Expert) :
    codeWeight (ExecArgs.inSlot e) (d'.execQueue g) + codeWeight (inSlot g e) code +
      i.slotOut c g e = codeWeight (ExecArgs.inSlot e) (d.execQueue g) + i.inSlot g e +
        i.slotIn d g e := by
  cases i with
  | setInputs | setExpectedQueue | notifyPending | waitBlock | uncount | cacheBlock | notifyCache
  | claim | freeFailed | decrement | countDispatch | pushInput | takeOverload | clearOverload =>
    cases h
    rfl
  | unload g' out =>
    cases h
    simp only [codeWeight_cons, codeWeight_nil, inSlot, slotIn, slotOut]
    omega
  | pushExec g' args =>
    cases h
    simp only [inSlot_pushExec, codeWeight_nil, inSlot, slotIn, slotOut]
    omega
  | load g' args own =>
    cases h
    split <;> rfl
  | fetched g' args own =>
    cases h
    by_cases hg : g' = g
    · subst hg
      by_cases he : args.expert = e <;>
        simp [inSlot, slotIn, slotOut, ExecArgs.inSlot, ExecArgs.overload, he]
    · simp [inSlot, slotIn, slotOut, hg]
  | freeExecuted g' out =>
    cases h
    by_cases hg : g' = g <;> by_cases he : out.args.expert = e <;> cases hd : out.args.evict <;>
      simp [inSlot, slotIn, slotOut, ExecArgs.inSlot, ExecArgs.overload, hg, he, hd]
  | testPending | waitTest =>
    cases h
    split <;> rfl
  | enqueue e' g' | enqueueBusy e' | awaitIdle g' args | awaitOverload g' args
  | cacheTest g' args | cacheAsleep g' args | accumulate out | waitAsleep | evict g' args v
  | fetch g' args =>
    simp only [run] at h
    split_ifs at h <;> cases h <;> rfl
  | claimed g' args =>
    simp only [run] at h
    split_ifs at h <;> cases h <;> simp [inSlot, slotIn, slotOut, inSlot_of_evict]
  | execute g' args =>
    simp only [run] at h
    split_ifs at h with hok <;> cases h <;> simp [inSlot, slotIn, slotOut, hok]
  | popInput g' =>
    simp only [run] at h
    split at h <;> cases h
    split <;> rfl
  | enqueueRoute e' g' =>
    simp only [run] at h
    split at h <;> cases h <;> simp [inSlot, slotIn, slotOut, inSlot_of_evict]
  | popExec g' =>
    simp only [run] at h
    split at h
    · cases h
    · next args rest hq =>
      cases h
      have hpop := inSlot_popExec g hq e
      simp only [codeWeight_cons, codeWeight_nil, inSlot, slotIn, slotOut]
      omega
  | findEvict g' args | findAgain g' args retries =>
    simp only [run] at h
    split at h
    · split at h <;> cases h <;> rfl
    · cases h

theorem DispatchInstr.fetched_of_run {c : Choice} {nodes nodes' : NodeMap S} {d d' : Dispatcher S}
    {i : DispatchInstr S} {code : List (DispatchInstr S)}
    (h : i.run c nodes d = some (nodes', d', code)) {g : Fin S.gpus} {e : Expert}
    (hload : ∀ g args own, i ≠ .load g args own) :
    code.any (isFetched g e) = false := by
  cases i with
  | load g args own => exact absurd rfl (hload g args own)
  | setInputs | setExpectedQueue | notifyPending | waitBlock | uncount | cacheBlock | notifyCache
  | claim | freeFailed | decrement | countDispatch | pushInput | unload | pushExec | fetched
  | takeOverload | clearOverload =>
    cases h
    rfl
  | freeExecuted g' out =>
    cases h
    cases hd : out.args.evict <;> simp [isFetched]
  | testPending | waitTest =>
    cases h
    split <;> rfl
  | enqueue e g' | enqueueBusy e | awaitIdle g' args | claimed g' args | awaitOverload g' args
  | cacheTest g' args | cacheAsleep g' args | accumulate out | waitAsleep | execute g' args
  | fetch g' args | evict g' args v =>
    simp only [run] at h
    split_ifs at h <;> cases h <;> rfl
  | popInput g' =>
    simp only [run] at h
    split at h <;> cases h
    split <;> rfl
  | enqueueRoute e g' | popExec g' =>
    simp only [run] at h
    split at h <;> cases h <;> rfl
  | findEvict g' args | findAgain g' args retries =>
    simp only [run] at h
    split at h
    · split at h <;> cases h <;> rfl
    · cases h

/-! ### The invariant -/

/-- The books are right about an expert; if it is in the slot, then it is on the GPU and has one
task. -/
structure BookedAt (s : System S) (e : Expert) : Prop where
  cached : ∀ g, e ∈ s.shared.dispatcher.cachedExperts g ↔
    (s.shared.node (S.node e)).device = some g ∧ ¬ InSlot s g e
  single : ∀ g, slotTasks s g e ≤ 1
  onGpu : ∀ g, 0 < slotTasks s g e → (s.shared.node (S.node e)).device = some g
  fetched : ∀ g, Has s (.fetcher g) (DispatchInstr.isFetched g e) →
    (s.shared.node (S.node e)).device = some g ∧ slotTasks s g e = 0

def RoomLeft (s : System S) : Prop :=
  ∀ g, s.shared.dispatcher.cacheSizes g + ∑ e ∈ s.shared.dispatcher.cachedExperts g,
    S.byteSize (S.node e) = getSparseCacheLimit (fun _ => {}) g

/-- An expert that is not on a GPU has no task in the slot. -/
theorem BookedAt.of_host {s : System S} {e : Expert} (h : BookedAt s e)
    (hd : (s.shared.node (S.node e)).device = none) (g : Fin S.gpus) :
    slotTasks s g e = 0 ∧ ¬ Has s (.fetcher g) (DispatchInstr.isFetched g e) := by
  constructor
  · by_contra hpos
    have hg := h.onGpu g (Nat.pos_of_ne_zero hpos)
    rw [hd] at hg
    cases hg
  · intro hhas
    have hg := (h.fetched g hhas).1
    rw [hd] at hg
    cases hg

/-- Nothing changes that the books of an expert depend on. -/
theorem BookedAt.congr {s s' : System S} {e : Expert} (h : BookedAt s e)
    (hdevice : (s'.shared.node (S.node e)).device = (s.shared.node (S.node e)).device)
    (hcached : ∀ g, e ∈ s'.shared.dispatcher.cachedExperts g ↔
      e ∈ s.shared.dispatcher.cachedExperts g)
    (htasks : ∀ g, slotTasks s' g e = slotTasks s g e)
    (hhas : ∀ g, Has s' (.fetcher g) (DispatchInstr.isFetched g e) ↔
      Has s (.fetcher g) (DispatchInstr.isFetched g e))
    (hflag : ∀ g, s'.shared.dispatcher.gpuOverload g = s.shared.dispatcher.gpuOverload g ∨
      ¬ (Has s (.fetcher g) (DispatchInstr.isFetched g e) ∧
        s.shared.dispatcher.gpuOverload g = true) ∧
        ¬ (Has s (.fetcher g) (DispatchInstr.isFetched g e) ∧
          s'.shared.dispatcher.gpuOverload g = true)) :
    BookedAt s' e := by
  have hslot : ∀ g, InSlot s' g e ↔ InSlot s g e := fun g => by
    unfold InSlot
    rw [htasks, hhas]
    rcases hflag g with hsame | ⟨hbefore, hafter⟩
    · rw [hsame]
    · exact or_congr_right (iff_of_false hafter hbefore)
  refine ⟨fun g => ?_, fun g => ?_, fun g hpos => ?_, fun g hf => ?_⟩
  · rw [hcached, hdevice, hslot]
    exact h.cached g
  · rw [htasks]
    exact h.single g
  · rw [htasks] at hpos
    rw [hdevice]
    exact h.onGpu g hpos
  · rw [hdevice, htasks]
    exact h.fetched g ((hhas g).mp hf)

theorem inSlot_loop (g : Fin S.gpus) (e : Expert) (th : Thread S) (i : Instr S)
    (h : (program S).loop th = some i) : ofDispatch (DispatchInstr.inSlot g e) i = 0 := by
  cases th <;> cases h <;> rfl

section Steps

variable {s : System S} {th : Thread S} {c : Choice} {rest : List (Instr S)}

theorem slotTasks_pool {i : PoolInstr S} (hn : (program S).next s th = some (.pool i, rest))
    (nodes : NodeMap S) (tasks : Tasks S) (is : List (PoolInstr S)) (g : Fin S.gpus) (e : Expert) :
    slotTasks
      (s.ran th (.pool i) rest { s.shared with node := nodes, tasks := tasks } (is.map .pool)) g e =
      slotTasks s g e := by
  have hcode : codeWeight (ofDispatch (DispatchInstr.inSlot g e)) (is.map Instr.pool) = 0 := by
    refine codeWeight_eq_zero _ fun i hi => ?_
    obtain ⟨j, -, rfl⟩ := List.mem_map.mp hi
    rfl
  have hacc :
      slotTasks
        (s.ran th (.pool i) rest { s.shared with node := nodes, tasks := tasks } (is.map .pool)) g
        e + 0 = slotTasks s g e + 0 := total_ran _ _ (inSlot_loop g e) hn (by rw [hcode]; rfl)
  exact hacc

theorem slotTasks_dispatch {i : DispatchInstr S}
    (hn : (program S).next s th = some (.dispatch i, rest)) {nodes : NodeMap S} {d : Dispatcher S}
    {is : List (DispatchInstr S)}
    (hr : i.run c s.shared.node s.shared.dispatcher = some (nodes, d, is)) (g : Fin S.gpus)
    (e : Expert) :
    slotTasks
      (s.ran th (.dispatch i) rest { s.shared with node := nodes, dispatcher := d }
        (is.map .dispatch)) g e + i.slotOut c g e =
        slotTasks s g e + i.slotIn s.shared.dispatcher g e := by
  refine total_ran _ _ (inSlot_loop g e) hn ?_
  rw [ofDispatch_map]
  exact i.run_inSlot hr g e

theorem BookedAt.pool {i : PoolInstr S} (hn : (program S).next s th = some (.pool i, rest))
    {nodes : NodeMap S} {tasks : Tasks S} {is : List (PoolInstr S)}
    (hr : i.run c s.shared.node s.shared.tasks = some (nodes, tasks, is)) {e : Expert}
    (hc : i.shifts s.shared.node ≠ some (S.node e)) (h : BookedAt s e) :
    BookedAt
      (s.ran th (.pool i) rest { s.shared with node := nodes, tasks := tasks } (is.map .pool)) e :=
  h.congr (i.run_device_of_not_shifts hr hc) (fun _ => Iff.rfl)
    (fun g => slotTasks_pool hn nodes tasks is g e) (fun _ => has_ran_iff hn rfl (is_map_pool is))
    fun _ => Or.inl rfl

end Steps

theorem mem_evicted (d : Dispatcher S) (g g' : Fin S.gpus) (v e : Expert) :
    e ∈ (d.evicted g v).cachedExperts g' ↔ e ∈ d.cachedExperts g' ∧ ¬ (g' = g ∧ e = v) := by
  unfold Dispatcher.evicted
  by_cases hg : g' = g
  · subst hg
    simp [and_comm]
  · simp [hg]

theorem mem_entered (d : Dispatcher S) (g g' : Fin S.gpus) (x e : Expert) :
    e ∈ (d.entered g x).cachedExperts g' ↔ e ∈ d.cachedExperts g' ∨ (g' = g ∧ e = x) := by
  unfold Dispatcher.entered
  by_cases hg : g' = g
  · subst hg
    simp [or_comm]
  · simp [hg]

/-! ### Steps of the dispatcher -/

/-- An instruction of the dispatcher leads from one state to another. -/
structure Ran (s s' : System S) (th : Thread S) (c : Choice) (i : DispatchInstr S)
    (nodes : NodeMap S) (d : Dispatcher S) (is : List (DispatchInstr S)) : Prop where
  run : i.run c s.shared.node s.shared.dispatcher = some (nodes, d, is)
  ran : ∃ rest, (program S).next s th = some (.dispatch i, rest) ∧
    s' = s.ran th (.dispatch i) rest { s.shared with node := nodes, dispatcher := d }
      (is.map .dispatch)

section Dispatch

variable {s s' : System S} {th : Thread S} {c : Choice} {i : DispatchInstr S} {nodes : NodeMap S}
  {d : Dispatcher S} {is : List (DispatchInstr S)} {g : Fin S.gpus} {e : Expert}

theorem Ran.node (h : Ran s s' th c i nodes d is) : s'.shared.node = nodes := by
  obtain ⟨rest, -, rfl⟩ := h.ran
  rfl

theorem Ran.dispatcher (h : Ran s s' th c i nodes d is) : s'.shared.dispatcher = d := by
  obtain ⟨rest, -, rfl⟩ := h.ran
  rfl

theorem Ran.slotTasks (h : Ran s s' th c i nodes d is) (g : Fin S.gpus) (e : Expert) :
    slotTasks s' g e + i.slotOut c g e = slotTasks s g e + i.slotIn s.shared.dispatcher g e := by
  obtain ⟨rest, hn, rfl⟩ := h.ran
  exact slotTasks_dispatch hn h.run g e

theorem Ran.fetcher (h : Ran s s' th c i nodes d is) (hs : Staged s) (hi : i.fetches g)
    (hc : ¬ i.isCall) :
    th = .fetcher g := by
  obtain ⟨rest, hn, -⟩ := h.ran
  exact hs.fetcher_of_next hn hi hc

/-- Another fetcher is where it was. -/
theorem Ran.has_of_ne (h : Ran s s' th c i nodes d is) {th' : Thread S} (hne : th' ≠ th)
    {p : DispatchInstr S → Bool} : Has s' th' p ↔ Has s th' p := by
  obtain ⟨rest, -, rfl⟩ := h.ran
  exact has_ran_of_ne hne

theorem Ran.has_before (h : Ran s s' (.fetcher g) c i nodes d is) (hs : Staged s) (ha : Apart s) :
    Has s (.fetcher g) (DispatchInstr.isFetched g e) ↔ i.isFetched g e = true := by
  obtain ⟨rest, hn, -⟩ := h.ran
  exact hs.has_fetcher ha hn fun _ => rfl

theorem Ran.has_after (h : Ran s s' (.fetcher g) c i nodes d is) (hs : Staged s) (ha : Apart s) :
    Has s' (.fetcher g) (DispatchInstr.isFetched g e) ↔
    is.any (DispatchInstr.isFetched g e) = true := by
  obtain ⟨rest, hn, rfl⟩ := h.ran
  exact hs.has_fetcher_ran ha hn _ is

theorem Ran.has_iff (h : Ran s s' th c i nodes d is) (hi : i.isFetched g e = false)
    (hload : ∀ g args own, i ≠ .load g args own) :
    Has s' (.fetcher g) (DispatchInstr.isFetched g e) ↔
    Has s (.fetcher g) (DispatchInstr.isFetched g e) := by
  obtain ⟨rest, hn, rfl⟩ := h.ran
  refine has_ran_iff hn hi ?_
  rw [is_map_dispatch]
  exact DispatchInstr.fetched_of_run h.run hload

/-- An expert is evicted by the fetcher. -/
theorem BookedAt.evict {args : CallArgs S} {v : Expert} (hs : Staged s) (ha : Apart s)
    (hran : Ran s s' th c (.evict g args v) nodes d is) (h : BookedAt s e) : BookedAt s' e := by
  obtain rfl := hran.fetcher hs (g := g) rfl id
  have htasks : ∀ g', slotTasks s' g' e = slotTasks s g' e := fun g' => hran.slotTasks g' e
  have hhas := fun g' => hran.has_iff (g := g') (e := e) rfl (by simp)
  have hnone : ¬ Has s (.fetcher g) (DispatchInstr.isFetched g e) := by
    intro hhas
    cases (hran.has_before hs ha).mp hhas
  have hnode := hran.node
  have hd := hran.dispatcher
  have hr := hran.run
  simp only [DispatchInstr.run] at hr
  split_ifs at hr with hv
  cases hr
  by_cases he : e = v
  · -- the victim has left
    subst he
    obtain ⟨hvg, hvslot⟩ := (h.cached g).mp hv
    have hdevice : (s'.shared.node (S.node e)).device = none := by
      rw [hnode, device_setDevice, if_pos ⟨rfl, by simp [hvg]⟩]
    have hother : ∀ g', (s.shared.node (S.node e)).device = some g' → g' = g := fun g' hg' =>
      Option.some.inj (hg'.symm.trans hvg)
    refine ⟨fun g' => iff_of_false (fun hin => ?_) ?_, fun g' => ?_, fun g' hpos => ?_,
      fun g' hf => ?_⟩
    · rw [hd, mem_evicted] at hin
      exact hin.2 ⟨hother g' ((h.cached g').mp hin.1).1, rfl⟩
    · rintro ⟨hg', -⟩
      cases hdevice.symm.trans hg'
    · rw [htasks]
      exact h.single g'
    · exfalso
      rw [htasks] at hpos
      obtain rfl := hother g' (h.onGpu g' hpos)
      exact hvslot (Or.inl hpos)
    · exfalso
      rw [hhas] at hf
      obtain rfl := hother g' (h.fetched g' hf).1
      exact hnone hf
  · refine h.congr ?_ (fun g' => ?_) htasks hhas fun _ => Or.inl (by rw [hd]; rfl)
    · rw [hnode, device_setDevice_of_ne _ fun heq => he (S.node_injective heq).symm]
    · rw [hd, mem_evicted]
      exact and_iff_left fun hand => he hand.2

/-- An expert is loaded from the host. -/
theorem BookedAt.load {args : CallArgs S} {own : Bool} (hs : Staged s) (ha : Apart s)
    (hran : Ran s s' th c (.load g args own) nodes d is)
    (hhost : (s.shared.node (S.node args.expert)).device = none) (h : BookedAt s e) :
    BookedAt s' e := by
  obtain rfl := hran.fetcher hs (g := g) rfl id
  have htasks : ∀ g', slotTasks s' g' e = slotTasks s g' e := fun g' => hran.slotTasks g' e
  have hothers : ∀ g', g' ≠ g → (Has s' (.fetcher g') (DispatchInstr.isFetched g' e) ↔
      Has s (.fetcher g') (DispatchInstr.isFetched g' e)) :=
        fun g' hg => hran.has_of_ne (by simpa using hg)
  have hself : Has s' (.fetcher g) (DispatchInstr.isFetched g e) ↔ args.expert = e := by
    rw [hran.has_after hs ha]
    cases hran.run
    simp [DispatchInstr.isFetched]
  have hflag : s'.shared.dispatcher.gpuOverload = s.shared.dispatcher.gpuOverload := by
    rw [hran.dispatcher]
    cases hran.run
    split <;> rfl
  have hcached : ∀ g', e ∈ s'.shared.dispatcher.cachedExperts g' ↔
      e ∈ s.shared.dispatcher.cachedExperts g' ∨ s.shared.dispatcher.gpuOverload g = false ∧
      g' = g ∧ e = args.expert := by
    intro g'
    rw [hran.dispatcher]
    cases hran.run
    cases hup : s.shared.dispatcher.gpuOverload g <;> simp [mem_entered]
  have hnode : s'.shared.node = setDevice s.shared.node (S.node args.expert) (some g) := by
    rw [hran.node]
    cases hran.run
    rfl
  by_cases he : args.expert = e
  · -- the expert has arrived
    rw [he] at hhost
    have hdevice : (s'.shared.node (S.node e)).device = some g := by
      rw [hnode, he, device_setDevice, if_pos ⟨rfl, by simp [hhost]⟩]
    have hbefore := h.of_host hhost
    have hout : ∀ g', e ∉ s.shared.dispatcher.cachedExperts g' := by
      intro g' hin
      cases hhost.symm.trans ((h.cached g').mp hin).1
    refine ⟨fun g' => ?_, fun g' => ?_, fun g' hpos => ?_, fun g' hf => ?_⟩
    · rw [hcached, hdevice]
      unfold InSlot
      rw [htasks, (hbefore g').1, hflag]
      by_cases hg : g' = g
      · subst hg
        rw [hself]
        cases hup : s.shared.dispatcher.gpuOverload g' <;> simp [hout g', he]
      · refine iff_of_false (fun hin => ?_) fun hand => hg (Option.some.inj hand.1).symm
        rcases hin with hin | ⟨-, heq, -⟩
        · exact hout g' hin
        · exact hg heq
    · rw [htasks, (hbefore g').1]
      exact Nat.zero_le 1
    · rw [htasks, (hbefore g').1] at hpos
      exact absurd hpos (Nat.lt_irrefl 0)
    · have hg : g' = g := by
        by_contra hg
        exact (hbefore g').2 ((hothers g' hg).mp hf)
      rw [hdevice, htasks, hg]
      exact ⟨rfl, (hbefore g).1⟩
  · refine h.congr ?_ (fun g' => ?_) htasks (fun g' => ?_) fun g' => Or.inl (by rw [hflag])
    · rw [hnode, device_setDevice_of_ne _ fun heq => he (S.node_injective heq)]
    · rw [hcached]
      exact or_iff_left fun hand => he hand.2.2.symm
    · by_cases hg : g' = g
      · subst hg
        rw [hself, hran.has_before hs ha]
        exact iff_of_false he Bool.false_ne_true
      · exact hothers g' hg

/-- The task of a loaded expert is pushed. -/
theorem BookedAt.push {args : CallArgs S} {own : Bool} (hs : Staged s) (ha : Apart s)
    (hran : Ran s s' th c (.fetched g args own) nodes d is) (h : BookedAt s e) : BookedAt s' e := by
  obtain rfl := hran.fetcher hs (g := g) rfl id
  have hself : Has s (.fetcher g) (DispatchInstr.isFetched g e) ↔ args.expert = e := by
    rw [hran.has_before hs ha]
    simp [DispatchInstr.isFetched]
  have hnone : ¬ Has s' (.fetcher g) (DispatchInstr.isFetched g e) := by
    rw [hran.has_after hs ha, DispatchInstr.fetched_of_run hran.run (by simp)]
    exact Bool.false_ne_true
  have hothers : ∀ g', g' ≠ g → (Has s' (.fetcher g') (DispatchInstr.isFetched g' e) ↔
      Has s (.fetcher g') (DispatchInstr.isFetched g' e)) :=
        fun g' hg => hran.has_of_ne (by simpa using hg)
  have hdevice : (s'.shared.node (S.node e)).device = (s.shared.node (S.node e)).device := by
    rw [hran.node]
    exact DispatchInstr.run_device hran.run (by simp [DispatchInstr.moves])
  have hd : s'.shared.dispatcher = s.shared.dispatcher := by
    rw [hran.dispatcher]
    cases hran.run
    rfl
  by_cases he : args.expert = e
  · obtain ⟨hg, hzero⟩ := h.fetched g (hself.mpr he)
    -- the flag is now in the task
    have htask : slotTasks s' g e = (s.shared.dispatcher.gpuOverload g).toNat := by
      have hacc := hran.slotTasks g e
      simp only [DispatchInstr.slotIn, DispatchInstr.slotOut, he, hzero, and_self, if_true] at hacc
      omega
    have hsame : ∀ g', g' ≠ g → slotTasks s' g' e = slotTasks s g' e := by
      intro g' hne
      have hacc := hran.slotTasks g' e
      simp only [DispatchInstr.slotIn, DispatchInstr.slotOut, Ne.symm hne, false_and, if_false]
        at hacc
      exact hacc
    refine ⟨fun g' => ?_, fun g' => ?_, fun g' hpos => ?_, fun g' hf => ?_⟩
    · rw [hd, hdevice]
      refine (h.cached g').trans (and_congr_right fun _ => not_congr ?_)
      unfold InSlot
      by_cases hne : g' = g
      · subst hne
        rw [htask, hzero, hd, iff_true_intro (hself.mpr he), iff_false_intro hnone]
        cases s.shared.dispatcher.gpuOverload g' <;> simp
      · rw [hsame g' hne, hothers g' hne, hd]
    · by_cases hne : g' = g
      · subst hne
        rw [htask]
        exact Bool.toNat_le _
      · rw [hsame g' hne]
        exact h.single g'
    · rw [hdevice]
      by_cases hne : g' = g
      · exact hne ▸ hg
      · rw [hsame g' hne] at hpos
        exact h.onGpu g' hpos
    · exfalso
      by_cases hne : g' = g
      · subst hne
        exact hnone hf
      · have hg' := (h.fetched g' ((hothers g' hne).mp hf)).1
        exact hne (Option.some.inj (hg'.symm.trans hg))
  · refine h.congr hdevice (fun _ => by rw [hd]) (fun g' => ?_) (fun g' => ?_) fun _ =>
      Or.inl (by rw [hd])
    · have hacc := hran.slotTasks g' e
      simp only [DispatchInstr.slotIn, DispatchInstr.slotOut, he, and_false, if_false] at hacc
      exact hacc
    · by_cases hne : g' = g
      · subst hne
        exact iff_of_false hnone fun hf => he (hself.mp hf)
      · exact hothers g' hne

/-- An expert leaves the slot. -/
theorem BookedAt.unload {out : Output S} (hran : Ran s s' th c (.unload g out) nodes d is)
    (h : BookedAt s e) :
    BookedAt s' e := by
  have hhas := fun g' => hran.has_iff (g := g') (e := e) rfl (by simp)
  have hacc := fun g' => hran.slotTasks g' e
  simp only [DispatchInstr.slotIn, DispatchInstr.slotOut] at hacc
  have hd : s'.shared.dispatcher = s.shared.dispatcher := by
    rw [hran.dispatcher]
    cases hran.run
    rfl
  have hnode : s'.shared.node = setDevice s.shared.node (S.node out.args.expert) none := by
    rw [hran.node]
    cases hran.run
    rfl
  by_cases he : out.args.expert = e
  · have hpos : slotTasks s g e = 1 := by
      have hleft := hacc g
      have hle := h.single g
      rw [if_pos ⟨rfl, he⟩] at hleft
      omega
    have hg := h.onGpu g (by omega)
    have hother : ∀ g', (s.shared.node (S.node e)).device = some g' → g' = g := fun g' hg' =>
      Option.some.inj (hg'.symm.trans hg)
    have hdevice : (s'.shared.node (S.node e)).device = none := by
      rw [hnode, he, device_setDevice, if_pos ⟨rfl, by simp [hg]⟩]
    have hzero : ∀ g', slotTasks s' g' e = 0 := by
      intro g'
      have hleft := hacc g'
      by_cases hne : g' = g
      · rw [hne, if_pos ⟨rfl, he⟩] at hleft
        rw [hne]
        omega
      · have hold : slotTasks s g' e = 0 := by
          by_contra hp
          exact hne (hother g' (h.onGpu g' (Nat.pos_of_ne_zero hp)))
        omega
    refine ⟨fun g' => iff_of_false (fun hin => ?_) ?_, fun g' => ?_, fun g' hp => ?_,
      fun g' hf => ?_⟩
    · rw [hd] at hin
      obtain ⟨hdev, hslot⟩ := (h.cached g').mp hin
      obtain rfl := hother g' hdev
      exact hslot (Or.inl (by omega))
    · rintro ⟨hdev, -⟩
      cases hdevice.symm.trans hdev
    · rw [hzero]
      exact Nat.zero_le 1
    · rw [hzero] at hp
      exact absurd hp (Nat.lt_irrefl 0)
    · exfalso
      obtain ⟨hdev, hold⟩ := h.fetched g' ((hhas g').mp hf)
      obtain rfl := hother g' hdev
      omega
  · refine h.congr ?_ (fun _ => by rw [hd]) (fun g' => ?_) hhas fun _ => Or.inl (by rw [hd])
    · rw [hnode, device_setDevice_of_ne _ fun heq => he (S.node_injective heq)]
    · have hleft := hacc g'
      rw [if_neg fun hand => he hand.2] at hleft
      omega

/-- The other instructions keep the books as they are. -/
theorem BookedAt.other (hs : Staged s) (ha : Apart s) (hran : Ran s s' th c i nodes d is)
    (hevict : ∀ g args v, i ≠ .evict g args v) (hload : ∀ g args own, i ≠ .load g args own)
    (hfetched : ∀ g args own, i ≠ .fetched g args own) (hunload : ∀ g out, i ≠ .unload g out)
    (hc : i.apart s c) (h : BookedAt s e) : BookedAt s' e := by
  have hmoves : i.moves = none := by
    cases i with
    | evict g args v => exact absurd rfl (hevict g args v)
    | load g args own => exact absurd rfl (hload g args own)
    | unload g out => exact absurd rfl (hunload g out)
    | _ => rfl
  have hisFetched : ∀ g, i.isFetched g e = false := by
    cases i with
    | fetched g args own => exact absurd rfl (hfetched g args own)
    | _ => exact fun _ => rfl
  have hbooks := i.run_books hran.run hevict hload
  have hhas := fun g' => hran.has_iff (hisFetched g') hload
  refine h.congr ?_ (fun g => ?_) (fun g => ?_) hhas fun g => ?_
  · rw [hran.node]
    exact i.run_device hran.run (by simp [hmoves])
  · rw [hran.dispatcher, hbooks.1]
  · have hin : i.slotIn s.shared.dispatcher g e = 0 := by
      cases i with
      | fetched g args own => exact absurd rfl (hfetched g args own)
      | _ => rfl
    have hout : i.slotOut c g e = 0 := by
      cases i with
      | unload g out => exact absurd rfl (hunload g out)
      | execute g' args =>
        simp only [DispatchInstr.slotOut]
        split_ifs with hg hok
        · rfl
        · exact inSlot_of_evict (Bool.eq_false_iff.mpr fun hev => hok (hc hev)) e
        · rfl
      | _ => rfl
    have hacc := hran.slotTasks g e
    omega
  · rw [hran.dispatcher]
    rcases i.run_gpuOverload hran.run g with ⟨hsame, -⟩ | ⟨-, args, rfl⟩ | ⟨hdown, out, rfl⟩
    · exact Or.inl hsame
    · -- the fetcher that raises the flag has nothing fetched
      obtain rfl := hran.fetcher hs (g := g) rfl id
      have hnone : ¬ Has s (.fetcher g) (DispatchInstr.isFetched g e) := by
        intro hf
        cases (hran.has_before hs ha).mp hf
      exact Or.inr ⟨fun hand => hnone hand.1, fun hand => hnone hand.1⟩
    · refine Or.inr ⟨fun hand => ?_, fun hand => ?_⟩
      · refine hc hand.2 (hand.1.mono fun j hj => ?_)
        cases j with
        | fetched g' args own => exact decide_eq_true (of_decide_eq_true hj).1
        | _ => cases hj
      · rw [hdown] at hand
        cases hand.2

theorem RoomLeft.ran (hran : Ran s s' th c i nodes d is) (hc : i.apart s c) (hb : ∀ e, BookedAt s e)
    (h : RoomLeft s) : RoomLeft s' := by
  intro g'
  have hroom := h g'
  rw [hran.dispatcher]
  cases i with
  | evict g args v =>
    have hr := hran.run
    simp only [DispatchInstr.run] at hr
    split_ifs at hr with hv
    cases hr
    unfold Dispatcher.evicted
    by_cases hg : g' = g
    · subst hg
      simp only [Function.update_self]
      rw [← hroom, ← Finset.add_sum_erase _ _ hv]
      omega
    · simp only [Function.update_of_ne hg]
      exact hroom
  | load g args own =>
    have hout : args.expert ∉ s.shared.dispatcher.cachedExperts g := by
      intro hin
      have hg := (((hb args.expert).cached g).mp hin).1
      rw [show (s.shared.node (S.node args.expert)).device = none from hc] at hg
      cases hg
    cases hran.run
    split
    · exact hroom
    · unfold Dispatcher.entered
      by_cases hg : g' = g
      · subst hg
        simp only [Function.update_self]
        rw [← hroom, Finset.sum_insert hout]
        omega
      · simp only [Function.update_of_ne hg]
        exact hroom
  | _ =>
    obtain ⟨hcached, hsizes⟩ := DispatchInstr.run_books hran.run (by simp) (by simp)
    rw [hcached, hsizes]
    exact hroom

/-- **One step** of the dispatcher keeps the books. -/
theorem BookedAt.ran (hs : Staged s) (ha : Apart s) (hran : Ran s s' th c i nodes d is)
    (hc : i.apart s c) (h : BookedAt s e) : BookedAt s' e := by
  cases i with
  | evict g args v => exact h.evict hs ha hran
  | load g args own => exact h.load hs ha hran hc
  | fetched g args own => exact h.push hs ha hran
  | unload g out => exact h.unload hran
  | _ => exact h.other hs ha hran (by simp) (by simp) (by simp) (by simp) hc

end Dispatch

/-! ### Runs -/

/-- The room and the books of all experts. -/
def Books (s : System S) : Prop := RoomLeft s ∧ ∀ e, BookedAt s e

theorem Books.booked {s : System S} (h : Books s) : Booked s := ⟨h.1, fun g e => (h.2 e).cached g⟩

theorem Books.init (w : ℕ → ℕ → S.Weight) : Books (System.init S w) := by
  have hzero : ∀ g e, slotTasks (System.init S w) g e = 0 := by
    intro g e
    refine total_eq_zero _ _ ?_ fun th i hi => ?_
    · rfl
    · exact absurd hi List.not_mem_nil
  refine ⟨fun g => add_zero _, fun e => ⟨fun g => ?_, fun g => ?_, fun g hpos => ?_, nofun⟩⟩
  · exact iff_of_false (Finset.notMem_empty e) nofun
  · rw [hzero]
    exact Nat.zero_le 1
  · rw [hzero] at hpos
    exact absurd hpos (Nat.lt_irrefl 0)

theorem Books.called {s : System S} (h : Books s) (hnil : s.code .caller = []) (k : Call S) :
    Books ((program S).called s k) := by
  refine ⟨h.1, fun e => (h.2 e).congr rfl (fun _ => Iff.rfl) (fun g => ?_) (fun g => ?_)
    fun _ => Or.inl rfl⟩
  · have hzero : codeWeight (ofDispatch (DispatchInstr.inSlot g e)) k.code = 0 := by
      refine codeWeight_eq_zero _ ?_
      cases k <;> simp [Call.code, ofDispatch, DispatchInstr.inSlot, or_imp, forall_and]
    have hacc := total_called (p := program S) (ofDispatch (DispatchInstr.inSlot g e))
      (fun sh => codeWeight (ExecArgs.inSlot e) (sh.dispatcher.execQueue g)) hnil k
    exact hacc.trans (congrArg _ hzero)
  · rw [Has, called_code_of_ne (p := program S) s (by simp [program]) k, Has]

/-- **The books are right**, in every run in which the pool moves no expert, experts are loaded from
the host only, the flag of a GPU does not go down between the two reads of its fetcher, and no
overload task fails. -/
theorem booked_of_apart (w : ℕ → ℕ → S.Weight) (os : List (Op S))
    (h : Along (program S).step BooksApart (System.init S w) os) :
    Booked (exec (program S).step (System.init S w) os) := by
  have hstep : ∀ (s : System S) (o : Op S), (Books s ∧ Staged s ∧ Acquiring s) → BooksApart s o →
      (Books ((program S).step s o) ∧ Staged ((program S).step s o) ∧
        Acquiring ((program S).step s o)) := by
    refine step_inv (G := BooksApart) ?_ ?_
    · rintro s k ⟨hb, hs, ha⟩ - hnil
      exact ⟨hb.called hnil k, hs.called k, ha.called hnil k⟩
    · rintro s th c i rest sh code ⟨hb, hs, ha⟩ hc hn hr
      have hc : ApartAt s c i := hc.run hn
      refine ⟨?_, hs.ran ha.apart hn hr, ha.ran hn hr⟩
      rcases i with i | i
      · obtain ⟨nodes, tasks, is, hrun, rfl, rfl⟩ := run_pool hr
        exact ⟨hb.1, fun e => (hb.2 e).pool hn hrun (hc e)⟩
      · obtain ⟨nodes, d, is, hrun, rfl, rfl⟩ := run_dispatch hr
        have hran : Ran s _ th c i nodes d is := ⟨hrun, rest, hn, rfl⟩
        exact ⟨hb.1.ran hran hc hb.2, fun e => (hb.2 e).ran hs ha.apart hran hc⟩
  have hinit : Books (System.init S w) ∧ Staged (System.init S w) ∧ Acquiring (System.init S w) :=
    ⟨Books.init w, Staged.init w, Acquiring.init w⟩
  exact (inv_exec hstep os _ hinit h).1.booked

/-- Only the dispatcher runs. -/
def Instr.dispatches (s : System S) (c : Choice) : Instr S → Prop
  | .pool _ => False
  | .dispatch i => i.apart s c

instance (s : System S) (c : Choice) : ∀ i : Instr S, Decidable (i.dispatches s c)
  | .pool _ => inferInstanceAs (Decidable False)
  | .dispatch i => inferInstanceAs (Decidable (i.apart s c))

theorem BooksApart.of_dispatches {s : System S} {o : Op S}
    (h : (program S).AtStep (fun c _ i => i.dispatches s c) s o) : BooksApart s o := by
  refine Program.AtStep.intro fun th c i rest ho hn => ?_
  subst ho
  have hi : i.dispatches s c := h.run hn
  rcases i with i | i
  · exact False.elim hi
  · exact hi

theorem booked_overloadRun :
    Booked (exec (program smallGpu).step (System.init smallGpu fun _ _ => (0 : ℤ))
      (overloadRun ++ runs smallExecutor 9)) :=
  booked_of_apart _ _ (Along.mono (fun _ _ => BooksApart.of_dispatches) (by decide +kernel))

/-- A prefetch of the node of an expert. -/
def prefetchedRun : List (Op oneGpu) := calls (.enqueuePrefetch 1) 3 ++ runs (.worker gpu) 7

theorem prefetched_unbooked :
    ¬ ∀ os : List (Op oneGpu), Booked (exec (program oneGpu).step oneGpuInit os) := by
  intro h
  have hcached := (h prefetchedRun).cached gpu ⟨0, 1⟩
  revert hcached
  decide +kernel

end MoeInfinity.Core.Nodes
