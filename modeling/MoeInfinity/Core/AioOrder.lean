import MoeInfinity.Core.AioInvariant

/-! # The order of the requests to the file handle

* `Moved`, `moved_next`: what a step does to the requests.
* `requests_linearizable`: the requests take effect one after the other, and a call that has
  returned has taken effect.
* `overtaken_once`: the queues are served in order, and a request of high priority waits for at most
  one of low priority taken after it came. -/

namespace MoeInfinity.Core.AioContext

open Finset MoeInfinity.Lib.Extents MoeInfinity.Lib.Runs MoeInfinity.Lib.Threads
  MoeInfinity.Core.AioHandle

section Invariant

variable {h : ArcherPrioAioHandle} {n : ℕ} {files : Files} {s : State n}

/-! ### Steps -/

/-- What a step does to the requests: one comes, is taken or is complete, or `Schedule` goes on with
the present one or without any. -/
inductive Moved (s s' : State n) : Prop where
  | came (c : Call) (heq : s' = acceptRequest h s c)
  | same (haccepted : s'.accepted = s.accepted) (hserved : s'.served = s.served)
      (hcurrent : s'.phase.current = s.phase.current) (hlow : s'.phase = .low → s.phase = .low ∨
        s.ioQueueHigh = [])
      (hqueues : s'.ioQueueHigh = s.ioQueueHigh)
  | took (r : AioRequest) (haccepted : s'.accepted = s.accepted) (hserved : s'.served = s.served)
      (hidle : s.phase.current = none) (hphase : s'.phase = .enqueuing r 0)
      (hqueue : s.ioQueueHigh = r :: s'.ioQueueHigh ∨
        s.phase = .low ∧ s'.ioQueueHigh = s.ioQueueHigh ∧ s.ioQueueLow = r :: s'.ioQueueLow)
  | completed (r : AioRequest) (hcurrent : s.phase.current = some r) (heq : s' = complete s r)

theorem moved_next {s' : State n} {o : Step n} (hs : next h s o = some s') :
    Moved (h := h) s s' := by
  cases o with
  | accept c => exact .came c (Option.some.inj hs).symm
  | wait id =>
    obtain ⟨-, hs⟩ := Option.ite_none_right_eq_some.mp hs
    obtain rfl := Option.some.inj hs
    exact .same rfl rfl rfl .inl rfl
  | schedule =>
    change schedule h s = some s' at hs
    unfold schedule at hs
    split at hs
    · next hphase =>
      split_ifs at hs
      obtain rfl := Option.some.inj hs
      exact .same rfl rfl (by rw [hphase]; rfl) (fun hlow => by cases hlow) rfl
    · next hphase =>
      split at hs
      · next hempty =>
        obtain rfl := Option.some.inj hs
        exact .same rfl rfl (by rw [hphase]; rfl) (fun _ => .inr hempty) rfl
      · next r rest hqueue =>
        obtain rfl := Option.some.inj hs
        exact .took r rfl rfl (by rw [hphase]; rfl) rfl (.inl hqueue)
    · next hphase =>
      split at hs
      · obtain rfl := Option.some.inj hs
        exact .same rfl rfl (by rw [hphase]; rfl) (fun hlow => by cases hlow) rfl
      · next r rest hqueue =>
        obtain rfl := Option.some.inj hs
        exact .took r rfl rfl (by rw [hphase]; rfl) rfl (.inr ⟨hphase, rfl, hqueue⟩)
    · next r k hphase =>
      split_ifs at hs with hk
      · unfold enqueue at hs
        dsimp only at hs
        split at hs
        · obtain rfl := Option.some.inj hs
          exact .same rfl rfl (by rw [hphase]; rfl) (fun hlow => by cases hlow) rfl
        · cases hs
      · obtain rfl := Option.some.inj hs
        exact .same rfl rfl (by rw [hphase]; rfl) (fun hlow => by cases hlow) rfl
    · next r i hphase =>
      split_ifs at hs with hi
      · obtain ⟨-, hs⟩ := Option.ite_none_right_eq_some.mp hs
        obtain rfl := Option.some.inj hs
        exact .same rfl rfl (by rw [hphase]; rfl) (fun hlow => by cases hlow) rfl
      · exact .completed r (by rw [hphase]; rfl) (Option.some.inj hs).symm
  | work i =>
    change work h s i = some s' at hs
    unfold work at hs
    split at hs
    · split at hs
      · cases hs
      · obtain rfl := Option.some.inj hs
        exact .same rfl rfl rfl .inl rfl
    · split at hs
      · cases hs
      · obtain rfl := Option.some.inj hs
        exact .same rfl rfl rfl .inl rfl
    · obtain rfl := Option.some.inj hs
      exact .same rfl rfl rfl .inl rfl
    · obtain rfl := Option.some.inj hs
      rw [store_eq]
      exact .same rfl rfl rfl .inl rfl
    · obtain rfl := Option.some.inj hs
      exact .same rfl rfl rfl .inl rfl
    · obtain rfl := Option.some.inj hs
      exact .same rfl rfl rfl .inl rfl

theorem accepted_next {s' : State n} {o : Step n} (hs : next h s o = some s') :
    s.accepted <+: s'.accepted := by
  cases moved_next hs with
  | came c heq =>
    rw [heq]
    exact List.prefix_append _ _
  | same haccepted => rw [haccepted]
  | took _ haccepted => rw [haccepted]
  | completed r _ heq =>
    rw [heq]
    exact List.prefix_rfl

/-- What is complete stays in its place. -/
theorem served_run : ∀ {os : List (Step n)} {s s' : State n}, execEnabled (next h) s os = some s' →
    s.served <+: s'.served
  | [], _, _, hrun => by
    obtain rfl := Option.some.inj hrun
    exact List.prefix_rfl
  | o :: os, s, s', hrun => by
    obtain ⟨s₁, hs₁, hrun⟩ := execEnabled_eq_some hrun
    refine List.IsPrefix.trans ?_ (served_run hrun)
    cases moved_next hs₁ with
    | came c heq =>
      rw [heq]
      exact List.prefix_rfl
    | same _ hserved => rw [hserved]
    | took _ _ hserved => rw [hserved]
    | completed r _ heq =>
      rw [heq]
      exact List.prefix_append _ _

/-- How many requests of low priority have been taken. -/
def State.lowTaken (s : State n) : ℕ := (s.taken.filter (!·.call.highPrio)).length

/-- `Schedule` has found no request of high priority, and may take one of low priority. -/
def Phase.slack : Phase → ℕ
  | .low => 1
  | _ => 0

/-- **One step** while a request of high priority waits: `Schedule` takes one of low priority only
if it had looked for one of high priority before. -/
theorem overtaken_step (hi : Inv h files s) {s' : State n} {o : Step n} (hs : next h s o = some s')
    {r : AioRequest} (hr : r ∈ s.accepted) (hr' : r ∈ s'.ioQueueHigh) :
    r ∈ s.ioQueueHigh ∧ s'.lowTaken + s'.phase.slack ≤ s.lowTaken + s.phase.slack := by
  cases moved_next hs with
  | came c heq =>
    subst heq
    refine ⟨?_, le_rfl⟩
    change r ∈ if c.highPrio then s.ioQueueHigh ++ [_] else s.ioQueueHigh at hr'
    split_ifs at hr' with hprio
    · refine (List.mem_append.mp hr').resolve_right fun hnew => ?_
      exact (hi.id_lt hr).ne (congrArg AioRequest.id (List.mem_singleton.mp hnew))
    · exact hr'
  | same haccepted hserved hcurrent hlow hqueues =>
    rw [hqueues] at hr'
    refine ⟨hr', ?_⟩
    unfold State.lowTaken State.taken
    rw [hserved, hcurrent]
    refine Nat.add_le_add_left ?_ _
    cases hphase : s'.phase with
    | low =>
      rcases hlow hphase with hlow | hempty
      · rw [hlow]
      · rw [hempty] at hr'
        cases hr'
    | waiting => exact Nat.zero_le _
    | high => exact Nat.zero_le _
    | enqueuing _ _ => exact Nat.zero_le _
    | joining _ _ => exact Nat.zero_le _
  | took r₁ haccepted hserved hidle hphase hqueue =>
    have htaken : s'.taken = s.taken ++ [r₁] := by
      unfold State.taken
      rw [hserved, hphase, hidle]
      exact congrArg (· ++ [r₁]) (List.append_nil _).symm
    unfold State.lowTaken
    rw [htaken, hphase, List.filter_append]
    rcases hqueue with hqueue | ⟨hlow, hqueue, -⟩
    · have hhigh : r₁.call.highPrio := by
        have hmem : r₁ ∈ s.accepted.filter (·.call.highPrio) := by
          rw [hi.high, hqueue]
          exact List.mem_append_right _ List.mem_cons_self
        exact (List.mem_filter.mp hmem).2
      refine ⟨hqueue ▸ List.mem_cons_of_mem r₁ hr', ?_⟩
      rw [List.filter_cons_of_neg (by simpa using hhigh), List.filter_nil, List.append_nil]
      exact Nat.add_le_add_left (Nat.zero_le _) _
    · refine ⟨hqueue ▸ hr', ?_⟩
      rw [hlow, List.length_append]
      exact Nat.add_le_add_left (List.length_filter_le _ _) _
  | completed r₁ hcurrent heq =>
    subst heq
    refine ⟨hr', ?_⟩
    have htaken : (complete s r₁).taken = s.taken := by
      unfold State.taken
      rw [hcurrent]
      exact List.append_nil _
    unfold State.lowTaken
    rw [htaken]
    exact Nat.add_le_add_left (Nat.zero_le _) _

theorem overtaken_run {r : AioRequest} : ∀ {os : List (Step n)} {s s' : State n}, Inv h files s →
    execEnabled (next h) s os = some s' → r ∈ s.accepted → r ∈ s'.ioQueueHigh →
    s'.lowTaken + s'.phase.slack ≤ s.lowTaken + s.phase.slack ∧ r ∈ s.ioQueueHigh
  | [], _, _, _, hrun, _, hr' => by
    obtain rfl := Option.some.inj hrun
    exact ⟨le_rfl, hr'⟩
  | o :: os, s, s', hi, hrun, hr, hr' => by
    obtain ⟨s₁, hs₁, hrun⟩ := execEnabled_eq_some hrun
    have hr₁ : r ∈ s₁.accepted := (accepted_next hs₁).subset hr
    obtain ⟨hrest, hqueue⟩ := overtaken_run (inv_next s o s₁ hi hs₁) hrun hr₁ hr'
    obtain ⟨hqueue, hstep⟩ := overtaken_step hi hs₁ hr hqueue
    exact ⟨hrest.trans hstep, hqueue⟩

/-- A call returns once its request is complete, or at once if it has no callbacks. -/
theorem Inv.served_of_returned (hi : Inv h files s) {r : AioRequest} (hr : r ∈ s.accepted)
    (hreturned : r.id ∈ s.returned) : r ∈ s.served ∨ r.call.numBytes = 0 := by
  by_contra hnot
  rw [not_or] at hnot
  have hzero := (hi.pending r hr hnot.1).symm.trans (hi.returned r.id hreturned).2
  have hpos : 0 < r.nIocbs h := by
    unfold AioRequest.nIocbs
    rw [lt_numIocbs h.blockSize_pos, Nat.zero_mul]
    exact (Nat.pos_of_ne_zero hnot.2).trans_le (le_alignUp _)
  omega

/-- The call of a callback that has still to be stored has not returned. -/
theorem Inv.not_returned (hi : Inv h files s) {cb : Callback} (hcb : cb ∈ s.ledger h) :
    cb.1.id ∉ s.returned := by
  intro hreturned
  have hcurrent := hi.current_of_mem hcb
  have htaken := mem_taken_of_current hcurrent
  have hserved : cb.1 ∉ s.served := fun hserved => hi.ne_of_served hcurrent hserved rfl
  have hzero :=
    (hi.pending _ (hi.accepted_of_taken htaken) hserved).symm.trans (hi.returned _ hreturned).2
  rw [hi.ledger] at hcb
  unfold Phase.all at hcb
  rw [hcurrent] at hcb
  obtain ⟨k, hk, -⟩ := List.mem_map.mp hcb
  rw [List.mem_range, hzero] at hk
  exact absurd hk (Nat.not_lt_zero k)

end Invariant

/-! ### The results -/

/-- **Requests take effect one after the other**, in every interleaving of any number of callers, of
the thread that schedules and of those of the pool. When none is being served, the files are what
the completed ones make of them in the order in which they were completed; the buffer of a completed
read has the bytes of the file behind the requests before it, and nothing else has changed in it.
What is complete stays so, in its place, and a call that has returned is complete, if it is about
any bytes: so what came after it returned comes behind it. No callback of a call that has returned
is left, and a callback never waits for a chunk. -/
theorem requests_linearizable (h : ArcherPrioAioHandle) (num_io_threads : ℤ) (hardware : ℕ)
    (files : Files) (chunk : ℕ → ℕ → UInt8) {os : List (Step (ioThreads num_io_threads hardware))}
    {s : State (ioThreads num_io_threads hardware)}
    (hs : execEnabled (next h) (start _ files chunk) os = some s) :
    (s.served.Nodup ∧ s.served ⊆ s.accepted) ∧
      (s.phase.current = none → s.files = serial files s.served) ∧
      (∀ k (r : AioRequest), s.served[k]? = some r →
        s.buffer r.id = r.call.result (serial files (s.served.take k))) ∧
      (∀ os' s', execEnabled (next h) s os' = some s' → s.served <+: s'.served) ∧
      (∀ r ∈ s.accepted, r.id ∈ s.returned → r ∈ s.served ∨ r.call.numBytes = 0) ∧
      (∀ i, ∀ cb ∈ (s.callbacks i : Multiset Callback) + (s.worker i).active,
        cb.1.id ∉ s.returned) ∧
      ∀ i cb, s.worker i = .acquiring cb → s.freeList ≠ [] := by
  have hi : Inv h files s := inv_execEnabled inv_next (inv_start h files chunk) hs
  refine ⟨⟨?_, fun r hr => hi.accepted_of_taken (mem_taken_of_served hr)⟩,
    fun hidle => ?_, hi.results, fun os' s' hrun => served_run hrun,
    fun r hr => hi.served_of_returned hr, fun i cb hcb => ?_,
    fun i cb _ => hi.freeList_ne_nil (ioThreads_pos num_io_threads hardware)⟩
  · have hnodup := hi.nodup.of_map
    unfold State.taken at hnodup
    rw [List.append_assoc] at hnodup
    exact (List.nodup_append.mp hnodup).1
  · have hmemory := hi.memory
    rwa [hidle] at hmemory
  · rcases Multiset.mem_add.mp hcb with hqueue | hactive
    · exact hi.not_returned (mem_ledger_of_queue (Multiset.mem_coe.mp hqueue))
    · exact hi.not_returned (mem_ledger_of_active hactive)

/-- One byte is written, and read. -/
def writeByte : Call := ⟨.write, "archer_param_0", 1, 4096, false, fun _ => 7⟩

def readByte : Call := ⟨.read, "archer_param_0", 1, 4096, true, fun _ => 0⟩

/-- The steps of a request with one chunk, of which `find` are there until it is taken. -/
def oneChunk (c : Call) (find id : ℕ) : List (Step (ioThreads 1 1)) :=
  [.accept c] ++ List.replicate (find + 2) .schedule ++
    List.replicate 6 (.work ⟨0, ioThreads_pos 1 1⟩) ++ [.schedule, .schedule, .wait id]

theorem requests_linearizable_oneByte : ∃ s, execEnabled (next (.new (some 256)))
    (start _ (fun _ _ => 0) fun _ _ => 1) (oneChunk writeByte 3 0 ++ oneChunk readByte 2 1) =
    some s ∧
    s.returned = [0, 1] ∧ s.buffer 1 0 = 7 ∧ s.buffer 1 1 = 0 := by
  have hrun : (execEnabled (next (.new (some 256))) (start _ (fun _ _ => 0) fun _ _ => 1)
      (oneChunk writeByte 3 0 ++ oneChunk readByte 2 1)).map (fun s => (s.served, s.returned)) =
      some ([⟨0, writeByte⟩, ⟨1, readByte⟩], [0, 1]) := rfl
  obtain ⟨s, hs, heq⟩ := Option.map_eq_some_iff.mp hrun
  obtain ⟨hserved, hreturned⟩ := Prod.mk.inj heq
  obtain ⟨-, -, hresults, -⟩ :=
    requests_linearizable (.new (some 256)) 1 1 (fun _ _ => 0) (fun _ _ => 1) hs
  have hbuffer := hresults 1 ⟨1, readByte⟩ (by rw [hserved]; rfl)
  rw [hserved] at hbuffer
  exact ⟨s, hs, hreturned, congrFun hbuffer 0, congrFun hbuffer 1⟩

/-- **The queues are served in order**, and a request of high priority waits for at most one request
of low priority that is taken after it came: one for which `Schedule` had already passed the queue
of high priority. -/
theorem overtaken_once (h : ArcherPrioAioHandle) (num_io_threads : ℤ) (hardware : ℕ) (files : Files)
    (chunk : ℕ → ℕ → UInt8) {os : List (Step (ioThreads num_io_threads hardware))}
    {s : State (ioThreads num_io_threads hardware)}
    (hs : execEnabled (next h) (start _ files chunk) os = some s) :
    s.accepted.filter (·.call.highPrio) = s.taken.filter (·.call.highPrio) ++ s.ioQueueHigh ∧
      s.accepted.filter (!·.call.highPrio) = s.taken.filter (!·.call.highPrio) ++ s.ioQueueLow ∧
      s.phase.slack ≤ 1 ∧
      ∀ os' s', execEnabled (next h) s os' = some s' → ∀ r ∈ s.ioQueueHigh, r ∈ s'.ioQueueHigh →
        s'.lowTaken ≤ s.lowTaken + s.phase.slack := by
  have hi : Inv h files s := inv_execEnabled inv_next (inv_start h files chunk) hs
  refine ⟨hi.high, hi.low, ?_, fun os' s' hrun r hr hr' => ?_⟩
  · cases s.phase <;> simp [Phase.slack]
  · have hle := (overtaken_run hi hrun (hi.accepted_of_queue (List.mem_append_left _ hr)) hr').1
    omega

theorem overtaken_once_oneByte :
    ∃ s s', execEnabled (next (.new (some 256))) (start (ioThreads 1 1) (fun _ _ => 0)
      fun _ _ => 1) [.accept writeByte, .schedule, .schedule, .accept readByte] = some s ∧
    execEnabled (next (.new (some 256))) s [.schedule] = some s' ∧
    s'.ioQueueHigh = [⟨1, readByte⟩] ∧
    s.phase.slack = 1 ∧ s'.lowTaken = 1 ∧ s'.lowTaken ≤ s.lowTaken + s.phase.slack := by
  obtain ⟨-, -, -, hovertaken⟩ :=
    @overtaken_once (.new (some 256)) 1 1 (fun _ _ => 0) (fun _ _ => 1)
      [.accept writeByte, .schedule, .schedule, .accept readByte] _ rfl
  exact ⟨_, _, rfl, rfl, rfl, rfl, rfl,
    hovertaken [.schedule] _ rfl ⟨1, readByte⟩ List.mem_cons_self List.mem_cons_self⟩

end MoeInfinity.Core.AioContext
