import MoeInfinity.Core.AioContext

/-! # What the threads behind the file handle keep

* `Inv`: every callback of the request that is being served is somewhere once (`ledger`), every
  chunk is free or held once (`chunks`), and the memory is that after the callbacks that have been
  run.
* `inv_next`: every step of any thread keeps it. -/

namespace MoeInfinity.Core.AioContext

open Finset MoeInfinity.Lib.Extents MoeInfinity.Lib.Runs MoeInfinity.Lib.Threads
  MoeInfinity.Core.AioHandle

/-! ### The invariant -/

/-- The request that is being served. -/
def Phase.current : Phase → Option AioRequest
  | .enqueuing r _ => some r
  | .joining r _ => some r
  | _ => none

section Invariant

variable (h : ArcherPrioAioHandle)

/-- The callbacks that are not yet in the queue of a thread. -/
def Phase.todo : Phase → List Callback
  | .enqueuing r k => (r.callbacks h).drop k
  | _ => []

/-- The callbacks of the request that is being served. -/
def Phase.all (phase : Phase) : List Callback := phase.current.elim [] (AioRequest.callbacks h)

/-- The threads of the pool that have nothing to do any more. -/
def Phase.joined : Phase → ℕ → Prop
  | .enqueuing _ _ => fun _ => False
  | .joining _ i => fun j => j < i
  | _ => fun _ => True

/-- The callback that a thread has still to store. -/
def Worker.active : Worker → Multiset Callback
  | .acquiring cb => {cb}
  | .moving cb _ => {cb}
  | .copying cb _ => {cb}
  | _ => 0

/-- The chunk that a thread holds. -/
def Worker.held : Worker → Multiset ℕ
  | .moving _ c => {c}
  | .copying _ c => {c}
  | .releasing c => {c}
  | _ => 0

def Worker.busy : Worker → ℕ
  | .waiting => 0
  | _ => 1

variable {n : ℕ} (files : Files) (s : State n)

/-- The requests that have been taken from their queue. -/
def State.taken : List AioRequest := s.served ++ s.phase.current.toList

/-- The callbacks, wherever they are. -/
def State.ledger : Multiset Callback :=
  s.phase.todo h + ∑ i, (s.callbacks i : Multiset Callback) + ∑ i, (s.worker i).active + s.done

structure Inv : Prop where
  ids : s.accepted.map (·.id) = List.range s.accepted.length
  high : s.accepted.filter (·.call.highPrio) = s.taken.filter (·.call.highPrio) ++ s.ioQueueHigh
  low : s.accepted.filter (!·.call.highPrio) = s.taken.filter (!·.call.highPrio) ++ s.ioQueueLow
  ledger : s.ledger h = s.phase.all h
  counts : ∀ i, s.pendingCallbacks i = (s.callbacks i).length + (s.worker i).busy
  joined : ∀ i : Fin n, s.phase.joined i → s.pendingCallbacks i = 0
  chunks : (s.freeList : Multiset ℕ) + ∑ i, (s.worker i).held = Multiset.range (n * 4)
  loaded : ∀ i cb c, s.worker i = .copying cb c → Loaded h (serial files s.served) cb (s.chunk c)
  memory : s.files = s.phase.current.elim (serial files s.served) fun r =>
    filesAfter h (serial files s.served) r s.done
  current : ∀ r, s.phase.current = some r →
    s.buffer r.id = bufferAfter h (serial files s.served) r s.done
  results : ∀ k (r : AioRequest), s.served[k]? = some r →
    s.buffer r.id = r.call.result (serial files (s.served.take k))
  untouched : ∀ r ∈ s.ioQueueHigh ++ s.ioQueueLow, s.buffer r.id = r.call.buffer
  complete : ∀ r ∈ s.served, s.pending r.id = 0
  pending : ∀ r ∈ s.accepted, r ∉ s.served → s.pending r.id = r.nIocbs h
  returned : ∀ id ∈ s.returned, id < s.accepted.length ∧ s.pending id = 0

theorem inv_start (files : Files) (chunk : ℕ → ℕ → UInt8) : Inv h files (start n files chunk) where
  ids := rfl
  high := rfl
  low := rfl
  ledger := by simp [State.ledger, start, Phase.todo, Phase.all, Phase.current, Worker.active]
  counts _ := rfl
  joined _ _ := rfl
  chunks := by
    simp only [start, Worker.held, Finset.sum_const_zero, add_zero]
    rfl
  loaded _ _ _ hworker := by cases hworker
  memory := rfl
  current _ hr := by cases hr
  results _ _ hr := by cases hr
  untouched _ hr := by cases hr
  complete _ hr := by cases hr
  pending _ hr := by cases hr
  returned _ hr := by cases hr

variable {h files s}

/-! ### What the invariant says -/

/-- Every accepted request has been taken, or is in its queue. -/
theorem Inv.perm (hi : Inv h files s) :
    (s.taken ++ (s.ioQueueHigh ++ s.ioQueueLow)).Perm s.accepted := by
  have hsplit :=
    fun l : List AioRequest => Multiset.coe_eq_coe.mpr (List.filter_append_perm (·.call.highPrio) l)
  refine Multiset.coe_eq_coe.mp ?_
  rw [← hsplit s.accepted, hi.high, hi.low]
  have htaken := hsplit s.taken
  simp only [← Multiset.coe_add] at htaken ⊢
  rw [← htaken]
  abel

theorem Inv.nodup (hi : Inv h files s) :
    ((s.taken ++ (s.ioQueueHigh ++ s.ioQueueLow)).map (·.id)).Nodup := by
  rw [(hi.perm.map _).nodup_iff, hi.ids]
  exact List.nodup_range

theorem Inv.id_lt (hi : Inv h files s) {r : AioRequest} (hr : r ∈ s.accepted) :
    r.id < s.accepted.length := by
  have hmem := List.mem_map_of_mem (f := (·.id)) hr
  rwa [hi.ids, List.mem_range] at hmem

theorem Inv.id_inj (hi : Inv h files s) {r r' : AioRequest} (hr : r ∈ s.accepted)
    (hr' : r' ∈ s.accepted) (heq : r.id = r'.id) : r = r' := by
  refine List.inj_on_of_nodup_map ?_ hr hr' heq
  rw [hi.ids]
  exact List.nodup_range

theorem Inv.accepted_of_taken (hi : Inv h files s) {r : AioRequest} (hr : r ∈ s.taken) :
    r ∈ s.accepted :=
  hi.perm.mem_iff.mp (List.mem_append_left _ hr)

theorem Inv.accepted_of_queue (hi : Inv h files s) {r : AioRequest}
    (hr : r ∈ s.ioQueueHigh ++ s.ioQueueLow) :
    r ∈ s.accepted := hi.perm.mem_iff.mp (List.mem_append_right _ hr)

theorem mem_taken_of_served {r : AioRequest} (hr : r ∈ s.served) : r ∈ s.taken :=
  List.mem_append_left _ hr

theorem mem_taken_of_current {r : AioRequest} (hr : s.phase.current = some r) : r ∈ s.taken := by
  unfold State.taken
  rw [hr]
  exact List.mem_append_right _ List.mem_cons_self

/-- A request that has been taken is not in its queue. -/
theorem Inv.ne_of_queue (hi : Inv h files s) {r r' : AioRequest} (hr : r ∈ s.taken)
    (hr' : r' ∈ s.ioQueueHigh ++ s.ioQueueLow) : r'.id ≠ r.id := by
  have hnodup := hi.nodup
  rw [List.map_append] at hnodup
  exact fun heq => (List.nodup_append.mp hnodup).2.2 _ (List.mem_map_of_mem hr) _
    (List.mem_map_of_mem hr') heq.symm

/-- The request that is being served is not complete. -/
theorem Inv.ne_of_served (hi : Inv h files s) {r r' : AioRequest} (hr : s.phase.current = some r)
    (hr' : r' ∈ s.served) : r'.id ≠ r.id := by
  have hnodup := hi.nodup
  unfold State.taken at hnodup
  rw [hr, List.append_assoc, List.map_append] at hnodup
  exact (List.nodup_append.mp hnodup).2.2 _ (List.mem_map_of_mem hr') _
    (List.mem_map_of_mem (List.mem_append_left _ List.mem_cons_self))

theorem mem_all {phase : Phase} {cb : Callback} (hcb : cb ∈ phase.all h) :
    phase.current = some cb.1 := by
  unfold Phase.all at hcb
  cases hc : phase.current with
  | none =>
    rw [hc] at hcb
    cases hcb
  | some r =>
    rw [hc] at hcb
    obtain ⟨k, -, rfl⟩ := List.mem_map.mp hcb
    rfl

/-- **All callbacks** are those of the request that is being served. -/
theorem Inv.current_of_mem (hi : Inv h files s) {cb : Callback} (hcb : cb ∈ s.ledger h) :
    s.phase.current = some cb.1 := by
  rw [hi.ledger] at hcb
  exact mem_all hcb

theorem mem_ledger_of_queue {i : Fin n} {cb : Callback} (hcb : cb ∈ s.callbacks i) :
    cb ∈ s.ledger h := by
  have hsum := Multiset.mem_of_le (le_sum (f := fun i => (s.callbacks i : Multiset Callback)) i)
    (Multiset.mem_coe.mpr hcb)
  exact Multiset.mem_add.mpr (.inl (Multiset.mem_add.mpr (.inl (Multiset.mem_add.mpr (.inr hsum)))))

theorem mem_ledger_of_active {i : Fin n} {cb : Callback} (hcb : cb ∈ (s.worker i).active) :
    cb ∈ s.ledger h := by
  have hsum := Multiset.mem_of_le (le_sum (f := fun i => (s.worker i).active) i) hcb
  exact Multiset.mem_add.mpr (.inl (Multiset.mem_add.mpr (.inr hsum)))

theorem Inv.rest (hi : Inv h files s) {i : Fin n} (hzero : s.pendingCallbacks i = 0) :
    s.callbacks i = [] ∧ s.worker i = .waiting := by
  have hcount := hi.counts i
  rw [hzero] at hcount
  refine ⟨List.length_eq_zero_iff.mp (by omega), ?_⟩
  have hbusy : (s.worker i).busy = 0 := by omega
  cases hw : s.worker i with
  | waiting => rfl
  | acquiring _ => rw [hw] at hbusy; cases hbusy
  | moving _ _ => rw [hw] at hbusy; cases hbusy
  | copying _ _ => rw [hw] at hbusy; cases hbusy
  | releasing _ => rw [hw] at hbusy; cases hbusy
  | finishing => rw [hw] at hbusy; cases hbusy

/-- Once nothing is pending, all callbacks have been run. -/
theorem Inv.done_eq (hi : Inv h files s) (htodo : s.phase.todo h = [])
    (hzero : ∀ i, s.pendingCallbacks i = 0) :
    (s.done : Multiset Callback) = s.phase.all h := by
  have hqueues : ∑ i, (s.callbacks i : Multiset Callback) = 0 :=
    Finset.sum_eq_zero fun i _ => by
      rw [(hi.rest (hzero i)).1]
      rfl
  have hactive : ∑ i, (s.worker i).active = 0 :=
    Finset.sum_eq_zero fun i _ => by
      rw [(hi.rest (hzero i)).2]
      rfl
  have hledger := hi.ledger
  unfold State.ledger at hledger
  rw [htodo, hqueues, hactive] at hledger
  simpa using hledger

/-- Two threads do not hold one chunk. -/
theorem Inv.chunk_ne (hi : Inv h files s) {i j : Fin n} (hij : i ≠ j) {c c' : ℕ}
    (hc : c ∈ (s.worker i).held) (hc' : c' ∈ (s.worker j).held) : c' ≠ c := by
  rintro rfl
  have hle : {c'} + {c'} ≤ Multiset.range (n * 4) := by
    rw [← hi.chunks]
    exact (add_le_add (Multiset.singleton_le.mpr hc) (Multiset.singleton_le.mpr hc')).trans
      ((add_le_sum (f := fun i => (s.worker i).held) hij).trans le_add_self)
  have hnodup := Multiset.nodup_of_le hle (Multiset.nodup_range _)
  rw [Multiset.singleton_add] at hnodup
  exact (Multiset.nodup_cons.mp hnodup).1 (Multiset.mem_singleton_self c')

/-- **`Acquire` never waits**: there are more chunks than threads. -/
theorem Inv.freeList_ne_nil (hi : Inv h files s) (hn : 0 < n) : s.freeList ≠ [] := by
  intro hnil
  have hcard := congrArg Multiset.card hi.chunks
  rw [hnil, Multiset.coe_nil, zero_add, Multiset.card_range, Multiset.card_sum] at hcard
  have hle : ∑ i, Multiset.card (s.worker i).held ≤ ∑ _i : Fin n, 1 :=
    Finset.sum_le_sum fun i _ => by cases s.worker i <;> simp [Worker.held]
  rw [← Finset.card_eq_sum_ones, Finset.card_univ, Fintype.card_fin] at hle
  omega

/-! ### The callers -/

theorem inv_accept (hi : Inv h files s) (c : Call) : Inv h files (acceptRequest h s c) := by
  have haccepted : (acceptRequest h s c).accepted = s.accepted ++ [⟨s.accepted.length, c⟩] := rfl
  have hlt : ∀ r ∈ s.accepted, r.id ≠ s.accepted.length := fun r hr => (hi.id_lt hr).ne
  have hbuffer : ∀ r ∈ s.accepted, (acceptRequest h s c).buffer r.id = s.buffer r.id := fun r hr =>
    Function.update_of_ne (hlt r hr) _ _
  have hpending : ∀ r ∈ s.accepted, (acceptRequest h s c).pending r.id =
      s.pending r.id := fun r hr =>
    Function.update_of_ne (hlt r hr) _ _
  exact {
    hi with
    ids := by
      rw [haccepted, List.map_append, hi.ids, List.length_append, List.length_singleton,
        List.range_succ]
      rfl
    high := by
      rw [haccepted, List.filter_append, hi.high, List.append_assoc]
      refine congrArg (s.taken.filter (·.call.highPrio) ++ ·) ?_
      cases hprio : c.highPrio <;> simp [acceptRequest, hprio]
    low := by
      rw [haccepted, List.filter_append, hi.low, List.append_assoc]
      refine congrArg (s.taken.filter (!·.call.highPrio) ++ ·) ?_
      cases hprio : c.highPrio <;> simp [acceptRequest, hprio]
    current :=
      fun r hr => (hbuffer r (hi.accepted_of_taken (mem_taken_of_current hr))).trans
        (hi.current r hr)
    results :=
      fun k r hr =>
        (hbuffer r (hi.accepted_of_taken (mem_taken_of_served (List.mem_of_getElem? hr)))).trans
          (hi.results k r hr)
    untouched := fun r hr => by
      have hmem : r ∈ s.ioQueueHigh ++ s.ioQueueLow ∨ r = ⟨s.accepted.length, c⟩ := by
        cases hprio : c.highPrio <;> simp only [acceptRequest, hprio] at hr <;>
          simp at hr ⊢ <;> tauto
      rcases hmem with hold | rfl
      · exact (hbuffer r (hi.accepted_of_queue hold)).trans (hi.untouched r hold)
      · exact Function.update_self ..
    complete :=
      fun r hr => (hpending r (hi.accepted_of_taken (mem_taken_of_served hr))).trans
        (hi.complete r hr)
    pending := fun r hr hserved => by
      rcases List.mem_append.mp hr with hold | hnew
      · exact (hpending r hold).trans (hi.pending r hold hserved)
      · obtain rfl := List.mem_singleton.mp hnew
        exact Function.update_self ..
    returned := fun id hid => by
      obtain ⟨hlt, hzero⟩ := hi.returned id hid
      refine ⟨?_, (Function.update_of_ne hlt.ne _ _).trans hzero⟩
      rw [haccepted, List.length_append]
      exact Nat.lt_add_right _ hlt }

theorem inv_wait (hi : Inv h files s) {id : ℕ} {s' : State n} (hs : wait s id = some s') :
    Inv h files s' := by
  obtain ⟨hid, hs⟩ := Option.ite_none_right_eq_some.mp hs
  obtain rfl := Option.some.inj hs
  exact {
    hi with
    returned := fun id' hid' => by
      rcases List.mem_append.mp hid' with hold | hnew
      · exact hi.returned id' hold
      · obtain rfl := List.mem_singleton.mp hnew
        exact ⟨hid.1, hid.2.2⟩ }

/-! ### The thread that schedules -/

theorem todo_enqueuing (r : AioRequest) (k : ℕ) :
    (Phase.enqueuing r k).todo h = (r.callbacks h).drop k := rfl

theorem todo_of_idle {phase : Phase} (hidle : phase.current = none) : phase.todo h = [] := by
  cases phase with
  | enqueuing r k => cases hidle
  | joining r i => cases hidle
  | waiting => rfl
  | high => rfl
  | low => rfl

theorem joined_of_idle {phase : Phase} (hidle : phase.current = none) (i : ℕ) : phase.joined i := by
  cases phase with
  | enqueuing r k => cases hidle
  | joining r i => cases hidle
  | waiting => trivial
  | high => trivial
  | low => trivial

theorem Inv.done_of_idle (hi : Inv h files s) (hidle : s.phase.current = none) : s.done = [] := by
  have hdone := hi.done_eq (todo_of_idle hidle) fun i => hi.joined i (joined_of_idle hidle i)
  unfold Phase.all at hdone
  rw [hidle] at hdone
  exact (Multiset.coe_eq_zero _).mp hdone

/-- `Schedule` goes on with its request, or without any. -/
theorem inv_phase (hi : Inv h files s) {phase : Phase} (hcurrent : phase.current = s.phase.current)
    (htodo : phase.todo h = s.phase.todo h)
    (hjoined : ∀ i : Fin n, phase.joined i → s.pendingCallbacks i = 0) :
    Inv h files { s with phase := phase } := by
  have htaken : State.taken { s with phase := phase } = s.taken := by
    unfold State.taken
    rw [hcurrent]
  exact {
    hi with
    high := by
      rw [htaken]
      exact hi.high
    low := by
      rw [htaken]
      exact hi.low
    ledger := by
      have hledger := hi.ledger
      unfold State.ledger Phase.all at hledger ⊢
      rwa [htodo, hcurrent]
    joined := hjoined
    memory := by
      rw [hcurrent]
      exact hi.memory
    current := fun r hr => hi.current r (hcurrent.symm.trans hr) }

theorem inv_idle (hi : Inv h files s) {phase : Phase} (hidle : s.phase.current = none)
    (hidle' : phase.current = none) : Inv h files { s with phase := phase } :=
  inv_phase hi (hidle'.trans hidle.symm) ((todo_of_idle hidle').trans (todo_of_idle hidle).symm)
    fun i _ => hi.joined i (joined_of_idle hidle i)

/-- `Schedule` takes a request. -/
theorem inv_take (hi : Inv h files s) (hidle : s.phase.current = none) {r : AioRequest}
    {high low : List AioRequest} (hr : r ∈ s.ioQueueHigh ++ s.ioQueueLow)
    (hsub : ∀ r' ∈ high ++ low, r' ∈ s.ioQueueHigh ++ s.ioQueueLow)
    (hhigh : s.accepted.filter (·.call.highPrio) = (s.taken ++ [r]).filter (·.call.highPrio) ++
      high) (hlow :
        s.accepted.filter (!·.call.highPrio) = (s.taken ++ [r]).filter (!·.call.highPrio) ++ low) :
    Inv h files { s with ioQueueHigh := high, ioQueueLow := low, phase := .enqueuing r 0 } := by
  have hserved : s.taken = s.served := by
    unfold State.taken
    rw [hidle]
    exact List.append_nil _
  have hdone := hi.done_of_idle hidle
  rw [hserved] at hhigh hlow
  have hmemory := hi.memory
  rw [hidle] at hmemory
  exact {
    hi with
    high := hhigh
    low := hlow
    ledger := by
      have hledger := hi.ledger
      unfold State.ledger Phase.all at hledger
      rw [todo_of_idle hidle, hidle] at hledger
      show (((r.callbacks h).drop 0 : List Callback) : Multiset Callback) + ∑ i,
        (s.callbacks i : Multiset Callback) + ∑ i, (s.worker i).active + s.done = r.callbacks h
      rw [List.drop_zero, add_assoc, add_assoc,
        ← add_assoc (∑ i, (s.callbacks i : Multiset Callback))]
      simpa using hledger
    joined := fun _ hjoined => hjoined.elim
    memory := by
      show s.files = filesAfter h _ r s.done
      rw [hdone, filesAfter_nil]
      exact hmemory
    current := fun r' hr' => by
      obtain rfl := Option.some.inj hr'
      show s.buffer r.id = bufferAfter h _ r s.done
      rw [hdone, bufferAfter_nil]
      exact hi.untouched r hr
    untouched := fun r' hr' => hi.untouched r' (hsub r' hr') }

/-- A callback is pushed into the queue of a thread. -/
theorem sum_push (g : Fin n → List Callback) (i : Fin n) (cb : Callback) :
    ∑ j, (Function.update g i (g i ++ [cb]) j : Multiset Callback) = ∑ j,
    (g j : Multiset Callback) + {cb} := by
  have hsum := sum_update (fun l : List Callback => (l : Multiset Callback)) g i (g i ++ [cb])
  rw [← Multiset.coe_add, add_comm (g i : Multiset Callback), ← add_assoc] at hsum
  exact add_right_cancel hsum

/-- A callback is popped. -/
theorem sum_pop {g : Fin n → List Callback} {i : Fin n} {cb : Callback} {rest : List Callback}
    (hg : g i = cb :: rest) :
    ∑ j, (Function.update g i rest j : Multiset Callback) + {cb} = ∑ j,
    (g j : Multiset Callback) := by
  have hsum := sum_update (fun l : List Callback => (l : Multiset Callback)) g i rest
  rw [hg, ← Multiset.cons_coe, ← Multiset.singleton_add, ← add_assoc] at hsum
  exact add_right_cancel hsum

theorem inv_enqueue (hi : Inv h files s) {r : AioRequest} {k : ℕ}
    (hphase : s.phase = .enqueuing r k) (hk : k < r.nIocbs h) {s' : State n}
    (hs : enqueue s r k = some s') : Inv h files s' := by
  unfold enqueue at hs
  dsimp only at hs
  split at hs
  · next hidx =>
    obtain rfl := Option.some.inj hs
    generalize hth : (⟨_, hidx.2⟩ : Fin n) = i
    have hcurrent : s.phase.current = some r := by
      rw [hphase]
      rfl
    exact {
      hi with
      high := by
        have hhigh := hi.high
        unfold State.taken at hhigh
        rwa [hcurrent] at hhigh
      low := by
        have hlow := hi.low
        unfold State.taken at hlow
        rwa [hcurrent] at hlow
      ledger := by
        have hledger := hi.ledger
        unfold State.ledger Phase.all at hledger
        rw [hcurrent, hphase] at hledger
        have hdrop : (r.callbacks h).drop k = (r, k) :: (r.callbacks h).drop (k + 1) := by
          have hlen : k < (r.callbacks h).length := by
            unfold AioRequest.callbacks
            rwa [List.length_map, List.length_range]
          rw [List.drop_eq_getElem_cons hlen]
          simp [AioRequest.callbacks]
        rw [todo_enqueuing, hdrop, ← Multiset.cons_coe, ← Multiset.singleton_add] at hledger
        unfold State.ledger
        rw [todo_enqueuing, sum_push]
        refine Eq.trans ?_ hledger
        abel
      counts := fun j => by
        have hcount := hi.counts j
        by_cases hj : j = i
        · subst hj
          simp only [Function.update_self, List.length_append, List.length_singleton]
          omega
        · simp only [Function.update_of_ne hj]
          exact hcount
      joined := fun _ hjoined => hjoined.elim
      memory := by
        have hmemory := hi.memory
        rwa [hcurrent] at hmemory
      current := fun r' hr' => hi.current r' (hcurrent.trans hr') }
  · cases hs

theorem inv_join (hi : Inv h files s) {r : AioRequest} {i : Fin n} (hphase : s.phase = .joining r i)
    {s' : State n} (hs : join s r i = some s') : Inv h files s' := by
  obtain ⟨hzero, hs⟩ := Option.ite_none_right_eq_some.mp hs
  obtain rfl := Option.some.inj hs
  have hempty : Function.update s.callbacks i [] = s.callbacks := by
    rw [← (hi.rest hzero).1]
    exact Function.update_eq_self i s.callbacks
  rw [hempty]
  refine inv_phase hi (by rw [hphase]; rfl) (by rw [hphase]; rfl) fun j hj => ?_
  rcases Nat.lt_succ_iff_lt_or_eq.mp hj with hlt | heq
  · exact hi.joined j (by rw [hphase]; exact hlt)
  · exact Fin.ext heq ▸ hzero

theorem inv_complete (hi : Inv h files s) {r : AioRequest} {i : ℕ} (hphase : s.phase = .joining r i)
    (hle : n ≤ i) :
    Inv h files (complete s r) := by
  have hcurrent : s.phase.current = some r := by
    rw [hphase]
    rfl
  have hzero : ∀ i, s.pendingCallbacks i = 0 :=
    fun i => hi.joined i (by rw [hphase]; exact i.isLt.trans_le hle)
  have hdone : (s.done : Multiset Callback) = r.callbacks h := by
    have hdone := hi.done_eq (by rw [hphase]; rfl) hzero
    unfold Phase.all at hdone
    rwa [hcurrent] at hdone
  have htaken : (complete s r).taken = s.taken := by
    unfold State.taken
    rw [hcurrent]
    exact List.append_nil _
  have hr := mem_taken_of_current hcurrent
  have hpending : ∀ id, s.pending id = 0 → (complete s r).pending id = 0 := by
    intro id hid
    show Function.update s.pending r.id 0 id = 0
    rw [Function.update_apply, hid, ite_self]
  exact {
    hi with
    high := by
      rw [htaken]
      exact hi.high
    low := by
      rw [htaken]
      exact hi.low
    ledger := by
      have hqueues : ∑ i, (s.callbacks i : Multiset Callback) = 0 :=
        Finset.sum_eq_zero fun i _ => by
          rw [(hi.rest (hzero i)).1]
          rfl
      have hactive : ∑ i, (s.worker i).active = 0 :=
        Finset.sum_eq_zero fun i _ => by
          rw [(hi.rest (hzero i)).2]
          rfl
      show ((Phase.waiting.todo h : List Callback) : Multiset Callback) + ∑ i,
        (s.callbacks i : Multiset Callback) + ∑ i,
        (s.worker i).active + (([] : List Callback) : Multiset Callback) = _
      rw [hqueues, hactive]
      rfl
    joined := fun i _ => hzero i
    loaded := fun i cb c hcopy => by
      rw [show (complete s r).worker i = s.worker i from rfl, (hi.rest (hzero i)).2] at hcopy
      cases hcopy
    memory := by
      have hmemory := hi.memory
      rw [hcurrent] at hmemory
      show s.files = serial files (s.served ++ [r])
      unfold serial
      rw [List.foldl_append, hmemory]
      exact filesAfter_all hdone
    current := fun _ hr' => by cases hr'
    results := fun k r' hr' => by
      show s.buffer r'.id = r'.call.result (serial files ((s.served ++ [r]).take k))
      change (s.served ++ [r])[k]? = some r' at hr'
      rcases Nat.lt_or_ge k s.served.length with hlt | hge
      · rw [List.getElem?_append_left hlt] at hr'
        rw [List.take_append_of_le_length hlt.le]
        exact hi.results k r' hr'
      · rw [List.getElem?_append_right hge] at hr'
        have hk := (List.getElem?_eq_some_iff.mp hr').1
        rw [List.length_singleton] at hk
        obtain rfl : k = s.served.length := by omega
        rw [Nat.sub_self] at hr'
        obtain rfl := Option.some.inj hr'
        rw [List.take_left', hi.current r hcurrent]
        · exact bufferAfter_all hdone
        · rfl
    complete := fun r' hr' => by
      rcases List.mem_append.mp hr' with hold | hnew
      · exact hpending _ (hi.complete r' hold)
      · obtain rfl := List.mem_singleton.mp hnew
        exact Function.update_self ..
    pending := fun r' hr' hserved => by
      have hne : r'.id ≠ r.id := fun heq => hserved (by
        rw [hi.id_inj hr' (hi.accepted_of_taken hr) heq]
        exact List.mem_append_right _ List.mem_cons_self)
      exact (Function.update_of_ne hne _ _).trans
        (hi.pending r' hr' fun hold => hserved (List.mem_append_left _ hold))
    returned := fun id hid => ⟨(hi.returned id hid).1, hpending id (hi.returned id hid).2⟩ }

theorem inv_schedule (hi : Inv h files s) {s' : State n} (hs : schedule h s = some s') :
    Inv h files s' := by
  unfold schedule at hs
  have htaken : s.phase.current = none → s.taken = s.served := fun hidle => by
    unfold State.taken
    rw [hidle]
    exact List.append_nil _
  split at hs
  · next hphase =>
    split_ifs at hs
    obtain rfl := Option.some.inj hs
    exact inv_idle hi (by rw [hphase]; rfl) rfl
  · next hphase =>
    have hidle : s.phase.current = none := by
      rw [hphase]
      rfl
    split at hs
    · obtain rfl := Option.some.inj hs
      exact inv_idle hi hidle rfl
    · next r rest hqueue =>
      obtain rfl := Option.some.inj hs
      have hhigh := hi.high
      rw [hqueue] at hhigh
      have hr : r.call.highPrio := by
        have hmem : r ∈ s.accepted.filter (·.call.highPrio) := by
          rw [hhigh]
          exact List.mem_append_right _ List.mem_cons_self
        exact (List.mem_filter.mp hmem).2
      refine inv_take hi hidle (r := r) (by rw [hqueue]; exact List.mem_cons_self)
        (fun r' hr' => ?_) ?_ ?_
      · rw [hqueue, List.cons_append]
        exact List.mem_cons_of_mem r hr'
      · rw [hhigh, List.filter_append, List.filter_cons_of_pos (by exact hr), List.filter_nil,
          List.append_assoc]
        rfl
      · rw [hi.low, List.filter_append, List.filter_cons_of_neg (by simpa using hr),
          List.filter_nil, List.append_nil]
  · next hphase =>
    have hidle : s.phase.current = none := by
      rw [hphase]
      rfl
    split at hs
    · obtain rfl := Option.some.inj hs
      exact inv_idle hi hidle rfl
    · next r rest hqueue =>
      obtain rfl := Option.some.inj hs
      have hlow := hi.low
      rw [hqueue] at hlow
      have hr : (!r.call.highPrio) = true := by
        have hmem : r ∈ s.accepted.filter (!·.call.highPrio) := by
          rw [hlow]
          exact List.mem_append_right _ List.mem_cons_self
        exact (List.mem_filter.mp hmem).2
      refine inv_take hi hidle (r := r)
        (by rw [hqueue]; exact List.mem_append_right _ List.mem_cons_self) (fun r' hr' => ?_) ?_ ?_
      · rw [hqueue]
        exact (List.mem_append.mp hr').elim (List.mem_append_left _)
          fun hmem => List.mem_append_right _ (List.mem_cons_of_mem r hmem)
      · rw [hi.high, List.filter_append, List.filter_cons_of_neg (by simpa using hr),
          List.filter_nil, List.append_nil]
      · rw [hlow, List.filter_append, List.filter_cons_of_pos (by exact hr), List.filter_nil,
          List.append_assoc]
        rfl
  · next r k hphase =>
    split_ifs at hs with hk
    · exact inv_enqueue hi hphase hk hs
    · obtain rfl := Option.some.inj hs
      refine inv_phase hi (by rw [hphase]; rfl) ?_ fun i hjoined =>
        absurd hjoined (Nat.not_lt_zero i)
      rw [hphase, todo_enqueuing, List.drop_eq_nil_of_le]
      · rfl
      · unfold AioRequest.callbacks
        rw [List.length_map, List.length_range]
        exact not_lt.mp hk
  · next r i hphase =>
    split_ifs at hs with hin
    · exact inv_join hi hphase hs
    · obtain rfl := Option.some.inj hs
      exact inv_complete hi hphase (not_lt.mp hin)

/-! ### The threads of the pool -/

theorem sum_worker {β : Type} (f : Worker → Multiset β) {i : Fin n} {w : Worker}
    (hf : f w = f (s.worker i)) :
    ∑ j, f (Function.update s.worker i w j) = ∑ j, f (s.worker j) := by
  have hsum := sum_update f s.worker i w
  rw [hf] at hsum
  exact add_right_cancel hsum

/-- The threads that are about to store are the same, or one less. -/
theorem copying_of_update {i j : Fin n} {w : Worker} (hw : ∀ cb c, w ≠ .copying cb c)
    {cb : Callback} {c : ℕ} (hj : Function.update s.worker i w j = .copying cb c) :
    s.worker j = .copying cb c := by
  by_cases hij : j = i
  · subst hij
    rw [Function.update_self] at hj
    exact absurd hj (hw cb c)
  · rwa [Function.update_of_ne hij] at hj

/-- A thread goes on with its callback. -/
theorem count_of_update (hi : Inv h files s) {i : Fin n} {w : Worker}
    (hbusy : w.busy = (s.worker i).busy) (j : Fin n) :
    s.pendingCallbacks j = (s.callbacks j).length + (Function.update s.worker i w j).busy := by
  by_cases hij : j = i
  · subst hij
    rw [Function.update_self, hbusy]
    exact hi.counts j
  · rw [Function.update_of_ne hij]
    exact hi.counts j

theorem inv_begin (hi : Inv h files s) {i : Fin n} (hw : s.worker i = .waiting) {cb : Callback}
    {rest : List Callback} (hqueue : s.callbacks i = cb :: rest) : Inv h files { s with
      callbacks := Function.update s.callbacks i rest
      worker := Function.update s.worker i (.acquiring cb) } := {
  hi with
  ledger := by
    have hactive := sum_update Worker.active s.worker i (.acquiring cb)
    rw [hw] at hactive
    unfold State.ledger
    refine Eq.trans ?_ hi.ledger
    unfold State.ledger
    rw [← sum_pop hqueue, show (∑ j, (Function.update s.worker i (.acquiring cb) j).active) =
      ∑ j, (s.worker j).active + {cb} from (add_zero _).symm.trans hactive]
    abel
  counts := fun j => by
    have hcount := hi.counts j
    by_cases hij : j = i
    · subst hij
      rw [hqueue, hw, List.length_cons] at hcount
      simp only [Function.update_self]
      exact hcount
    · simp only [Function.update_of_ne hij]
      exact hcount
  chunks := by
    rw [sum_worker Worker.held (w := .acquiring cb) (by rw [hw]; rfl)]
    exact hi.chunks
  loaded :=
    fun j cb' c hj => hi.loaded j cb' c (copying_of_update (fun _ _ hne => by cases hne) hj) }

theorem inv_acquire (hi : Inv h files s) {i : Fin n} {cb : Callback}
    (hw : s.worker i = .acquiring cb) {c : ℕ} {rest : List ℕ} (hfree : s.freeList = c :: rest) :
    Inv h files { s with
      freeList := rest
      worker := Function.update s.worker i (.moving cb c) } := {
  hi with
  ledger := by
    refine Eq.trans ?_ hi.ledger
    unfold State.ledger
    rw [sum_worker Worker.active (w := .moving cb c) (by rw [hw]; rfl)]
  counts := count_of_update hi (by rw [hw]; rfl)
  chunks := by
    have hheld := sum_update Worker.held s.worker i (.moving cb c)
    rw [hw] at hheld
    have hchunks := hi.chunks
    rw [hfree, ← Multiset.cons_coe, ← Multiset.singleton_add] at hchunks
    rw [show (∑ j, (Function.update s.worker i (.moving cb c) j).held) = ∑ j,
        (s.worker j).held + {c} from
      (add_zero _).symm.trans hheld]
    refine Eq.trans ?_ hchunks
    abel
  loaded :=
    fun j cb' c' hj => hi.loaded j cb' c' (copying_of_update (fun _ _ hne => by cases hne) hj) }

/-- The request of a callback that has not yet been stored, in a run that has got this far. -/
theorem Inv.memory_of_active (hi : Inv h files s) {i : Fin n} {cb : Callback}
    (hcb : cb ∈ (s.worker i).active) :
    s.files = filesAfter h (serial files s.served) cb.1 s.done ∧
      s.buffer cb.1.id = bufferAfter h (serial files s.served) cb.1 s.done := by
  have hcurrent := hi.current_of_mem (mem_ledger_of_active hcb)
  have hmemory := hi.memory
  rw [hcurrent] at hmemory
  exact ⟨hmemory, hi.current _ hcurrent⟩

theorem inv_move (hi : Inv h files s) {i : Fin n} {cb : Callback} {c : ℕ}
    (hw : s.worker i = .moving cb c) :
    Inv h files { s with
      chunk := Function.update s.chunk c (load h s cb (s.chunk c))
      worker := Function.update s.worker i (.copying cb c) } := {
  hi with
  ledger := by
    refine Eq.trans ?_ hi.ledger
    unfold State.ledger
    rw [sum_worker Worker.active (w := .copying cb c) (by rw [hw]; rfl)]
  counts := count_of_update hi (by rw [hw]; rfl)
  chunks := by
    rw [sum_worker Worker.held (w := .copying cb c) (by rw [hw]; rfl)]
    exact hi.chunks
  loaded := fun j cb' c' hj => by
    dsimp only at hj ⊢
    by_cases hij : j = i
    · subst hij
      rw [Function.update_self] at hj
      obtain ⟨rfl, rfl⟩ := Worker.copying.inj hj
      have hmem : cb ∈ (s.worker j).active := by
        rw [hw]
        exact Multiset.mem_singleton_self cb
      obtain ⟨hfiles, hbuffer⟩ := hi.memory_of_active hmem
      rw [Function.update_self]
      exact loaded_load (fun hd => hfiles.trans (filesAfter_read hd))
        (fun hd => hbuffer.trans (bufferAfter_write hd)) _
    · rw [Function.update_of_ne hij] at hj
      have hne : c' ≠ c :=
        hi.chunk_ne (Ne.symm hij) (by rw [hw]; exact Multiset.mem_singleton_self c)
          (by rw [hj]; exact Multiset.mem_singleton_self c')
      rw [Function.update_of_ne hne]
      exact hi.loaded j cb' c' hj }

/-- A store changes the files or a buffer of a caller. -/
theorem store_eq (h : ArcherPrioAioHandle) (s : State n) (cb : Callback) (chunk : ℕ → UInt8) :
    store h s cb chunk =
      { s with files := (store h s cb chunk).files, buffer := (store h s cb chunk).buffer } := by
  cases hd : cb.1.call.direction with
  | read => simp only [store, hd]
  | write => simp only [store, hd]

theorem inv_copy (hi : Inv h files s) {i : Fin n} {cb : Callback} {c : ℕ}
    (hw : s.worker i = .copying cb c) :
    Inv h files { store h s cb (s.chunk c) with
      worker := Function.update s.worker i (.releasing c)
      done := s.done ++ [cb] } := by
  have hmem : cb ∈ (s.worker i).active := by
    rw [hw]
    exact Multiset.mem_singleton_self cb
  have hcurrent := hi.current_of_mem (mem_ledger_of_active hmem)
  have htaken := mem_taken_of_current hcurrent
  obtain ⟨hfiles, hbuffer⟩ := hi.memory_of_active hmem
  have hloaded := hi.loaded i cb c hw
  rw [store_eq]
  exact {
    hi with
    ledger := by
      have hactive := sum_update Worker.active s.worker i (.releasing c)
      rw [hw] at hactive
      refine Eq.trans ?_ hi.ledger
      unfold State.ledger
      rw [← show (∑ j, (Function.update s.worker i (.releasing c) j).active) + {cb} = ∑ j,
          (s.worker j).active from
        hactive.trans (add_zero _), ← Multiset.coe_add, Multiset.coe_singleton]
      abel
    counts := count_of_update hi (by rw [hw]; rfl)
    chunks := by
      rw [sum_worker Worker.held (w := .releasing c) (by rw [hw]; rfl)]
      exact hi.chunks
    loaded :=
      fun j cb' c' hj => hi.loaded j cb' c' (copying_of_update (fun _ _ hne => by cases hne) hj)
    memory := by
      show (store h s cb (s.chunk c)).files = s.phase.current.elim _ fun r =>
        filesAfter h _ r (s.done ++ [cb])
      rw [hcurrent]
      exact store_files hfiles hloaded
    current := fun r hr => by
      obtain rfl := Option.some.inj (hcurrent.symm.trans hr)
      exact store_buffer hbuffer hloaded
    results :=
      fun k r hr => (store_buffer_of_ne (hi.ne_of_served hcurrent (List.mem_of_getElem? hr))).trans
        (hi.results k r hr)
    untouched :=
      fun r hr => (store_buffer_of_ne (hi.ne_of_queue htaken hr)).trans (hi.untouched r hr) }

theorem inv_release (hi : Inv h files s) {i : Fin n} {c : ℕ} (hw : s.worker i = .releasing c) :
    Inv h files { s with
      freeList := s.freeList ++ [c]
      worker := Function.update s.worker i .finishing } := {
  hi with
  ledger := by
    refine Eq.trans ?_ hi.ledger
    unfold State.ledger
    rw [sum_worker Worker.active (w := .finishing) (by rw [hw]; rfl)]
  counts := count_of_update hi (by rw [hw]; rfl)
  chunks := by
    have hheld := sum_update Worker.held s.worker i .finishing
    rw [hw] at hheld
    refine Eq.trans ?_ hi.chunks
    rw [← show (∑ j, (Function.update s.worker i .finishing j).held) + {c} = ∑ j,
        (s.worker j).held from
      hheld.trans (add_zero _), ← Multiset.coe_add, Multiset.coe_singleton]
    abel
  loaded :=
    fun j cb' c' hj => hi.loaded j cb' c' (copying_of_update (fun _ _ hne => by cases hne) hj) }

theorem inv_finish (hi : Inv h files s) {i : Fin n} (hw : s.worker i = .finishing) :
    Inv h files { s with
      pendingCallbacks := Function.update s.pendingCallbacks i (s.pendingCallbacks i - 1)
      worker := Function.update s.worker i .waiting } := {
  hi with
  ledger := by
    refine Eq.trans ?_ hi.ledger
    unfold State.ledger
    rw [sum_worker Worker.active (w := .waiting) (by rw [hw]; rfl)]
  counts := fun j => by
    have hcount := hi.counts j
    by_cases hij : j = i
    · subst hij
      rw [hw] at hcount
      simp only [Function.update_self]
      exact Nat.sub_eq_of_eq_add hcount
    · simp only [Function.update_of_ne hij]
      exact hcount
  joined := fun j hjoined => by
    have hzero := hi.joined j hjoined
    have hij : j ≠ i := by
      rintro rfl
      have hwait := (hi.rest hzero).2
      rw [hw] at hwait
      cases hwait
    exact (Function.update_of_ne hij _ _).trans hzero
  chunks := by
    rw [sum_worker Worker.held (w := .waiting) (by rw [hw]; rfl)]
    exact hi.chunks
  loaded :=
    fun j cb' c' hj => hi.loaded j cb' c' (copying_of_update (fun _ _ hne => by cases hne) hj) }

theorem inv_work (hi : Inv h files s) {i : Fin n} {s' : State n} (hs : work h s i = some s') :
    Inv h files s' := by
  unfold work at hs
  split at hs
  · next hw =>
    split at hs
    · cases hs
    · next cb rest hqueue =>
      obtain rfl := Option.some.inj hs
      exact inv_begin hi hw hqueue
  · next cb hw =>
    split at hs
    · cases hs
    · next c rest hfree =>
      obtain rfl := Option.some.inj hs
      exact inv_acquire hi hw hfree
  · next cb c hw =>
    obtain rfl := Option.some.inj hs
    exact inv_move hi hw
  · next cb c hw =>
    obtain rfl := Option.some.inj hs
    exact inv_copy hi hw
  · next c hw =>
    obtain rfl := Option.some.inj hs
    exact inv_release hi hw
  · next hw =>
    obtain rfl := Option.some.inj hs
    exact inv_finish hi hw

/-- **What every step keeps**. -/
theorem inv_next (s : State n) (o : Step n) (s' : State n) (hi : Inv h files s)
    (hs : next h s o = some s') :
    Inv h files s' := by
  cases o with
  | accept c =>
    obtain rfl := Option.some.inj hs
    exact inv_accept hi c
  | wait id => exact inv_wait hi hs
  | schedule => exact inv_schedule hi hs
  | work i => exact inv_work hi hs

end Invariant

end MoeInfinity.Core.AioContext
