import MoeInfinity.Engine.TransferRuns

/-! # Which events tell of a handler that has returned

`_run_request` sets the event that is pending under the *id* of the transfer it has run, whether the
handler returned or raised. So an event tells that the handler of its own transfer has returned only
if no other transfer under the id is run meanwhile, and if no handler raises while it is waited for.

`due u x` are the transfers that the worker will still run for the id `x`. The worker neither adds
nor removes one before it has stored its result (`due_workerStep`), so it is enough that none is due
when the id is enqueued (`Careful`); then an event that was not set by `cancel` belongs to a
transfer with the status `COMPLETED` (`Fair`). -/

namespace MoeInfinity.Engine.Trust

open MoeInfinity.Python MoeInfinity.Lib.Runs
open MoeInfinity.Engine.Transfer MoeInfinity.Engine.Unified MoeInfinity.Engine.TransferRuns
open MoeInfinity.Engine.Unified.UnifiedTransferScheduler

variable {δ : Type}

/-! ### Transfers that are due -/

/-- The entries that the worker will still run for the id `x`: the one it is running, and those in
the queue less the one that the mark of a cancelled transfer discards. -/
def due (u : UnifiedTransferScheduler δ) (x : String) : List Entry :=
  (activeOf u x).toList ++ if x ∈ u.cancelled then (entriesOf u x).drop 1 else entriesOf u x

/-- The entry whose handler has raised, before its result is stored. -/
def raised (u : UnifiedTransferScheduler δ) : Option Entry :=
  match u.worker with
  | .finished e .failed => some e
  | _ => none

/-- No transfer is due under an id when it is enqueued, and a handler that has raised finds its
transfer given up. -/
def Careful (u : UnifiedTransferScheduler δ) : Op → Prop
  | .enqueue request uuid => due u (transferIdOf request uuid) = []
  | .worker .record => ∀ e ∈ raised u, u.pending e.id ≠ some e.seq
  | _ => True

instance (u : UnifiedTransferScheduler δ) : ∀ o, Decidable (Careful u o)
  | .enqueue _ _ => inferInstanceAs (Decidable (_ = []))
  | .worker .record => inferInstanceAs (Decidable (∀ e ∈ raised u, u.pending e.id ≠ some e.seq))
  | .worker .pop => isTrue trivial
  | .worker .check => isTrue trivial
  | .worker .start => isTrue trivial
  | .worker (.finish _) => isTrue trivial
  | .cancel _ => isTrue trivial
  | .registerHandler _ => isTrue trivial

/-- The entries that the worker has not stored a result for. -/
def left (u : UnifiedTransferScheduler δ) : List Entry := held u ++ (active u).toList ++ u.queue

variable {u : UnifiedTransferScheduler δ}

/-! ### The worker and the transfers that are due -/

theorem due_pop {e : Entry} {rest : List Entry} (hw : u.worker = .idle) (hq : u.queue = e :: rest)
    (x : String) : due { u with queue := rest, worker := .popped e } x = due u x := by
  unfold due activeOf entriesOf active held
  rw [hw, hq]
  rfl

theorem due_discard {e : Entry} (hw : u.worker = .popped e) (hc : e.id ∈ u.cancelled) (l : Life)
    (x : String) :
    due (setLife e.seq l { u with cancelled := u.cancelled.erase e.id, worker := .idle }) x =
      due u x := by
  unfold due activeOf entriesOf active held
  rw [hw]
  change (if x ∈ u.cancelled.erase e.id then _ else _) = (if x ∈ u.cancelled then _ else _)
  by_cases hx : x = e.id
  · subst hx
    simp [hc, setLife]
  · simp [hx, Ne.symm hx, setLife]

theorem due_submit {e : Entry} (hw : u.worker = .popped e) (hc : e.id ∉ u.cancelled) (x : String) :
    due { u with worker := .submitted e } x = due u x := by
  unfold due activeOf entriesOf active held
  rw [hw]
  by_cases hx : x = e.id
  · subst hx
    simp [hc, Option.filter]
  · simp [Ne.symm hx, Option.filter]

theorem due_record {e : Entry} {st : TransferStatus} (hw : u.worker = .finished e st) :
    due u e.id = e :: due (record e st u) e.id ∧
      ∀ x, x ≠ e.id → due (record e st u) x = due u x := by
  unfold due activeOf entriesOf active held
  rw [hw]
  constructor
  · simp [record, setLife, Option.filter]
  · intro x hx
    simp [record, setLife, Ne.symm hx, Option.filter]

/-! ### The invariant -/

/-- What is known of an entry without a result. -/
structure Awaiting (u : UnifiedTransferScheduler δ) (e : Entry) : Prop where
  le : e.seq ≤ u.seqCounter
  life : (u.lives e.seq).transferId = e.id
  handler : (u.lives e.seq).hasHandler = true → e.request.transferType ∈ u.handlers
  event : e.seq ∈ u.eventsSet → (u.lives e.seq).cancelledPending = true

/-- The handler of the transfer, if it has one, has returned. -/
structure Completed (l : Life) : Prop where
  status : l.status = some .completed
  finished : l.hasHandler = true → 0 < l.finished

/-- Only the transfer that is waited for is due under its id, and the events that were not set by
`cancel` belong to completed transfers. -/
structure Fair (u : UnifiedTransferScheduler δ) : Prop where
  due : ∀ x n, u.pending x = some n → ∀ e ∈ due u x, e.seq = n
  pending : ∀ x n, u.pending x = some n → n ≤ u.seqCounter ∧ (u.lives n).transferId = x ∧
    n ∉ u.eventsSet
  awaiting : ∀ e ∈ left u, Awaiting u e
  seqs : ((left u).map (·.seq)).Nodup
  sorted : u.queue.Pairwise Entry.Le
  events : ∀ n ∈ u.eventsSet, n ≤ u.seqCounter
  ran : ∀ e st, u.worker = .finished e st → st ≠ .cancelled ∧
    ((u.lives e.seq).hasHandler = true → 0 < (u.lives e.seq).finished)
  completed : ∀ n ∈ u.eventsSet, (u.lives n).cancelledPending = false → Completed (u.lives n)

/-- A life that goes on without an event or a result. -/
structure GoesOn (l l' : Life) : Prop where
  transferId : l'.transferId = l.transferId
  hasHandler : l'.hasHandler = l.hasHandler
  cancelledPending : l'.cancelledPending = l.cancelledPending
  status : l'.status = l.status
  finished : l.finished ≤ l'.finished

theorem GoesOn.refl (l : Life) : GoesOn l l := ⟨rfl, rfl, rfl, rfl, le_rfl⟩

theorem goesOn_setLife {n : ℕ} {l : Life} (h : GoesOn (u.lives n) l) (m : ℕ) :
    GoesOn (u.lives m) ((setLife n l u).lives m) := by
  by_cases hm : m = n
  · rw [hm, lives_setLife_self]; exact h
  · rw [lives_setLife_of_ne hm]; exact GoesOn.refl _

/-- What a step of the worker leaves as it is, before the result is stored. -/
structure Quiet (u u' : UnifiedTransferScheduler δ) : Prop where
  pending : u'.pending = u.pending
  eventsSet : u'.eventsSet = u.eventsSet
  seqCounter : u'.seqCounter = u.seqCounter
  handlers : u'.handlers = u.handlers
  due : ∀ x, Trust.due u' x = Trust.due u x
  left : (left u').Sublist (left u)
  queue : u'.queue.Sublist u.queue
  lives : ∀ n, GoesOn (u.lives n) (u'.lives n)

theorem Quiet.refl (u : UnifiedTransferScheduler δ) : Quiet u u :=
  ⟨rfl, rfl, rfl, rfl, fun _ => rfl, List.Sublist.refl _, List.Sublist.refl _,
    fun _ => GoesOn.refl _⟩

/-- The worker goes on with the entry it runs. -/
theorem quiet_within {e : Entry} (hact : active u = some e) {w : Worker} {l : Life} (d : δ)
    (hw : active { u with worker := w } = some e) (hheld : held { u with worker := w } = [])
    (hl : GoesOn (u.lives e.seq) l) :
    Quiet u (setLife e.seq l { u with worker := w, device := d }) := by
  set u' := setLife e.seq l { u with worker := w, device := d }
  have hact' : active u' = active u := hw.trans hact.symm
  have hheld' : held u' = held u := by
    refine Eq.trans hheld ?_
    unfold active at hact
    unfold held
    cases hwu : u.worker <;> simp_all
  refine ⟨rfl, rfl, rfl, rfl, fun x => ?_, ?_, List.Sublist.refl _, goesOn_setLife hl⟩
  · unfold Trust.due activeOf entriesOf
    rw [hact', hheld']
    rfl
  · unfold Trust.left
    rw [hact', hheld']
    exact List.Sublist.refl _

theorem quiet_skip {e : Entry} (hact : active u = some e) :
    Quiet u { u with worker := .finished e .completed } := by
  have h := quiet_within hact (w := .finished e .completed) u.device rfl rfl (GoesOn.refl _)
  unfold setLife at h
  rw [Function.update_eq_self] at h
  exact h

/-- **The steps of the worker** before the result is stored. -/
theorem quiet_workerStep (handle : TransferRequest → δ → δ) {w : WorkerStep} (hw : w ≠ .record) :
    Quiet u (workerStep handle u w) := by
  cases w with
  | pop =>
    simp only [UnifiedTransferScheduler.workerStep]
    split
    · next e rest hidle hq =>
      refine ⟨rfl, rfl, rfl, rfl, due_pop hidle hq, ?_, ?_, fun n => GoesOn.refl _⟩
      · unfold Trust.left held active
        rw [hidle, hq]
        exact List.Sublist.refl _
      · rw [hq]
        exact List.sublist_cons_self _ _
    · exact Quiet.refl u
  | check =>
    simp only [UnifiedTransferScheduler.workerStep]
    split
    · next e hpop =>
      split_ifs with hc
      · refine ⟨rfl, rfl, rfl, rfl, due_discard hpop hc _, ?_, List.Sublist.refl _,
          goesOn_setLife ⟨rfl, rfl, rfl, rfl, le_rfl⟩⟩
        unfold Trust.left held active
        rw [hpop]
        exact List.sublist_cons_self _ _
      · refine ⟨rfl, rfl, rfl, rfl, due_submit hpop hc, ?_, List.Sublist.refl _,
          fun n => GoesOn.refl _⟩
        unfold Trust.left held active
        rw [hpop]
        exact List.Sublist.refl _
    · exact Quiet.refl u
  | start =>
    simp only [UnifiedTransferScheduler.workerStep]
    split
    · next e hsub =>
      have hact : active u = some e := by unfold active; rw [hsub]
      split_ifs
      · exact quiet_within hact u.device rfl rfl ⟨rfl, rfl, rfl, rfl, le_rfl⟩
      · exact quiet_skip hact
    · exact Quiet.refl u
  | finish raises =>
    simp only [UnifiedTransferScheduler.workerStep]
    split
    · next e hh =>
      have hact : active u = some e := by unfold active; rw [hh]
      have hgo : GoesOn (u.lives e.seq)
          { u.lives e.seq with finished := (u.lives e.seq).finished + 1 } :=
        ⟨rfl, rfl, rfl, rfl, Nat.le_succ _⟩
      split_ifs
      · exact quiet_within hact u.device rfl rfl hgo
      · exact quiet_within hact (handle e.request u.device) rfl rfl hgo
    · exact Quiet.refl u
  | record => exact absurd rfl hw

/-- What the invariant says of the worker. -/
def Ran (u : UnifiedTransferScheduler δ) : Prop :=
  ∀ e st, u.worker = .finished e st → st ≠ .cancelled ∧
    ((u.lives e.seq).hasHandler = true → 0 < (u.lives e.seq).finished)

theorem Fair.ran_workerStep (h : Fair u) (handle : TransferRequest → δ → δ) {w : WorkerStep}
    (hw : w ≠ .record) : Ran (workerStep handle u w) := by
  cases w with
  | pop =>
    simp only [UnifiedTransferScheduler.workerStep]
    split
    · intro e st h0
      cases h0
    · exact h.ran
  | check =>
    simp only [UnifiedTransferScheduler.workerStep]
    split
    · split_ifs
      · intro e st h0
        cases h0
      · intro e st h0
        cases h0
    · exact h.ran
  | start =>
    simp only [UnifiedTransferScheduler.workerStep]
    split
    · next e hsub =>
      split_ifs with ht
      · intro e st h0
        cases h0
      · have hmem : e ∈ Trust.left u := by
          unfold Trust.left active
          rw [hsub]
          simp
        rintro e st ⟨⟩
        exact ⟨by simp, fun h0 => absurd ((h.awaiting e hmem).handler h0) ht⟩
    · exact h.ran
  | finish raises =>
    simp only [UnifiedTransferScheduler.workerStep]
    split
    · next e hh =>
      split_ifs
      · rintro e st ⟨⟩
        rw [lives_setLife_self]
        exact ⟨by simp, fun _ => Nat.succ_pos _⟩
      · rintro e st ⟨⟩
        rw [lives_setLife_self]
        exact ⟨by simp, fun _ => Nat.succ_pos _⟩
    · exact h.ran
  | record => exact absurd rfl hw

theorem Fair.quiet {u' : UnifiedTransferScheduler δ} (h : Fair u) (hq : Quiet u u')
    (hran : Ran u') :
    Fair u' := by
  refine ⟨fun x n hx e hmem => ?_, fun x n hx => ?_, fun e hmem => ?_,
    h.seqs.sublist (hq.left.map _), h.sorted.sublist hq.queue, ?_, hran, fun n hn hcan => ?_⟩
  · rw [hq.pending] at hx
    rw [hq.due] at hmem
    exact h.due x n hx e hmem
  · rw [hq.pending] at hx
    rw [hq.seqCounter, hq.eventsSet, (hq.lives n).transferId]
    exact h.pending x n hx
  · have ha := h.awaiting e (hq.left.subset hmem)
    refine ⟨by
      rw [hq.seqCounter]; exact ha.le, by rw [(hq.lives _).transferId]; exact ha.life, ?_, ?_⟩
    · rw [(hq.lives _).hasHandler, hq.handlers]; exact ha.handler
    · rw [(hq.lives _).cancelledPending, hq.eventsSet]; exact ha.event
  · rw [hq.eventsSet, hq.seqCounter]; exact h.events
  · rw [hq.eventsSet] at hn
    rw [(hq.lives n).cancelledPending] at hcan
    obtain ⟨h1, h2⟩ := h.completed n hn hcan
    refine ⟨(hq.lives n).status.trans h1, fun h3 => ?_⟩
    rw [(hq.lives n).hasHandler] at h3
    exact Nat.lt_of_lt_of_le (h2 h3) (hq.lives n).finished

/-- The event that the worker sets is the one of the transfer it has run. -/
theorem Fair.own (h : Fair u) {e : Entry} {st : TransferStatus}
    (hw : u.worker = .finished e st) {n : ℕ} (hn : u.pending e.id = some n) : n = e.seq := by
  refine (h.due e.id n hn e ?_).symm
  rw [(due_record hw).1]
  exact List.mem_cons_self

/-- The result of a transfer is stored. -/
theorem Fair.record (h : Fair u) {e : Entry} {st : TransferStatus} (hw : u.worker = .finished e st)
    (hst : st = .failed → u.pending e.id ≠ some e.seq) :
    Fair (UnifiedTransferScheduler.record e st u) := by
  set u' := UnifiedTransferScheduler.record e st u
  have hself : u'.lives e.seq = { u.lives e.seq with status := some st } := lives_setLife_self _ _
  have hlive : ∀ m, m ≠ e.seq → u'.lives m = u.lives m := fun m hm => lives_setLife_of_ne hm _
  have hpx : u'.pending e.id = none := Function.update_self _ _ _
  have hpend : ∀ y, y ≠ e.id → u'.pending y = u.pending y :=
    fun y hy => Function.update_of_ne hy _ _
  have hleft : left u = e :: left u' := by
    unfold left held active
    rw [hw]
    rfl
  have hseqs := h.seqs
  rw [hleft, List.map_cons, List.nodup_cons] at hseqs
  have hne : ∀ e' ∈ left u', e'.seq ≠ e.seq := fun e' he' h0 =>
    hseqs.1 (List.mem_map.mpr ⟨e', he', h0⟩)
  obtain ⟨-, hother⟩ := due_record hw
  have hown : ∀ n, u.pending e.id = some n → n = e.seq := fun n hn => h.own hw hn
  have hev : ∀ m, m ∈ u'.eventsSet ↔ m ∈ u.eventsSet ∨ u.pending e.id = some m := fun m =>
    mem_eventsSet_record
  refine ⟨fun x n hx e' he' => ?_, fun x n hx => ?_, fun e' he' => ?_, hseqs.2, h.sorted,
    fun m hm => ?_, fun e' st' h0 => ?_, fun m hm hcan => ?_⟩
  · have hxe : x ≠ e.id := by
      rintro rfl
      rw [hpx] at hx
      cases hx
    rw [hpend x hxe] at hx
    rw [hother x hxe] at he'
    exact h.due x n hx e' he'
  · have hxe : x ≠ e.id := by
      rintro rfl
      rw [hpx] at hx
      cases hx
    rw [hpend x hxe] at hx
    obtain ⟨h1, h2, h3⟩ := h.pending x n hx
    have hn : n ≠ e.seq := by
      rintro rfl
      exact hxe (h2.symm.trans (h.awaiting e (by rw [hleft]; exact List.mem_cons_self)).life)
    refine ⟨h1, by rw [hlive n hn]; exact h2, fun h4 => ?_⟩
    rcases (hev n).mp h4 with h4 | h4
    · exact h3 h4
    · exact hn (hown n h4)
  · have ha := h.awaiting e' (by rw [hleft]; exact List.mem_cons_of_mem _ he')
    refine ⟨ha.le, by rw [hlive _ (hne e' he')]; exact ha.life,
      by rw [hlive _ (hne e' he')]; exact ha.handler, fun h0 => ?_⟩
    rw [hlive _ (hne e' he')]
    rcases (hev _).mp h0 with h0 | h0
    · exact ha.event h0
    · exact absurd (hown _ h0) (hne e' he')
  · rcases (hev m).mp hm with hm | hm
    · exact h.events m hm
    · exact (h.pending _ m hm).1
  · cases h0
  · by_cases hme : m = e.seq
    · subst hme
      rw [hself] at hcan ⊢
      obtain ⟨hst₁, hfin⟩ := h.ran e st hw
      have ha := h.awaiting e (by rw [hleft]; exact List.mem_cons_self)
      rcases (hev _).mp hm with hset | hpending
      · exact absurd (ha.event hset) (by simpa using hcan)
      · refine ⟨?_, hfin⟩
        cases st with
        | completed => rfl
        | failed => exact absurd hpending (hst rfl)
        | cancelled => exact absurd rfl hst₁
    · rw [hlive m hme] at hcan ⊢
      rcases (hev m).mp hm with hm | hm
      · exact h.completed m hm hcan
      · exact absurd (hown m hm) hme

theorem Fair.workerStep (h : Fair u) (handle : TransferRequest → δ → δ) {w : WorkerStep}
    (hw : Careful u (.worker w)) : Fair (workerStep handle u w) := by
  by_cases hrec : w = .record
  · subst hrec
    simp only [UnifiedTransferScheduler.workerStep]
    split
    · next e st hfin =>
      refine h.record hfin ?_
      rintro rfl
      exact hw e (by unfold raised; rw [hfin]; rfl)
    · exact h
  · exact h.quiet (quiet_workerStep handle hrec) (h.ran_workerStep handle hrec)

/-! ### The callers -/

theorem fair_new (device : δ) : Fair (UnifiedTransferScheduler.new device) where
  due := fun x n h => by cases h
  pending := fun x n h => by cases h
  awaiting := fun e h => by cases h
  seqs := List.nodup_nil
  sorted := List.Pairwise.nil
  events := fun n h => absurd h (Finset.notMem_empty n)
  ran := fun e st h => by cases h
  completed := fun n h => absurd h (Finset.notMem_empty n)

theorem Fair.registerHandler (h : Fair u) (t : TransferType) : Fair (u.registerHandler t) := by
  refine ⟨h.due, h.pending, fun e he => ?_, h.seqs, h.sorted, h.events, h.ran, h.completed⟩
  have ha := h.awaiting e he
  exact ⟨ha.le, ha.life, fun h0 => Finset.mem_insert_of_mem (ha.handler h0), ha.event⟩

theorem Fair.enqueue (h : Fair u) {request : TransferRequest} {uuid : String}
    (hdue : Trust.due u (transferIdOf request uuid) = [])
    (hprio : ∀ e ∈ u.queue, e.id = transferIdOf request uuid →
      e.priority ≤ request.priority.value) :
    Fair (u.enqueue request uuid) := by
  set x := transferIdOf request uuid
  set n := u.seqCounter + 1
  set a : Entry := ⟨n, { request with transferId := x }⟩
  set u' := u.enqueue request uuid
  have hlive : ∀ m, m ≤ u.seqCounter → u'.lives m = u.lives m := fun m hm =>
    lives_setLife_of_ne (by omega) _
  have hnew : u'.lives n = { transferId := x, hasHandler := request.transferType ∈ u.handlers } :=
    lives_setLife_self _ _
  have hpend : ∀ y, y ≠ x → u'.pending y = u.pending y := fun y hy => Function.update_of_ne hy _ _
  have hpx : u'.pending x = some n := Function.update_self _ _ _
  have hqueue : u'.queue = u.queue.orderedInsert Entry.Le a := rfl
  have hseq : ∀ e ∈ left u, e.seq ≤ u.seqCounter := fun e he => (h.awaiting e he).le
  have hperm : (left u').Perm (a :: left u) := by
    have h1 := List.perm_orderedInsert Entry.Le a u.queue
    exact (h1.append_left (held u ++ (active u).toList)).trans List.perm_middle
  -- the new entry is behind the entries of its id
  have hentries : entriesOf u' x = entriesOf u x ++ [a] := by
    have hbehind : ∀ b ∈ u.queue, decide (b.id = x) = true → ¬ Entry.Le a b := by
      intro b hb hbx hle
      have h1 := hprio b hb (of_decide_eq_true hbx)
      have h2 := hseq b (List.mem_append_right _ hb)
      change b.priority ≤ a.priority at h1
      rcases hle with hlt | ⟨-, hle⟩
      · omega
      · change n ≤ b.seq at hle
        omega
    change (held u ++ u'.queue).filter _ = _
    rw [hqueue, List.filter_append, filter_orderedInsert (by simp [a, Entry.id]) h.sorted hbehind,
      ← List.append_assoc, ← List.filter_append]
    rfl
  have hother : ∀ y, y ≠ x → entriesOf u' y = entriesOf u y := by
    intro y hy
    change (held u ++ u'.queue).filter _ = (held u ++ u.queue).filter _
    rw [hqueue, List.filter_append, List.filter_append,
      filter_orderedInsert_of_neg (by simp [a, Entry.id, Ne.symm hy])]
  have hdue' : ∀ e ∈ Trust.due u' x, e = a := by
    intro e he
    have hact : activeOf u' x = activeOf u x := rfl
    unfold Trust.due at he hdue
    rw [hact, hentries] at he
    rw [List.append_eq_nil_iff] at hdue
    rw [hdue.1, List.nil_append] at he
    change e ∈ (if x ∈ u.cancelled then _ else _) at he
    have hdue := hdue.2
    split_ifs at he hdue with hc
    · cases hes : entriesOf u x with
      | nil =>
        rw [hes] at he
        cases he
      | cons b bs =>
        rw [hes] at he hdue
        change bs = [] at hdue
        rw [hdue] at he
        simpa using he
    · rw [hdue] at he
      simpa using he
  refine ⟨fun y m hy e he => ?_, fun y m hy => ?_, fun e he => ?_, ?_, ?_, fun m hm => ?_,
    fun e st hw => ?_, fun m hm hcan => ?_⟩
  · by_cases hyx : y = x
    · subst hyx
      rw [hpx] at hy
      rw [hdue' e he]
      exact Option.some.inj hy
    · rw [hpend y hyx] at hy
      refine h.due y m hy e ?_
      unfold Trust.due at he ⊢
      rw [hother y hyx] at he
      exact he
  · by_cases hyx : y = x
    · subst hyx
      rw [hpx] at hy
      obtain rfl := Option.some.inj hy
      refine ⟨le_rfl, by rw [hnew], fun h0 => ?_⟩
      have := h.events n h0
      omega
    · rw [hpend y hyx] at hy
      obtain ⟨h1, h2, h3⟩ := h.pending y m hy
      exact ⟨h1.trans (Nat.le_succ _), by rw [hlive m h1]; exact h2, h3⟩
  · rcases List.mem_cons.mp (hperm.subset he) with rfl | he
    · refine ⟨le_rfl, by rw [hnew]; rfl, fun h0 => ?_, fun h0 => ?_⟩
      · rw [hnew] at h0
        exact of_decide_eq_true h0
      · have := h.events n h0
        omega
    · have ha := h.awaiting e he
      refine ⟨ha.le.trans (Nat.le_succ _), ?_, ?_, ?_⟩
      all_goals rw [hlive _ ha.le]
      · exact ha.life
      · exact ha.handler
      · exact ha.event
  · refine ((hperm.map (·.seq)).nodup_iff).mpr (List.nodup_cons.mpr ⟨fun h0 => ?_, h.seqs⟩)
    obtain ⟨e, he, hen⟩ := List.mem_map.mp h0
    have := hseq e he
    change e.seq = n at hen
    omega
  · exact List.Pairwise.orderedInsert a u.queue h.sorted
  · exact (h.events m hm).trans (Nat.le_succ _)
  · have hle := hseq e (by unfold left active; rw [show u.worker = _ from hw]; simp)
    rw [hlive _ hle]
    exact h.ran e st hw
  · rw [hlive m (h.events m hm)] at hcan ⊢
    exact h.completed m hm hcan

theorem Fair.cancel (h : Fair u) (x : String) : Fair (u.cancel x).2 := by
  unfold UnifiedTransferScheduler.cancel
  cases hp : u.pending x with
  | none => exact h
  | some n =>
    obtain ⟨hn, hnx, hset⟩ := h.pending x n hp
    set l : Life := { u.lives n with
      cancelledPending := true
      cancelledQueued := n ∈ u.queue.map (·.seq) }
    set u' := setLife n l
      { u with
        cancelled := insert x u.cancelled
        pending := Function.update u.pending x none
        results := Function.update u.results x (some .cancelled)
        eventsSet := insert n u.eventsSet }
    have hself : u'.lives n = l := lives_setLife_self _ _
    have hlive : ∀ m, m ≠ n → u'.lives m = u.lives m := fun m hm => lives_setLife_of_ne hm _
    have hpx : u'.pending x = none := Function.update_self _ _ _
    have hpend : ∀ y, y ≠ x → u'.pending y = u.pending y := fun y hy => Function.update_of_ne hy _ _
    have hdue : ∀ y, y ≠ x → Trust.due u' y = Trust.due u y := by
      intro y hy
      have hc : y ∈ u'.cancelled ↔ y ∈ u.cancelled := by
        change y ∈ insert x u.cancelled ↔ _
        simp [hy]
      unfold Trust.due
      simp only [hc]
      rfl
    have hne : ∀ {y m}, u'.pending y = some m → y ≠ x := by
      rintro y m hy rfl
      rw [hpx] at hy
      cases hy
    refine ⟨fun y m hy e he => ?_, fun y m hy => ?_, fun e he => ?_, h.seqs, h.sorted,
      fun m hm => ?_, fun e st hw => ?_, fun m hm hcan => ?_⟩
    · have hyx := hne hy
      rw [hpend y hyx] at hy
      rw [hdue y hyx] at he
      exact h.due y m hy e he
    · have hyx := hne hy
      rw [hpend y hyx] at hy
      obtain ⟨h1, h2, h3⟩ := h.pending y m hy
      have hmn : m ≠ n := by
        rintro rfl
        exact hyx (h2.symm.trans hnx)
      refine ⟨h1, by rw [hlive m hmn]; exact h2, fun h4 => ?_⟩
      exact (Finset.mem_insert.mp h4).elim hmn h3
    · have ha := h.awaiting e he
      by_cases hen : e.seq = n
      · refine ⟨ha.le, ?_, ?_, ?_⟩
        all_goals rw [hen, hself]
        · change (u.lives n).transferId = e.id
          rw [← hen]; exact ha.life
        · change (u.lives n).hasHandler = true → _
          rw [← hen]; exact ha.handler
        · exact fun _ => rfl
      · refine ⟨ha.le, ?_, ?_, fun h0 => ?_⟩
        all_goals rw [hlive _ hen]
        · exact ha.life
        · exact ha.handler
        · exact ha.event ((Finset.mem_insert.mp h0).resolve_left hen)
    · rcases Finset.mem_insert.mp hm with rfl | hm
      · exact hn
      · exact h.events m hm
    · have hr := h.ran e st hw
      by_cases hen : e.seq = n
      · rw [hen] at hr ⊢
        rw [hself]; exact hr
      · rw [hlive _ hen]; exact hr
    · by_cases hmn : m = n
      · rw [hmn, hself] at hcan
        cases hcan
      · rw [hlive m hmn] at hcan ⊢
        exact h.completed m ((Finset.mem_insert.mp hm).resolve_left hmn) hcan

/-! ### One transfer -/

/-- The last transfer is `n`, under the id `x`: its event is pending, or it has been set. -/
structure Asked (u : UnifiedTransferScheduler δ) (n : ℕ) (x : String) : Prop where
  seq : u.seqCounter = n
  life : (u.lives n).transferId = x
  handler : (u.lives n).hasHandler = true
  kept : (u.lives n).cancelledPending = false
  event : u.pending x = some n ∨ (u.pending x = none ∧ n ∈ u.eventsSet)

theorem asked_enqueue {request : TransferRequest} (uuid : String)
    (h : request.transferType ∈ u.handlers) :
    Asked (u.enqueue request uuid) (u.seqCounter + 1) (transferIdOf request uuid) := by
  have hlife : (u.enqueue request uuid).lives (u.seqCounter + 1) =
      { transferId := transferIdOf request uuid, hasHandler := request.transferType ∈ u.handlers } :=
    lives_setLife_self _ _
  refine ⟨rfl, ?_, ?_, ?_, Or.inl (Function.update_self _ _ _)⟩
  all_goals rw [hlife]
  exact decide_eq_true h

theorem Asked.record {n : ℕ} {x : String} (h : Asked u n x) {e : Entry} {st : TransferStatus} :
    Asked (record e st u) n x := by
  set u' := UnifiedTransferScheduler.record e st u
  have hlives : (u'.lives n).transferId = (u.lives n).transferId ∧
      (u'.lives n).hasHandler = (u.lives n).hasHandler ∧
      (u'.lives n).cancelledPending = (u.lives n).cancelledPending := by
    by_cases hn : n = e.seq
    · have hself : u'.lives e.seq =
        { u.lives e.seq with status := some st } := lives_setLife_self _ _
      rw [hn, hself]
      exact ⟨rfl, rfl, rfl⟩
    · have hlive : u'.lives n = u.lives n := lives_setLife_of_ne hn _
      rw [hlive]
      exact ⟨rfl, rfl, rfl⟩
  obtain ⟨h1, h2, h3⟩ := hlives
  refine ⟨h.seq, h1.trans h.life, h2.trans h.handler, h3.trans h.kept, ?_⟩
  by_cases hx : x = e.id
  · have hpx : u'.pending x = none := by rw [hx]; exact Function.update_self _ _ _
    refine Or.inr ⟨hpx, mem_eventsSet_record.mpr ?_⟩
    rw [← hx]
    exact h.event.symm.imp_left And.right
  · have hpx : u'.pending x = u.pending x := Function.update_of_ne hx _ _
    rw [hpx]
    exact h.event.imp_right fun h0 => ⟨h0.1, mem_eventsSet_record.mpr (Or.inl h0.2)⟩

theorem Asked.workerStep {n : ℕ} {x : String} (h : Asked u n x) (handle : TransferRequest → δ → δ)
    (w : WorkerStep) : Asked (workerStep handle u w) n x := by
  by_cases hrec : w = .record
  · subst hrec
    simp only [UnifiedTransferScheduler.workerStep]
    split
    · exact h.record
    · exact h
  · have hq := quiet_workerStep (u := u) handle hrec
    refine ⟨hq.seqCounter.trans h.seq, (hq.lives n).transferId.trans h.life,
      (hq.lives n).hasHandler.trans h.handler, (hq.lives n).cancelledPending.trans h.kept, ?_⟩
    rw [hq.pending, hq.eventsSet]
    exact h.event

end MoeInfinity.Engine.Trust
