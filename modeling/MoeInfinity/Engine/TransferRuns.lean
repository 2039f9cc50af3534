import MoeInfinity.Engine.Unified
import MoeInfinity.Lib.Runs

/-! # Runs of the transfer scheduler

Every interleaving of callers and worker, where an id is enqueued again only after its event was
set. `cancel` marks the *id*, and the mark is taken away by the next entry with that id that the
worker takes out. If the handler of the cancelled transfer is running already, there is no such
entry: the mark stays, and the next transfer under the id is discarded (`next_transfer_dropped`).

An id is in one of six phases (`Phase`). It stays in them as long as a marked id is used again only
while its cancelled entry is still to come out, before the new one, and is not cancelled again
before that (`Orderly`); then every transfer is handled as required (`handledOnce_of_orderly`). -/

namespace MoeInfinity.Engine.TransferRuns

open MoeInfinity.Python MoeInfinity.Lib.Runs
open MoeInfinity.Engine.Transfer MoeInfinity.Engine.Unified
open MoeInfinity.Engine.Unified.UnifiedTransferScheduler

variable {δ : Type}

/-! ### What is required -/

/-- A transfer that is not cancelled before its event is set is not discarded, and its handler has
run exactly once when the event is set; no handler is run for a transfer cancelled in the queue. -/
structure Handled (u : UnifiedTransferScheduler δ) (n : ℕ) : Prop where
  kept : (u.lives n).cancelledPending = false → (u.lives n).dropped = false
  once : (u.lives n).cancelledPending = false → (u.lives n).hasHandler = true → n ∈ u.eventsSet →
    (u.lives n).started = 1 ∧ (u.lives n).finished = 1
  atMost : (u.lives n).started ≤ 1
  never : (u.lives n).cancelledQueued = true → (u.lives n).started = 0

/-- What is required of every state: all transfers so far are handled as they should. -/
def HandledOnce (u : UnifiedTransferScheduler δ) : Prop :=
  ∀ n, 0 < n → n ≤ u.seqCounter → Handled u n

/-- An id is enqueued again only after the events of its earlier transfers were set. -/
def ReusedAfterSet (u : UnifiedTransferScheduler δ) : Op → Prop
  | .enqueue request uuid => ∀ n, 0 < n → n ≤ u.seqCounter →
      (u.lives n).transferId = transferIdOf request uuid → n ∈ u.eventsSet
  | _ => True

theorem reusedAfterSet_iff (u : UnifiedTransferScheduler δ) (request : TransferRequest)
    (uuid : String) :
    (∀ n ∈ List.range (u.seqCounter + 1), 0 < n →
      (u.lives n).transferId = transferIdOf request uuid → n ∈ u.eventsSet) ↔
      ReusedAfterSet u (.enqueue request uuid) :=
  ⟨fun h n hn hle => h n (List.mem_range.mpr (by omega)) hn,
    fun h n hle hn => h n hn (by rw [List.mem_range] at hle; omega)⟩

instance (u : UnifiedTransferScheduler δ) : ∀ o, Decidable (ReusedAfterSet u o)
  | .enqueue request uuid => decidable_of_iff _ (reusedAfterSet_iff u request uuid)
  | .cancel _ => isTrue trivial
  | .registerHandler _ => isTrue trivial
  | .worker _ => isTrue trivial

/-- The entry that the worker has taken out and not yet tested. -/
def held (u : UnifiedTransferScheduler δ) : List Entry :=
  match u.worker with
  | .popped e => [e]
  | _ => []

/-- The entry whose handler is called, running or done. -/
def active (u : UnifiedTransferScheduler δ) : Option Entry :=
  match u.worker with
  | .submitted e => some e
  | .handling e => some e
  | .finished e _ => some e
  | _ => none

/-- The entries of an id that are still to be tested, in the order in which they will be. -/
def entriesOf (u : UnifiedTransferScheduler δ) (x : String) : List Entry :=
  (held u ++ u.queue).filter fun e => e.id = x

/-- A marked id is enqueued again only while its cancelled entry is to be tested before the new one,
and not cancelled again before that. -/
def Orderly (u : UnifiedTransferScheduler δ) : Op → Prop
  | .enqueue request uuid => transferIdOf request uuid ∈ u.cancelled →
      entriesOf u (transferIdOf request uuid) ≠ [] ∧
        ∀ e ∈ u.queue, e.id = transferIdOf request uuid → e.priority ≤ request.priority.value
  | .cancel x => u.pending x ≠ none → x ∉ u.cancelled
  | _ => True

instance (u : UnifiedTransferScheduler δ) : ∀ o, Decidable (Orderly u o)
  | .enqueue _ _ => inferInstanceAs (Decidable (_ → _ ≠ [] ∧ ∀ _ ∈ _, _ → _))
  | .cancel _ => inferInstanceAs (Decidable (_ → _))
  | .registerHandler _ => isTrue trivial
  | .worker _ => isTrue trivial

/-! ### Phases of an id -/

/-- The phases of an id: whether it is marked, its pending event, its entries, its entry with a
handler.

* `clean`: nothing is known of it;
* `waiting`, `running`: one transfer, in the queue or with its handler;
* `stale`: a cancelled entry, to be discarded;
* `superseded`: the same, and a new transfer behind it;
* `leftover`: the mark of a transfer that was cancelled when its handler was running. -/
inductive Phase : Bool → Option ℕ → List Entry → Option Entry → Prop
  | clean : Phase false none [] none
  | waiting (e : Entry) : Phase false (some e.seq) [e] none
  | running (e : Entry) : Phase false (some e.seq) [] (some e)
  | stale (m : Entry) : Phase true none [m] none
  | superseded (m e : Entry) (h : m.seq ≠ e.seq) : Phase true (some e.seq) [m, e] none
  | leftover (a : Option Entry) : Phase true none [] a

theorem Phase.of_clear {es : List Entry} {a : Option Entry} (h : Phase false none es a) :
    es = [] ∧ a = none := by
  cases h
  exact ⟨rfl, rfl⟩

theorem Phase.of_marked {es : List Entry} {a : Option Entry} (h : Phase true none es a) :
    (∃ m, es = [m] ∧ a = none) ∨ es = [] := by
  cases h with
  | stale m => exact Or.inl ⟨m, rfl, rfl⟩
  | leftover => exact Or.inr rfl

/-- The entry of an id with a handler. -/
def activeOf (u : UnifiedTransferScheduler δ) (x : String) : Option Entry :=
  (active u).filter fun e => e.id = x

/-- The phase of an id. -/
def PhaseOf (u : UnifiedTransferScheduler δ) (x : String) : Prop :=
  Phase (x ∈ u.cancelled) (u.pending x) (entriesOf u x) (activeOf u x)

/-- What the invariant says of a transfer. -/
structure Told (u : UnifiedTransferScheduler δ) (n : ℕ) : Prop where
  fresh : u.pending (u.lives n).transferId = some n → n ∉ u.eventsSet ∧
    (u.lives n).cancelledPending = false ∧ (u.lives n).dropped = false
  done : u.pending (u.lives n).transferId ≠ some n → n ∈ u.eventsSet ∧
    ((u.lives n).cancelledPending = false → (u.lives n).dropped = false ∧
      ((u.lives n).hasHandler = true → (u.lives n).started = 1 ∧ (u.lives n).finished = 1))
  atMost : (u.lives n).started ≤ 1
  never : (u.lives n).cancelledQueued = true → (u.lives n).started = 0

/-- The entry belongs to a transfer under its id, whose handler is registered. -/
structure Known (u : UnifiedTransferScheduler δ) (e : Entry) : Prop where
  pos : 0 < e.seq
  le : e.seq ≤ u.seqCounter
  life : (u.lives e.seq).transferId = e.id
  handler : (u.lives e.seq).hasHandler = true → e.request.transferType ∈ u.handlers

/-- An entry that is still to be tested. -/
structure Queued (u : UnifiedTransferScheduler δ) (e : Entry) : Prop where
  known : Known u e
  started : (u.lives e.seq).started = 0 ∧ (u.lives e.seq).finished = 0
  stale : u.pending e.id ≠ some e.seq → (u.lives e.seq).cancelledPending = true
  fresh : u.pending e.id = some e.seq → (u.lives e.seq).cancelledQueued = false

/-- The entry with a handler, where the worker is. -/
def AtStage (u : UnifiedTransferScheduler δ) : Worker → Prop
  | .idle => True
  | .popped _ => True
  | .submitted e => Known u e ∧ (u.lives e.seq).cancelledQueued = false ∧
      (u.lives e.seq).started = 0 ∧ (u.lives e.seq).finished = 0
  | .handling e => Known u e ∧ (u.lives e.seq).cancelledQueued = false ∧
      (u.lives e.seq).started = 1 ∧ (u.lives e.seq).finished = 0
  | .finished e _ => Known u e ∧ (u.lives e.seq).cancelledQueued = false ∧
      ((u.lives e.seq).hasHandler = true → (u.lives e.seq).started = 1 ∧
        (u.lives e.seq).finished = 1)

structure Inv (u : UnifiedTransferScheduler δ) : Prop where
  phase : ∀ x, PhaseOf u x
  told : ∀ n, 0 < n → n ≤ u.seqCounter → Told u n
  queued : ∀ e ∈ held u ++ u.queue, Queued u e
  stage : AtStage u u.worker
  sorted : u.queue.Pairwise Entry.Le
  pending : ∀ x n, u.pending x = some n → 0 < n ∧ n ≤ u.seqCounter ∧ (u.lives n).transferId = x
  events : ∀ n ∈ u.eventsSet, n ≤ u.seqCounter
  seqs : ((held u ++ u.queue ++ (active u).toList).map (·.seq)).Nodup

theorem inv_new (device : δ) : Inv (UnifiedTransferScheduler.new device) where
  phase := fun x => Phase.clean
  told := fun n h h' => by
    change n ≤ 0 at h'
    omega
  queued := fun e he => by cases he
  stage := trivial
  sorted := List.Pairwise.nil
  pending := fun x n h => by cases h
  events := fun n h => absurd h (Finset.notMem_empty n)
  seqs := List.nodup_nil

theorem Inv.handledOnce {u : UnifiedTransferScheduler δ} (h : Inv u) : HandledOnce u := by
  intro n hn hle
  have ht := h.told n hn hle
  by_cases hp : u.pending (u.lives n).transferId = some n
  · obtain ⟨h1, h2, h3⟩ := ht.fresh hp
    exact ⟨fun _ => h3, fun _ _ h0 => absurd h0 h1, ht.atMost, ht.never⟩
  · obtain ⟨h1, h2⟩ := ht.done hp
    exact ⟨fun hc => (h2 hc).1, fun hc hh _ => (h2 hc).2 hh, ht.atMost, ht.never⟩

/-! ### Entries and lives -/

variable {u : UnifiedTransferScheduler δ}

@[simp] theorem lives_setLife_self (n : ℕ) (l : Life) : (setLife n l u).lives n = l :=
  Function.update_self _ _ _

theorem lives_setLife_of_ne {n m : ℕ} (h : m ≠ n) (l : Life) :
    (setLife n l u).lives m = u.lives m :=
  Function.update_of_ne h _ _

theorem mem_entriesOf {x : String} {e : Entry} :
    e ∈ entriesOf u x ↔ e ∈ held u ++ u.queue ∧ e.id = x := by
  unfold entriesOf
  rw [List.mem_filter, decide_eq_true_iff]

theorem Entry.le_trans {a b c : Entry} (h : Entry.Le a b) (h' : Entry.Le b c) : Entry.Le a c := by
  unfold Entry.Le at *
  omega

theorem Entry.le_total (a b : Entry) : Entry.Le a b ∨ Entry.Le b a := by
  unfold Entry.Le
  omega

instance : IsTrans Entry Entry.Le := ⟨fun _ _ _ => Entry.le_trans⟩

instance : Std.Total Entry.Le := ⟨Entry.le_total⟩

/-- A new entry comes after the entries it is not before. -/
theorem filter_orderedInsert {p : Entry → Bool} {a : Entry} (ha : p a = true) :
    ∀ {l : List Entry}, l.Pairwise Entry.Le → (∀ b ∈ l, p b = true → ¬ Entry.Le a b) →
      (l.orderedInsert Entry.Le a).filter p = l.filter p ++ [a]
  | [], _, _ => by simp [ha]
  | b :: l, hs, hno => by
    obtain ⟨hb, hs⟩ := List.pairwise_cons.mp hs
    by_cases hab : Entry.Le a b
    · -- everything from here on is behind `a`, so nothing of it is selected
      have hnone : (b :: l).filter p = [] := by
        rw [List.filter_eq_nil_iff]
        intro c hc hpc
        refine hno c hc hpc ?_
        rcases List.mem_cons.mp hc with rfl | hc
        · exact hab
        · exact Entry.le_trans hab (hb c hc)
      rw [List.orderedInsert_cons, if_pos hab, List.filter_cons_of_pos ha, hnone]
      rfl
    · have ih := filter_orderedInsert ha hs fun c hc => hno c (List.mem_cons_of_mem _ hc)
      rw [List.orderedInsert_cons, if_neg hab, List.filter_cons, List.filter_cons, ih]
      split_ifs <;> rfl

theorem filter_orderedInsert_of_neg {p : Entry → Bool} {a : Entry} (ha : p a = false) :
    ∀ {l : List Entry}, (l.orderedInsert Entry.Le a).filter p = l.filter p
  | [] => by simp [ha]
  | b :: l => by
    rw [List.orderedInsert_cons]
    split_ifs
    · rw [List.filter_cons_of_neg (by simp [ha])]
    · rw [List.filter_cons, List.filter_cons, filter_orderedInsert_of_neg ha]

theorem Known.congr {u' : UnifiedTransferScheduler δ} {e : Entry} (h : Known u e)
    (hc : u.seqCounter ≤ u'.seqCounter)
    (hid : (u'.lives e.seq).transferId = (u.lives e.seq).transferId)
    (hh : (u'.lives e.seq).hasHandler = (u.lives e.seq).hasHandler)
    (hs : u.handlers ⊆ u'.handlers) :
    Known u' e :=
  ⟨h.pos, h.le.trans hc, hid.trans h.life, fun h0 => hs (h.handler (hh.symm.trans h0))⟩

/-- The lives of the other entries are not touched by what happens to an entry. -/
theorem Queued.congr {u' : UnifiedTransferScheduler δ} {e : Entry} (h : Queued u e)
    (hc : u.seqCounter ≤ u'.seqCounter) (hl : u'.lives e.seq = u.lives e.seq)
    (hs : u.handlers ⊆ u'.handlers) (hp : u'.pending e.id = u.pending e.id) : Queued u' e :=
  ⟨h.known.congr hc (by rw [hl]) (by rw [hl]) hs, by rw [hl]; exact h.started,
    fun h0 => by rw [hl]; exact h.stale (by rwa [hp] at h0),
    fun h0 => by rw [hl]; exact h.fresh (by rwa [hp] at h0)⟩

theorem Told.congr {u' : UnifiedTransferScheduler δ} {n : ℕ} (h : Told u n)
    (hl : u'.lives n = u.lives n)
    (hp : u'.pending (u.lives n).transferId = u.pending (u.lives n).transferId)
    (he : n ∈ u'.eventsSet ↔ n ∈ u.eventsSet) : Told u' n := by
  refine ⟨fun h0 => ?_, fun h0 => ?_, by rw [hl]; exact h.atMost, by rw [hl]; exact h.never⟩
  · rw [hl, hp] at h0
    rw [hl, he]
    exact h.fresh h0
  · rw [hl, hp] at h0
    rw [hl, he]
    exact h.done h0

/-! ### The steps of the callers -/

theorem Inv.registerHandler (h : Inv u) (t : TransferType) : Inv (u.registerHandler t) := by
  have hs : u.handlers ⊆ (u.registerHandler t).handlers := Finset.subset_insert _ _
  refine ⟨h.phase, fun n hn hle => (h.told n hn hle).congr rfl rfl Iff.rfl,
    fun e he => (h.queued e he).congr le_rfl rfl hs rfl, ?_, h.sorted, h.pending, h.events, h.seqs⟩
  have hst := h.stage
  change AtStage (u.registerHandler t) u.worker
  cases hw : u.worker with
  | idle => trivial
  | popped e => trivial
  | submitted e =>
    rw [hw] at hst
    exact ⟨hst.1.congr le_rfl rfl rfl hs, hst.2⟩
  | handling e =>
    rw [hw] at hst
    exact ⟨hst.1.congr le_rfl rfl rfl hs, hst.2⟩
  | finished e st =>
    rw [hw] at hst
    exact ⟨hst.1.congr le_rfl rfl rfl hs, hst.2⟩

/-- The stage of the worker depends on its entry's life only. -/
theorem AtStage.congr {u' : UnifiedTransferScheduler δ} {w : Worker} (h : AtStage u w)
    (hc : u.seqCounter ≤ u'.seqCounter) (hs : u.handlers ⊆ u'.handlers)
    (hl : ∀ e, Known u e → active { u with worker := w } = some e →
      (u'.lives e.seq).transferId = (u.lives e.seq).transferId ∧
      (u'.lives e.seq).hasHandler = (u.lives e.seq).hasHandler ∧
      (u'.lives e.seq).cancelledQueued = (u.lives e.seq).cancelledQueued ∧
      (u'.lives e.seq).started = (u.lives e.seq).started ∧
      (u'.lives e.seq).finished = (u.lives e.seq).finished) : AtStage u' w := by
  cases w with
  | idle => trivial
  | popped e => trivial
  | submitted e =>
    obtain ⟨h1, h2, h3, h4, h5⟩ := hl e h.1 rfl
    exact ⟨h.1.congr hc h1 h2 hs, by rw [h3]; exact h.2.1, by rw [h4, h5]; exact h.2.2⟩
  | handling e =>
    obtain ⟨h1, h2, h3, h4, h5⟩ := hl e h.1 rfl
    exact ⟨h.1.congr hc h1 h2 hs, by rw [h3]; exact h.2.1, by rw [h4, h5]; exact h.2.2⟩
  | finished e st =>
    obtain ⟨h1, h2, h3, h4, h5⟩ := hl e h.1 rfl
    exact ⟨h.1.congr hc h1 h2 hs, by rw [h3]; exact h.2.1, by rw [h2, h4, h5]; exact h.2.2⟩

theorem AtStage.known {e : Entry} (h : AtStage u u.worker) (he : active u = some e) :
    Known u e := by
  unfold active at he
  cases hw : u.worker <;> rw [hw] at he h <;> simp only [Option.some.injEq, reduceCtorEq] at he
  all_goals subst he; exact h.1

/-- An entry that is still to be tested is not the one with a handler. -/
theorem Inv.seq_ne (h : Inv u) {e e' : Entry} (he : e ∈ held u ++ u.queue)
    (he' : active u = some e') :
    e.seq ≠ e'.seq := by
  have hs := h.seqs
  rw [List.map_append, List.nodup_append] at hs
  exact hs.2.2 _ (List.mem_map.mpr ⟨e, he, rfl⟩) _
    (List.mem_map.mpr ⟨e', by rw [he']; simp, rfl⟩)

theorem Inv.enqueue (h : Inv u) {request : TransferRequest} {uuid : String}
    (hp : u.pending (transferIdOf request uuid) = none) (ho : Orderly u (.enqueue request uuid)) :
    Inv (u.enqueue request uuid) := by
  set x := transferIdOf request uuid
  set n := u.seqCounter + 1
  set a : Entry := ⟨n, { request with transferId := x }⟩
  set u' := u.enqueue request uuid
  have hax : a.id = x := rfl
  have hlive : ∀ m, m ≤ u.seqCounter → u'.lives m = u.lives m := fun m hm =>
    lives_setLife_of_ne (by omega) _
  have hnew : u'.lives n = { transferId := x, hasHandler := request.transferType ∈ u.handlers } :=
    lives_setLife_self _ _
  have hpend : ∀ y, y ≠ x → u'.pending y = u.pending y := fun y hy => Function.update_of_ne hy _ _
  have hpx : u'.pending x = some n := Function.update_self _ _ _
  have hqueue : u'.queue = u.queue.orderedInsert Entry.Le a := rfl
  have hmem : ∀ e, e ∈ held u' ++ u'.queue ↔ e = a ∨ e ∈ held u ++ u.queue := by
    intro e
    rw [hqueue, List.mem_append, List.mem_append, List.mem_orderedInsert]
    change e ∈ held u ∨ _ ↔ _
    tauto
  have hseqs : ∀ e ∈ held u ++ u.queue, e.seq ≤ u.seqCounter := fun e he => (h.queued e he).known.le
  have hclear : x ∉ u.cancelled → entriesOf u x = [] ∧ activeOf u x = none := by
    intro hc
    have hph : Phase (x ∈ u.cancelled) (u.pending x) (entriesOf u x) (activeOf u x) := h.phase x
    rw [hp, decide_eq_false hc] at hph
    exact hph.of_clear
  -- the new entry is behind the entries of its id
  have hentries : entriesOf u' x = entriesOf u x ++ [a] := by
    have hbehind : ∀ b ∈ u.queue, decide (b.id = x) = true → ¬ Entry.Le a b := by
      intro b hb hbx hle
      have hbx : b.id = x := of_decide_eq_true hbx
      have hbu : b ∈ held u ++ u.queue := List.mem_append_right _ hb
      have hle' := hseqs b hbu
      by_cases hc : x ∈ u.cancelled
      · have hprio := (ho hc).2 b hb hbx
        change b.priority ≤ a.priority at hprio
        rcases hle with hlt | ⟨-, hseq⟩
        · omega
        · change n ≤ b.seq at hseq
          omega
      · have hmem : b ∈ entriesOf u x := mem_entriesOf.mpr ⟨hbu, hbx⟩
        rw [(hclear hc).1] at hmem
        cases hmem
    change (held u ++ u'.queue).filter _ = _
    rw [hqueue, List.filter_append, filter_orderedInsert (by simp [hax]) h.sorted hbehind,
      ← List.append_assoc, ← List.filter_append]
    rfl
  have hother : ∀ y, y ≠ x → entriesOf u' y = entriesOf u y := by
    intro y hy
    change (held u ++ u'.queue).filter _ = (held u ++ u.queue).filter _
    rw [hqueue, List.filter_append, List.filter_append,
      filter_orderedInsert_of_neg (by simp [hax, Ne.symm hy])]
  refine ⟨fun y => ?_, fun m hm hle => ?_, fun e he => ?_, ?_, ?_, fun y m hy => ?_,
    fun m hm => ?_, ?_⟩
  · by_cases hy : y = x
    · subst hy
      have hph : Phase (x ∈ u.cancelled) (u.pending x) (entriesOf u x) (activeOf u x) := h.phase x
      change Phase (x ∈ u.cancelled) (u'.pending x) (entriesOf u' x) (activeOf u x)
      rw [hpx, hentries]
      by_cases hc : x ∈ u.cancelled
      · rw [hp, decide_eq_true hc] at hph
        rw [decide_eq_true hc]
        rcases hph.of_marked with ⟨m, hm, ha⟩ | h0
        · have hle := hseqs m (mem_entriesOf.mp (by rw [hm]; exact List.mem_cons_self)).1
          rw [hm, ha]
          exact Phase.superseded m a (by change m.seq ≠ n; omega)
        · exact absurd h0 (ho hc).1
      · rw [(hclear hc).1, (hclear hc).2, decide_eq_false hc]
        exact Phase.waiting a
    · change Phase (y ∈ u.cancelled) (u'.pending y) (entriesOf u' y) (activeOf u y)
      rw [hpend y hy, hother y hy]
      exact h.phase y
  · change m ≤ n at hle
    by_cases hmn : m = n
    · subst hmn
      refine ⟨fun _ => ⟨fun h0 => ?_, by rw [hnew], by rw [hnew]⟩, fun h0 => ?_, by rw [hnew]; simp,
        by rw [hnew]; simp⟩
      · have := h.events n h0
        omega
      · rw [hnew] at h0
        exact absurd hpx h0
    · have hmc : m ≤ u.seqCounter := by omega
      have ht := h.told m hm hmc
      by_cases hmx : (u.lives m).transferId = x
      · have hd := ht.done (by rw [hmx, hp]; simp)
        refine ⟨fun h0 => ?_,
          fun _ => by
            rw [hlive m hmc]; exact hd,
              by rw [hlive m hmc]; exact ht.atMost, by rw [hlive m hmc]; exact ht.never⟩
        rw [hlive m hmc, hmx, hpx] at h0
        exact absurd (Option.some.inj h0).symm hmn
      · exact ht.congr (hlive m hmc) (hpend _ hmx) Iff.rfl
  · rcases (hmem e).mp he with rfl | he
    · refine ⟨⟨Nat.succ_pos _, le_rfl, congrArg Life.transferId hnew, fun h0 => ?_⟩,
        by rw [hnew]; exact ⟨rfl, rfl⟩, fun h0 => absurd hpx h0, fun _ => by rw [hnew]⟩
      rw [hnew] at h0
      exact of_decide_eq_true h0
    · have hq := h.queued e he
      have hle := hseqs e he
      by_cases hex : e.id = x
      · refine ⟨hq.known.congr (Nat.le_succ _) (by rw [hlive _ hle]) (by rw [hlive _ hle])
          (Finset.Subset.refl _), by rw [hlive _ hle]; exact hq.started, fun _ => ?_, fun h0 => ?_⟩
        · rw [hlive _ hle]
          exact hq.stale (by rw [hex, hp]; simp)
        · rw [hex, hpx] at h0
          have := Option.some.inj h0
          omega
      · exact hq.congr (Nat.le_succ _) (hlive _ hle) (Finset.Subset.refl _) (hpend _ hex)
  · refine h.stage.congr (Nat.le_succ _) (Finset.Subset.refl _) fun e hk _ => ?_
    rw [hlive _ hk.le]
    exact ⟨rfl, rfl, rfl, rfl, rfl⟩
  · exact List.Pairwise.orderedInsert a u.queue h.sorted
  · by_cases hyx : y = x
    · subst hyx
      rw [hpx] at hy
      obtain rfl := Option.some.inj hy
      exact ⟨Nat.succ_pos _, le_rfl, by rw [hnew]⟩
    · rw [hpend y hyx] at hy
      obtain ⟨h1, h2, h3⟩ := h.pending y m hy
      exact ⟨h1, h2.trans (Nat.le_succ _), by rw [hlive m h2]; exact h3⟩
  · exact (h.events m hm).trans (Nat.le_succ _)
  · have hperm : (held u' ++ u'.queue ++ (active u').toList).Perm
        (a :: (held u ++ u.queue ++ (active u).toList)) := by
      rw [hqueue]
      have h1 := List.perm_orderedInsert Entry.Le a u.queue
      have h2 : (held u ++ u.queue.orderedInsert Entry.Le a).Perm (a :: (held u ++ u.queue)) :=
        (h1.append_left (held u)).trans List.perm_middle
      exact h2.append_right (active u).toList
    refine ((hperm.map (·.seq)).nodup_iff).mpr (List.nodup_cons.mpr ⟨fun h0 => ?_, h.seqs⟩)
    obtain ⟨e, he, hen⟩ := List.mem_map.mp h0
    change e.seq = n at hen
    rcases List.mem_append.mp he with he | he
    · have := hseqs e he
      omega
    · have hact : active u = some e := by simpa using he
      have := (h.stage.known hact).le
      omega

theorem Inv.cancel (h : Inv u) {x : String} (ho : Orderly u (.cancel x)) : Inv (u.cancel x).2 := by
  unfold UnifiedTransferScheduler.cancel
  cases hp : u.pending x with
  | none => exact h
  | some n =>
    have hc : x ∉ u.cancelled := ho (by rw [hp]; simp)
    obtain ⟨hn, hnc, hnx⟩ := h.pending x n hp
    set u' := setLife n { u.lives n with
        cancelledPending := true
        cancelledQueued := n ∈ u.queue.map (·.seq) }
      { u with
        cancelled := insert x u.cancelled
        pending := Function.update u.pending x none
        results := Function.update u.results x (some .cancelled)
        eventsSet := insert n u.eventsSet }
    have hself : u'.lives n = { u.lives n with
        cancelledPending := true
        cancelledQueued := n ∈ u.queue.map (·.seq) } := lives_setLife_self _ _
    have hlive : ∀ m, m ≠ n → u'.lives m = u.lives m := fun m hm => lives_setLife_of_ne hm _
    have hpx : u'.pending x = none := Function.update_self _ _ _
    have hpend : ∀ y, y ≠ x → u'.pending y = u.pending y := fun y hy => Function.update_of_ne hy _ _
    have hph : Phase (x ∈ u.cancelled) (u.pending x) (entriesOf u x) (activeOf u x) := h.phase x
    rw [hp, decide_eq_false hc] at hph
    refine ⟨fun y => ?_, fun m hm hle => ?_, fun e he => ?_, ?_, h.sorted, fun y m hy => ?_,
      fun m hm => ?_, h.seqs⟩
    · by_cases hy : y = x
      · subst hy
        change Phase (y ∈ insert y u.cancelled) (u'.pending y) (entriesOf u y) (activeOf u y)
        rw [hpx, decide_eq_true (Finset.mem_insert_self _ _)]
        revert hph
        generalize entriesOf u y = es
        generalize activeOf u y = a
        intro hph
        cases hph with
        | waiting e => exact Phase.stale e
        | running e => exact Phase.leftover (some e)
      · change Phase (y ∈ insert x u.cancelled) (u'.pending y) (entriesOf u y) (activeOf u y)
        rw [hpend y hy, show decide (y ∈ insert x u.cancelled) = decide (y ∈ u.cancelled)
          by simp [hy]]
        exact h.phase y
    · have ht := h.told m hm hle
      by_cases hmn : m = n
      · subst hmn
        refine ⟨fun h0 => ?_, fun _ => ⟨Finset.mem_insert_self _ _, fun h0 => ?_⟩, ?_, fun h0 => ?_⟩
        · rw [hself] at h0
          change u'.pending (u.lives m).transferId = _ at h0
          rw [hnx, hpx] at h0
          cases h0
        · rw [hself] at h0
          cases h0
        · rw [hself]; exact ht.atMost
        · rw [hself] at h0 ⊢
          obtain ⟨e, he, hem⟩ := List.mem_map.mp (of_decide_eq_true h0)
          rw [← hem]
          exact (h.queued e (List.mem_append_right _ he)).started.1
      · by_cases hmx : (u.lives m).transferId = x
        · have hd := ht.done (by rw [hmx, hp]; exact fun h0 => hmn (Option.some.inj h0).symm)
          refine ⟨fun h0 => ?_, fun _ => ?_, by rw [hlive m hmn]; exact ht.atMost,
            by rw [hlive m hmn]; exact ht.never⟩
          · rw [hlive m hmn, hmx, hpx] at h0
            cases h0
          · rw [hlive m hmn]
            exact ⟨Finset.mem_insert_of_mem hd.1, hd.2⟩
        · refine ht.congr (hlive m hmn) (hpend _ hmx) ?_
          change m ∈ insert n u.eventsSet ↔ _
          simp [hmn]
    · have hq := h.queued e he
      by_cases hen : e.seq = n
      · refine ⟨hq.known.congr le_rfl (by rw [hen, hself]) (by rw [hen, hself])
          (Finset.Subset.refl _), ?_, fun _ => by rw [hen, hself], fun h0 => ?_⟩
        · have := hq.started
          rw [hen] at this ⊢
          rw [hself]; exact this
        · have hex : e.id = x := by rw [← hq.known.life, hen, hnx]
          rw [hex, hpx] at h0
          cases h0
      · by_cases hex : e.id = x
        · have hst := hq.stale (by rw [hex, hp]; exact fun h0 => hen (Option.some.inj h0).symm)
          refine ⟨hq.known.congr le_rfl (by rw [hlive _ hen]) (by rw [hlive _ hen])
            (Finset.Subset.refl _),
            by rw [hlive _ hen]; exact hq.started,
            fun _ => by rw [hlive _ hen]; exact hst, fun h0 => ?_⟩
          rw [hex, hpx] at h0
          cases h0
        · exact hq.congr le_rfl (hlive _ hen) (Finset.Subset.refl _) (hpend _ hex)
    · refine h.stage.congr le_rfl (Finset.Subset.refl _) fun e hk he => ?_
      by_cases hen : e.seq = n
      · -- a transfer with a handler is no longer in the queue
        have hq : n ∉ u.queue.map (·.seq) := by
          intro h0
          obtain ⟨e', he', hen'⟩ := List.mem_map.mp h0
          exact h.seq_ne (List.mem_append_right _ he') he (hen'.trans hen.symm)
        have hfalse : (u.lives n).cancelledQueued = false := by
          have hst := h.stage
          change active u = some e at he
          unfold active at he
          cases hw : u.worker <;> rw [hw] at he hst <;>
            simp only [Option.some.injEq, reduceCtorEq] at he
          all_goals subst he; rw [← hen]; exact hst.2.1
        rw [hen, hself]
        exact ⟨rfl, rfl, by rw [hfalse]; exact decide_eq_false hq, rfl, rfl⟩
      · rw [hlive _ hen]
        exact ⟨rfl, rfl, rfl, rfl, rfl⟩
    · have hyx : y ≠ x := by
        rintro rfl
        rw [hpx] at hy
        cases hy
      rw [hpend y hyx] at hy
      obtain ⟨h1, h2, h3⟩ := h.pending y m hy
      refine ⟨h1, h2, ?_⟩
      by_cases hmn : m = n
      · rw [hmn, hnx] at h3
        exact absurd h3.symm hyx
      · rw [hlive m hmn]; exact h3
    · rcases Finset.mem_insert.mp hm with rfl | hm
      · exact hnc
      · exact h.events m hm

/-! ### The steps of the worker -/

theorem Inv.pop (h : Inv u) {e : Entry} {rest : List Entry} (hw : u.worker = .idle)
    (hq : u.queue = e :: rest) : Inv { u with queue := rest, worker := .popped e } := by
  have hheld : held u = [] := by unfold held; rw [hw]
  have hact : active u = none := by unfold active; rw [hw]
  have hall : held u ++ u.queue = [e] ++ rest := by rw [hheld, hq]; rfl
  have hqueued := h.queued
  have hseqs := h.seqs
  have hphase : ∀ x, Phase (x ∈ u.cancelled) (u.pending x)
      (([e] ++ rest).filter fun e => e.id = x) none := by
    intro x
    have hph : Phase (x ∈ u.cancelled) (u.pending x) (entriesOf u x) (activeOf u x) := h.phase x
    unfold entriesOf activeOf at hph
    rw [hall, hact] at hph
    exact hph
  rw [hall] at hqueued hseqs
  rw [hact] at hseqs
  refine ⟨hphase, fun n hn hle => (h.told n hn hle).congr rfl rfl Iff.rfl, fun e' he' =>
    (hqueued e' he').congr le_rfl rfl (Finset.Subset.refl _) rfl, trivial, ?_, h.pending,
      h.events, hseqs⟩
  have hs := h.sorted
  rw [hq] at hs
  exact hs.of_cons

/-- The phase of the other ids does not depend on the entry the worker has taken out. -/
theorem Inv.phase_popped (h : Inv u) {e : Entry} (hw : u.worker = .popped e) (x : String) :
    Phase (x ∈ u.cancelled) (u.pending x) (if e.id = x then e :: u.queue.filter (fun e => e.id = x)
      else u.queue.filter fun e => e.id = x) none := by
  have hph : Phase (x ∈ u.cancelled) (u.pending x) (entriesOf u x) (activeOf u x) := h.phase x
  have hact : activeOf u x = none := by unfold activeOf active; rw [hw]; rfl
  have hent : entriesOf u x = if e.id = x then e :: u.queue.filter (fun e => e.id = x)
      else u.queue.filter fun e => e.id = x := by
    unfold entriesOf held
    rw [hw]
    by_cases hx : e.id = x
    · rw [if_pos hx]
      simp [hx]
    · rw [if_neg hx]
      simp [hx]
  rwa [hact, hent] at hph

theorem Inv.discard (h : Inv u) {e : Entry} (hw : u.worker = .popped e) (hc : e.id ∈ u.cancelled) :
    Inv (setLife e.seq { u.lives e.seq with dropped := true }
      { u with cancelled := u.cancelled.erase e.id, worker := .idle }) := by
  set u' := setLife e.seq { u.lives e.seq with dropped := true }
    { u with cancelled := u.cancelled.erase e.id, worker := .idle }
  have hself : u'.lives e.seq = { u.lives e.seq with dropped := true } := lives_setLife_self _ _
  have hlive : ∀ m, m ≠ e.seq → u'.lives m = u.lives m := fun m hm => lives_setLife_of_ne hm _
  have hheld : held u = [e] := by unfold held; rw [hw]
  have hact : active u = none := by unfold active; rw [hw]
  have hqueued := h.queued
  have hseqs := h.seqs
  rw [hheld] at hqueued
  rw [hheld, hact] at hseqs
  have hq : Queued u e := hqueued e (List.mem_append_left _ (List.mem_singleton.mpr rfl))
  have hne : ∀ e' ∈ u.queue, e'.seq ≠ e.seq := by
    intro e' he' h0
    have hnd := hseqs
    simp only [Option.toList_none, List.append_nil, List.cons_append, List.nil_append,
      List.map_cons, List.nodup_cons] at hnd
    exact hnd.1 (List.mem_map.mpr ⟨e', he', h0⟩)
  have hph := h.phase_popped hw e.id
  rw [if_pos rfl, decide_eq_true hc] at hph
  have hstale : u.pending e.id ≠ some e.seq ∧
      Phase false (u.pending e.id) (u.queue.filter fun e' => e'.id = e.id) none := by
    revert hph
    generalize u.queue.filter (fun e' => decide (e'.id = e.id)) = es
    generalize u.pending e.id = p
    intro hph
    cases hph with
    | stale => exact ⟨by simp, Phase.clean⟩
    | superseded _ e' hm => exact ⟨fun h0 => hm (Option.some.inj h0).symm, Phase.waiting e'⟩
  refine ⟨fun x => ?_, fun m hm hle => ?_, fun e' he' => ?_, trivial, h.sorted, fun x m hx => ?_,
    h.events, ?_⟩
  · change Phase (x ∈ u.cancelled.erase e.id) (u.pending x) (u.queue.filter fun e => e.id = x) none
    by_cases hx : x = e.id
    · subst hx
      rw [decide_eq_false (Finset.notMem_erase _ _)]
      exact hstale.2
    · have hph := h.phase_popped hw x
      rw [if_neg (Ne.symm hx)] at hph
      rw [show decide (x ∈ u.cancelled.erase e.id) = decide (x ∈ u.cancelled) by simp [hx]]
      exact hph
  · have ht := h.told m hm hle
    by_cases hme : m = e.seq
    · subst hme
      refine ⟨fun h0 => ?_, fun h0 => ?_,
        by rw [hself]; exact ht.atMost, by rw [hself]; exact ht.never⟩
      · rw [hself] at h0
        change u.pending (u.lives e.seq).transferId = _ at h0
        rw [hq.known.life] at h0
        exact absurd h0 hstale.1
      · have hd := ht.done (by rw [hq.known.life]; exact hstale.1)
        refine ⟨hd.1, fun h1 => ?_⟩
        rw [hself] at h1
        change (u.lives e.seq).cancelledPending = false at h1
        rw [hq.stale hstale.1] at h1
        cases h1
    · exact ht.congr (hlive m hme) rfl Iff.rfl
  · have he' : e' ∈ u.queue := he'
    exact (hqueued e' (List.mem_append_right _ he')).congr le_rfl (hlive _ (hne e' he'))
      (Finset.Subset.refl _) rfl
  · obtain ⟨h1, h2, h3⟩ := h.pending x m hx
    refine ⟨h1, h2, ?_⟩
    by_cases hme : m = e.seq
    · rw [hme] at h3 ⊢
      rw [hself]; exact h3
    · rw [hlive m hme]; exact h3
  · simp only [Option.toList_none, List.append_nil, List.cons_append, List.nil_append,
      List.map_cons, List.nodup_cons] at hseqs
    change ((u.queue ++ []).map Entry.seq).Nodup
    rw [List.append_nil]
    exact hseqs.2

theorem Inv.submit (h : Inv u) {e : Entry} (hw : u.worker = .popped e) (hc : e.id ∉ u.cancelled) :
    Inv { u with worker := .submitted e } := by
  have hheld : held u = [e] := by unfold held; rw [hw]
  have hact : active u = none := by unfold active; rw [hw]
  have hqueued := h.queued
  have hseqs := h.seqs
  rw [hheld] at hqueued
  rw [hheld, hact] at hseqs
  have hq : Queued u e := hqueued e (List.mem_append_left _ (List.mem_singleton.mpr rfl))
  have hph := h.phase_popped hw e.id
  rw [if_pos rfl, decide_eq_false hc] at hph
  have hrun : u.pending e.id = some e.seq ∧ u.queue.filter (fun e' => e'.id = e.id) = [] := by
    revert hph
    generalize u.queue.filter (fun e' => decide (e'.id = e.id)) = es
    generalize u.pending e.id = p
    intro hph
    cases hph
    exact ⟨rfl, rfl⟩
  refine ⟨fun x => ?_, fun m hm hle => (h.told m hm hle).congr rfl rfl Iff.rfl, fun e' he' => ?_,
    ⟨hq.known.congr le_rfl rfl rfl (Finset.Subset.refl _), hq.fresh hrun.1, hq.started⟩, h.sorted,
    h.pending, h.events, ?_⟩
  · change Phase (x ∈ u.cancelled) (u.pending x) (u.queue.filter fun e => e.id = x)
      ((some e).filter fun e => e.id = x)
    by_cases hx : x = e.id
    · subst hx
      rw [hrun.1, hrun.2, decide_eq_false hc]
      have : (some e).filter (fun e' => decide (e'.id = e.id)) = some e := by simp
      rw [this]
      exact Phase.running e
    · have hph := h.phase_popped hw x
      rw [if_neg (Ne.symm hx)] at hph
      have : (some e).filter (fun e' => decide (e'.id = x)) = none := by simp [Ne.symm hx]
      rw [this]
      exact hph
  · exact (hqueued e' (List.mem_append_right _ he')).congr le_rfl rfl (Finset.Subset.refl _) rfl
  · have hperm : ([] ++ u.queue ++ [e]).Perm ([e] ++ u.queue ++ []) := by
      simp only [List.nil_append, List.append_nil]
      exact List.perm_append_comm
    exact ((hperm.map (·.seq)).nodup_iff).mpr hseqs

/-- A step of the worker within a handler, that changes the life of its transfer only. -/
theorem Inv.within (h : Inv u) {e : Entry} (he : active u = some e) {w : Worker} {l : Life} {d : δ}
    (hw : active { u with worker := w } = some e ∧ held { u with worker := w } = [])
    (hid : l.transferId = (u.lives e.seq).transferId)
    (hc : l.cancelledPending = (u.lives e.seq).cancelledPending)
    (hd : l.dropped = (u.lives e.seq).dropped) (hh : l.hasHandler = (u.lives e.seq).hasHandler)
    (hmost : l.started ≤ 1) (hnever : l.cancelledQueued = true → l.started = 0)
    (hdone : (u.lives e.seq).hasHandler = true →
      (u.lives e.seq).started = 1 ∧ (u.lives e.seq).finished = 1 → l.started = 1 ∧ l.finished = 1)
    (hstage : AtStage (setLife e.seq l { u with worker := w, device := d }) w) :
    Inv (setLife e.seq l { u with worker := w, device := d }) := by
  set u' := setLife e.seq l { u with worker := w, device := d }
  have hself : u'.lives e.seq = l := lives_setLife_self _ _
  have hlive : ∀ m, m ≠ e.seq → u'.lives m = u.lives m := fun m hm => lives_setLife_of_ne hm _
  have hheld : held u = [] := by
    unfold active at he
    unfold held
    cases hwu : u.worker <;> simp_all
  have hheld' : held u' = held u := hw.2.trans hheld.symm
  have hact' : active u' = active u := hw.1.trans he.symm
  refine ⟨fun x => ?_, fun m hm hle => ?_, fun e' he' => ?_, hstage, h.sorted, fun x m hx => ?_,
    h.events, ?_⟩
  · have hph : Phase (x ∈ u.cancelled) (u.pending x) (entriesOf u x) (activeOf u x) := h.phase x
    unfold entriesOf activeOf at hph
    change Phase (x ∈ u.cancelled) (u.pending x) ((held u' ++ u.queue).filter fun e => e.id = x)
      ((active u').filter fun e => e.id = x)
    rwa [hheld', hact']
  · have ht := h.told m hm hle
    by_cases hme : m = e.seq
    · subst hme
      refine ⟨fun h0 => ?_, fun h0 => ?_, by rw [hself]; exact hmost, by rw [hself]; exact hnever⟩
      · rw [hself, hid] at h0
        obtain ⟨h1, h2, h3⟩ := ht.fresh h0
        rw [hself, hc, hd]
        exact ⟨h1, h2, h3⟩
      · rw [hself, hid] at h0
        obtain ⟨h1, h2⟩ := ht.done h0
        rw [hself, hc, hd, hh]
        exact ⟨h1, fun h3 => ⟨(h2 h3).1, fun h4 => hdone h4 ((h2 h3).2 h4)⟩⟩
    · exact ht.congr (hlive m hme) rfl Iff.rfl
  · have he' : e' ∈ held u ++ u.queue := by rw [← hheld']; exact he'
    exact (h.queued e' he').congr le_rfl (hlive _ (h.seq_ne he' he)) (Finset.Subset.refl _) rfl
  · obtain ⟨h1, h2, h3⟩ := h.pending x m hx
    refine ⟨h1, h2, ?_⟩
    by_cases hme : m = e.seq
    · rw [hme] at h3 ⊢
      rw [hself, hid]; exact h3
    · rw [hlive m hme]; exact h3
  · change ((held u' ++ u.queue ++ (active u').toList).map (·.seq)).Nodup
    rw [hheld', hact']
    exact h.seqs

theorem Inv.start (h : Inv u) {e : Entry} (hw : u.worker = .submitted e) :
    Inv (setLife e.seq { u.lives e.seq with started := (u.lives e.seq).started + 1 }
      { u with worker := .handling e }) := by
  have hst := h.stage
  rw [hw] at hst
  obtain ⟨hk, hcq, hs, hf⟩ := hst
  have hact : active u = some e := by unfold active; rw [hw]
  refine h.within hact (w := .handling e) (d := u.device) ⟨rfl, rfl⟩ rfl rfl rfl rfl ?_ ?_ ?_ ?_
  · change (u.lives e.seq).started + 1 ≤ 1
    omega
  · intro h0
    change (u.lives e.seq).cancelledQueued = true at h0
    rw [hcq] at h0
    cases h0
  · intro _ h0
    omega
  · refine ⟨hk.congr le_rfl ?_ ?_ (Finset.Subset.refl _), ?_, ?_, ?_⟩
    all_goals rw [lives_setLife_self]
    · exact hcq
    · change (u.lives e.seq).started + 1 = 1
      omega
    · exact hf

theorem Inv.skip (h : Inv u) {e : Entry} (hw : u.worker = .submitted e)
    (ht : e.request.transferType ∉ u.handlers) :
    Inv { u with worker := .finished e .completed } := by
  have hst := h.stage
  rw [hw] at hst
  obtain ⟨hk, hcq, hs, hf⟩ := hst
  have hact : active u = some e := by unfold active; rw [hw]
  have heq : setLife e.seq (u.lives e.seq)
      { u with worker := .finished e .completed, device := u.device } =
        { u with worker := .finished e .completed } := by
    unfold setLife
    rw [Function.update_eq_self]
  rw [← heq]
  refine h.within hact ⟨rfl, rfl⟩ rfl rfl rfl rfl (by omega) (fun _ => hs) (fun _ h0 => h0) ?_
  refine ⟨hk.congr le_rfl ?_ ?_ (Finset.Subset.refl _), ?_, ?_⟩
  all_goals rw [lives_setLife_self]
  · exact hcq
  · exact fun h0 => absurd (hk.handler h0) ht

theorem Inv.finish (h : Inv u) {e : Entry} (hw : u.worker = .handling e)
    (st : TransferStatus) (d : δ) :
    Inv (setLife e.seq { u.lives e.seq with finished := (u.lives e.seq).finished + 1 }
      { u with worker := .finished e st, device := d }) := by
  have hst := h.stage
  rw [hw] at hst
  obtain ⟨hk, hcq, hs, hf⟩ := hst
  have hact : active u = some e := by unfold active; rw [hw]
  refine h.within hact ⟨rfl, rfl⟩ rfl rfl rfl rfl (by change (u.lives e.seq).started ≤ 1; omega)
    ?_ ?_ ?_
  · intro h0
    change (u.lives e.seq).cancelledQueued = true at h0
    rw [hcq] at h0
    cases h0
  · intro _ h0
    omega
  · refine ⟨hk.congr le_rfl ?_ ?_ (Finset.Subset.refl _), ?_, ?_⟩
    all_goals rw [lives_setLife_self]
    · exact hcq
    · refine fun _ => ⟨hs, ?_⟩
      change (u.lives e.seq).finished + 1 = 1
      omega

/-- The id of the transfer whose result is stored: it is the pending one, or none is pending. -/
theorem Inv.phase_active (h : Inv u) {e : Entry} (he : active u = some e) :
    entriesOf u e.id = [] ∧ ((e.id ∉ u.cancelled ∧ u.pending e.id = some e.seq) ∨
      (e.id ∈ u.cancelled ∧ u.pending e.id = none)) := by
  have hph : Phase (e.id ∈ u.cancelled) (u.pending e.id) (entriesOf u e.id) (activeOf u e.id) :=
    h.phase e.id
  have hact : activeOf u e.id = some e := by unfold activeOf; rw [he]; simp
  rw [hact] at hph
  by_cases hc : e.id ∈ u.cancelled
  · rw [decide_eq_true hc] at hph
    revert hph
    generalize entriesOf u e.id = es
    generalize u.pending e.id = p
    intro hph
    cases hph
    exact ⟨rfl, Or.inr ⟨hc, rfl⟩⟩
  · rw [decide_eq_false hc] at hph
    revert hph
    generalize entriesOf u e.id = es
    generalize u.pending e.id = p
    intro hph
    cases hph
    exact ⟨rfl, Or.inl ⟨hc, rfl⟩⟩

/-- The event that is set is the one pending under the id. -/
theorem mem_eventsSet_record {e : Entry} {st : TransferStatus} {m : ℕ} :
    m ∈ (record e st u).eventsSet ↔ m ∈ u.eventsSet ∨ u.pending e.id = some m := by
  cases hp : u.pending e.id with
  | none =>
    have hset : (record e st u).eventsSet = u.eventsSet := by
      unfold record setLife
      simp only [hp]
    simp [hset]
  | some n =>
    have hset : (record e st u).eventsSet = insert n u.eventsSet := by
      unfold record setLife
      simp only [hp]
    simp [hset, or_comm, eq_comm]

theorem Inv.record (h : Inv u) {e : Entry} {st : TransferStatus} (hw : u.worker = .finished e st) :
    Inv (UnifiedTransferScheduler.record e st u) := by
  have hst := h.stage
  rw [hw] at hst
  obtain ⟨hk, hcq, hfin⟩ := hst
  have hact : active u = some e := by unfold active; rw [hw]
  have hheld : held u = [] := by unfold held; rw [hw]
  obtain ⟨hent, hcase⟩ := h.phase_active hact
  set u' := UnifiedTransferScheduler.record e st u
  have hself : u'.lives e.seq = { u.lives e.seq with status := some st } := lives_setLife_self _ _
  have hlive : ∀ m, m ≠ e.seq → u'.lives m = u.lives m := fun m hm => lives_setLife_of_ne hm _
  have hpx : u'.pending e.id = none := Function.update_self _ _ _
  have hpend : ∀ y, y ≠ e.id → u'.pending y = u.pending y :=
    fun y hy => Function.update_of_ne hy _ _
  have hev : ∀ m, m ∈ u'.eventsSet ↔ m ∈ u.eventsSet ∨ u.pending e.id = some m := fun m =>
    mem_eventsSet_record
  have hq : ∀ e' ∈ u.queue, e'.id ≠ e.id := by
    intro e' he' h0
    have : e' ∈ entriesOf u e.id := mem_entriesOf.mpr ⟨List.mem_append_right _ he', h0⟩
    rw [hent] at this
    cases this
  refine ⟨fun x => ?_, fun m hm hle => ?_, fun e' he' => ?_, trivial, h.sorted, fun y m hy => ?_,
    fun m hm => ?_, ?_⟩
  · have hph : Phase (x ∈ u.cancelled) (u.pending x) (entriesOf u x) (activeOf u x) := h.phase x
    change Phase (x ∈ u.cancelled) (u'.pending x) (u.queue.filter fun e => e.id = x) none
    unfold entriesOf activeOf at hph
    rw [hheld, hact] at hph
    by_cases hx : x = e.id
    · subst hx
      have hnil : u.queue.filter (fun e' => decide (e'.id = e.id)) = [] := by
        rw [List.filter_eq_nil_iff]
        intro e' he'
        simpa using hq e' he'
      rw [hpx, hnil]
      rcases hcase with ⟨hc, -⟩ | ⟨hc, -⟩
      · rw [decide_eq_false hc]; exact Phase.clean
      · rw [decide_eq_true hc]; exact Phase.leftover none
    · rw [hpend x hx]
      have : (some e).filter (fun e' => decide (e'.id = x)) = none := by simp [Ne.symm hx]
      rw [this] at hph
      exact hph
  · have ht := h.told m hm hle
    by_cases hme : m = e.seq
    · subst hme
      refine ⟨fun h0 => ?_, fun _ => ?_,
        by rw [hself]; exact ht.atMost, by rw [hself]; exact ht.never⟩
      · rw [hself] at h0
        change u'.pending (u.lives e.seq).transferId = _ at h0
        rw [hk.life, hpx] at h0
        cases h0
      · rw [hself, hev]
        rcases hcase with ⟨-, hp⟩ | ⟨-, hp⟩
        · obtain ⟨-, h2, h3⟩ := ht.fresh (by rw [hk.life]; exact hp)
          exact ⟨Or.inr hp, fun _ => ⟨h3, hfin⟩⟩
        · have hd := ht.done (by rw [hk.life, hp]; simp)
          exact ⟨Or.inl hd.1, hd.2⟩
    · by_cases hmx : (u.lives m).transferId = e.id
      · have hnp : u.pending e.id ≠ some m := by
          rcases hcase with ⟨-, hp⟩ | ⟨-, hp⟩
          · rw [hp]; exact fun h0 => hme (Option.some.inj h0).symm
          · rw [hp]; simp
        have hd := ht.done (by rw [hmx]; exact hnp)
        refine ⟨fun h0 => ?_, fun _ => ?_, by rw [hlive m hme]; exact ht.atMost,
          by rw [hlive m hme]; exact ht.never⟩
        · rw [hlive m hme, hmx, hpx] at h0
          cases h0
        · rw [hlive m hme, hev]
          exact ⟨Or.inl hd.1, hd.2⟩
      · refine ht.congr (hlive m hme) (hpend _ hmx) ?_
        rw [hev]
        refine ⟨fun h0 => h0.resolve_right fun h1 => ?_, Or.inl⟩
        exact hmx (h.pending _ m h1).2.2
  · have he' : e' ∈ u.queue := he'
    have heu : e' ∈ held u ++ u.queue := List.mem_append_right _ he'
    exact (h.queued e' heu).congr le_rfl (hlive _ (h.seq_ne heu hact)) (Finset.Subset.refl _)
      (hpend _ (hq e' he'))
  · have hyx : y ≠ e.id := by
      rintro rfl
      rw [hpx] at hy
      cases hy
    rw [hpend y hyx] at hy
    obtain ⟨h1, h2, h3⟩ := h.pending y m hy
    refine ⟨h1, h2, ?_⟩
    by_cases hme : m = e.seq
    · rw [hme, hk.life] at h3
      exact absurd h3.symm hyx
    · rw [hlive m hme]; exact h3
  · rcases (hev m).mp hm with hm | hm
    · exact h.events m hm
    · exact (h.pending _ m hm).2.1
  · have hs := h.seqs
    rw [hheld, hact, List.nil_append, List.map_append, List.nodup_append] at hs
    change ((u.queue ++ []).map Entry.seq).Nodup
    rw [List.append_nil]
    exact hs.1

theorem Inv.workerStep (h : Inv u) (handle : TransferRequest → δ → δ) (w : WorkerStep) :
    Inv (workerStep handle u w) := by
  cases w with
  | pop =>
    simp only [UnifiedTransferScheduler.workerStep]
    split
    · next e rest hw hq => exact h.pop hw hq
    · exact h
  | check =>
    simp only [UnifiedTransferScheduler.workerStep]
    split
    · next e hw =>
      split_ifs with hc
      · exact h.discard hw hc
      · exact h.submit hw hc
    · exact h
  | start =>
    simp only [UnifiedTransferScheduler.workerStep]
    split
    · next e hw =>
      split_ifs with ht
      · exact h.start hw
      · exact h.skip hw ht
    · exact h
  | finish raises =>
    simp only [UnifiedTransferScheduler.workerStep]
    split
    · next e hw =>
      split_ifs
      · exact h.finish hw .failed u.device
      · exact h.finish hw .completed (handle e.request u.device)
    · exact h
  | record =>
    simp only [UnifiedTransferScheduler.workerStep]
    split
    · next e st hw => exact h.record hw
    · exact h

/-! ### Runs -/

/-- An id whose events were all set has no pending event. -/
theorem Inv.pending_none (h : Inv u) {request : TransferRequest} {uuid : String}
    (hr : ReusedAfterSet u (.enqueue request uuid)) :
    u.pending (transferIdOf request uuid) = none := by
  cases hp : u.pending (transferIdOf request uuid) with
  | none => rfl
  | some n =>
    obtain ⟨h1, h2, h3⟩ := h.pending _ n hp
    exact absurd (hr n h1 h2 h3) ((h.told n h1 h2).fresh (by rw [h3]; exact hp)).1

/-- **One step** keeps the invariant. -/
theorem Inv.step (h : Inv u) (handle : TransferRequest → δ → δ) {o : Op} (hr : ReusedAfterSet u o)
    (ho : Orderly u o) : Inv (step handle u o) := by
  cases o with
  | registerHandler t => exact h.registerHandler t
  | enqueue request uuid => exact h.enqueue (h.pending_none hr) ho
  | cancel x => exact h.cancel ho
  | worker w => exact h.workerStep handle w

/-- **Transfers are handled once**: in every interleaving in which ids are reused after their event
was set, and marked ids in order, after every step each transfer is handled as required. -/
theorem handledOnce_of_orderly (handle : TransferRequest → δ → δ) (device : δ) (ops : List Op)
    (hr : Along (step handle) ReusedAfterSet (UnifiedTransferScheduler.new device) ops)
    (ho : Along (step handle) Orderly (UnifiedTransferScheduler.new device) ops) :
    Along (step handle) (fun u o => HandledOnce (step handle u o))
      (UnifiedTransferScheduler.new device) ops := by
  have hG : Along (step handle) (fun u o => ReusedAfterSet u o ∧ Orderly u o)
      (UnifiedTransferScheduler.new device) ops := along_and hr ho
  exact along_of_inv (I := Inv) (fun u o hu h => hu.step handle h.1 h.2)
    (fun u o hu h => (hu.step handle h.1 h.2).handledOnce) ops _ (inv_new device) hG

/-! ### Both cases for one id -/

/-- The transfer of a swap-out of the blocks `blockIds`. -/
def swapOutA (blockIds : List ℕ) : TransferRequest where
  transferId := "swap_out_a"
  transferType := .kvSwapOut
  priority := .high
  sourceDevice := "cuda:0"
  targetDevice := "cpu"
  blockIds := blockIds

/-- A transfer is cancelled in the queue; the next one under its id is handled. -/
def cancelInQueue : List Op :=
  [.registerHandler .kvSwapOut, .enqueue (swapOutA [0]) "", .cancel "swap_out_a",
    .enqueue (swapOutA [1]) "", .worker .pop, .worker .check, .worker .pop, .worker .check,
    .worker .start, .worker (.finish false), .worker .record]

theorem handledOnce_cancelInQueue :
    Along (step fun _ (d : Unit) => d) (fun u o => HandledOnce (step (fun _ d => d) u o))
        (UnifiedTransferScheduler.new ()) cancelInQueue ∧
      ((exec (step fun _ d => d) (UnifiedTransferScheduler.new ()) cancelInQueue).lives 1).dropped ∧
      ((exec (step fun _ d => d) (UnifiedTransferScheduler.new ()) cancelInQueue).lives 2).started =
      1 :=
  ⟨handledOnce_of_orderly (fun _ d => d) () cancelInQueue (by decide) (by decide),
    by decide, by decide⟩

/-- A transfer is cancelled when its handler is running; its id is used again after the handler has
returned. -/
def cancelInHandler : List Op :=
  [.registerHandler .kvSwapOut, .enqueue (swapOutA [0]) "", .worker .pop, .worker .check,
    .worker .start, .cancel "swap_out_a", .worker (.finish false), .worker .record,
    .enqueue (swapOutA [1]) "", .worker .pop]

/-- The worker discards the second transfer, for which `cancel` was never called. -/
theorem next_transfer_dropped : ¬ ∀ ops : List Op,
    Along (step fun _ (d : Unit) => d) ReusedAfterSet (UnifiedTransferScheduler.new ()) ops →
    HandledOnce (exec (step fun _ d => d) (UnifiedTransferScheduler.new ()) ops) := by
  intro h
  have hrun := h (cancelInHandler ++ [.worker .check]) (by decide)
  have hkept := (hrun 2 (by decide) (by decide)).kept (by decide)
  have hdropped : ((exec (step fun _ d => d) (UnifiedTransferScheduler.new ())
      (cancelInHandler ++ [.worker .check])).lives 2).dropped = true := by decide
  rw [hdropped] at hkept
  cases hkept

end MoeInfinity.Engine.TransferRuns
