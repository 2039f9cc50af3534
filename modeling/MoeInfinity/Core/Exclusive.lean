import MoeInfinity.Core.Acquisition
import MoeInfinity.Core.ExecState

/-! # The state word as a lock

The operation that takes a node from `idle` to `fetching` should be the only one to use it until it
stores `IDLE`: no other operation stores `IDLE` to the node, takes it, or moves it. An operation is
handed from thread to thread: a dispatch goes through the queues to the executor that stores `IDLE`,
and the move of an on-demand task belongs to the acquire that waits for it.

There are six places where the code acts on a node without having taken it (`unowned`): a release of
a node that is not in the books, the pruning of a prefetch, a fetch whose compare-and-swap failed,
the eviction of what `FindExpertEvict` has found, the unloading of an overload expert after its
`IDLE` store, and the exception branch after that store.

* `exclusive_of_orderly`: the lock is respected in every run in which these find their nodes idle.
* `prune_of_taken_node`: `EnqueueTask` gives back a node that a worker is moving. -/

namespace MoeInfinity.Core.Nodes

open MoeInfinity.Lib.Threads MoeInfinity.Lib.Runs

variable {S : Setup}

/-- The nodes on which an instruction acts without having taken them. -/
def PoolInstr.unowned (tasks : Tasks S) : PoolInstr S → List ℕ
  | .freeNode n own => if own then [] else [n]
  | .enqueuePrune n src => tasks.prunedNodes (prefetchTask n src)
  | _ => []

def DispatchInstr.unowned : DispatchInstr S → List ℕ
  | .claim _ args => [S.node args.expert]
  | .evict _ _ victim => [S.node victim]
  | .unload _ out => [S.node out.args.expert]
  | .freeFailed e own => if own then [] else [S.node e]
  | _ => []

def Instr.unowned (sh : Shared S) : Instr S → List ℕ
  | .pool i => i.unowned sh.tasks
  | .dispatch i => i.unowned

/-- Nobody has taken the nodes on which the instruction acts without having taken them. -/
def Instr.Orderly (sh : Shared S) (i : Instr S) : Prop :=
  ∀ n ∈ i.unowned sh, (sh.node n).execState = .idle

instance (sh : Shared S) (i : Instr S) : Decidable (i.Orderly sh) :=
  inferInstanceAs (Decidable (∀ n ∈ i.unowned sh, (sh.node n).execState = .idle))

/-- The instruction stores `IDLE` to the node, takes it, or moves it. -/
def Instr.Touches (sh : Shared S) (i : Instr S) (n : ℕ) : Prop :=
  n ∈ i.stores sh ∨ i.takes sh = some n ∨ i.moves = some n

/-- The holders of a node that the instruction acts for. -/
def Instr.own (sh : Shared S) (n : ℕ) : Instr S → ℕ
  | .pool (.moveDemand task) => if task.node = n then sh.tasks.holders n else 0
  | i => i.held n

/-- The next instruction of a thread touches no node that another operation holds. -/
def Undisturbed (s : System S) (o : Op S) : Prop :=
  (program S).AtStep (fun _ sh i => ∀ n, i.Touches sh n → holders s n = i.own sh n) s o

/-! ### Instructions -/

theorem Instr.gives_or_unowned {sh : Shared S} {i : Instr S} {n : ℕ} (h : n ∈ i.stores sh) :
    i.gives = some n ∨ n ∈ i.unowned sh := by
  rcases i with i | i
  · cases i with
    | freeNode m own =>
      cases own <;>
        simp_all [stores, PoolInstr.stores, gives, PoolInstr.gives, unowned, PoolInstr.unowned]
    | enqueuePrune m src => exact Or.inr h
    | freeVictim | freePrefetch =>
      simp_all [stores, PoolInstr.stores, gives, PoolInstr.gives]
    | _ => cases h
  · cases i with
    | freeFailed e own =>
      cases own <;>
        simp_all [stores, DispatchInstr.stores, gives, DispatchInstr.gives, unowned,
          DispatchInstr.unowned]
    | freeExecuted g out => simp_all [stores, DispatchInstr.stores, gives, DispatchInstr.gives]
    | _ => cases h

/-- What takes a node stores `IDLE` to none. -/
theorem Instr.stores_of_acquires {sh : Shared S} {i : Instr S} {n : ℕ}
    (h : i.acquires sh = some n) :
    i.stores sh = [] := by
  rcases i with i | i <;> cases i <;> first | rfl | cases h

theorem Instr.takes_of_acquires {sh : Shared S} {i : Instr S} {n : ℕ} (h : i.acquires sh = some n)
    (ho : i.Orderly sh) : i.takes sh = some n := by
  rcases i with i | i
  · cases i with
    | takeCandidate t => cases h
    | _ => exact h
  · cases i with
    | claim g args =>
      have hidle := ho (S.node args.expert) List.mem_cons_self
      have htakes : (Instr.dispatch (.claim g args)).takes sh = some (S.node args.expert) :=
        if_pos hidle
      rw [htakes]
      exact h
    | _ => exact h

theorem Instr.idle_of_takes {sh : Shared S} {i : Instr S} {n : ℕ} (h : i.takes sh = some n) :
    (sh.node n).execState = .idle := by
  have hfree : ∀ m, (if (sh.node m).execState = .idle then some m else none) = some n →
      (sh.node n).execState = .idle := by
    intro m hm
    split at hm
    · next hidle => cases hm; exact hidle
    · cases hm
  rcases i with i | i
  · cases i with
    | acquireNode t =>
      simp only [takes, PoolInstr.takes] at h
      split at h
      · exact hfree _ h
      · cases h
    | takeVictim | takePrefetch | takeCandidate => exact hfree _ h
    | _ => cases h
  · cases i with
    | enqueue | claim => exact hfree _ h
    | _ => cases h

/-- What moves a node holds it, acts without having taken it, or is the move of an on-demand
task. -/
theorem Instr.holds_of_moves {sh : Shared S} {i : Instr S} {n : ℕ} (h : i.moves = some n) :
    i.holds = some n ∨ n ∈ i.unowned sh ∨ ∃ task, i = .pool (.moveDemand task) ∧ task.node = n := by
  rcases i with i | i
  · cases i with
    | moveVictim | movePrefetch => exact Or.inl h
    | moveDemand task => exact Or.inr (Or.inr ⟨task, rfl, Option.some.inj h⟩)
    | _ => cases h
  · cases i with
    | load => exact Or.inl h
    | evict | unload =>
      refine Or.inr (Or.inl ?_)
      simpa [unowned, DispatchInstr.unowned, moves, DispatchInstr.moves, eq_comm] using h
    | _ => cases h

theorem Instr.holds_of_gives {i : Instr S} {n : ℕ} (h : i.gives = some n) : i.holds = some n := by
  rcases i with i | i <;> cases i <;> first | exact h | cases h

theorem Instr.own_of_holds {sh : Shared S} {i : Instr S} {n : ℕ} (h : i.holds = some n) :
    i.own sh n = 1 := by
  have hone : i.held n = 1 := by rw [held, h, one_self]
  rcases i with i | i
  · cases i with
    | moveDemand task => cases h
    | _ => exact hone
  · exact hone

theorem Instr.own_le {sh : Shared S} (i : Instr S) (n : ℕ) :
    i.own sh n ≤ i.held n + sh.tasks.holders n := by
  rcases i with i | i
  · cases i with
    | moveDemand task => simp only [own]; split <;> omega
    | _ => exact Nat.le_add_right _ _
  · exact Nat.le_add_right _ _

/-! ### The invariant -/

/-- A node has one holder at most, and while it has one it is taken. -/
structure Exclusive (s : System S) : Prop where
  single : ∀ n, holders s n ≤ 1
  taken : ∀ n, 0 < holders s n → (s.shared.node n).execState = .fetching

theorem Exclusive.free {s : System S} (h : Exclusive s) {n : ℕ}
    (hn : (s.shared.node n).execState = .idle) : holders s n = 0 := by
  by_contra hne
  have htaken := h.taken n (Nat.pos_of_ne_zero hne)
  rw [hn] at htaken
  cases htaken

theorem Exclusive.init (w : ℕ → ℕ → S.Weight) : Exclusive (System.init S w) := by
  have hzero : ∀ n, holders (System.init S w) n = 0 := (quiescent_init w).holders_eq
  refine ⟨fun n => ?_, fun n hn => ?_⟩
  · rw [hzero n]
    exact Nat.zero_le 1
  · rw [hzero n] at hn
    cases hn

theorem Exclusive.step {s : System S} {o : Op S} (h : Exclusive s)
    (ho : (program S).AtStep (fun _ sh i => i.Orderly sh) s o) :
    Exclusive ((program S).step s o) := by
  refine step_inv (G := (program S).AtStep fun _ sh i => i.Orderly sh) (fun s k h _ hnil => ?_)
    (fun s th c i rest sh code h ho hnext hrun => ?_) s o h ho
  · refine ⟨fun n => ?_, fun n hn => ?_⟩
    · rw [holders_called hnil]
      exact h.single n
    · rw [holders_called hnil] at hn
      exact h.taken n hn
  · have ho := ho.run hnext
    have hstep : ∀ n, holders (s.ran th i rest sh code) n ≤ 1 ∧
        (0 < holders (s.ran th i rest sh code) n → (sh.node n).execState = .fetching) := by
      intro n
      have hlaw := holders_ran hnext hrun n
      have hsingle := h.single n
      rw [i.run_execState hrun n]
      by_cases hacq : i.acquires s.shared = some n
      · -- the node was idle, so it had no holder
        have htakes := i.takes_of_acquires hacq ho
        have hfree := h.free (i.idle_of_takes htakes)
        rw [hacq, one_self] at hlaw
        rw [i.stores_of_acquires hacq, if_neg (by simp), if_pos htakes]
        exact ⟨by omega, fun _ => rfl⟩
      · have hnone : one n (i.acquires s.shared) = 0 := if_neg hacq
        by_cases hstore : n ∈ i.stores s.shared
        · -- the only holder gives the node back, or there was none
          have hzero : holders (s.ran th i rest sh code) n = 0 := by
            rcases i.gives_or_unowned hstore with hgives | hunowned
            · rw [hgives, one_self] at hlaw
              omega
            · have hfree := h.free (ho n hunowned)
              omega
          rw [hzero]
          exact ⟨Nat.zero_le 1, nofun⟩
        · rw [if_neg hstore]
          refine ⟨by omega, fun hpos => ?_⟩
          have htaken := h.taken n (by omega)
          rw [htaken, ite_self]
    exact ⟨fun n => (hstep n).1, fun n => (hstep n).2⟩

/-! ### Who touches a node -/

theorem tasks_holders_le (s : System S) (n : ℕ) : s.shared.tasks.holders n ≤ holders s n :=
  (Nat.le_add_right _ _).trans (Nat.le_add_right _ _)

theorem PoolInstr.works_or_demanded {i : PoolInstr S} {n : ℕ} (h : 0 < i.chained n) :
    i.works = some n ∨ i.demanded n = 1 := by
  have hchain : i.chain = some n := by
    by_contra hne
    have hzero : i.chained n = 0 := if_neg hne
    omega
  cases i with
  | acquireNode t => exact Or.inr (if_pos hchain)
  | _ => exact Or.inl hchain

/-- The node of an on-demand task is in the books. -/
theorem Acquiring.acquired_of_demanded {s : System S} (h : Acquiring s) {th : Thread S}
    {i : Instr S} {n : ℕ} (hi : i ∈ s.code th) (hth : th ≠ .caller) (hd : i.demanded n = 1) :
    s.shared.tasks.acquired n ≠ ∅ := by
  have hle : i.demanded n ≤ demanded s n := le_total (Instr.demanded n) _ hi
  have hchained := h.le n
  obtain hzero | ⟨th', j, hj, hpos⟩ :=
    exists_of_total_pos (Instr.chained n) (fun _ => 0) (s := s) (show 0 < chained s n by omega)
  · exact absurd hzero (Nat.lt_irrefl 0)
  · by_cases hw : j.works = some n
    · exact h.listed th' j hj n hw
    · -- an acquire that has not taken its node yet would be demanded itself
      exfalso
      rcases j with j | j
      · have hcall : th' = .caller := by
          refine h.apart.caller_of_kind hj (Or.inl (Instr.kind_of_acquiring ?_))
          exact lt_of_lt_of_le hpos (Instr.chained_le n _)
        subst hcall
        have htwo : Instr.demanded n (.pool j) + i.demanded n ≤ demanded s n :=
          add_le_total (Instr.demanded n) _ (Ne.symm hth) hj hi
        have hdemanded := h.demanded_le n
        have hsingle := h.single
        have hone : Instr.demanded n (.pool j) = 1 := (j.works_or_demanded hpos).resolve_left hw
        omega
      · exact absurd hpos (Nat.lt_irrefl 0)

theorem mem_of_held {s : System S} {th : Thread S} {i : Instr S} {rest : List (Instr S)} {n : ℕ}
    (hn : (program S).next s th = some (i, rest)) (h : i.holds = some n) : i ∈ s.code th := by
  rcases next_eq_some hn with hcode | ⟨-, -, hloop⟩
  · rw [hcode]
    exact List.mem_cons_self
  · cases th <;> cases hloop <;> cases h

theorem Exclusive.undisturbed {s : System S} {o : Op S} (h : Exclusive s) (ha : Acquiring s)
    (ho : (program S).AtStep (fun _ sh i => i.Orderly sh) s o) : Undisturbed s o := by
  refine Program.AtStep.intro fun th c i rest heq hnext => ?_
  subst heq
  have ho := ho.run hnext
  intro n htouch
  -- an operation that holds the node is the only one
  have hheld : i.holds = some n → holders s n = i.own s.shared n := by
    intro hi
    have hle : i.held n ≤ holders s n := le_total (Instr.held n) _ (mem_of_held hnext hi)
    have hsingle := h.single n
    rw [i.own_of_holds hi]
    rw [Instr.held, hi, one_self] at hle
    omega
  -- nobody holds an idle node
  have hidle : (s.shared.node n).execState = .idle → holders s n = i.own s.shared n := by
    intro hn
    have hfree := h.free hn
    by_cases hi : i.holds = some n
    · exact hheld hi
    · have hzero : i.held n = 0 := if_neg hi
      have hle : i.own s.shared n ≤ i.held n + s.shared.tasks.holders n := i.own_le n
      have hpart := tasks_holders_le s n
      omega
  rcases htouch with hstore | htake | hmove
  · rcases i.gives_or_unowned hstore with hgives | hunowned
    · exact hheld (i.holds_of_gives hgives)
    · exact hidle (ho n hunowned)
  · exact hidle (i.idle_of_takes htake)
  · rcases i.holds_of_moves hmove with hi | hunowned | ⟨task, rfl, rfl⟩
    · exact hheld hi
    · exact hidle (ho n hunowned)
    · -- the acquire that waits for the task holds the node
      have hcode : Instr.pool (.moveDemand task) ∈ s.code th := by
        rcases next_eq_some hnext with hcode | ⟨-, -, hloop⟩
        · rw [hcode]
          exact List.mem_cons_self
        · cases th <;> cases hloop
      have hth : th ≠ .caller := by
        rintro rfl
        exact (ha.apart.allows _ _ hcode) rfl
      have hset := ha.acquired_of_demanded hcode hth (n := task.node) (one_self _)
      have hpart := tasks_holders_le s task.node
      have hsingle := h.single task.node
      simp only [Tasks.holders, if_neg hset] at hpart
      simp only [Instr.own, Tasks.holders, if_neg hset, if_true]
      omega

/-- **The state word is a lock**, in every run in which what acts on a node without having taken it
finds the node idle: a node has one holder at most, it is taken meanwhile, and nothing else touches
it. -/
theorem exclusive_of_orderly (w : ℕ → ℕ → S.Weight) (os : List (Op S))
    (h : Along (program S).step ((program S).AtStep fun _ sh i => i.Orderly sh)
      (System.init S w) os) :
    Along (program S).step (fun s o => Exclusive s ∧ Undisturbed s o) (System.init S w) os :=
  along_of_inv (I := fun s => Exclusive s ∧ Acquiring s)
    (fun _ o hI ho => ⟨hI.1.step ho, hI.2.step o⟩)
    (fun _ _ hI ho => ⟨hI.1, hI.1.undisturbed hI.2 ho⟩)
    os _ ⟨Exclusive.init w, Acquiring.init w⟩ h

/-! ### A breach -/

/-- An expert is fetched and executed, and a dense node is acquired and released. -/
def orderlyRun : List (Op oneGpu) :=
  dispatched ⟨0, 1⟩ ++ calls (.acquireTensor 0) 8 ++ runs (.worker gpu) 3 ++ runs .caller 1 ++
    calls (.releaseTensor 0) 5

theorem exclusive_orderlyRun :
    Along (program oneGpu).step (fun s o => Exclusive s ∧ Undisturbed s o)
      (System.init oneGpu fun _ _ => (0 : ℤ)) orderlyRun :=
  exclusive_of_orderly _ _ (by decide)

/-- A prefetch, which the worker begins to move; then two more prefetches of the node, of which the
second prunes the first. -/
def prunedRun : List (Op oneGpu) :=
  calls (.enqueuePrefetch 1) 3 ++ runs (.worker gpu) 6 ++ calls (.enqueuePrefetch 1) 3 ++
    calls (.enqueuePrefetch 1) 1

theorem prune_of_taken_node :
    ¬ Along (program oneGpu).step Undisturbed oneGpuInit (prunedRun ++ [.run .caller {}]) := by
  intro h
  have hstep := (along_append.mp h).2.1
  have hnext : (program oneGpu).next (exec (program oneGpu).step oneGpuInit prunedRun) .caller =
      some (.pool (.enqueuePrune 1 none), []) := by rfl
  have heq := hstep.run hnext 1 (Or.inl (by decide))
  revert heq
  decide

end MoeInfinity.Core.Nodes
