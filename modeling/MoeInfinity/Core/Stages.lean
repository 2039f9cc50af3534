import MoeInfinity.Core.Acquisition

/-! # The stages of a dispatch

The threads of the dispatcher run a loop each: a fetcher takes a dispatch from its input queue and
ends with a push into the execution queue of its GPU; an executor takes it from there and ends when
it has counted it. Between the beginning and the end of a loop such a thread has one instruction, of
its own GPU. The caller dispatches and waits.

* `Staged`: every thread is at its own stages.
* `Has`: a thread has an instruction of some kind, and how a step moves it. -/

namespace MoeInfinity.Core.Nodes

open MoeInfinity.Lib.Threads MoeInfinity.Lib.Runs

variable {S : Setup}

/-- The instructions of the fetcher of a GPU. -/
def DispatchInstr.fetches (g : Fin S.gpus) : DispatchInstr S → Prop
  | .popInput g' => g' = g
  | .awaitIdle g' _ => g' = g
  | .claim g' _ => g' = g
  | .uncount g' _ => g' = g
  | .claimed g' _ => g' = g
  | .fetch g' _ => g' = g
  | .awaitOverload g' _ => g' = g
  | .takeOverload g' _ => g' = g
  | .findEvict g' _ => g' = g
  | .cacheTest g' _ => g' = g
  | .cacheBlock g' _ => g' = g
  | .cacheAsleep g' _ => g' = g
  | .findAgain g' _ _ => g' = g
  | .evict g' _ _ => g' = g
  | .load g' _ _ => g' = g
  | .fetched g' _ _ => g' = g
  | .pushExec g' _ => g' = g
  | _ => False

/-- The instructions of an executor of a GPU. -/
def DispatchInstr.executes (g : Fin S.gpus) : DispatchInstr S → Prop
  | .popExec g' => g' = g
  | .execute g' _ => g' = g
  | .freeExecuted g' _ => g' = g
  | .unload g' _ => g' = g
  | .clearOverload g' _ => g' = g
  | .notifyCache g' _ => g' = g
  | .accumulate _ => True
  | .freeFailed _ _ => True
  | .decrement => True
  | .testPending => True
  | .notifyPending => True
  | _ => False

/-- The instructions of the dispatcher that the caller runs. -/
def DispatchInstr.isCall : DispatchInstr S → Prop
  | .setInputs _ _ _ => True
  | .setExpectedQueue _ => True
  | .enqueue _ _ => True
  | .enqueueBusy _ => True
  | .countDispatch _ => True
  | .enqueueRoute _ _ => True
  | .pushInput _ => True
  | .pushExec _ _ => True
  | .waitTest => True
  | .waitBlock => True
  | .waitAsleep => True
  | _ => False

/-- What a thread of the dispatcher, or the caller, may run. -/
def Thread.runs : Thread S → DispatchInstr S → Prop
  | .caller, i => i.isCall
  | .worker _, _ => False
  | .fetcher g, i => i.fetches g
  | .executor g _, i => i.executes g

theorem stage_nil {i : DispatchInstr S} : ([] : List (DispatchInstr S)).length ≤ 1 ∧
    ∀ th : Thread S, th.runs i → ∀ j ∈ ([] : List (DispatchInstr S)), th.runs j :=
  ⟨Nat.zero_le 1, fun _ _ _ hj => absurd hj List.not_mem_nil⟩

theorem stage_one {i k : DispatchInstr S} (hk : ∀ th : Thread S, th.runs i → th.runs k) :
    [k].length ≤ 1 ∧ ∀ th : Thread S, th.runs i → ∀ j ∈ [k], th.runs j := by
  refine ⟨Nat.le_refl 1, fun th hth j hj => ?_⟩
  rw [List.mem_singleton.mp hj]
  exact hk th hth

/-- **Stages**: an instruction is followed by at most one, of the same thread. -/
theorem DispatchInstr.run_stage {c : Choice} {nodes nodes' : NodeMap S} {d d' : Dispatcher S}
    {i : DispatchInstr S} {code : List (DispatchInstr S)}
    (h : i.run c nodes d = some (nodes', d', code)) :
    code.length ≤ 1 ∧ ∀ th : Thread S, th.runs i → ∀ j ∈ code, th.runs j := by
  cases i with
  | setInputs | setExpectedQueue | pushInput | pushExec | notifyPending =>
    cases h
    exact stage_nil
  | countDispatch | waitBlock | claim | uncount | takeOverload | cacheBlock | load | fetched
  | unload | clearOverload | notifyCache | freeFailed | decrement =>
    cases h
    exact stage_one fun th hth => by cases th <;> first | exact hth | trivial
  | freeExecuted g out =>
    cases h
    exact stage_one fun th hth => by split <;> cases th <;> exact hth
  | testPending | waitTest =>
    cases h
    split <;> first
      | exact stage_nil
      | exact stage_one fun th hth => by cases th <;> exact hth
  | enqueue e g | enqueueBusy e | awaitIdle g args | claimed g args | fetch g args
  | awaitOverload g args | cacheTest g args | cacheAsleep g args | evict g args v | execute g args
  | accumulate out | waitAsleep =>
    simp only [run] at h
    split_ifs at h <;> cases h
    all_goals exact stage_one fun th hth => by cases th <;> first | exact hth | trivial
  | enqueueRoute e g | popExec g =>
    simp only [run] at h
    split at h <;> cases h
    all_goals exact stage_one fun th hth => by cases th <;> first | exact hth | exact False.elim hth
  | popInput g =>
    simp only [run] at h
    split at h <;> cases h
    exact stage_one fun th hth => by split <;> cases th <;> exact hth
  | findEvict g args | findAgain g args retries =>
    simp only [run] at h
    split at h
    · split at h <;> cases h
      all_goals exact stage_one fun th hth => by cases th <;> exact hth
    · cases h

/-- Every thread is at its own stages, and the threads of the dispatcher have one instruction at
most. -/
structure Staged (s : System S) : Prop where
  runs : ∀ th j, .dispatch j ∈ s.code th → th.runs j
  single : ∀ th, th ≠ .caller → (∀ g, th ≠ .worker g) → (s.code th).length ≤ 1

theorem Call.runs_code (k : Call S) : ∀ j, .dispatch j ∈ k.code → j.isCall := by
  cases k <;> simp [Call.code, DispatchInstr.isCall]

theorem Staged.init (w : ℕ → ℕ → S.Weight) : Staged (System.init S w) :=
  ⟨fun _ _ hj => absurd hj List.not_mem_nil, fun _ _ _ => Nat.zero_le 1⟩

theorem Staged.called {s : System S} (h : Staged s) (k : Call S) :
    Staged ((program S).called s k) := by
  refine ⟨fun th j hj => ?_, fun th hth hw => ?_⟩
  · have hall := forall_code_called (p := program S) (k := k)
      (Q := fun th i => ∀ j, i = .dispatch j → th.runs j)
      (fun th i hi j hij => h.runs th j (hij ▸ hi)) (fun i hi j hij => k.runs_code j (hij ▸ hi))
    exact hall th _ hj j rfl
  · rw [called_code_of_ne (p := program S) s hth]
    exact h.single th hth hw

/-- The next instruction of a thread of the dispatcher is its only one. -/
theorem Staged.next {s : System S} (h : Staged s) (ha : Apart s) {th : Thread S} {i : Instr S}
    {rest : List (Instr S)} (hn : (program S).next s th = some (i, rest)) (hth : th ≠ .caller)
    (hw : ∀ g, th ≠ .worker g) : rest = [] ∧ ∃ j, i = .dispatch j ∧ th.runs j := by
  have hkind := ha.next hn
  have hdispatch : ∃ j, i = .dispatch j := by
    rcases i with i | i
    · exfalso
      cases th with
      | caller => exact hth rfl
      | worker g => exact hw g rfl
      | fetcher | executor => cases i <;> first | cases hkind | (
          simp only [Thread.allows, Instr.kind, PoolInstr.kind, Room.kind] at hkind
          split at hkind <;> cases hkind)
    · exact ⟨i, rfl⟩
  obtain ⟨j, rfl⟩ := hdispatch
  have hlen := h.single th hth hw
  rcases next_eq_some hn with hcode | ⟨-, rfl, hloop⟩
  · rw [hcode, List.length_cons] at hlen
    have hrest : rest = [] := List.eq_nil_of_length_eq_zero (by omega)
    exact ⟨hrest, j, rfl, h.runs th j (by rw [hcode]; exact List.mem_cons_self)⟩
  · refine ⟨rfl, j, rfl, ?_⟩
    cases th with
    | caller => exact absurd rfl hth
    | worker g => exact absurd rfl (hw g)
    | fetcher | executor => cases hloop; rfl

theorem Staged.ran {s : System S} (h : Staged s) (ha : Apart s) {th : Thread S} {c : Choice}
    {i : Instr S} {rest : List (Instr S)} {sh : Shared S} {code : List (Instr S)}
    (hn : (program S).next s th = some (i, rest)) (hr : i.run c s.shared = some (sh, code)) :
    Staged (s.ran th i rest sh code) := by
  refine ⟨fun th' j hj => ?_, fun th' hth hw => ?_⟩
  · rcases mem_of_mem_ran hn hj with hold | ⟨rfl, hnew⟩
    · exact h.runs th' j hold
    · rcases i with i | i
      · obtain ⟨nodes, tasks, is, hrun, rfl, rfl⟩ := run_pool hr
        obtain ⟨k, -, heq⟩ := List.mem_map.mp hnew
        cases heq
      · obtain ⟨nodes, d, is, hrun, rfl, rfl⟩ := run_dispatch hr
        obtain ⟨k, hk, heq⟩ := List.mem_map.mp hnew
        cases heq
        refine (i.run_stage hrun).2 th' ?_ _ hk
        rcases next_eq_some hn with hcode | ⟨-, -, hloop⟩
        · exact h.runs th' i (by rw [hcode]; exact List.mem_cons_self)
        · cases th' <;> cases hloop <;> rfl
  · by_cases heq : th' = th
    · subst heq
      obtain ⟨rfl, j, rfl, -⟩ := h.next ha hn hth hw
      obtain ⟨nodes, d, is, hrun, rfl, rfl⟩ := run_dispatch hr
      rw [ran_code_self, List.append_nil, List.length_map]
      exact (j.run_stage hrun).1
    · rw [ran_code_of_ne s heq]
      exact h.single th' hth hw

/-! ### What a thread has -/

def Instr.is (p : DispatchInstr S → Bool) : Instr S → Bool
  | .pool _ => false
  | .dispatch i => p i

/-- The code of a thread has such an instruction. -/
def Has (s : System S) (th : Thread S) (p : DispatchInstr S → Bool) : Prop :=
  (s.code th).any (Instr.is p)

instance (s : System S) (th : Thread S) (p : DispatchInstr S → Bool) : Decidable (Has s th p) :=
  inferInstanceAs (Decidable (_ = true))

section Code

variable {s : System S} {th th' : Thread S} {i : Instr S} {rest : List (Instr S)} {sh : Shared S}
  {code : List (Instr S)} {p : DispatchInstr S → Bool}

theorem has_iff : Has s th p ↔ ∃ i ∈ s.code th, i.is p = true := List.any_eq_true

theorem Has.mono {q : DispatchInstr S → Bool} (h : Has s th p)
    (hpq : ∀ j, p j = true → q j = true) :
    Has s th q := by
  obtain ⟨i, hi, hp⟩ := has_iff.mp h
  rcases i with i | i
  · cases hp
  · exact has_iff.mpr ⟨_, hi, hpq i hp⟩

theorem is_map_pool (code : List (PoolInstr S)) :
    (code.map Instr.pool).any (Instr.is p) = false := by
  rw [List.any_map, List.any_eq_false]
  exact fun _ _ h => by cases h

theorem is_map_dispatch (code : List (DispatchInstr S)) :
    (code.map Instr.dispatch).any (Instr.is p) = code.any p := by
  rw [List.any_map]
  rfl

/-- What a thread has after a step, it had before or was returned by the instruction. -/
theorem has_of_ran (hn : (program S).next s th = some (i, rest))
    (h : Has (s.ran th i rest sh code) th' p) :
    Has s th' p ∨ th' = th ∧ code.any (Instr.is p) = true := by
  obtain ⟨j, hj, hp⟩ := has_iff.mp h
  rcases mem_of_mem_ran hn hj with hold | ⟨rfl, hnew⟩
  · exact Or.inl (has_iff.mpr ⟨j, hold, hp⟩)
  · exact Or.inr ⟨rfl, List.any_eq_true.mpr ⟨j, hnew, hp⟩⟩

/-- What a thread had before a step, it has after it or the instruction was it. -/
theorem has_ran (hn : (program S).next s th = some (i, rest)) (h : Has s th' p) :
    Has (s.ran th i rest sh code) th' p ∨ th' = th ∧ i.is p = true := by
  obtain ⟨j, hj, hp⟩ := has_iff.mp h
  rcases mem_code_ran sh code hn hj with hnew | ⟨rfl, rfl⟩
  · exact Or.inl (has_iff.mpr ⟨j, hnew, hp⟩)
  · exact Or.inr ⟨rfl, hp⟩

theorem has_ran_of_code (h : code.any (Instr.is p) = true) :
    Has (s.ran th i rest sh code) th p := by
  obtain ⟨j, hj, hp⟩ := List.any_eq_true.mp h
  exact has_iff.mpr ⟨j, by rw [ran_code_self]; exact List.mem_append_left rest hj, hp⟩

/-- A step at which neither the instruction nor what it returns is of the kind. -/
theorem has_ran_iff (hn : (program S).next s th = some (i, rest)) (hi : i.is p = false)
    (hcode : code.any (Instr.is p) = false) :
    Has (s.ran th i rest sh code) th' p ↔ Has s th' p := by
  constructor
  · intro h
    rcases has_of_ran hn h with hold | ⟨-, hnew⟩
    · exact hold
    · exact absurd (hcode.symm.trans hnew) Bool.false_ne_true
  · intro h
    have hran : Has (s.ran th i rest sh code) th' p ∨ th' = th ∧ i.is p = true := has_ran hn h
    rcases hran with hnew | ⟨-, hold⟩
    · exact hnew
    · exact absurd (hi.symm.trans hold) Bool.false_ne_true

theorem has_ran_of_ne (h : th' ≠ th) : Has (s.ran th i rest sh code) th' p ↔ Has s th' p := by
  rw [Has, ran_code_of_ne s h, Has]

/-- The instructions that a thread has are those it may run. -/
theorem Staged.runs_of_has (hs : Staged s) (h : Has s th p) : ∃ j, p j = true ∧ th.runs j := by
  obtain ⟨i, hi, hp⟩ := has_iff.mp h
  rcases i with i | i
  · cases hp
  · exact ⟨i, hp, hs.runs th i hi⟩

end Code

/-- The next instruction of a thread is one it has, unless it starts a loop over. -/
theorem has_of_next {s : System S} {th : Thread S} {i : DispatchInstr S} {rest : List (Instr S)}
    {p : DispatchInstr S → Bool} (hn : (program S).next s th = some (.dispatch i, rest))
    (hp : p i = true) (hin : ∀ g, p (.popInput g) = false) (hex : ∀ g, p (.popExec g) = false) :
    Has s th p := by
  rcases next_eq_some hn with hcode | ⟨-, -, hloop⟩
  · exact has_iff.mpr ⟨.dispatch i, by rw [hcode]; exact List.mem_cons_self, hp⟩
  · cases th with
    | caller | worker => cases hloop
    | fetcher g =>
      cases hloop
      rw [hin g] at hp
      cases hp
    | executor g t =>
      cases hloop
      rw [hex g] at hp
      cases hp

theorem Staged.runs_next {s : System S} (hs : Staged s) {th : Thread S} {i : DispatchInstr S}
    {rest : List (Instr S)} (hn : (program S).next s th = some (.dispatch i, rest)) :
    th.runs i := by
  rcases next_eq_some hn with hcode | ⟨-, -, hloop⟩
  · exact hs.runs th i (by rw [hcode]; exact List.mem_cons_self)
  · cases th <;> cases hloop <;> rfl

section Fetcher

variable {s : System S} {g : Fin S.gpus} {i : DispatchInstr S} {rest : List (Instr S)}
  {p : DispatchInstr S → Bool}

/-- Only the fetcher of a GPU runs its stages, apart from those that the caller shares. -/
theorem Staged.fetcher_of_next (hs : Staged s) {th : Thread S}
    (hn : (program S).next s th = some (.dispatch i, rest)) (hi : i.fetches g) (hc : ¬ i.isCall) :
    th = .fetcher g := by
  have hruns := hs.runs_next hn
  cases th with
  | caller => exact absurd hruns hc
  | executor => cases i <;> first | exact False.elim hruns | exact False.elim hi
  | worker => exact hruns.elim
  | fetcher g' =>
    cases i <;> first | exact congrArg Thread.fetcher (hruns.symm.trans hi) | exact False.elim hi

/-- A fetcher has its next instruction, and no other. -/
theorem Staged.has_fetcher (hs : Staged s) (ha : Apart s)
    (hn : (program S).next s (.fetcher g) = some (.dispatch i, rest))
    (hin : ∀ g, p (.popInput g) = false) :
    Has s (.fetcher g) p ↔ p i = true := by
  obtain ⟨rfl, -⟩ := hs.next ha hn (by simp) (by simp)
  rcases next_eq_some hn with hcode | ⟨hcode, -, hloop⟩
  · rw [Has, hcode]
    simp [Instr.is]
  · cases hloop
    rw [Has, hcode, hin g]
    simp

theorem Staged.has_fetcher_ran (hs : Staged s) (ha : Apart s)
    (hn : (program S).next s (.fetcher g) = some (.dispatch i, rest)) (sh : Shared S)
    (code : List (DispatchInstr S)) :
    Has (s.ran (.fetcher g) (.dispatch i) rest sh (code.map .dispatch)) (.fetcher g) p ↔
    code.any p = true := by
  obtain ⟨rfl, -⟩ := hs.next ha hn (by simp) (by simp)
  rw [Has, ran_code_self, List.append_nil, is_map_dispatch]

end Fetcher

end MoeInfinity.Core.Nodes
