import Mathlib.Algebra.BigOperators.Group.Finset.Basic
import Mathlib.Algebra.Order.BigOperators.Group.Finset
import Mathlib.Algebra.Order.Group.Multiset
import Mathlib.Logic.Function.Basic
import Mathlib.Tactic.Abel
import MoeInfinity.Lib.Runs

/-! # Threads over a shared state

A thread runs a list of instructions. One instruction reads and changes the shared state and returns
the instructions that come in its place; it may depend on a choice, and while it is not enabled its
thread waits. A thread without instructions starts its loop over. One of the threads takes calls.
The log is not part of the program: it records what was run, the newest first.

* `step`, `Program.step_inv`: one step of any of the threads, and the rule for invariants.
* `total`: every instruction and the shared state have a weight. A step changes the total by what
  its instruction adds and removes (`total_run`), whatever the other threads are doing. -/

namespace MoeInfinity.Lib.Threads

open Finset

variable {σ ι τ κ χ : Type*}

/-- `run` is one instruction, with what comes in its place; `loop` starts a loop over. -/
structure Program (σ ι τ κ χ : Type*) where
  run : χ → ι → σ → Option (σ × List ι)
  loop : τ → Option ι
  caller : τ
  callCode : κ → List ι

structure System (σ ι τ : Type*) where
  shared : σ
  code : τ → List ι
  log : List (τ × ι)

inductive Op (τ κ χ : Type*) where
  | call (k : κ)
  | run (th : τ) (c : χ)
deriving DecidableEq

variable (p : Program σ ι τ κ χ)

/-- The next instruction of a thread, and the ones behind it. -/
def Program.next (s : System σ ι τ) (th : τ) : Option (ι × List ι) :=
  match s.code th with
  | i :: rest => some (i, rest)
  | [] => (p.loop th).map fun i => (i, [])

/-- `P` holds of the choice, the shared state and the instruction, if the operation runs one. -/
def Program.AtStep (P : χ → σ → ι → Prop) (s : System σ ι τ) : Op τ κ χ → Prop
  | .call _ => True
  | .run th c =>
    match p.next s th with
    | none => True
    | some (i, _) => P c s.shared i

instance (P : χ → σ → ι → Prop) [∀ c sh i, Decidable (P c sh i)] (s : System σ ι τ) :
    ∀ o : Op τ κ χ, Decidable (p.AtStep P s o)
  | .call _ => isTrue trivial
  | .run th c =>
    match h : p.next s th with
    | none => isTrue (by rw [Program.AtStep, h]; trivial)
    | some (i, _) => decidable_of_iff (P c s.shared i) (by rw [Program.AtStep, h])

theorem Program.AtStep.run {p : Program σ ι τ κ χ} {P : χ → σ → ι → Prop} {s : System σ ι τ}
    {th : τ} {c : χ} {i : ι} {rest : List ι} (h : p.AtStep P s (.run th c))
    (hn : p.next s th = some (i, rest)) :
    P c s.shared i := by
  rw [Program.AtStep, hn] at h
  exact h

theorem Program.AtStep.intro {p : Program σ ι τ κ χ} {P : χ → σ → ι → Prop} {s : System σ ι τ}
    {o : Op τ κ χ}
    (h : ∀ th c i rest, o = .run th c → p.next s th = some (i, rest) → P c s.shared i) :
    p.AtStep P s o := by
  cases o with
  | call k => trivial
  | run th c =>
    cases hn : p.next s th with
    | none => rw [Program.AtStep, hn]; trivial
    | some x =>
      rw [Program.AtStep, hn]
      exact h th c x.1 x.2 rfl hn

theorem next_eq_some {p : Program σ ι τ κ χ} {s : System σ ι τ} {th : τ} {i : ι} {rest : List ι}
    (h : p.next s th = some (i, rest)) :
    s.code th = i :: rest ∨ s.code th = [] ∧ rest = [] ∧ p.loop th = some i := by
  unfold Program.next at h
  split at h
  · next hcode => cases h; exact Or.inl hcode
  · next hcode =>
    obtain ⟨j, hj, heq⟩ := Option.map_eq_some_iff.mp h
    cases heq
    exact Or.inr ⟨hcode, rfl, hj⟩

theorem next_of_code {p : Program σ ι τ κ χ} {s : System σ ι τ} {th : τ} {i : ι} {rest : List ι}
    (h : s.code th = i :: rest) : p.next s th = some (i, rest) := by
  unfold Program.next
  rw [h]

/-- What is behind the next instruction is code of the thread. -/
theorem mem_of_mem_rest {p : Program σ ι τ κ χ} {s : System σ ι τ} {th : τ} {i j : ι}
    {rest : List ι} (h : p.next s th = some (i, rest)) (hj : j ∈ rest) : j ∈ s.code th := by
  rcases next_eq_some h with hcode | ⟨-, rfl, -⟩
  · rw [hcode]
    exact List.mem_cons_of_mem i hj
  · cases hj

/-! ### Weights -/

section Weights

variable {A : Type*} [AddCommMonoid A] (w : ι → A) (W : σ → A)

def codeWeight (code : List ι) : A := (code.map w).sum

@[simp] theorem codeWeight_nil : codeWeight w [] = 0 := rfl

@[simp] theorem codeWeight_cons (i : ι) (code : List ι) :
    codeWeight w (i :: code) = w i + codeWeight w code := by simp [codeWeight]

@[simp] theorem codeWeight_append (code code' : List ι) :
    codeWeight w (code ++ code') = codeWeight w code + codeWeight w code' := by simp [codeWeight]

theorem codeWeight_eq_zero {code : List ι} (h : ∀ i ∈ code, w i = 0) : codeWeight w code = 0 := by
  induction code with
  | nil => rfl
  | cons i code ih =>
    have hi := h i List.mem_cons_self
    have hcode := ih fun j hj => h j (List.mem_cons_of_mem i hj)
    rw [codeWeight_cons, hi, hcode, add_zero]

/-- The weight of the next instruction and of what is behind it. -/
theorem codeWeight_next {p : Program σ ι τ κ χ} (hloop : ∀ th i, p.loop th = some i → w i = 0)
    {s : System σ ι τ} {th : τ} {i : ι} {rest : List ι} (h : p.next s th = some (i, rest)) :
    codeWeight w (s.code th) = w i + codeWeight w rest := by
  rcases next_eq_some h with hcode | ⟨hcode, rfl, hi⟩
  · rw [hcode, codeWeight_cons]
  · rw [hcode, hloop th i hi]
    simp

variable [Fintype τ]

/-- The weight of the lists of all threads, or of the items of a family of queues. -/
def sumWeight (code : τ → List ι) : A := ∑ th, codeWeight w (code th)

/-- The weight of the shared state and of all code. -/
def total (s : System σ ι τ) : A := W s.shared + sumWeight w s.code

end Weights

/-! ### Counting -/

section Counting

variable [Fintype τ] (w : ι → ℕ) (W : σ → ℕ)

theorem le_codeWeight {i : ι} {code : List ι} (h : i ∈ code) : w i ≤ codeWeight w code :=
  List.le_sum_of_mem (List.mem_map_of_mem h)

/-- Two different instructions of one list. -/
theorem add_le_codeWeight {i j : ι} {code : List ι} (hi : i ∈ code) (hj : j ∈ code) (h : i ≠ j) :
    w i + w j ≤ codeWeight w code := by
  induction code with
  | nil => cases hi
  | cons k code ih =>
    rw [codeWeight_cons]
    rcases List.mem_cons.mp hi with rfl | hi'
    · have hj' : j ∈ code := (List.mem_cons.mp hj).resolve_left (Ne.symm h)
      have hle := le_codeWeight w hj'
      omega
    · rcases List.mem_cons.mp hj with rfl | hj'
      · have hle := le_codeWeight w hi'
        omega
      · have hle := ih hi' hj'
        omega

/-- Two weights at once. -/
theorem total_add_total (w' : ι → ℕ) (W' : σ → ℕ) (s : System σ ι τ) :
    total w W s + total w' W' s = total (fun i => w i + w' i) (fun sh => W sh + W' sh) s := by
  have hcode : ∀ code : List ι, codeWeight (fun i => w i + w' i) code =
      codeWeight w code + codeWeight w' code := by
    intro code
    induction code with
    | nil => rfl
    | cons i code ih => rw [codeWeight_cons, codeWeight_cons, codeWeight_cons, ih]; omega
  have hsum : sumWeight (fun i => w i + w' i) s.code =
      sumWeight w s.code + sumWeight w' s.code := by
    unfold sumWeight
    rw [← Finset.sum_add_distrib]
    exact Finset.sum_congr rfl fun th _ => hcode (s.code th)
  unfold total
  rw [hsum]
  exact Nat.add_add_add_comm ..

/-- The weight of one thread and of the shared state is a part of the total. -/
theorem code_le_total (s : System σ ι τ) (th : τ) :
    W s.shared + codeWeight w (s.code th) ≤ total w W s := by
  have h : codeWeight w (s.code th) ≤ ∑ th', codeWeight w (s.code th') :=
    Finset.single_le_sum_of_canonicallyOrdered (f := fun t => codeWeight w (s.code t)) (mem_univ th)
  exact Nat.add_le_add_left h _

theorem two_code_le_total [DecidableEq τ] (s : System σ ι τ) {th th' : τ} (h : th ≠ th') :
    W s.shared + codeWeight w (s.code th) + codeWeight w (s.code th') ≤ total w W s := by
  unfold total sumWeight
  have hsum : ∑ t ∈ ({th, th'} : Finset τ), codeWeight w (s.code t) ≤
      ∑ t, codeWeight w (s.code t) :=
    Finset.sum_le_sum_of_subset (Finset.subset_univ _)
  rw [Finset.sum_pair h] at hsum
  omega

theorem le_total {s : System σ ι τ} {th : τ} {i : ι} (h : i ∈ s.code th) : w i ≤ total w W s := by
  have hcode := le_codeWeight w h
  have htotal := code_le_total w W s th
  omega

/-- Two different instructions of one weight, in two threads. -/
theorem add_le_total [DecidableEq τ] {s : System σ ι τ} {th th' : τ} (h : th ≠ th') {i j : ι}
    (hi : i ∈ s.code th) (hj : j ∈ s.code th') : w i + w j ≤ total w W s := by
  have hi' := le_codeWeight w hi
  have hj' := le_codeWeight w hj
  have htotal := two_code_le_total w W s h
  omega

theorem codeWeight_le {w' : ι → ℕ} {code : List ι} (h : ∀ i ∈ code, w i ≤ w' i) :
    codeWeight w code ≤ codeWeight w' code := by
  induction code with
  | nil => rfl
  | cons i code ih =>
    have hi := h i List.mem_cons_self
    have hcode := ih fun j hj => h j (List.mem_cons_of_mem i hj)
    rw [codeWeight_cons, codeWeight_cons]
    omega

theorem total_le {w' : ι → ℕ} {W' : σ → ℕ} {s : System σ ι τ} (h : ∀ i, w i ≤ w' i)
    (hW : W s.shared ≤ W' s.shared) : total w W s ≤ total w' W' s := by
  have hsum : sumWeight w s.code ≤ sumWeight w' s.code :=
    Finset.sum_le_sum fun th _ => codeWeight_le w fun i _ => h i
  unfold total
  omega

theorem total_eq_zero {s : System σ ι τ} (h : W s.shared = 0)
    (hcode : ∀ th, ∀ i ∈ s.code th, w i = 0) :
    total w W s = 0 := by
  have hsum : sumWeight w s.code = 0 :=
    Finset.sum_eq_zero fun th _ => codeWeight_eq_zero w (hcode th)
  rw [total, h, hsum]

/-- If the total is positive, the weight is in the shared state or in an instruction of a thread. -/
theorem exists_of_total_pos {s : System σ ι τ} (h : 0 < total w W s) :
    0 < W s.shared ∨ ∃ th, ∃ i ∈ s.code th, 0 < w i := by
  by_contra hnone
  rw [not_or, not_lt, Nat.le_zero] at hnone
  have hcode : ∀ th, ∀ i ∈ s.code th, w i = 0 := by
    intro th i hi
    by_contra hpos
    exact hnone.2 ⟨th, i, hi, Nat.pos_of_ne_zero hpos⟩
  rw [total_eq_zero w W hnone.1 hcode] at h
  exact absurd h (Nat.lt_irrefl 0)

end Counting

/-! ### One thread of a family -/

section Families

variable {B A : Type*} [Fintype τ]

/-- The sum over a family in which one member has changed. -/
theorem sum_update [DecidableEq τ] [AddCommMonoid A] (f : B → A) (g : τ → B) (th : τ) (x : B) :
    ∑ th', f (Function.update g th x th') + f (g th) = ∑ th', f (g th') + f x := by
  have hrest : ∑ th' ∈ univ.erase th, f (Function.update g th x th') = ∑ th' ∈ univ.erase th,
      f (g th') :=
    Finset.sum_congr rfl fun th' hth' => by rw [Function.update_of_ne (Finset.ne_of_mem_erase hth')]
  rw [← Finset.add_sum_erase univ _ (mem_univ th),
    ← Finset.add_sum_erase univ (fun th' => f (g th')) (mem_univ th), hrest, Function.update_self]
  abel

/-- The parts of two members of a family. -/
theorem add_le_sum [DecidableEq τ] {f : τ → Multiset B} {th th' : τ} (h : th ≠ th') :
    f th + f th' ≤ ∑ t, f t := by
  have hsum : ∑ t ∈ ({th, th'} : Finset τ), f t ≤ ∑ t, f t :=
    Finset.sum_le_sum_of_subset (Finset.subset_univ _)
  rwa [Finset.sum_pair h] at hsum

theorem le_sum {f : τ → Multiset B} (th : τ) : f th ≤ ∑ t, f t :=
  Finset.single_le_sum_of_canonicallyOrdered (mem_univ th)

end Families

/-! ### Steps -/

variable [DecidableEq τ]

/-- The state after an instruction of a thread. -/
def System.ran (s : System σ ι τ) (th : τ) (i : ι) (rest : List ι) (sh : σ) (code : List ι) :
    System σ ι τ :=
  ⟨sh, Function.update s.code th (code ++ rest), (th, i) :: s.log⟩

/-- The state after the beginning of a call. -/
def Program.called (s : System σ ι τ) (k : κ) : System σ ι τ :=
  { s with code := Function.update s.code p.caller (p.callCode k) }

/-- One step; what is not enabled leaves the state. -/
def Program.step (s : System σ ι τ) : Op τ κ χ → System σ ι τ
  | .call k => if (s.code p.caller).isEmpty then p.called s k else s
  | .run th c =>
    match p.next s th with
    | none => s
    | some (i, rest) =>
      match p.run c i s.shared with
      | none => s
      | some (sh, code) => s.ran th i rest sh code

variable {p}

theorem step_call {s : System σ ι τ} (h : s.code p.caller = []) (k : κ) :
    p.step s (.call k) = p.called s k := by
  simp [Program.step, h]

theorem step_run {s : System σ ι τ} {th : τ} {c : χ} {i : ι} {rest : List ι} {sh : σ}
    {code : List ι} (hn : p.next s th = some (i, rest))
    (hr : p.run c i s.shared = some (sh, code)) :
    p.step s (.run th c) = s.ran th i rest sh code := by
  simp [Program.step, hn, hr]

/-- What a step can do. -/
theorem step_cases (p : Program σ ι τ κ χ) (s : System σ ι τ) (o : Op τ κ χ) :
    p.step s o = s ∨
    (∃ k, o = .call k ∧ s.code p.caller = [] ∧ p.step s o = p.called s k) ∨
    ∃ th c i rest sh code, o = .run th c ∧ p.next s th = some (i, rest) ∧
      p.run c i s.shared = some (sh, code) ∧ p.step s o = s.ran th i rest sh code := by
  cases o with
  | call k =>
    by_cases h : s.code p.caller = []
    · exact Or.inr (Or.inl ⟨k, rfl, h, step_call h k⟩)
    · exact Or.inl (by simp [Program.step, h])
  | run th c =>
    cases hn : p.next s th with
    | none => exact Or.inl (by simp [Program.step, hn])
    | some x =>
      obtain ⟨i, rest⟩ := x
      cases hr : p.run c i s.shared with
      | none => exact Or.inl (by simp [Program.step, hn, hr])
      | some y =>
        obtain ⟨sh, code⟩ := y
        exact Or.inr (Or.inr ⟨th, c, i, rest, sh, code, rfl, hn, hr, step_run hn hr⟩)

/-- **Invariants**: the beginning of a call and every instruction keep them. -/
theorem step_inv {I : System σ ι τ → Prop} {G : System σ ι τ → Op τ κ χ → Prop}
    (hcall : ∀ s k, I s → G s (.call k) → s.code p.caller = [] → I (p.called s k))
    (hrun : ∀ s th c i rest sh code, I s → G s (.run th c) → p.next s th = some (i, rest) →
      p.run c i s.shared = some (sh, code) → I (s.ran th i rest sh code)) :
    ∀ s o, I s → G s o → I (p.step s o) := by
  intro s o hI hG
  rcases step_cases p s o with h | ⟨k, rfl, hnil, h⟩ | ⟨th, c, i, rest, sh, code, rfl, hn, hr, h⟩
  · rw [h]; exact hI
  · rw [h]; exact hcall s k hI hG hnil
  · rw [h]; exact hrun s th c i rest sh code hI hG hn hr

@[simp] theorem ran_shared (s : System σ ι τ) (th : τ) (i : ι) (rest : List ι) (sh : σ)
    (code : List ι) : (s.ran th i rest sh code).shared = sh := rfl

@[simp] theorem ran_code_self (s : System σ ι τ) (th : τ) (i : ι) (rest : List ι) (sh : σ)
    (code : List ι) : (s.ran th i rest sh code).code th = code ++ rest := Function.update_self ..

theorem ran_code_of_ne (s : System σ ι τ) {th th' : τ} (h : th' ≠ th) (i : ι)
    (rest : List ι) (sh : σ) (code : List ι) : (s.ran th i rest sh code).code th' = s.code th' :=
  Function.update_of_ne h ..

@[simp] theorem called_shared (s : System σ ι τ) (k : κ) : (p.called s k).shared = s.shared := rfl

@[simp] theorem called_code_self (s : System σ ι τ) (k : κ) :
    (p.called s k).code p.caller = p.callCode k := Function.update_self ..

theorem called_code_of_ne (s : System σ ι τ) {th : τ} (h : th ≠ p.caller) (k : κ) :
    (p.called s k).code th = s.code th := Function.update_of_ne h ..

/-- The code of a thread after a step: what it was, without the instruction, and what came in its
place. -/
theorem mem_code_ran {s : System σ ι τ} {th th' : τ} {i j : ι} {rest : List ι} (sh : σ)
    (code : List ι) (hn : p.next s th = some (i, rest)) (hj : j ∈ s.code th') :
    j ∈ (s.ran th i rest sh code).code th' ∨ th' = th ∧ j = i := by
  by_cases heq : th' = th
  · subst heq
    rcases next_eq_some hn with hcode | ⟨hcode, -, -⟩
    · rw [hcode] at hj
      rcases List.mem_cons.mp hj with rfl | hj
      · exact Or.inr ⟨rfl, rfl⟩
      · rw [ran_code_self]
        exact Or.inl (List.mem_append_right code hj)
    · rw [hcode] at hj
      cases hj
  · rw [ran_code_of_ne s heq]
    exact Or.inl hj

theorem mem_of_mem_ran {s : System σ ι τ} {th th' : τ} {i j : ι} {rest : List ι} {sh : σ}
    {code : List ι} (hn : p.next s th = some (i, rest))
    (hj : j ∈ (s.ran th i rest sh code).code th') :
    j ∈ s.code th' ∨ th' = th ∧ j ∈ code := by
  by_cases heq : th' = th
  · subst heq
    rw [ran_code_self, List.mem_append] at hj
    exact hj.symm.imp (mem_of_mem_rest hn) fun hj => ⟨rfl, hj⟩
  · rw [ran_code_of_ne s heq] at hj
    exact Or.inl hj

/-- **A property of all code** holds after a step if it holds of what the instruction returns. -/
theorem forall_code_ran {Q : τ → ι → Prop} {s : System σ ι τ} {th : τ} {i : ι}
    {rest : List ι} {sh : σ} {code : List ι} (h : ∀ th, ∀ j ∈ s.code th, Q th j)
    (hn : p.next s th = some (i, rest)) (hcode : ∀ j ∈ code, Q th j) :
    ∀ th', ∀ j ∈ (s.ran th i rest sh code).code th', Q th' j := by
  intro th' j hj
  rcases mem_of_mem_ran hn hj with hold | ⟨rfl, hnew⟩
  · exact h th' j hold
  · exact hcode j hnew

theorem forall_code_called {Q : τ → ι → Prop} {s : System σ ι τ} {k : κ}
    (h : ∀ th, ∀ j ∈ s.code th, Q th j) (hcode : ∀ j ∈ p.callCode k, Q p.caller j) :
    ∀ th', ∀ j ∈ (p.called s k).code th', Q th' j := by
  intro th' j hj
  by_cases heq : th' = p.caller
  · subst heq
    rw [called_code_self] at hj
    exact hcode j hj
  · rw [called_code_of_ne s heq] at hj
    exact h th' j hj

/-! ### The log -/

/-- What a thread has run since it last started over, the newest first. -/
def System.since (s : System σ ι τ) (starts : ι → Bool) (th : τ) : List ι :=
  ((s.log.filter fun x => x.1 = th).map (·.2)).takeWhile fun i => !starts i

theorem since_ran (s : System σ ι τ) (starts : ι → Bool) (th : τ) (i : ι) (rest : List ι) (sh : σ)
    (code : List ι) :
    (s.ran th i rest sh code).since starts th = if starts i then [] else i ::
    s.since starts th := by
  unfold System.since System.ran
  simp only [List.filter_cons, decide_true, if_true, List.map_cons, List.takeWhile_cons]
  cases starts i <;> simp

theorem since_ran_of_ne (s : System σ ι τ) (starts : ι → Bool) {th th' : τ} (h : th' ≠ th) (i : ι)
    (rest : List ι) (sh : σ) (code : List ι) :
    (s.ran th i rest sh code).since starts th' = s.since starts th' := by
  unfold System.since System.ran
  simp only [List.filter_cons, Ne.symm h, decide_false, Bool.false_eq_true, if_false]

@[simp] theorem since_called (s : System σ ι τ) (starts : ι → Bool) (k : κ) (th : τ) :
    (p.called s k).since starts th = s.since starts th := rfl

/-! ### Accounting -/

section Accounting

variable {A : Type*} [AddCommMonoid A] (w : ι → A) (W : σ → A) [Fintype τ]

/-- The sum over the threads, with one of them apart. -/
theorem sumWeight_eq (code : τ → List ι) (th : τ) :
    sumWeight w code = codeWeight w (code th) + ∑ th' ∈ univ.erase th, codeWeight w (code th') :=
  (Finset.add_sum_erase univ (fun th' => codeWeight w (code th')) (Finset.mem_univ th)).symm

theorem sumWeight_update (code : τ → List ι) (th : τ) (l : List ι) :
    sumWeight w (Function.update code th l) =
      codeWeight w l + ∑ th' ∈ univ.erase th, codeWeight w (code th') := by
  rw [sumWeight_eq w _ th, Function.update_self]
  congr 1
  refine Finset.sum_congr rfl fun th' hth' => ?_
  rw [Function.update_of_ne (Finset.ne_of_mem_erase hth')]

/-- An item is pushed into a queue. -/
theorem sumWeight_push (q : τ → List ι) (th : τ) (x : ι) :
    sumWeight w (Function.update q th (q th ++ [x])) = sumWeight w q + w x := by
  rw [sumWeight_update, sumWeight_eq w q th, codeWeight_append, codeWeight_cons,
    codeWeight_nil, add_zero]
  abel

/-- The first item of a queue is popped. -/
theorem sumWeight_pop {q : τ → List ι} {th : τ} {x : ι} {rest : List ι} (h : q th = x :: rest) :
    sumWeight w (Function.update q th rest) + w x = sumWeight w q := by
  rw [sumWeight_update, sumWeight_eq w q th, h, codeWeight_cons]
  abel

/-- **Accounting of a step**: the total changes by what the instruction adds and removes. -/
theorem total_ran (hloop : ∀ th i, p.loop th = some i → w i = 0) {s : System σ ι τ} {th : τ} {i : ι}
    {rest : List ι} {sh : σ} {code : List ι} (hn : p.next s th = some (i, rest)) {inn out : A}
    (h : W sh + codeWeight w code + out = W s.shared + w i + inn) :
    total w W (s.ran th i rest sh code) + out = total w W s + inn := by
  unfold total System.ran
  rw [sumWeight_update, sumWeight_eq w s.code th, codeWeight_next w hloop hn, codeWeight_append]
  calc W sh + (codeWeight w code + codeWeight w rest +
        ∑ th' ∈ univ.erase th, codeWeight w (s.code th')) + out
      = (W sh + codeWeight w code + out) +
          (codeWeight w rest + ∑ th' ∈ univ.erase th, codeWeight w (s.code th')) := by abel
    _ = (W s.shared + w i + inn) +
          (codeWeight w rest + ∑ th' ∈ univ.erase th, codeWeight w (s.code th')) := by rw [h]
    _ = _ := by abel

/-- Accounting of a step for which no law is known. -/
theorem total_ran_add (hloop : ∀ th i, p.loop th = some i → w i = 0) {s : System σ ι τ}
    {th : τ} {i : ι} {rest : List ι} (sh : σ) (code : List ι) (hn : p.next s th = some (i, rest)) :
    total w W (s.ran th i rest sh code) + (W s.shared + w i) =
      total w W s + (W sh + codeWeight w code) :=
  total_ran w W hloop hn (by abel)

/-- A call adds the weight of its code. -/
theorem total_called {s : System σ ι τ} (hnil : s.code p.caller = []) (k : κ) :
    total w W (p.called s k) = total w W s + codeWeight w (p.callCode k) := by
  unfold total Program.called
  simp only
  rw [sumWeight_update, sumWeight_eq w s.code p.caller, hnil, codeWeight_nil, zero_add]
  abel

end Accounting

end MoeInfinity.Lib.Threads
