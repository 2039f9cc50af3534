import Mathlib.Data.List.Basic

/-! # Runs of a state machine

A machine is a total step function on states and operations; an operation that is not enabled leaves
the state as it is. `exec` runs a list of operations. `Along P s os` says that `P` holds at every
step of the run, of the state before the step and the operation: guards on a run and properties of
all its steps are both of this form, and an invariant turns the first into the second. -/

namespace MoeInfinity.Lib.Runs

variable {σ ω : Type*} (step : σ → ω → σ)

/-- The state after a list of operations. -/
def exec (s : σ) (os : List ω) : σ := os.foldl step s

/-- `P` holds at every step of the run, of the state before the step and the operation. -/
def Along (P : σ → ω → Prop) : σ → List ω → Prop
  | _, [] => True
  | s, o :: os => P s o ∧ Along P (step s o) os

variable {step}

@[simp] theorem exec_nil (s : σ) : exec step s [] = s := rfl

@[simp] theorem exec_cons (s : σ) (o : ω) (os : List ω) :
    exec step s (o :: os) = exec step (step s o) os := rfl

theorem exec_append (s : σ) (os os' : List ω) :
    exec step s (os ++ os') = exec step (exec step s os) os' := List.foldl_append

@[simp] theorem along_nil (P : σ → ω → Prop) (s : σ) : Along step P s [] := trivial

@[simp] theorem along_cons {P : σ → ω → Prop} {s : σ} {o : ω} {os : List ω} :
    Along step P s (o :: os) ↔ P s o ∧ Along step P (step s o) os := Iff.rfl

theorem along_append {P : σ → ω → Prop} : ∀ {s : σ} {os os' : List ω},
    Along step P s (os ++ os') ↔ Along step P s os ∧ Along step P (exec step s os) os'
  | _, [], _ => by simp
  | s, o :: os, os' => by
    rw [List.cons_append, along_cons, along_cons, along_append, exec_cons, and_assoc]

instance decidableAlong (P : σ → ω → Prop) [∀ s o, Decidable (P s o)] :
    ∀ (s : σ) (os : List ω), Decidable (Along step P s os)
  | _, [] => isTrue trivial
  | s, o :: os =>
    have := decidableAlong P (step s o) os
    inferInstanceAs (Decidable (P s o ∧ Along step P (step s o) os))

/-- **Invariants of guarded runs**: what the guarded steps keep holds at the end of the run. -/
theorem inv_exec {I : σ → Prop} {G : σ → ω → Prop} (hstep : ∀ s o, I s → G s o → I (step s o)) :
    ∀ (os : List ω) (s : σ), I s → Along step G s os → I (exec step s os)
  | [], _, h, _ => h
  | o :: os, s, h, hG => inv_exec hstep os (step s o) (hstep s o h hG.1) hG.2

/-- **Invariants of all runs**. -/
theorem inv_exec_all {I : σ → Prop} (hstep : ∀ s o, I s → I (step s o)) :
    ∀ (os : List ω) (s : σ), I s → I (exec step s os)
  | [], _, h => h
  | o :: os, s, h => inv_exec_all hstep os (step s o) (hstep s o h)

/-- **Properties of guarded runs**: under an invariant of the guarded steps, what the invariant and
the guard give at one step holds along the run. -/
theorem along_of_inv {I : σ → Prop} {G P : σ → ω → Prop}
    (hstep : ∀ s o, I s → G s o → I (step s o)) (hP : ∀ s o, I s → G s o → P s o) :
    ∀ (os : List ω) (s : σ), I s → Along step G s os → Along step P s os
  | [], _, _, _ => trivial
  | o :: os, s, h, hG =>
    ⟨hP s o h hG.1, along_of_inv hstep hP os (step s o) (hstep s o h hG.1) hG.2⟩

/-- **Properties of all runs**: what an invariant gives at one step holds along the run. -/
theorem along_of_inv_all {I : σ → Prop} {P : σ → ω → Prop} (hstep : ∀ s o, I s → I (step s o))
    (hP : ∀ s o, I s → P s o) : ∀ (os : List ω) (s : σ), I s → Along step P s os
  | [], _, _ => trivial
  | o :: os, s, h => ⟨hP s o h, along_of_inv_all hstep hP os (step s o) (hstep s o h)⟩

/-- **Exact guards**: if under an invariant of the guarded steps a step has the property exactly
when it meets the guard, then so does a run. -/
theorem along_iff_of_inv {I : σ → Prop} {G P : σ → ω → Prop}
    (hstep : ∀ s o, I s → G s o → I (step s o)) (hP : ∀ s o, I s → (P s o ↔ G s o)) :
    ∀ (os : List ω) (s : σ), I s → (Along step P s os ↔ Along step G s os)
  | [], _, _ => Iff.rfl
  | o :: os, s, h => by
    rw [along_cons, along_cons, hP s o h]
    exact and_congr_right fun hG => along_iff_of_inv hstep hP os (step s o) (hstep s o h hG)

theorem along_and {P P' : σ → ω → Prop} : ∀ {os : List ω} {s : σ}, Along step P s os →
    Along step P' s os → Along step (fun s o => P s o ∧ P' s o) s os
  | [], _, _, _ => trivial
  | _ :: _, _, h, h' => ⟨⟨h.1, h'.1⟩, along_and h.2 h'.2⟩

theorem along_of_forall {P : ω → Prop} : ∀ {os : List ω}, (∀ o ∈ os, P o) → ∀ s : σ,
    Along step (fun _ o => P o) s os
  | [], _, _ => trivial
  | o :: _, h, s => ⟨h o List.mem_cons_self,
      along_of_forall (fun o' ho' => h o' (List.mem_cons_of_mem o ho')) (step s o)⟩

theorem Along.mono {P P' : σ → ω → Prop} (h : ∀ s o, P s o → P' s o) :
    ∀ {os : List ω} {s : σ}, Along step P s os → Along step P' s os
  | [], _, _ => trivial
  | _ :: _, _, hP => ⟨h _ _ hP.1, Along.mono h hP.2⟩

/-! ### Operations that are not enabled -/

section Enabled

variable {next : σ → ω → Option σ}

/-- The state after a list of operations, if each is enabled when its turn comes. -/
def execEnabled (next : σ → ω → Option σ) (s : σ) (os : List ω) : Option σ := os.foldlM next s

theorem execEnabled_cons {s s' : σ} {o : ω} (h : next s o = some s') (os : List ω) :
    execEnabled next s (o :: os) = execEnabled next s' os := by
  unfold execEnabled
  rw [List.foldlM_cons, h]
  rfl

theorem execEnabled_append {s s' : σ} {os : List ω} (h : execEnabled next s os = some s')
    (os' : List ω) :
    execEnabled next s (os ++ os') = execEnabled next s' os' := by
  unfold execEnabled at h ⊢
  rw [List.foldlM_append, h]
  rfl

theorem execEnabled_eq_some {s s' : σ} {o : ω} {os : List ω}
    (h : execEnabled next s (o :: os) = some s') :
    ∃ s₁, next s o = some s₁ ∧ execEnabled next s₁ os = some s' := by
  unfold execEnabled at h
  rw [List.foldlM_cons] at h
  exact Option.bind_eq_some_iff.mp h

/-- **Invariants** of what is enabled. -/
theorem inv_execEnabled {I : σ → Prop} (hstep : ∀ s o s', I s → next s o = some s' → I s') :
    ∀ {os : List ω} {s s' : σ}, I s → execEnabled next s os = some s' → I s'
  | [], _, _, h, hrun => Option.some.inj hrun ▸ h
  | o :: os, s, s', h, hrun => by
    obtain ⟨s₁, hs₁, hrun⟩ := execEnabled_eq_some hrun
    exact inv_execEnabled hstep (hstep s o s₁ h hs₁) hrun

/-- **Measures**: a run is no longer than what every operation makes smaller. -/
theorem length_le_of_measure {μ : σ → ℕ} (hstep : ∀ s o s', next s o = some s' → μ s' < μ s) :
    ∀ {os : List ω} {s s' : σ}, execEnabled next s os = some s' → os.length + μ s' ≤ μ s
  | [], _, _, hrun => by
    obtain rfl := Option.some.inj hrun
    exact Nat.le_of_eq (Nat.zero_add _)
  | o :: os, s, s', hrun => by
    obtain ⟨s₁, hs₁, hrun⟩ := execEnabled_eq_some hrun
    have hlt := hstep s o s₁ hs₁
    have hle := length_le_of_measure hstep hrun
    rw [List.length_cons]
    omega

end Enabled

end MoeInfinity.Lib.Runs
