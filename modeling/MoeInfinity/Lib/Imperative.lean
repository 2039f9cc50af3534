import Mathlib.Logic.Basic
import Mathlib.Tactic.Basic

/-! # Imperative programs whose exceptions keep the state

A program over a state `σ` returns a value or raises an exception, and leaves a state in both
cases: what was written before the exception stays written, as in a language with mutable objects.
`wp m Q R s` says that from the state `s` the program `m` ends in `Q` if it returns and in `R` if it
raises; the rules below compute it for straight-line code and reduce a loop to an invariant on
the elements still to be visited. -/

namespace MoeInfinity.Lib.Imperative

/-- A program over the state `σ` with exceptions `ε` and result `α`. -/
structure Prog (ε σ α : Type) where
  run : σ → σ × Except ε α

variable {ε σ τ α β : Type}

/-! ### The constructs -/

instance : Monad (Prog ε σ) where
  pure a := ⟨fun s => (s, .ok a)⟩
  bind m f := ⟨fun s =>
    match m.run s with
    | (s', .ok a) => (f a).run s'
    | (s', .error e) => (s', .error e)⟩

/-- Raise the exception `e`. -/
def raise (e : ε) : Prog ε σ α := ⟨fun s => (s, .error e)⟩

/-- The current state. -/
def current : Prog ε σ σ := ⟨fun s => (s, .ok s)⟩

/-- Change the state. -/
def update (f : σ → σ) : Prog ε σ Unit := ⟨fun s => (f s, .ok ())⟩

/-- Return the value of a computation without state, or raise its exception. -/
def ofExcept : Except ε α → Prog ε σ α
  | .ok a => pure a
  | .error e => raise e

/-- Run `m`; if it raises, go on with the handler from the state it left. -/
def attempt (m : Prog ε σ α) (handler : ε → Prog ε σ α) : Prog ε σ α := ⟨fun s =>
  match m.run s with
  | (s', .ok a) => (s', .ok a)
  | (s', .error e) => (handler e).run s'⟩

/-- Run `m` and then `fin`, whether `m` returns or raises; an exception of `fin` takes the place of
the outcome of `m`. -/
def finallyDo (m : Prog ε σ α) (fin : Prog ε σ Unit) : Prog ε σ α := ⟨fun s =>
  match fin.run (m.run s).1 with
  | (s', .ok _) => (s', (m.run s).2)
  | (s', .error e) => (s', .error e)⟩

/-- Run a program on a part of the state. -/
def zoom (get : σ → τ) (put : τ → σ → σ) (m : Prog ε τ α) : Prog ε σ α := ⟨fun s =>
  (put (m.run (get s)).1 s, (m.run (get s)).2)⟩

/-- Run the body on the elements of a list, in order; an exception ends the loop. -/
def forEach (body : α → Prog ε σ Unit) : List α → Prog ε σ Unit
  | [] => pure ()
  | x :: xs => do
    body x
    forEach body xs

/-- Run the body on the elements of a list, in order, with a value that each run passes on to the
next. -/
def foldEach (body : β → α → Prog ε σ β) : List α → β → Prog ε σ β
  | [], b => pure b
  | x :: xs, b => do
    let b' ← body b x
    foldEach body xs b'

/-- The state a program leaves, whether it returns or raises. -/
def Prog.state (m : Prog ε σ α) (s : σ) : σ := (m.run s).1

/-! ### Weakest preconditions -/

/-- From `s`, the program ends in `Q` if it returns and in `R` if it raises. -/
def wp (m : Prog ε σ α) (Q : α → σ → Prop) (R : ε → σ → Prop) (s : σ) : Prop :=
  match m.run s with
  | (s', .ok a) => Q a s'
  | (s', .error e) => R e s'

variable {Q Q' : α → σ → Prop} {R R' : ε → σ → Prop} {s s' : σ}

theorem wp_of_eq {m : Prog ε σ α} {a : α} (hm : m.run s = (s', .ok a)) (h : Q a s') :
    wp m Q R s := by
  unfold wp; rw [hm]; exact h

theorem wp_of_error {m : Prog ε σ α} {e : ε} (hm : m.run s = (s', .error e)) (h : R e s') :
    wp m Q R s := by
  unfold wp; rw [hm]; exact h

theorem wp_ok {m : Prog ε σ α} {a : α} (h : wp m Q R s) (hm : m.run s = (s', .ok a)) : Q a s' := by
  unfold wp at h; rw [hm] at h; exact h

theorem wp_error {m : Prog ε σ α} {e : ε} (h : wp m Q R s) (hm : m.run s = (s', .error e)) :
    R e s' := by
  unfold wp at h; rw [hm] at h; exact h

/-- A program that cannot raise returns. -/
theorem exists_of_wp {m : Prog ε σ α} (h : wp m Q (fun _ _ => False) s) :
    ∃ s' a, m.run s = (s', .ok a) ∧ Q a s' := by
  unfold wp at h
  split at h
  · next s' a hm => exact ⟨s', a, hm, h⟩
  · exact h.elim

theorem wp_mono {m : Prog ε σ α} (h : wp m Q R s) (hQ : ∀ a s', Q a s' → Q' a s')
    (hR : ∀ e s', R e s' → R' e s') : wp m Q' R' s := by
  unfold wp
  split
  · next s' a hm => exact hQ a s' (wp_ok h hm)
  · next s' e hm => exact hR e s' (wp_error h hm)

theorem wp_of_forall {m : Prog ε σ α} (hQ : ∀ a s', Q a s') (hR : ∀ e s', R e s') : wp m Q R s := by
  unfold wp
  split
  · next s' a hm => exact hQ a s'
  · next s' e hm => exact hR e s'

theorem wp_and {m : Prog ε σ α} (h : wp m Q R s) (h' : wp m Q' R' s) :
    wp m (fun a t => Q a t ∧ Q' a t) (fun e t => R e t ∧ R' e t) s := by
  unfold wp
  split
  · next s' a hm => exact ⟨wp_ok h hm, wp_ok h' hm⟩
  · next s' e hm => exact ⟨wp_error h hm, wp_error h' hm⟩

@[simp] theorem wp_pure (a : α) : wp (pure a : Prog ε σ α) Q R s ↔ Q a s := Iff.rfl

@[simp] theorem wp_raise (e : ε) : wp (raise e : Prog ε σ α) Q R s ↔ R e s := Iff.rfl

@[simp] theorem wp_current {Q : σ → σ → Prop} : wp (current : Prog ε σ σ) Q R s ↔ Q s s := Iff.rfl

@[simp] theorem wp_update (f : σ → σ) {Q : Unit → σ → Prop} :
    wp (update f : Prog ε σ Unit) Q R s ↔ Q () (f s) := Iff.rfl

@[simp] theorem wp_ofExcept_ok (a : α) :
    wp (ofExcept (.ok a) : Prog ε σ α) Q R s ↔ Q a s := Iff.rfl

@[simp] theorem wp_ofExcept_error (e : ε) :
    wp (ofExcept (.error e) : Prog ε σ α) Q R s ↔ R e s := Iff.rfl

@[simp] theorem wp_bind {m : Prog ε σ β} {f : β → Prog ε σ α} :
    wp (m >>= f) Q R s ↔ wp m (fun b t => wp (f b) Q R t) R s := by
  change (match (match m.run s with
    | (s', .ok b) => (f b).run s'
    | (s', .error e) => (s', .error e)) with
    | (s', .ok a) => Q a s'
    | (s', .error e) => R e s') ↔ match m.run s with
    | (s', .ok b) => wp (f b) Q R s'
    | (s', .error e) => R e s'
  rcases m.run s with ⟨s', e | b⟩ <;> exact Iff.rfl

@[simp] theorem wp_attempt {m : Prog ε σ α} {h : ε → Prog ε σ α} :
    wp (attempt m h) Q R s ↔ wp m Q (fun e t => wp (h e) Q R t) s := by
  unfold wp attempt
  simp only
  rcases m.run s with ⟨s', e | a⟩ <;> exact Iff.rfl

@[simp] theorem wp_finallyDo {m : Prog ε σ α} {fin : Prog ε σ Unit} :
    wp (finallyDo m fin) Q R s ↔ wp m (fun a t => wp fin (fun _ t' => Q a t') R t)
      (fun e t => wp fin (fun _ t' => R e t') R t) s := by
  unfold wp finallyDo
  simp only
  rcases m.run s with ⟨t, e | a⟩ <;> simp only <;> rcases fin.run t with ⟨t', e' | b⟩ <;>
    exact Iff.rfl

@[simp] theorem wp_zoom {get : σ → τ} {put : τ → σ → σ} {m : Prog ε τ α} :
    wp (zoom get put m) Q R s ↔
      wp m (fun a t => Q a (put t s)) (fun e t => R e (put t s)) (get s) := by
  unfold wp zoom
  simp only
  rcases m.run (get s) with ⟨t, e | a⟩ <;> exact Iff.rfl

@[simp] theorem wp_ite {p : Prop} [Decidable p] {m m' : Prog ε σ α} :
    wp (if p then m else m') Q R s ↔ (p → wp m Q R s) ∧ (¬ p → wp m' Q R s) := by
  by_cases h : p <;> simp [h]

/-- **Loops**: `I rest` holds whenever `rest` are the elements still to be visited. -/
theorem wp_forEach {body : α → Prog ε σ Unit} (I : List α → σ → Prop)
    (hstep : ∀ x rest t, I (x :: rest) t → wp (body x) (fun _ => I rest) R t) :
    ∀ (xs : List α) (s : σ), I xs s → wp (forEach body xs) (fun _ => I []) R s
  | [], _, h => h
  | x :: xs, s, h => by
    rw [forEach, wp_bind]
    exact wp_mono (hstep x xs s h) (fun _ t ht => wp_forEach I hstep xs t ht) fun _ _ h => h

/-- **Loops that pass a value on**: `I rest b` holds whenever `b` is the value for the elements
`rest` still to be visited. -/
theorem wp_foldEach {body : β → α → Prog ε σ β} {R : ε → σ → Prop} (I : List α → β → σ → Prop)
    (hstep : ∀ x rest b t, I (x :: rest) b t → wp (body b x) (I rest) R t) :
    ∀ (xs : List α) (b : β) (s : σ), I xs b s → wp (foldEach body xs b) (I []) R s
  | [], _, _, h => h
  | x :: xs, b, s, h => by
    rw [foldEach, wp_bind]
    exact wp_mono (hstep x xs b s h) (fun b' t ht => wp_foldEach I hstep xs b' t ht) fun _ _ h => h

/-- What holds after every return and every exception holds in the state left. -/
theorem inv_of_wp {m : Prog ε σ α} {I : σ → Prop} (h : wp m (fun _ => I) (fun _ => I) s) :
    I (m.state s) := by
  unfold wp at h
  unfold Prog.state
  split at h
  · next s' a hm => rw [hm]; exact h
  · next s' e hm => rw [hm]; exact h

/-- A program that returns leaves a state in which its postcondition holds. -/
theorem post_of_isOk {m : Prog ε σ α} (h : wp m Q R s) (hok : (m.run s).2.isOk = true) :
    ∃ a, Q a (m.state s) := by
  unfold wp at h
  unfold Prog.state
  split at h
  · next s' a hm => rw [hm]; exact ⟨a, h⟩
  · next s' e hm => rw [hm] at hok; cases hok

theorem isOk_of_wp {m : Prog ε σ α} (h : wp m Q (fun _ _ => False) s) :
    (m.run s).2.isOk = true := by
  obtain ⟨s', a, hm, -⟩ := exists_of_wp h
  rw [hm]
  rfl

/-- A program does what its run says. -/
theorem wp_run (m : Prog ε σ α) (s : σ) :
    wp m (fun a s' => m.run s = (s', .ok a)) (fun e s' => m.run s = (s', .error e)) s := by
  unfold wp
  split
  · next s' a hm => exact hm
  · next s' e hm => exact hm

theorem wp_isOk (m : Prog ε σ α) (s : σ) :
    wp m (fun _ _ => (m.run s).2.isOk = true) (fun _ _ => (m.run s).2.isOk = false) s := by
  unfold wp
  split
  · next s' a hm => rw [hm]; rfl
  · next s' e hm => rw [hm]; rfl

theorem wp_of_state {m : Prog ε σ α} {I : σ → Prop} (h : I (m.state s)) :
    wp m (fun _ => I) (fun _ => I) s := by
  unfold Prog.state at h
  unfold wp
  split
  · next s' a hm => rw [hm] at h; exact h
  · next s' e hm => rw [hm] at h; exact h

/-! ### Parts that a program does not write -/

/-- The program leaves the part `f` of the state as it is, whether it returns or raises. -/
def Leaves {γ : Type} (f : σ → γ) (m : Prog ε σ α) : Prop := ∀ s, f (m.state s) = f s

section Leaves

variable {γ : Type} {f : σ → γ}

theorem Leaves.wp {m : Prog ε σ α} (h : Leaves f m) (s : σ) :
    wp m (fun _ s' => f s' = f s) (fun _ s' => f s' = f s) s :=
  wp_of_state (I := fun s' => f s' = f s) (h s)

theorem leaves_pure (a : α) : Leaves f (pure a : Prog ε σ α) := fun _ => rfl

theorem leaves_raise (e : ε) : Leaves f (raise e : Prog ε σ α) := fun _ => rfl

theorem leaves_current : Leaves f (current : Prog ε σ σ) := fun _ => rfl

theorem leaves_update {g : σ → σ} (h : ∀ s, f (g s) = f s) :
    Leaves f (update g : Prog ε σ Unit) := h

theorem leaves_ofExcept (x : Except ε α) : Leaves f (ofExcept x : Prog ε σ α) := by
  cases x with
  | ok a => exact leaves_pure a
  | error e => exact leaves_raise e

theorem leaves_bind {m : Prog ε σ β} {k : β → Prog ε σ α} (hm : Leaves f m)
    (hk : ∀ b, Leaves f (k b)) : Leaves f (m >>= k) := by
  intro s
  have h := hm s
  change f (match m.run s with
    | (s', .ok b) => (k b).run s'
    | (s', .error e) => (s', .error e)).1 = f s
  unfold Prog.state at h
  rcases hrun : m.run s with ⟨s', e | b⟩
  · rw [hrun] at h; exact h
  · rw [hrun] at h; exact (hk b s').trans h

theorem leaves_attempt {m : Prog ε σ α} {k : ε → Prog ε σ α} (hm : Leaves f m)
    (hk : ∀ e, Leaves f (k e)) : Leaves f (attempt m k) := by
  intro s
  have h := hm s
  unfold Prog.state at h
  unfold Prog.state attempt
  simp only
  rcases hrun : m.run s with ⟨s', e | a⟩
  · rw [hrun] at h; exact (hk e s').trans h
  · rw [hrun] at h; exact h

theorem leaves_ite {p : Prop} [Decidable p] {m m' : Prog ε σ α} (hm : Leaves f m)
    (hm' : Leaves f m') : Leaves f (if p then m else m') := by
  split
  · exact hm
  · exact hm'

theorem leaves_zoom {get : σ → τ} {put : τ → σ → σ} {m : Prog ε τ α}
    (h : ∀ s t, t = m.state (get s) → f (put t s) = f s) : Leaves f (zoom get put m) :=
  fun s => h s _ rfl

theorem leaves_forEach {body : α → Prog ε σ Unit} (h : ∀ x, Leaves f (body x)) :
    ∀ xs : List α, Leaves f (forEach body xs)
  | [] => leaves_pure ()
  | x :: xs => leaves_bind (h x) fun _ => leaves_forEach h xs

end Leaves

/-! ### Properties that a program keeps -/

/-- The program keeps the property `I` of the state, whether it returns or raises. -/
def Keeps (I : σ → Prop) (m : Prog ε σ α) : Prop := ∀ s, I s → wp m (fun _ => I) (fun _ => I) s

section Keeps

variable {I : σ → Prop}

theorem keeps_pure (a : α) : Keeps I (pure a : Prog ε σ α) := fun _ h => h

theorem keeps_raise (e : ε) : Keeps I (raise e : Prog ε σ α) := fun _ h => h

theorem keeps_current : Keeps I (current : Prog ε σ σ) := fun _ h => h

theorem keeps_update {g : σ → σ} (h : ∀ s, I s → I (g s)) : Keeps I (update g : Prog ε σ Unit) := h

theorem keeps_bind {m : Prog ε σ β} {k : β → Prog ε σ α} (hm : Keeps I m)
    (hk : ∀ b, Keeps I (k b)) : Keeps I (m >>= k) := by
  intro s h
  rw [wp_bind]
  exact wp_mono (hm s h) (fun b t ht => hk b t ht) fun _ _ ht => ht

theorem keeps_attempt {m : Prog ε σ α} {k : ε → Prog ε σ α} (hm : Keeps I m)
    (hk : ∀ e, Keeps I (k e)) : Keeps I (attempt m k) := by
  intro s h
  rw [wp_attempt]
  exact wp_mono (hm s h) (fun _ _ ht => ht) fun e t ht => hk e t ht

theorem keeps_ite {p : Prop} [Decidable p] {m m' : Prog ε σ α} (hm : Keeps I m)
    (hm' : Keeps I m') : Keeps I (if p then m else m') := by
  split
  · exact hm
  · exact hm'

theorem keeps_forEach {body : α → Prog ε σ Unit} (h : ∀ x, Keeps I (body x)) :
    ∀ xs : List α, Keeps I (forEach body xs)
  | [] => keeps_pure ()
  | x :: xs => keeps_bind (h x) fun _ => keeps_forEach h xs

end Keeps

/-! ### Runs that are known to return -/

theorem run_bind_ok {m : Prog ε σ β} {f : β → Prog ε σ α} {b : β} (hm : m.run s = (s', .ok b)) :
    (m >>= f).run s = (f b).run s' := by
  change (match m.run s with
    | (s', .ok b) => (f b).run s'
    | (s', .error e) => (s', .error e)) = _
  rw [hm]

theorem ok_bind (b : β) (f : β → Except ε α) : ((Except.ok b : Except ε β) >>= f) = f b := rfl

/-- A computation without state that returns has returned at its first step. -/
theorem ok_of_bind {x : Except ε β} {f : β → Except ε α} {a : α} (h : (x >>= f) = .ok a) :
    ∃ b, x = .ok b ∧ f b = .ok a := by
  cases x with
  | error e => cases h
  | ok b => exact ⟨b, rfl, h⟩

end MoeInfinity.Lib.Imperative
