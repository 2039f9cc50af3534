import Mathlib.Algebra.Order.Floor.Ring
import Mathlib.Data.List.Sort
import Mathlib.Data.Rat.Floor
import MoeInfinity.Lib.Runs

/-! # The circuit breaker of ContextPilot (`serving/contextpilot_circuit_breaker.py`)

Rates, latencies and times are exact. A call first refreshes the state, which may end the cooldown,
and then does its own work; both read the clock, so a call is two steps with a time each.

* `Healthy`: what holds of the windows of a closed breaker, and of the opening time of an open one.
* `Tracked`: the breaker with the time at which it was last opened, kept beside it.
* `breaker_healthy`: every state of every run is healthy, and the states change as they should. -/

namespace MoeInfinity.Serving.ContextpilotCircuitBreaker

open MoeInfinity.Lib.Runs

inductive BreakerState where
  | stateClosed
  | stateOpen
  | stateHalfOpen
deriving DecidableEq, Repr

structure CircuitBreaker where
  errorRateThreshold : ℚ
  latencyThresholdMs : ℚ
  windowSize : ℕ
  cooldownSeconds : ℚ
  state : BreakerState
  openedAt : Option ℚ
  requestWindow : List Bool
  latencyWindow : List ℚ
deriving DecidableEq, Repr

/-- The `maxlen` of the latency window. -/
def latencyMaxlen : ℕ := 10

/-- `append` on a deque of at most `maxlen` entries: the oldest ones are dropped. -/
def append {α : Type*} (maxlen : ℕ) (window : List α) (x : α) : List α :=
  (window ++ [x]).drop ((window ++ [x]).length - maxlen)

theorem length_append_le {α : Type*} (maxlen : ℕ) (window : List α) (x : α) :
    (append maxlen window x).length ≤ maxlen := by
  unfold append
  rw [List.length_drop]
  omega

namespace CircuitBreaker

/-- `__init__`. -/
def new (errorRateThreshold latencyThresholdMs : ℚ) (windowSize : ℤ) (cooldownSeconds : ℚ) :
    CircuitBreaker where
  errorRateThreshold := errorRateThreshold
  latencyThresholdMs := latencyThresholdMs
  windowSize := (max 1 windowSize).toNat
  cooldownSeconds := max 0 cooldownSeconds
  state := .stateClosed
  openedAt := none
  requestWindow := []
  latencyWindow := []

variable (b : CircuitBreaker)

/-- `_open_locked`. -/
def openLocked (now : ℚ) : CircuitBreaker := { b with state := .stateOpen, openedAt := some now }

/-- `_close_locked`. -/
def closeLocked : CircuitBreaker :=
  { b with state := .stateClosed, openedAt := none, requestWindow := [], latencyWindow := [] }

/-- The failures of the request window, as a part of it. -/
def errorRate : ℚ := (b.requestWindow.count false : ℚ) / b.requestWindow.length

/-- `_compute_p99`. -/
def computeP99 (values : List ℚ) : ℚ :=
  if values = [] then 0
  else
    let ordered := values.mergeSort (· ≤ ·)
    ordered.getD (max 0 (⌈(99 / 100 : ℚ) * ordered.length⌉ - 1)).toNat 0

/-- `_evaluate_closed_thresholds_locked`. -/
def evaluateClosedThresholdsLocked (now : ℚ) : CircuitBreaker :=
  if b.state ≠ .stateClosed then b
  else if b.requestWindow ≠ [] ∧ b.errorRate > b.errorRateThreshold then b.openLocked now
  else if b.latencyWindow.length = latencyMaxlen ∧
  computeP99 b.latencyWindow > b.latencyThresholdMs then
    b.openLocked now
  else b

/-- `_refresh_state_locked`. -/
def refreshStateLocked (now : ℚ) : CircuitBreaker :=
  if b.state ≠ .stateOpen then b
  else
    match b.openedAt with
    | none => b
    | some openedAt =>
      if now - openedAt ≥ b.cooldownSeconds then { b with state := .stateHalfOpen } else b

/-- `record_success` after the refresh. -/
def success (latencyMs now : ℚ) : CircuitBreaker :=
  if b.state = .stateHalfOpen then b.closeLocked
  else
    { b with
      requestWindow := append b.windowSize b.requestWindow true
      latencyWindow := append latencyMaxlen b.latencyWindow latencyMs
      : CircuitBreaker }.evaluateClosedThresholdsLocked now

/-- `record_failure` after the refresh. -/
def failure (now : ℚ) : CircuitBreaker :=
  if b.state = .stateHalfOpen then b.openLocked now
  else
    { b with requestWindow := append b.windowSize b.requestWindow false
      : CircuitBreaker }.evaluateClosedThresholdsLocked now

/-! ### Calls -/

/-- The reads of the clock in one call: at the refresh, and when the breaker is opened. -/
structure Clock where
  refreshed : ℚ
  opened : ℚ
deriving DecidableEq, Repr

def recordSuccess (latencyMs : ℚ) (t : Clock) : CircuitBreaker :=
  (b.refreshStateLocked t.refreshed).success latencyMs t.opened

def recordFailure (t : Clock) : CircuitBreaker :=
  (b.refreshStateLocked t.refreshed).failure t.opened

def isOpen (t : Clock) : CircuitBreaker × Bool :=
  let b := b.refreshStateLocked t.refreshed
  (b, b.state = .stateOpen)

def getState (t : Clock) : CircuitBreaker × BreakerState :=
  let b := b.refreshStateLocked t.refreshed
  (b, b.state)

end CircuitBreaker

inductive Call where
  | recordSuccess (latencyMs : ℚ) (t : CircuitBreaker.Clock)
  | recordFailure (t : CircuitBreaker.Clock)
  | isOpen (t : CircuitBreaker.Clock)
  | getState (t : CircuitBreaker.Clock)
deriving DecidableEq, Repr

/-- The breaker after a call. -/
def Call.run (b : CircuitBreaker) : Call → CircuitBreaker
  | .recordSuccess latencyMs t => b.recordSuccess latencyMs t
  | .recordFailure t => b.recordFailure t
  | .isOpen t => (b.isOpen t).1
  | .getState t => (b.getState t).1

/-! ### Steps -/

/-- The parts of a call between which the state of the breaker changes. -/
inductive Step where
  | refresh (now : ℚ)
  | success (latencyMs now : ℚ)
  | failure (now : ℚ)
deriving DecidableEq, Repr

def Step.now : Step → ℚ
  | .refresh now => now
  | .success _ now => now
  | .failure now => now

def Step.run (b : CircuitBreaker) : Step → CircuitBreaker
  | .refresh now => b.refreshStateLocked now
  | .success latencyMs now => b.success latencyMs now
  | .failure now => b.failure now

def Call.steps : Call → List Step
  | .recordSuccess latencyMs t => [.refresh t.refreshed, .success latencyMs t.opened]
  | .recordFailure t => [.refresh t.refreshed, .failure t.opened]
  | .isOpen t => [.refresh t.refreshed]
  | .getState t => [.refresh t.refreshed]

theorem exec_steps (b : CircuitBreaker) (c : Call) : exec Step.run b c.steps = c.run b := by
  cases c <;> rfl

theorem exec_calls (calls : List Call) (b : CircuitBreaker) :
    exec Step.run b (calls.flatMap Call.steps) = exec Call.run b calls := by
  induction calls generalizing b with
  | nil => rfl
  | cons c calls ih => rw [List.flatMap_cons, exec_append, exec_steps, ih, exec_cons]

/-! ### What one step does -/

section Steps

variable (b : CircuitBreaker) (now : ℚ)

/-- The windows have at most their lengths, those of a closed breaker are within the thresholds, and
an open breaker has an opening time. -/
structure Healthy (b : CircuitBreaker) : Prop where
  requests : b.requestWindow.length ≤ b.windowSize
  latencies : b.latencyWindow.length ≤ latencyMaxlen
  errorRate : b.state = .stateClosed → b.requestWindow ≠ [] → b.errorRate ≤ b.errorRateThreshold
  latency : b.state = .stateClosed → b.latencyWindow.length = latencyMaxlen →
    CircuitBreaker.computeP99 b.latencyWindow ≤ b.latencyThresholdMs
  opened : b.state = .stateOpen → b.openedAt.isSome

theorem Healthy.new (e l : ℚ) (w : ℤ) (c : ℚ) : Healthy (.new e l w c) :=
  ⟨Nat.zero_le _, Nat.zero_le _, fun _ h => absurd rfl h, nofun, nofun⟩

/-- An evaluation leaves a breaker as it is, or opens one that was closed. -/
theorem evaluate_cases :
    (b.evaluateClosedThresholdsLocked now = b ∧
      (b.state = .stateClosed → (b.requestWindow ≠ [] → b.errorRate ≤ b.errorRateThreshold) ∧
        (b.latencyWindow.length = latencyMaxlen →
          CircuitBreaker.computeP99 b.latencyWindow ≤ b.latencyThresholdMs))) ∨
    (b.state = .stateClosed ∧ b.evaluateClosedThresholdsLocked now = b.openLocked now) := by
  unfold CircuitBreaker.evaluateClosedThresholdsLocked
  by_cases hstate : b.state = .stateClosed
  · rw [if_neg (not_not_intro hstate)]
    by_cases herror : b.requestWindow ≠ [] ∧ b.errorRate > b.errorRateThreshold
    · rw [if_pos herror]
      exact Or.inr ⟨hstate, rfl⟩
    · rw [if_neg herror]
      by_cases hlatency : b.latencyWindow.length = latencyMaxlen ∧
          CircuitBreaker.computeP99 b.latencyWindow > b.latencyThresholdMs
      · rw [if_pos hlatency]
        exact Or.inr ⟨hstate, rfl⟩
      · rw [if_neg hlatency]
        refine Or.inl ⟨rfl, fun _ => ⟨fun hne => ?_, fun hfull => ?_⟩⟩
        · exact not_lt.mp fun h => herror ⟨hne, h⟩
        · exact not_lt.mp fun h => hlatency ⟨hfull, h⟩
  · rw [if_pos hstate]
    exact Or.inl ⟨rfl, fun h => absurd h hstate⟩

theorem Healthy.evaluate (hrequests : b.requestWindow.length ≤ b.windowSize)
    (hlatencies : b.latencyWindow.length ≤ latencyMaxlen)
    (h : b.state = .stateOpen → b.openedAt.isSome) :
    Healthy (b.evaluateClosedThresholdsLocked now) := by
  rcases evaluate_cases b now with ⟨heq, hin⟩ | ⟨-, heq⟩
  · rw [heq]
    exact ⟨hrequests, hlatencies, fun hc => (hin hc).1, fun hc => (hin hc).2, h⟩
  · rw [heq]
    exact ⟨hrequests, hlatencies, nofun, nofun, fun _ => rfl⟩

/-- A refresh only ends a cooldown that has passed. -/
theorem refresh_cases :
    b.refreshStateLocked now = b ∨
      (b.state = .stateOpen ∧ b.refreshStateLocked now = { b with state := .stateHalfOpen } ∧
        ∃ openedAt, b.openedAt = some openedAt ∧ b.cooldownSeconds ≤ now - openedAt) := by
  unfold CircuitBreaker.refreshStateLocked
  by_cases hstate : b.state = .stateOpen
  · rw [if_neg (not_not_intro hstate)]
    cases hopened : b.openedAt with
    | none => exact Or.inl rfl
    | some openedAt =>
      dsimp only
      split_ifs with hpast
      · exact Or.inr ⟨hstate, rfl, openedAt, rfl, hpast⟩
      · exact Or.inl rfl
  · rw [if_pos hstate]
    exact Or.inl rfl

theorem Healthy.run {b : CircuitBreaker} (h : Healthy b) (o : Step) : Healthy (o.run b) := by
  cases o with
  | refresh now =>
    rcases refresh_cases b now with heq | ⟨-, heq, -⟩
    · rw [Step.run, heq]
      exact h
    · rw [Step.run, heq]
      exact ⟨h.requests, h.latencies, nofun, nofun, nofun⟩
  | success latencyMs now =>
    unfold Step.run CircuitBreaker.success
    split_ifs with hhalf
    · exact ⟨Nat.zero_le _, Nat.zero_le _, fun _ hne => absurd rfl hne, nofun, nofun⟩
    · exact Healthy.evaluate _ now (length_append_le ..) (length_append_le ..) h.opened
  | failure now =>
    unfold Step.run CircuitBreaker.failure
    split_ifs with hhalf
    · exact ⟨h.requests, h.latencies, nofun, nofun, fun _ => rfl⟩
    · exact Healthy.evaluate _ now (length_append_le ..) h.latencies h.opened

end Steps

/-! ### Runs -/

/-- A breaker, and the time of its last opening. -/
structure Tracked where
  breaker : CircuitBreaker
  lastOpening : Option ℚ

/-- A step of the breaker; one that opens it is noted. -/
def Tracked.step (s : Tracked) (o : Step) : Tracked where
  breaker := o.run s.breaker
  lastOpening :=
    if s.breaker.state ≠ .stateOpen ∧ (o.run s.breaker).state = .stateOpen then some o.now
    else s.lastOpening

/-- How a state of the breaker is left: an open one only for the half-open one, once the cooldown
has passed since the last opening; a half-open one by the outcome of a request. -/
structure Changes (s : Tracked) (o : Step) : Prop where
  ofOpen : s.breaker.state = .stateOpen → (o.run s.breaker).state ≠ .stateOpen →
    (o.run s.breaker).state = .stateHalfOpen ∧
      ∃ opening, s.lastOpening = some opening ∧ s.breaker.cooldownSeconds ≤ o.now - opening
  refreshed : ∀ now, o = .refresh now → s.breaker.state = .stateHalfOpen →
    o.run s.breaker = s.breaker
  success : ∀ latencyMs now, o = .success latencyMs now → s.breaker.state = .stateHalfOpen →
    (o.run s.breaker).state = .stateClosed ∧ (o.run s.breaker).requestWindow = [] ∧
      (o.run s.breaker).latencyWindow = []
  failure : ∀ now, o = .failure now → s.breaker.state = .stateHalfOpen →
    (o.run s.breaker).state = .stateOpen

/-- The breaker is healthy, and while it is not closed it has the time of its last opening. -/
structure Tracked.Inv (s : Tracked) : Prop where
  healthy : Healthy s.breaker
  openedAt : s.breaker.state ≠ .stateClosed → s.breaker.openedAt = s.lastOpening

/-- The state after a request that was recorded in a closed or an open breaker. -/
theorem state_evaluate (b : CircuitBreaker) (now : ℚ) :
    let b' := b.evaluateClosedThresholdsLocked now
    (b'.state = b.state ∧ b'.openedAt = b.openedAt) ∨
      (b.state = .stateClosed ∧ b'.state = .stateOpen ∧ b'.openedAt = some now) := by
  rcases evaluate_cases b now with ⟨heq, -⟩ | ⟨hclosed, heq⟩
  · exact Or.inl ⟨by rw [heq], by rw [heq]⟩
  · exact Or.inr ⟨hclosed, by rw [heq]; rfl, by rw [heq]; rfl⟩

/-- **The states after a step**, with the opening time. -/
theorem run_cases (b : CircuitBreaker) (o : Step) :
    ((o.run b).state = b.state ∧ (o.run b).openedAt = b.openedAt) ∨
      (b.state ≠ .stateOpen ∧ (o.run b).state = .stateOpen ∧ (o.run b).openedAt = some o.now) ∨
      (b.state = .stateHalfOpen ∧ (o.run b).state = .stateClosed) ∨
      (b.state = .stateOpen ∧ (o.run b).state = .stateHalfOpen ∧ (o.run b).openedAt = b.openedAt ∧
        ∃ openedAt, b.openedAt = some openedAt ∧ b.cooldownSeconds ≤ o.now - openedAt) := by
  have hevaluate : ∀ (b' : CircuitBreaker) (now : ℚ), b'.state = b.state →
      b'.openedAt = b.openedAt → ((b'.evaluateClosedThresholdsLocked now).state = b.state ∧
        (b'.evaluateClosedThresholdsLocked now).openedAt = b.openedAt) ∨
      (b.state ≠ .stateOpen ∧ (b'.evaluateClosedThresholdsLocked now).state = .stateOpen ∧
        (b'.evaluateClosedThresholdsLocked now).openedAt = some now) := by
    intro b' now hstate hopened
    rcases state_evaluate b' now with ⟨h1, h2⟩ | ⟨h1, h2, h3⟩
    · exact Or.inl ⟨h1.trans hstate, h2.trans hopened⟩
    · exact Or.inr ⟨by rw [← hstate, h1]; nofun, h2, h3⟩
  cases o with
  | refresh now =>
    rcases refresh_cases b now with heq | ⟨hopen, heq, hpast⟩
    · exact Or.inl (by rw [Step.run, heq]; exact ⟨rfl, rfl⟩)
    · refine Or.inr (Or.inr (Or.inr ⟨hopen, ?_, ?_, hpast⟩))
      · rw [Step.run, heq]
      · rw [Step.run, heq]
  | success latencyMs now =>
    simp only [Step.run, Step.now, CircuitBreaker.success]
    split_ifs with hhalf
    · exact Or.inr (Or.inr (Or.inl ⟨hhalf, rfl⟩))
    · rcases hevaluate { b with
        requestWindow := append b.windowSize b.requestWindow true
        latencyWindow := append latencyMaxlen b.latencyWindow latencyMs } now rfl rfl with h | h
      · exact Or.inl h
      · exact Or.inr (Or.inl h)
  | failure now =>
    simp only [Step.run, Step.now, CircuitBreaker.failure]
    split_ifs with hhalf
    · exact Or.inr (Or.inl ⟨by rw [hhalf]; nofun, rfl, rfl⟩)
    · rcases hevaluate { b with requestWindow := append b.windowSize b.requestWindow false }
        now rfl rfl with h | h
      · exact Or.inl h
      · exact Or.inr (Or.inl h)

theorem Tracked.Inv.step {s : Tracked} (h : s.Inv) (o : Step) : (s.step o).Inv := by
  refine ⟨h.healthy.run o, fun hne => ?_⟩
  show (o.run s.breaker).openedAt = if _ then _ else _
  rcases run_cases s.breaker o with ⟨hstate, hopened⟩ | ⟨hbefore, hopen, hopened⟩ | ⟨-, hclosed⟩ |
    ⟨hbefore, hhalf, hopened, -⟩
  · rw [if_neg fun h => h.1 (hstate ▸ h.2), hopened]
    exact h.openedAt fun hc => hne (hstate.trans hc)
  · rw [if_pos ⟨hbefore, hopen⟩, hopened]
  · exact absurd hclosed hne
  · rw [if_neg fun h => h.1 hbefore, hopened]
    exact h.openedAt (by rw [hbefore]; nofun)

theorem Tracked.Inv.changes {s : Tracked} (h : s.Inv) (o : Step) : Changes s o where
  ofOpen hopen hne := by
    rcases run_cases s.breaker o with ⟨hstate, -⟩ | ⟨hbefore, -, -⟩ | ⟨hhalf, -⟩ |
      ⟨-, hhalf, -, openedAt, hopened, hpast⟩
    · exact absurd (hstate.trans hopen) hne
    · exact absurd hopen hbefore
    · rw [hopen] at hhalf
      cases hhalf
    · refine ⟨hhalf, openedAt, ?_, hpast⟩
      rw [← h.openedAt (by rw [hopen]; nofun), hopened]
  refreshed := by
    rintro now rfl hhalf
    rcases refresh_cases s.breaker now with heq | ⟨hopen, -, -⟩
    · exact heq
    · rw [hhalf] at hopen
      cases hopen
  success := by
    rintro latencyMs now rfl hhalf
    rw [Step.run, CircuitBreaker.success, if_pos hhalf]
    exact ⟨rfl, rfl, rfl⟩
  failure := by
    rintro now rfl hhalf
    rw [Step.run, CircuitBreaker.failure, if_pos hhalf]
    rfl

/-- The breaker runs on its own beside the record. -/
theorem exec_breaker (os : List Step) (s : Tracked) :
    (exec Tracked.step s os).breaker = exec Step.run s.breaker os := by
  induction os generalizing s with
  | nil => rfl
  | cons o os ih => exact ih (s.step o)

/-- **Every run of calls** keeps the breaker healthy, between the calls and within them, and changes
its state only as it should. -/
theorem breaker_healthy (errorRateThreshold latencyThresholdMs : ℚ) (windowSize : ℤ)
    (cooldownSeconds : ℚ) (calls : List Call) :
    let b := CircuitBreaker.new errorRateThreshold latencyThresholdMs windowSize cooldownSeconds
    Healthy (exec Call.run b calls) ∧
      Along Tracked.step (fun s o => Healthy s.breaker ∧ Changes s o) ⟨b, none⟩
        (calls.flatMap Call.steps) := by
  intro b
  have hinit : Tracked.Inv ⟨b, none⟩ := ⟨Healthy.new .., fun h => absurd rfl h⟩
  constructor
  · have hinv := inv_exec_all (fun s o (h : s.Inv) => h.step o) (calls.flatMap Call.steps) _ hinit
    have hhealthy := hinv.healthy
    rwa [exec_breaker, exec_calls] at hhealthy
  · exact along_of_inv_all (fun s o h => h.step o) (fun s o h => ⟨h.healthy, h.changes o⟩) _ _ hinit

/-- One failure in two requests opens the breaker; it is half-open a minute later, and a success
closes it. -/
example :
    let b := CircuitBreaker.new (1 / 100) 500 100 60
    let run (calls : List Call) := (exec Call.run b calls).state
    run [.recordSuccess 20 ⟨0, 0⟩, .recordFailure ⟨1, 1⟩] = .stateOpen ∧
      run [.recordFailure ⟨1, 1⟩, .isOpen ⟨61, 61⟩] = .stateHalfOpen ∧
      run [.recordFailure ⟨1, 1⟩, .recordSuccess 20 ⟨61, 61⟩] = .stateClosed := by
  decide +kernel

end MoeInfinity.Serving.ContextpilotCircuitBreaker
