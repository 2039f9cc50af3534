import Mathlib.Data.Nat.Pairing
import MoeInfinity.Core.Holders

/-! # Idle nodes (`NodeExecState`)

A node whose state word is taken can be neither prefetched nor acquired. If some operation holds it,
it will store `IDLE` in the end; so when no task is queued or running, no dispatch is outstanding
and no tensor is acquired, all nodes are idle. This holds unless `ReplaceCacheCandidates` has found
an idle node: it takes the nodes of its candidates, and nothing gives them back.

* `Pledged`: a node that is taken has a holder. Every instruction keeps this, since what removes a
  holder stores `IDLE` at the same time. -/

namespace MoeInfinity.Core.Nodes

open MoeInfinity.Lib.Threads MoeInfinity.Lib.Runs

variable {S : Setup}

/-- `ReplaceCacheCandidates` takes an idle node. -/
def Instr.strands (sh : Shared S) : Instr S → Bool
  | .pool (.takeCandidate t) => (sh.node (S.nodeOf t)).execState = .idle
  | _ => false

/-- No task is queued or running, no expert dispatch is outstanding, and no tensor is acquired; a
call may be in progress if it has not taken a node. -/
structure Quiescent (s : System S) : Prop where
  unifiedQueue : ∀ i, s.shared.tasks.unifiedQueue i = []
  inputQueue : ∀ g, s.shared.dispatcher.inputQueue g = []
  execQueue : ∀ g, s.shared.dispatcher.execQueue g = []
  acquired : ∀ n, s.shared.tasks.acquired n = ∅
  code : ∀ th, th ≠ .caller → s.code th = []
  caller : ∀ i ∈ s.code .caller, i.holds = none

theorem Quiescent.holders_eq {s : System S} (h : Quiescent s) (n : ℕ) : holders s n = 0 := by
  refine total_eq_zero _ _ ?_ fun th i hi => ?_
  · have hin : sumWeight (CallArgs.held n) s.shared.dispatcher.inputQueue = 0 :=
      Finset.sum_eq_zero fun g _ => by rw [h.inputQueue g]; rfl
    have hex : sumWeight (ExecArgs.held (S := S) n) s.shared.dispatcher.execQueue = 0 :=
      Finset.sum_eq_zero fun g _ => by rw [h.execQueue g]; rfl
    simp [Shared.holders, Dispatcher.holders, Tasks.holders, h.acquired n, hin, hex]
  · by_cases hth : th = .caller
    · subst hth
      rw [Instr.held, h.caller i hi, one_none]
    · rw [h.code th hth] at hi
      cases hi

/-! ### The invariant -/

theorem Instr.mem_stores_of_gives {i : Instr S} {n : ℕ} (sh : Shared S) (h : i.gives = some n) :
    n ∈ i.stores sh := by
  rcases i with i | i <;> cases i <;>
    simp_all [Instr.gives, PoolInstr.gives, DispatchInstr.gives, Instr.stores, PoolInstr.stores,
      DispatchInstr.stores]

theorem Instr.acquires_of_takes {i : Instr S} {n : ℕ} {sh : Shared S} (h : i.takes sh = some n)
    (hs : ¬ i.strands sh) : i.acquires sh = some n := by
  rcases i with i | i
  · cases i with
    | takeCandidate t =>
      simp only [Instr.takes, PoolInstr.takes] at h
      split at h
      · next hidle => exact absurd (decide_eq_true hidle) hs
      · cases h
    | _ => exact h
  · cases i with
    | claim g args =>
      simp only [Instr.takes, DispatchInstr.takes] at h
      split at h
      · exact h
      · cases h
    | _ => exact h

/-- A node that is taken has a holder. -/
def Pledged (s : System S) : Prop :=
  ∀ n, (s.shared.node n).execState = .fetching → 0 < holders s n

theorem Pledged.init (w : ℕ → ℕ → S.Weight) : Pledged (System.init S w) := by
  intro n h
  cases h

theorem Pledged.step {s : System S} {o : Op S} (h : Pledged s)
    (hs : (program S).AtStep (fun _ sh i => ¬ i.strands sh) s o) :
    Pledged ((program S).step s o) := by
  refine step_inv (G := (program S).AtStep fun _ sh i => ¬ i.strands sh)
    (fun s k h _ hnil n hn => ?_) (fun s th c i rest sh code h hs hnext hrun n hn => ?_) s o h hs
  · rw [holders_called hnil]
    exact h n hn
  · have hlaw := holders_ran hnext hrun n
    have hstate := i.run_execState hrun n
    rw [ran_shared] at hn
    rw [hn] at hstate
    split_ifs at hstate with hstore htake
    -- the instruction does not give the node back, since it would store `IDLE`
    all_goals
      have hgives : i.gives ≠ some n := fun hg => hstore (i.mem_stores_of_gives s.shared hg)
      rw [one, if_neg hgives] at hlaw
    · rw [Instr.acquires_of_takes htake (hs.run hnext), one_self] at hlaw
      omega
    · have hpos := h n hstate.symm
      omega

/-- **Nodes are idle at rest**, after every run in which no `ReplaceCacheCandidates` takes an idle
node. -/
theorem idle_of_quiescent (w : ℕ → ℕ → S.Weight) (os : List (Op S))
    (h : Along (program S).step ((program S).AtStep fun _ sh i => ¬ i.strands sh)
      (System.init S w) os)
    (hq : Quiescent (exec (program S).step (System.init S w) os)) (n : ℕ) :
    ((exec (program S).step (System.init S w) os).shared.node n).execState = .idle := by
  have hinv := inv_exec (fun _ _ => Pledged.step) os _ (Pledged.init w) h
  by_contra hne
  have hpos := hinv n (eq_fetching hne)
  rw [hq.holders_eq n] at hpos
  exact absurd hpos (Nat.lt_irrefl 0)

/-! ### Candidates -/

/-- `ReplaceCacheCandidates` on a tensor, when nothing else is going on: its node stays taken. -/
theorem replaceCacheCandidates_strands {s : System S} (hq : Quiescent s)
    (hnil : s.code .caller = []) (t : ℕ) :
    ∃ os, Quiescent (exec (program S).step s os) ∧
      ((exec (program S).step s os).shared.node (S.nodeOf t)).execState = .fetching := by
  let s₁ : System S := (program S).called s (.replaceCacheCandidates [t])
  let s₂ : System S := s₁.ran .caller (.pool (.takeCandidate t)) [.pool (.replaceCandidates [t])]
    { s.shared with node := store s.shared.node (S.nodeOf t) .fetching } []
  have h₁ : s₁.code .caller = [.pool (.takeCandidate t), .pool (.replaceCandidates [t])] :=
    called_code_self s _
  have h₂ : s₂.code .caller = [.pool (.replaceCandidates [t])] := ran_code_self ..
  refine ⟨[.call (.replaceCacheCandidates [t]), .run .caller {}, .run .caller {}], ?_⟩
  have hcall : (program S).step s (.call (.replaceCacheCandidates [t])) = s₁ := step_call hnil _
  have htake : (program S).step s₁ (.run .caller {}) = s₂ := step_run (next_of_code h₁) rfl
  have hreplace : (program S).step s₂ (.run .caller {}) =
      s₂.ran .caller (.pool (.replaceCandidates [t])) [] { s₂.shared with
        tasks := (s.shared.tasks.removeIf 1 fun _ => true).setCandidates
            ([t].map S.nodeOf).toFinset } [] :=
    step_run (next_of_code h₂) rfl
  rw [exec_cons, exec_cons, exec_cons, exec_nil, hcall, htake, hreplace]
  refine ⟨⟨fun i => ?_, hq.inputQueue, hq.execQueue, hq.acquired, fun th hth => ?_, ?_⟩, ?_⟩
  · show (if 1 ≤ i ∧ i < numPriority then _ else _) = _
    simp [hq.unifiedQueue i]
  · rw [ran_code_of_ne _ hth, ran_code_of_ne _ hth, called_code_of_ne _ hth]
    exact hq.code th hth
  · rw [ran_code_self]
    exact nofun
  · simp [s₂]

/-! ### A small machine -/

/-- One GPU; node `n` is the only tensor `n` of layer `n`, and nodes with an odd number are
sparse. -/
def oneGpu : Setup where
  gpus := 1
  threads := 1
  Row := ℤ
  Weight := ℤ
  forward _ v := v
  nodeOf := id
  tensorIds n := {n}
  mem_tensorIds t := Finset.mem_singleton_self t
  layer := id
  isSparse n := n % 2 = 1
  byteSize _ := 1
  defaultDevice _ := 0
  sparseNodes := [1, 3]
  denseNodes := [0, 2]
  memoryCapacity _ := 4
  deviceCacheLimit _ := 2
  node e := Nat.pair e.layerIdx e.expertIdx
  node_injective := by
    intro e e' h
    have := Nat.pair_eq_pair.mp h
    cases e
    cases e'
    simp_all

theorem quiescent_init (w : ℕ → ℕ → S.Weight) : Quiescent (System.init S w) :=
  ⟨fun _ => rfl, fun _ => rfl, fun _ => rfl, fun _ => rfl, fun _ _ => rfl, nofun⟩

def oneGpuInit : System oneGpu := System.init oneGpu fun _ _ => (0 : ℤ)

def gpu : Fin oneGpu.gpus := (0 : Fin 1)

def executor : Thread oneGpu := .executor gpu (0 : Fin 1)

/-- A call, and the next steps of the caller. -/
def calls (k : Call S) (steps : ℕ) : List (Op S) :=
  .call k :: List.replicate steps (.run .caller {})

def runs (th : Thread S) (steps : ℕ) : List (Op S) := List.replicate steps (.run th {})

/-- An expert is dispatched, loaded and executed. -/
def dispatched (e : Expert) : List (Op oneGpu) :=
  calls (.enqueueExpert e gpu) 3 ++ runs (.fetcher gpu) 5 ++ runs executor 7

theorem idle_after_dispatch :
    ((exec (program oneGpu).step oneGpuInit (dispatched ⟨0, 1⟩)).shared.node 1).execState =
    .idle := by
  refine idle_of_quiescent _ _ (by decide)
    ⟨fun _ => rfl, by decide, by decide, fun _ => rfl, by decide, ?_⟩ 1
  exact nofun

/-- One call strands a node of the idle machine. -/
theorem strandedNode : ¬ ∀ os : List (Op oneGpu), ∀ n,
    Quiescent (exec (program oneGpu).step oneGpuInit os) →
      ((exec (program oneGpu).step oneGpuInit os).shared.node n).execState = .idle := by
  intro h
  obtain ⟨os, hq, hfetching⟩ := replaceCacheCandidates_strands (quiescent_init _) rfl 0
  have hidle := h os 0 hq
  cases hfetching.symm.trans hidle

end MoeInfinity.Core.Nodes
