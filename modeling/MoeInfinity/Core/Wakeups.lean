import MoeInfinity.Core.ExecState
import MoeInfinity.Core.Stages

/-! # Lost notifications

`WaitHiddenStates` blocks on `pending_cv_` until nothing is pending, and a fetcher that finds
nothing to evict blocks on `cache_cv_` of its GPU. Their predicates are tested under a mutex that
the notifying threads do not take, so a notification that comes between the test and the block is
lost (`notified_too_early`); and a node may become idle without a notification, as in the exception
branch of `GPUExecFunc`.

* `Missed`: somebody is blocked, the predicate holds, and no notification is to come.
* `never_missed`: this does not happen in a run in which nobody notifies a thread that has tested
  but not blocked, and in which only completions make an expert evictable for a fetcher that
  waits. -/

namespace MoeInfinity.Core.Nodes

open MoeInfinity.Lib.Threads MoeInfinity.Lib.Runs

variable {S : Setup}

/-! ### Waiting threads -/

/-- The caller has found something pending and is about to block. -/
def DispatchInstr.isWaitBlock : DispatchInstr S → Bool
  | .waitBlock => true
  | _ => false

def DispatchInstr.isWaitAsleep : DispatchInstr S → Bool
  | .waitAsleep => true
  | _ => false

/-- What is left of `WaitHiddenStates`. -/
def DispatchInstr.isWait : DispatchInstr S → Bool
  | .waitTest => true
  | .waitBlock => true
  | .waitAsleep => true
  | _ => false

/-- With nothing pending, a notification of the caller follows. -/
def DispatchInstr.toNotifyPending : DispatchInstr S → Bool
  | .testPending => true
  | .notifyPending => true
  | _ => false

/-- The fetcher of a GPU has found nothing to evict and is about to block. -/
def DispatchInstr.isCacheBlock (g : Fin S.gpus) : DispatchInstr S → Bool
  | .cacheBlock g' _ => g' = g
  | _ => false

def DispatchInstr.isCacheAsleep (g : Fin S.gpus) : DispatchInstr S → Bool
  | .cacheAsleep g' _ => g' = g
  | _ => false

/-- A notification of the fetcher of a GPU follows. -/
def DispatchInstr.toNotifyCache (g : Fin S.gpus) : DispatchInstr S → Bool
  | .freeExecuted g' _ => g' = g
  | .unload g' _ => g' = g
  | .clearOverload g' _ => g' = g
  | .notifyCache g' _ => g' = g
  | _ => false

/-- The experts that `FindExpertEvict` looks at. -/
def Shared.evictable (sh : Shared S) (g : Fin S.gpus) : Finset Expert :=
  sh.dispatcher.evictable sh.node g

/-- The caller is blocked with nothing pending, and no notification is to come. -/
def MissedPending (s : System S) : Prop :=
  (Has s .caller DispatchInstr.isWaitAsleep ∧ s.shared.dispatcher.waiterAsleep = true) ∧
    s.shared.dispatcher.pending = 0 ∧ ∀ th, ¬ Has s th DispatchInstr.toNotifyPending

/-- The fetcher of a GPU is blocked with something to evict, and no notification is to come. -/
def MissedCache (s : System S) (g : Fin S.gpus) : Prop :=
  (Has s (.fetcher g) (DispatchInstr.isCacheAsleep g) ∧
    s.shared.dispatcher.fetcherAsleep g = true) ∧ s.shared.evictable g ≠ ∅ ∧
    ∀ th, ¬ Has s th (DispatchInstr.toNotifyCache g)

instance (s : System S) : Decidable (MissedPending s) :=
  inferInstanceAs (Decidable ((_ ∧ _) ∧ _ ∧ ∀ _, ¬ _))

def Missed (s : System S) : Prop := MissedPending s ∨ ∃ g, MissedCache s g

/-! ### The condition -/

/-- The caller has tested its predicate and is about to block, or is blocked. -/
def CallerWaits (s : System S) : Prop :=
  Has s .caller DispatchInstr.isWaitBlock ∨
    (Has s .caller DispatchInstr.isWaitAsleep ∧ s.shared.dispatcher.waiterAsleep = true)

/-- So is the fetcher of a GPU. -/
def FetcherWaits (s : System S) (g : Fin S.gpus) : Prop :=
  Has s (.fetcher g) (DispatchInstr.isCacheBlock g) ∨
    (Has s (.fetcher g) (DispatchInstr.isCacheAsleep g) ∧
      s.shared.dispatcher.fetcherAsleep g = true)

instance (s : System S) (g : Fin S.gpus) : Decidable (FetcherWaits s g) :=
  inferInstanceAs (Decidable (_ ∨ (_ ∧ _)))

def DispatchInstr.isNotifyPending : DispatchInstr S → Bool
  | .notifyPending => true
  | _ => false

def DispatchInstr.isNotifyCache (g : Fin S.gpus) : DispatchInstr S → Bool
  | .notifyCache g' _ => g' = g
  | _ => false

def DispatchInstr.isFreeExecuted (g : Fin S.gpus) : DispatchInstr S → Bool
  | .freeExecuted g' _ => g' = g
  | _ => false

/-- An instruction does not notify a thread that is about to block though its predicate holds, and
if it makes an expert evictable for a fetcher that waits, it is the completion of an expert on its
GPU. -/
def HeardAt (s : System S) (c : Choice) (i : Instr S) : Prop :=
  (i.is DispatchInstr.isNotifyPending → s.shared.dispatcher.pending = 0 →
      ¬ Has s .caller DispatchInstr.isWaitBlock) ∧
    ∀ g, (i.is (DispatchInstr.isNotifyCache g) → s.shared.evictable g ≠ ∅ →
        ¬ Has s (.fetcher g) (DispatchInstr.isCacheBlock g)) ∧
      (FetcherWaits s g → s.shared.evictable g = ∅ → i.is (DispatchInstr.isFreeExecuted g) = false →
        ((i.run c s.shared).elim ∅ fun r => r.1.evictable g) = ∅)

instance (s : System S) (c : Choice) (i : Instr S) : Decidable (HeardAt s c i) :=
  inferInstanceAs (Decidable ((_ → _ → ¬ _) ∧ ∀ _, (_ → _ → ¬ _) ∧ (_ → _ → _ → _)))

/-- The condition on a step. -/
def Heard (s : System S) (o : Op S) : Prop := (program S).AtStep (fun c _ i => HeardAt s c i) s o

instance (s : System S) (o : Op S) : Decidable (Heard s o) :=
  inferInstanceAs (Decidable ((program S).AtStep _ s o))

/-! ### The caller -/

/-- A law about what does not occur. -/
theorem vacuous {b : Bool} {P : Prop} (hb : b = false) (h : b = true) : P :=
  absurd h (ne_true_of_eq_false hb)

/-- What an instruction of the dispatcher does to the wait of the caller. -/
structure WaitLaw (d d' : Dispatcher S) (i : DispatchInstr S)
    (code : List (DispatchInstr S)) : Prop where
  wait : code.any DispatchInstr.isWait = true → i.isWait = true
  block : code.any DispatchInstr.isWaitBlock = true → d.pending ≠ 0 ∧ d'.pending = d.pending
  asleep : code.any DispatchInstr.isWaitAsleep = true → i.isWaitBlock = true
  waiter : d'.waiterAsleep = true → d.waiterAsleep = true ∨ i.isWaitBlock = true
  pending : d'.pending = 0 → d.pending = 0 ∨ code.any DispatchInstr.toNotifyPending = true ∨
    ∃ n, i = .setExpectedQueue n
  notify : i.toNotifyPending = true → d.pending = 0 →
    code.any DispatchInstr.toNotifyPending = true ∨
    (i.isNotifyPending = true ∧ d'.waiterAsleep = false)

/-- An instruction that the caller's wait does not come after. -/
theorem WaitLaw.noWait {d d' : Dispatcher S} {i : DispatchInstr S} {code : List (DispatchInstr S)}
    (hcode : code.any DispatchInstr.isWait = false)
    (hwaiter : d'.waiterAsleep = true → d.waiterAsleep = true ∨ i.isWaitBlock = true)
    (hpending : d'.pending = 0 → d.pending = 0 ∨ code.any DispatchInstr.toNotifyPending = true ∨
      ∃ n, i = .setExpectedQueue n)
    (hnotify : i.toNotifyPending = true → d.pending = 0 →
    code.any DispatchInstr.toNotifyPending = true ∨
      (i.isNotifyPending = true ∧ d'.waiterAsleep = false)) : WaitLaw d d' i code where
  wait := vacuous hcode
  block := fun h => by
    obtain ⟨j, hj, hb⟩ := List.any_eq_true.mp h
    have hnot := List.any_eq_false.mp hcode j hj
    cases j <;> first | exact absurd rfl hnot | cases hb
  asleep := fun h => by
    obtain ⟨j, hj, hb⟩ := List.any_eq_true.mp h
    have hnot := List.any_eq_false.mp hcode j hj
    cases j <;> first | exact absurd rfl hnot | cases hb
  waiter := hwaiter
  pending := hpending
  notify := hnotify

/-- An instruction that has nothing to do with the wait. -/
theorem WaitLaw.other {d d' : Dispatcher S} {i : DispatchInstr S} {code : List (DispatchInstr S)}
    (hw : d'.waiterAsleep = d.waiterAsleep) (hp : d'.pending = d.pending)
    (hcode : code.any DispatchInstr.isWait = false) (hi : i.toNotifyPending = false) :
    WaitLaw d d' i code :=
  WaitLaw.noWait hcode (fun h => Or.inl (hw ▸ h)) (fun h => Or.inl (hp ▸ h)) (vacuous hi)

theorem DispatchInstr.run_wait {c : Choice} {nodes nodes' : NodeMap S} {d d' : Dispatcher S}
    {i : DispatchInstr S} {code : List (DispatchInstr S)}
    (h : i.run c nodes d = some (nodes', d', code)) :
    WaitLaw d d' i code := by
  cases i with
  | setInputs | countDispatch | pushInput | pushExec | claim | uncount | takeOverload | cacheBlock
  | fetched | unload | clearOverload | notifyCache | freeFailed =>
    cases h
    exact WaitLaw.other rfl rfl rfl rfl
  | load g args own | freeExecuted g out =>
    cases h
    refine WaitLaw.other ?_ ?_ ?_ rfl <;> (try split) <;> rfl
  | setExpectedQueue n =>
    cases h
    exact WaitLaw.noWait rfl Or.inl (fun _ => Or.inr (Or.inr ⟨n, rfl⟩)) (vacuous rfl)
  | decrement =>
    cases h
    exact WaitLaw.noWait rfl Or.inl (fun _ => Or.inr (Or.inl rfl)) (vacuous rfl)
  | testPending =>
    cases h
    by_cases hd : d.pending = 0
    · rw [if_pos hd]
      exact WaitLaw.noWait rfl Or.inl Or.inl fun _ _ => Or.inl rfl
    · rw [if_neg hd]
      exact WaitLaw.noWait rfl Or.inl Or.inl fun _ h0 => absurd h0 hd
  | notifyPending =>
    cases h
    exact WaitLaw.noWait rfl (vacuous rfl) Or.inl fun _ _ => Or.inr ⟨rfl, rfl⟩
  | waitTest =>
    cases h
    by_cases hd : d.pending = 0
    · rw [if_pos hd]
      exact WaitLaw.other rfl rfl rfl rfl
    · rw [if_neg hd]
      exact {
        wait := fun _ => rfl
        block := fun _ => ⟨hd, rfl⟩
        asleep := vacuous rfl
        waiter := Or.inl
        pending := Or.inl
        notify := vacuous rfl }
  | waitBlock =>
    cases h
    exact {
      wait := fun _ => rfl
      block := vacuous rfl
      asleep := fun _ => rfl
      waiter := fun _ => Or.inr rfl
      pending := Or.inl
      notify := vacuous rfl }
  | waitAsleep =>
    simp only [run] at h
    split_ifs at h
    cases h
    exact {
      wait := fun _ => rfl
      block := vacuous rfl
      asleep := vacuous rfl
      waiter := vacuous rfl
      pending := Or.inl
      notify := vacuous rfl }
  | enqueue e g | enqueueBusy e | awaitIdle g args | claimed g args | fetch g args
  | awaitOverload g args | cacheTest g args | cacheAsleep g args | evict g args v | execute g args
  | accumulate out =>
    simp only [run] at h
    split_ifs at h <;> cases h <;> exact WaitLaw.other rfl rfl rfl rfl
  | enqueueRoute e g | popExec g =>
    simp only [run] at h
    split at h <;> cases h <;> exact WaitLaw.other rfl rfl rfl rfl
  | popInput g =>
    simp only [run] at h
    split at h <;> cases h
    refine WaitLaw.other rfl rfl ?_ rfl
    split <;> rfl
  | findEvict g args | findAgain g args retries =>
    simp only [run] at h
    split at h
    · split at h <;> cases h <;> exact WaitLaw.other rfl rfl rfl rfl
    · cases h

/-- A caller in `WaitHiddenStates` has nothing else to do. -/
def CallerAlone (s : System S) : Prop :=
  Has s .caller DispatchInstr.isWait → (s.code .caller).length ≤ 1

/-- A caller that waits with nothing pending will be notified. -/
def CallerHeard (s : System S) : Prop :=
  CallerWaits s → s.shared.dispatcher.pending = 0 → ∃ th, Has s th DispatchInstr.toNotifyPending

theorem CallerWaits.isWait {s : System S} (h : CallerWaits s) :
    Has s .caller DispatchInstr.isWait := by
  rcases h with h | ⟨h, -⟩
  all_goals
    obtain ⟨i, hi, hp⟩ := has_iff.mp h
    refine has_iff.mpr ⟨i, hi, ?_⟩
    rcases i with i | i
    · cases hp
    · cases i <;> first | rfl | cases hp

theorem Call.alone (k : Call S) (h : k.code.any (Instr.is DispatchInstr.isWait) = true) :
    k.code.length ≤ 1 := by
  cases k with
  | replaceCacheCandidates ts | fetchTensors ts => simp [Call.code, Instr.is] at h
  | _ => exact le_rfl

theorem Call.not_waits (k : Call S) : k.code.any (Instr.is DispatchInstr.isWaitBlock) = false ∧
    k.code.any (Instr.is DispatchInstr.isWaitAsleep) = false := by
  cases k with
  | replaceCacheCandidates ts | fetchTensors ts => simp [Call.code, Instr.is]
  | _ => exact ⟨rfl, rfl⟩

section Caller

variable {s : System S} {th : Thread S} {c : Choice} {i : Instr S} {rest : List (Instr S)}
  {sh : Shared S} {code : List (Instr S)}

theorem CallerAlone.called (k : Call S) : CallerAlone ((program S).called s k) := by
  intro hw
  have hcode : ((program S).called s k).code .caller = k.code := called_code_self s k
  rw [Has, hcode] at hw
  rw [hcode]
  exact k.alone hw

theorem CallerAlone.ran (h : CallerAlone s) (hn : (program S).next s th = some (i, rest))
    (hr : i.run c s.shared = some (sh, code)) : CallerAlone (s.ran th i rest sh code) := by
  intro hw
  by_cases hth : Thread.caller = th
  · subst hth
    have hcode : s.code .caller = i :: rest := by
      rcases next_eq_some hn with hcode | ⟨-, -, hloop⟩
      · exact hcode
      · cases hloop
    rw [ran_code_self]
    rcases has_of_ran hn hw with hold | ⟨-, hnew⟩
    · have hlen := h hold
      rw [hcode, List.length_cons] at hlen
      have hrest : rest = [] := List.eq_nil_of_length_eq_zero (by omega)
      subst hrest
      rcases i with i | i
      · obtain ⟨j, hj, hp⟩ := has_iff.mp hold
        rw [hcode, List.mem_singleton] at hj
        subst hj
        cases hp
      · obtain ⟨nodes, d, is, hrun, rfl, rfl⟩ := run_dispatch hr
        rw [List.append_nil, List.length_map]
        exact (i.run_stage hrun).1
    · rcases i with i | i
      · obtain ⟨nodes, tasks, is, hrun, rfl, rfl⟩ := run_pool hr
        rw [is_map_pool] at hnew
        cases hnew
      · obtain ⟨nodes, d, is, hrun, rfl, rfl⟩ := run_dispatch hr
        rw [is_map_dispatch] at hnew
        have hwait := (i.run_wait hrun).wait hnew
        have hlen := h (has_of_next hn hwait (fun _ => rfl) fun _ => rfl)
        rw [hcode, List.length_cons] at hlen
        have hrest : rest = [] := List.eq_nil_of_length_eq_zero (by omega)
        rw [hrest, List.append_nil, List.length_map]
        exact (i.run_stage hrun).1
  · rw [ran_code_of_ne s hth]
    refine h ?_
    rcases has_of_ran hn hw with hold | ⟨heq, -⟩
    · exact hold
    · exact absurd heq hth

/-- A caller that waits after a step has waited before it, unless something is pending. -/
theorem CallerWaits.of_ran (hs : Staged s) (hn : (program S).next s th = some (i, rest))
    (hr : i.run c s.shared = some (sh, code)) (h : CallerWaits (s.ran th i rest sh code))
    (hp : sh.dispatcher.pending = 0) : CallerWaits s := by
  rcases i with i | i
  · obtain ⟨nodes, tasks, is, hrun, rfl, rfl⟩ := run_pool hr
    have hback : ∀ p, Has (s.ran th (.pool i) rest { s.shared with node := nodes, tasks := tasks }
        (is.map .pool)) .caller p → Has s .caller p := by
      intro p hhas
      rcases has_of_ran hn hhas with hold | ⟨-, hnew⟩
      · exact hold
      · rw [is_map_pool] at hnew
        cases hnew
    exact h.imp (hback _) fun h => ⟨hback _ h.1, h.2⟩
  · obtain ⟨nodes, d, is, hrun, rfl, rfl⟩ := run_dispatch hr
    have hlaw := i.run_wait hrun
    -- only the caller blocks
    have hblock : i.isWaitBlock = true → CallerWaits s := by
      intro hi
      have hhas := has_of_next hn hi (fun _ => rfl) fun _ => rfl
      obtain ⟨j, hj, hruns⟩ := hs.runs_of_has hhas
      have hth : th = .caller := by
        cases j with
        | waitBlock =>
          cases th with
          | caller => rfl
          | _ => exact hruns.elim
        | _ => cases hj
      exact Or.inl (hth ▸ hhas)
    rcases h with h | ⟨h, hasleep⟩
    · rcases has_of_ran hn h with hold | ⟨-, hnew⟩
      · exact Or.inl hold
      · rw [is_map_dispatch] at hnew
        obtain ⟨hne, heq⟩ := hlaw.block hnew
        exact absurd (heq.symm.trans hp) hne
    · rcases has_of_ran hn h with hold | ⟨-, hnew⟩
      · rcases hlaw.waiter hasleep with hwas | hi
        · exact Or.inr ⟨hold, hwas⟩
        · exact hblock hi
      · rw [is_map_dispatch] at hnew
        exact hblock (hlaw.asleep hnew)

theorem CallerHeard.ran (h : CallerHeard s) (hs : Staged s) (ha : CallerAlone s)
    (hn : (program S).next s th = some (i, rest)) (hr : i.run c s.shared = some (sh, code))
    (hc : HeardAt s c i) : CallerHeard (s.ran th i rest sh code) := by
  intro hw hp
  have hbefore := hw.of_ran hs hn hr hp
  rcases i with i | i
  · obtain ⟨nodes, tasks, is, hrun, rfl, rfl⟩ := run_pool hr
    obtain ⟨th', hth'⟩ := h hbefore hp
    rcases has_ran hn hth' with hnew | ⟨-, hi⟩
    · exact ⟨th', hnew⟩
    · cases hi
  · obtain ⟨nodes, d, is, hrun, rfl, rfl⟩ := run_dispatch hr
    have hlaw := i.run_wait hrun
    rcases hlaw.pending hp with hold | hnew | ⟨n, rfl⟩
    · obtain ⟨th', hth'⟩ := h hbefore hold
      rcases has_ran hn hth' with hnew | ⟨rfl, hi⟩
      · exact ⟨th', hnew⟩
      rcases hlaw.notify hi hold with hcode | ⟨hnotify, hdown⟩
      · exact ⟨th', has_ran_of_code (by rw [is_map_dispatch]; exact hcode)⟩
      · exfalso
        rcases hw with hw | ⟨-, hasleep⟩
        · rcases has_of_ran hn hw with hwas | ⟨-, hcode⟩
          · exact hc.1 hnotify hold hwas
          · rw [is_map_dispatch] at hcode
            exact (hlaw.block hcode).1 hold
        · exact absurd (hdown.symm.trans hasleep) Bool.false_ne_true
    · exact ⟨th, has_ran_of_code (by rw [is_map_dispatch]; exact hnew)⟩
    · -- a caller that waits does not set the queue
      exfalso
      have hcode : s.code th = .dispatch (.setExpectedQueue n) :: rest := by
        rcases next_eq_some hn with hcode | ⟨-, -, hloop⟩
        · exact hcode
        · cases th <;> cases hloop
      have hruns := hs.runs th (.setExpectedQueue n) (by rw [hcode]; exact List.mem_cons_self)
      have hth : th = .caller := by
        cases th with
        | caller => rfl
        | _ => exact hruns.elim
      subst hth
      have hlen := ha hbefore.isWait
      rw [hcode, List.length_cons] at hlen
      have hrest : rest = [] := List.eq_nil_of_length_eq_zero (by omega)
      obtain ⟨j, hj, hpj⟩ := has_iff.mp hbefore.isWait
      rw [hcode, hrest, List.mem_singleton] at hj
      subst hj
      cases hpj

theorem CallerHeard.called (k : Call S) : CallerHeard ((program S).called s k) := by
  intro hw
  have hcode : ((program S).called s k).code .caller = k.code := called_code_self s k
  obtain ⟨hblock, hasleep⟩ := k.not_waits
  rcases hw with hw | ⟨hw, -⟩
  · rw [Has, hcode, hblock] at hw
    cases hw
  · rw [Has, hcode, hasleep] at hw
    cases hw

end Caller

/-! ### The fetchers -/

/-- What an instruction of the dispatcher does to the cache wait of a GPU. -/
structure CacheLaw (nodes nodes' : NodeMap S) (d d' : Dispatcher S) (i : DispatchInstr S)
    (code : List (DispatchInstr S)) (g : Fin S.gpus) : Prop where
  block : code.any (DispatchInstr.isCacheBlock g) = true → d'.evictable nodes' g = ∅
  asleep : code.any (DispatchInstr.isCacheAsleep g) = true → i.isCacheBlock g = true
  fetcher : d'.fetcherAsleep g = true → d.fetcherAsleep g = true ∨ i.isCacheBlock g = true
  freed : i.isFreeExecuted g = true → code.any (DispatchInstr.toNotifyCache g) = true
  notify : i.toNotifyCache g = true → code.any (DispatchInstr.toNotifyCache g) = true ∨
    (i.isNotifyCache g = true ∧ d'.fetcherAsleep g = false)

/-- An instruction that has nothing to do with the wait. -/
theorem CacheLaw.other {nodes nodes' : NodeMap S} {d d' : Dispatcher S} {i : DispatchInstr S}
    {code : List (DispatchInstr S)} {g : Fin S.gpus} (hf : d'.fetcherAsleep = d.fetcherAsleep)
    (hblock : code.any (DispatchInstr.isCacheBlock g) = false)
    (hasleep : code.any (DispatchInstr.isCacheAsleep g) = false)
    (hfreed : i.isFreeExecuted g = false) (hnotify : i.toNotifyCache g = false) :
    CacheLaw nodes nodes' d d' i code g where
  block := fun h => by rw [hblock] at h; cases h
  asleep := fun h => by rw [hasleep] at h; cases h
  fetcher := fun h => Or.inl (hf ▸ h)
  freed := fun h => by rw [hfreed] at h; cases h
  notify := fun h => by rw [hnotify] at h; cases h

theorem Dispatcher.sleep_self (d : Dispatcher S) (g : Fin S.gpus) (b : Bool) :
    (d.sleep g b).fetcherAsleep g = b :=
  Function.update_self ..

theorem Dispatcher.sleep_of_ne (d : Dispatcher S) {g g' : Fin S.gpus} (hg : g' ≠ g) (b : Bool) :
    (d.sleep g' b).fetcherAsleep g = d.fetcherAsleep g :=
  Function.update_of_ne hg.symm ..

theorem DispatchInstr.run_cacheWait {c : Choice} {nodes nodes' : NodeMap S} {d d' : Dispatcher S}
    {i : DispatchInstr S} {code : List (DispatchInstr S)}
    (h : i.run c nodes d = some (nodes', d', code)) (g : Fin S.gpus) :
    CacheLaw nodes nodes' d d' i code g := by
  cases i with
  | setInputs | countDispatch | pushInput | pushExec | claim | uncount | takeOverload | fetched
  | freeFailed | setExpectedQueue | decrement | notifyPending | waitBlock =>
    cases h
    exact CacheLaw.other rfl rfl rfl rfl rfl
  | load g' args own =>
    cases h
    refine CacheLaw.other ?_ rfl rfl rfl rfl
    split <;> rfl
  | testPending | waitTest =>
    cases h
    split <;> exact CacheLaw.other rfl rfl rfl rfl rfl
  | cacheBlock g' args =>
    cases h
    by_cases hg : g' = g
    · have hself : (cacheBlock g' args : DispatchInstr S).isCacheBlock g = true := decide_eq_true hg
      exact {
        block := vacuous rfl
        asleep := fun _ => hself
        fetcher := fun _ => Or.inr hself
        freed := vacuous rfl
        notify := vacuous rfl }
    · have hasleep : ([cacheAsleep g' args] : List (DispatchInstr S)).any (isCacheAsleep g) =
          false := by
        simp [isCacheAsleep, hg]
      exact {
        block := vacuous rfl
        asleep := vacuous hasleep
        fetcher := fun h => Or.inl (d.sleep_of_ne hg true ▸ h)
        freed := vacuous rfl
        notify := vacuous rfl }
  | cacheAsleep g' args =>
    simp only [run] at h
    split_ifs at h
    cases h
    have hfetcher : (d.sleep g' false).fetcherAsleep g = true → d.fetcherAsleep g = true := by
      intro h
      by_cases hg : g' = g
      · rw [hg, d.sleep_self] at h
        cases h
      · rwa [d.sleep_of_ne hg] at h
    exact {
      block := vacuous rfl
      asleep := vacuous rfl
      fetcher := fun h => Or.inl (hfetcher h)
      freed := vacuous rfl
      notify := vacuous rfl }
  | cacheTest g' args =>
    simp only [run] at h
    split_ifs at h with hempty
    · cases h
      have hblock : ([cacheBlock g' args] : List (DispatchInstr S)).any (isCacheBlock g) = true →
          d.evictable nodes g = ∅ := by
        intro h
        have hg : g' = g := by simpa [isCacheBlock] using h
        exact hg ▸ hempty
      exact {
        block := hblock
        asleep := vacuous rfl
        fetcher := Or.inl
        freed := vacuous rfl
        notify := vacuous rfl }
    · cases h
      exact CacheLaw.other rfl rfl rfl rfl rfl
  | freeExecuted g' out =>
    cases h
    have hcode : g' = g → ([if out.args.evict then unload g' out else notifyCache g' out] :
        List (DispatchInstr S)).any (toNotifyCache g) = true := by
      intro hg
      cases out.args.evict <;> simp [toNotifyCache, hg]
    refine {
      block := fun h => ?block
      asleep := fun h => ?asleep
      fetcher := Or.inl
      freed := fun h => hcode (of_decide_eq_true h)
      notify := fun h => Or.inl (hcode (of_decide_eq_true h)) }
    case block => cases hev : out.args.evict <;> rw [hev] at h <;> cases h
    case asleep => cases hev : out.args.evict <;> rw [hev] at h <;> cases h
  | unload g' out | clearOverload g' out =>
    cases h
    refine {
      block := vacuous rfl
      asleep := vacuous rfl
      fetcher := Or.inl
      freed := vacuous rfl
      notify := fun h => Or.inl ?_ }
    have hg : g' = g := of_decide_eq_true h
    simp [toNotifyCache, hg]
  | notifyCache g' out =>
    cases h
    by_cases hg : g' = g
    · subst hg
      have hdown : (d.sleep g' false).fetcherAsleep g' = false := d.sleep_self g' false
      exact {
        block := vacuous rfl
        asleep := vacuous rfl
        fetcher := vacuous hdown
        freed := vacuous rfl
        notify := fun h => Or.inr ⟨h, hdown⟩ }
    · exact {
        block := vacuous rfl
        asleep := vacuous rfl
        fetcher := fun h => Or.inl (d.sleep_of_ne hg false ▸ h)
        freed := vacuous rfl
        notify := fun h => absurd (of_decide_eq_true h) hg }
  | enqueue e g' | enqueueBusy e | awaitIdle g' args | claimed g' args | fetch g' args
  | awaitOverload g' args | evict g' args v | execute g' args | accumulate out | waitAsleep =>
    simp only [run] at h
    split_ifs at h <;> cases h <;> exact CacheLaw.other rfl rfl rfl rfl rfl
  | enqueueRoute e g' | popExec g' =>
    simp only [run] at h
    split at h <;> cases h <;> exact CacheLaw.other rfl rfl rfl rfl rfl
  | popInput g' =>
    simp only [run] at h
    split at h <;> cases h
    refine CacheLaw.other rfl ?_ ?_ rfl rfl <;> split <;> rfl
  | findEvict g' args | findAgain g' args retries =>
    simp only [run] at h
    split at h
    · split at h <;> cases h <;> exact CacheLaw.other rfl rfl rfl rfl rfl
    · cases h

/-- A fetcher that waits with something to evict will be notified. -/
def FetcherHeard (s : System S) : Prop :=
  ∀ g, FetcherWaits s g → s.shared.evictable g ≠ ∅ → ∃ th, Has s th (DispatchInstr.toNotifyCache g)

section Fetcher

variable {s : System S} {th : Thread S} {c : Choice} {i : Instr S} {rest : List (Instr S)}
  {sh : Shared S} {code : List (Instr S)} {g : Fin S.gpus}

/-- A fetcher that waits after a step has waited before it, unless there is nothing to evict. -/
theorem FetcherWaits.of_ran (hs : Staged s) (hn : (program S).next s th = some (i, rest))
    (hr : i.run c s.shared = some (sh, code)) (h : FetcherWaits (s.ran th i rest sh code) g)
    (he : sh.evictable g ≠ ∅) : FetcherWaits s g := by
  rcases i with i | i
  · obtain ⟨nodes, tasks, is, hrun, rfl, rfl⟩ := run_pool hr
    have hback : ∀ p, Has (s.ran th (.pool i) rest { s.shared with node := nodes, tasks := tasks }
        (is.map .pool)) (.fetcher g) p → Has s (.fetcher g) p := by
      intro p hhas
      rcases has_of_ran hn hhas with hold | ⟨-, hnew⟩
      · exact hold
      · rw [is_map_pool] at hnew
        cases hnew
    exact h.imp (hback _) fun h => ⟨hback _ h.1, h.2⟩
  · obtain ⟨nodes, d, is, hrun, rfl, rfl⟩ := run_dispatch hr
    have hlaw := i.run_cacheWait hrun g
    -- only the fetcher of the GPU blocks
    have hblock : i.isCacheBlock g = true → FetcherWaits s g := by
      intro hi
      have hhas := has_of_next hn hi (fun _ => rfl) fun _ => rfl
      obtain ⟨j, hj, hruns⟩ := hs.runs_of_has hhas
      have hth : th = .fetcher g := by
        cases j with
        | cacheBlock g' args =>
          have hg : g' = g := of_decide_eq_true hj
          cases th with
          | fetcher g'' => exact congrArg Thread.fetcher (hruns.symm.trans hg)
          | _ => exact hruns.elim
        | _ => cases hj
      exact Or.inl (hth ▸ hhas)
    rcases h with h | ⟨h, hasleep⟩
    · rcases has_of_ran hn h with hold | ⟨-, hnew⟩
      · exact Or.inl hold
      · rw [is_map_dispatch] at hnew
        exact absurd (hlaw.block hnew) he
    · rcases has_of_ran hn h with hold | ⟨-, hnew⟩
      · rcases hlaw.fetcher hasleep with hwas | hi
        · exact Or.inr ⟨hold, hwas⟩
        · exact hblock hi
      · rw [is_map_dispatch] at hnew
        exact hblock (hlaw.asleep hnew)

theorem FetcherHeard.ran (h : FetcherHeard s) (hs : Staged s)
    (hn : (program S).next s th = some (i, rest)) (hr : i.run c s.shared = some (sh, code))
    (hc : HeardAt s c i) : FetcherHeard (s.ran th i rest sh code) := by
  intro g hw he
  have hbefore := hw.of_ran hs hn hr he
  obtain ⟨hwindow, hopens⟩ := hc.2 g
  by_cases hempty : s.shared.evictable g = ∅
  · -- the instruction has made an expert evictable
    have hfree : i.is (DispatchInstr.isFreeExecuted g) = true := by
      by_contra hnot
      have hstill := hopens hbefore hempty (Bool.eq_false_iff.mpr hnot)
      rw [hr] at hstill
      exact he hstill
    rcases i with i | i
    · cases hfree
    · obtain ⟨nodes, d, is, hrun, rfl, rfl⟩ := run_dispatch hr
      refine ⟨th, has_ran_of_code ?_⟩
      rw [is_map_dispatch]
      exact (i.run_cacheWait hrun g).freed hfree
  · obtain ⟨th', hth'⟩ := h g hbefore hempty
    rcases has_ran hn hth' with hnew | ⟨rfl, hi⟩
    · exact ⟨th', hnew⟩
    rcases i with i | i
    · cases hi
    obtain ⟨nodes, d, is, hrun, rfl, rfl⟩ := run_dispatch hr
    have hlaw := i.run_cacheWait hrun g
    rcases hlaw.notify hi with hcode | ⟨hnotify, hdown⟩
    · exact ⟨th', has_ran_of_code (by rw [is_map_dispatch]; exact hcode)⟩
    exfalso
    rcases hw with hw | ⟨-, hasleep⟩
    · rcases has_of_ran hn hw with hwas | ⟨-, hcode⟩
      · exact hwindow hnotify hempty hwas
      · rw [is_map_dispatch] at hcode
        exact he (hlaw.block hcode)
    · exact absurd (hdown.symm.trans hasleep) Bool.false_ne_true

theorem FetcherHeard.called (h : FetcherHeard s) (hnil : s.code .caller = []) (k : Call S) :
    FetcherHeard ((program S).called s k) := by
  have hcode : ∀ th : Thread S, th ≠ .caller → ((program S).called s k).code th = s.code th :=
    fun th hth => called_code_of_ne (p := program S) s hth k
  intro g hw he
  unfold FetcherWaits Has at hw
  rw [hcode (.fetcher g) (by simp)] at hw
  obtain ⟨th, hth⟩ := h g hw he
  have hne : th ≠ .caller := by
    rintro rfl
    rw [Has, hnil] at hth
    cases hth
  exact ⟨th, by rw [Has, hcode th hne]; exact hth⟩

end Fetcher

/-! ### Runs -/

/-- What keeps the notifications. -/
structure Hearing (s : System S) : Prop where
  alone : CallerAlone s
  caller : CallerHeard s
  fetcher : FetcherHeard s

theorem Hearing.not_missed {s : System S} (h : Hearing s) : ¬ Missed s := by
  rintro (⟨hw, hp, hnone⟩ | ⟨g, hw, he, hnone⟩)
  · obtain ⟨th, hth⟩ := h.caller (Or.inr hw) hp
    exact hnone th hth
  · obtain ⟨th, hth⟩ := h.fetcher g (Or.inr hw) he
    exact hnone th hth

theorem Hearing.init (w : ℕ → ℕ → S.Weight) : Hearing (System.init S w) := by
  have hnone : ∀ (th : Thread S) (p : DispatchInstr S → Bool), ¬ Has (System.init S w) th p := nofun
  constructor
  · exact fun h => absurd h (hnone _ _)
  · rintro (h | ⟨h, -⟩) <;> exact absurd h (hnone _ _)
  · rintro g (h | ⟨h, -⟩) <;> exact absurd h (hnone _ _)

/-- **No notification is missed**, in a run in which a thread that has found its predicate false is
not notified before it blocks, and in which only completions make an expert evictable for a fetcher
that waits. -/
theorem never_missed (w : ℕ → ℕ → S.Weight) (os : List (Op S))
    (h : Along (program S).step Heard (System.init S w) os) :
    ¬ Missed (exec (program S).step (System.init S w) os) := by
  have hstep : ∀ (s : System S) (o : Op S), (Hearing s ∧ Staged s ∧ Acquiring s) → Heard s o →
      (Hearing ((program S).step s o) ∧ Staged ((program S).step s o) ∧
        Acquiring ((program S).step s o)) := by
    refine step_inv (G := Heard) ?_ ?_
    · rintro s k ⟨hh, hs, ha⟩ - hnil
      exact ⟨⟨CallerAlone.called k, CallerHeard.called k, hh.fetcher.called hnil k⟩, hs.called k,
        ha.called hnil k⟩
    · rintro s th c i rest sh code ⟨hh, hs, ha⟩ hc hn hr
      have hc : HeardAt s c i := hc.run hn
      exact ⟨⟨hh.alone.ran hn hr, hh.caller.ran hs hh.alone hn hr hc, hh.fetcher.ran hs hn hr hc⟩,
        hs.ran ha.apart hn hr, ha.ran hn hr⟩
  have hinit : Hearing (System.init S w) ∧ Staged (System.init S w) ∧ Acquiring (System.init S w) :=
    ⟨Hearing.init w, Staged.init w, Acquiring.init w⟩
  exact (inv_exec hstep os _ hinit h).1.not_missed

/-- The caller blocks before the expert is executed. -/
def heardRun : List (Op oneGpu) :=
  calls (.setExpectedQueue 1) 1 ++ calls (.enqueueExpert ⟨0, 1⟩ gpu) 3 ++
    calls .waitHiddenStates 2 ++ runs (.fetcher gpu) 5 ++ runs executor 8

theorem never_missed_heardRun :
    ¬ Missed (exec (program oneGpu).step (System.init oneGpu fun _ _ => (0 : ℤ)) heardRun) :=
  never_missed _ _ (by decide +kernel)

/-- The expert is executed between the test of the caller and its block. -/
def missedRun : List (Op oneGpu) :=
  calls (.setExpectedQueue 1) 1 ++ calls (.enqueueExpert ⟨0, 1⟩ gpu) 3 ++
    calls .waitHiddenStates 1 ++ runs (.fetcher gpu) 5 ++ runs executor 8 ++ runs .caller 1

theorem notified_too_early :
    ¬ ∀ os : List (Op oneGpu), ¬ Missed (exec (program oneGpu).step oneGpuInit os) := by
  intro h
  refine h missedRun (Or.inl ?_)
  decide +kernel

end MoeInfinity.Core.Nodes
