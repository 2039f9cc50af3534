import MoeInfinity.Core.Acquisition

/-! # On-demand tasks in the queues

The caller prunes queues, and a worker that takes a task removes the others of its node and device.
Neither drops an on-demand task: its caller waits for it and prunes nothing, and when it was queued
no other task of its node was left (`Pure`). So it stays in its queue until a worker takes it
(`keepsDemands`). -/

namespace MoeInfinity.Core.Nodes

open MoeInfinity.Lib.Threads MoeInfinity.Lib.Runs

variable {S : Setup}

/-! ### One node at a time -/

/-- Two nodes are not acquired at the same time. -/
theorem chained_add_le (s : System S) {n m : ℕ} (h : n ≠ m) :
    chained s n + chained s m ≤ acquiring s := by
  unfold chained acquiring
  rw [total_add_total]
  refine total_le _ _ (fun i => ?_) (Nat.le_refl 0)
  by_cases hn : i.chained n = 0
  · have hle := i.chained_le m
    omega
  · rcases i with i | i
    · have hchain : i.chain = some n := by
        by_contra hne
        exact hn (if_neg hne)
      have hm : Instr.chained m (.pool i) = 0 := if_neg (by rw [hchain]; simpa using h)
      have hle := Instr.chained_le n (.pool i)
      omega
    · exact absurd rfl hn

theorem mem_of_demanded {s : System S} {th : Thread S} {i : Instr S} {rest : List (Instr S)} {n : ℕ}
    (hn : (program S).next s th = some (i, rest)) (h : i.demanded n = 1) : i ∈ s.code th := by
  rcases next_eq_some hn with hcode | ⟨-, -, hloop⟩
  · rw [hcode]
    exact List.mem_cons_self
  · cases th <;> cases hloop <;> cases h

/-- While one instruction is demanded, no on-demand task is queued. -/
theorem Acquiring.no_task {s : System S} (h : Acquiring s) {th : Thread S} {i : Instr S} {n : ℕ}
    (hi : i ∈ s.code th) (hd : i.demanded n = 1) (m : ℕ) : s.shared.tasks.demanded m = 0 := by
  have hle : i.demanded n ≤ codeWeight (Instr.demanded n) (s.code th) := le_codeWeight _ hi
  have hcode : s.shared.tasks.demanded n + codeWeight (Instr.demanded n) (s.code th) ≤
      demanded s n :=
    code_le_total (Instr.demanded n) (fun sh => sh.tasks.demanded n) s th
  have hdemanded := h.le n
  have hsingle := h.single
  by_cases hm : m = n
  · subst hm
    have hchained := chained_le_acquiring s m
    omega
  · have hpart : s.shared.tasks.demanded m ≤ demanded s m := Nat.le_add_right _ _
    have hother := h.le m
    have hboth := chained_add_le s hm
    omega

theorem Acquiring.no_task_of_call {s : System S} (h : Acquiring s)
    (hzero : acquiring s = 0) (m : ℕ) :
    s.shared.tasks.demanded m = 0 := by
  have hpart : s.shared.tasks.demanded m ≤ demanded s m := Nat.le_add_right _ _
  have hle := h.demanded_le m
  omega

/-! ### Queues -/

theorem Tasks.demanded_pos {tasks : Tasks S} {p : ℕ} (hp : p < numPriority) {t : Task S}
    (ht : t ∈ tasks.unifiedQueue p) (hd : t.onDemand = true) : 0 < tasks.demanded t.node := by
  have hone : t.demanded t.node = 1 := if_pos ⟨hd, rfl⟩
  have hqueue : t.demanded t.node ≤ codeWeight (Task.demanded t.node) (tasks.unifiedQueue p) :=
    le_codeWeight _ ht
  have hsum : codeWeight (Task.demanded t.node) (tasks.unifiedQueue p) ≤ tasks.demanded t.node :=
    Finset.single_le_sum_of_canonicallyOrdered
      (f := fun q => codeWeight (Task.demanded t.node) (tasks.unifiedQueue q))
      (Finset.mem_range.mpr hp)
  omega

/-- There are no two on-demand tasks of a node. -/
theorem Tasks.demand_unique {tasks : Tasks S} {n : ℕ} (h : tasks.demanded n ≤ 1) {p q : ℕ}
    (hp : p < numPriority) (hq : q < numPriority) {t t' : Task S} (ht : t ∈ tasks.unifiedQueue p)
    (ht' : t' ∈ tasks.unifiedQueue q) (hd : t.onDemand = true ∧ t.node = n)
    (hd' : t'.onDemand = true ∧ t'.node = n) : t = t' := by
  by_contra hne
  have hone : t.demanded n = 1 := if_pos hd
  have hone' : t'.demanded n = 1 := if_pos hd'
  have htwo : 2 ≤ tasks.demanded n := by
    by_cases hpq : p = q
    · subst hpq
      have hboth := add_le_codeWeight (Task.demanded n) ht ht' hne
      have hsum : codeWeight (Task.demanded n) (tasks.unifiedQueue p) ≤ tasks.demanded n :=
        Finset.single_le_sum_of_canonicallyOrdered
          (f := fun q => codeWeight (Task.demanded n) (tasks.unifiedQueue q))
          (Finset.mem_range.mpr hp)
      omega
    · have hle := le_codeWeight (Task.demanded n) ht
      have hle' := le_codeWeight (Task.demanded n) ht'
      have hsum : ∑ x ∈ ({p, q} : Finset ℕ), codeWeight (Task.demanded n) (tasks.unifiedQueue x) ≤
          tasks.demanded n := by
        refine Finset.sum_le_sum_of_subset fun x hx => ?_
        rcases Finset.mem_insert.mp hx with rfl | hx
        · exact Finset.mem_range.mpr hp
        · rw [Finset.mem_singleton.mp hx]
          exact Finset.mem_range.mpr hq
      rw [Finset.sum_pair hpq] at hsum
      omega
  omega

theorem mem_removeIf {tasks : Tasks S} {first p : ℕ} {f : Task S → Bool} {t : Task S} :
    t ∈ (tasks.removeIf first f).unifiedQueue p ↔
      t ∈ tasks.unifiedQueue p ∧ ¬ (first ≤ p ∧ p < numPriority ∧ f t = true) := by
  unfold Tasks.removeIf
  simp only
  split
  · next h => simp [h]
  · next h =>
    constructor
    · exact fun ht => ⟨ht, fun hall => h ⟨hall.1, hall.2.1⟩⟩
    · exact fun ht => ht.1

theorem mem_push {tasks : Tasks S} {t t' : Task S} {p : ℕ} :
    t ∈ (tasks.push t').unifiedQueue p ↔ t ∈ tasks.unifiedQueue p ∨ t = t' ∧ p = t'.priority := by
  unfold Tasks.push
  simp only
  by_cases hp : p = t'.priority
  · subst hp
    simp
  · rw [Function.update_of_ne hp]
    simp [hp]

/-! ### Tasks are taken, not dropped -/

/-- The node whose on-demand task is queued next, when no task of the node is left. -/
def PoolInstr.queues : PoolInstr S → Option ℕ
  | .startQueue n _ => some n
  | .pushDemand n _ => some n
  | _ => none

def Instr.queues : Instr S → Option ℕ
  | .pool i => i.queues
  | .dispatch _ => none

theorem Instr.demanded_of_queues {i : Instr S} {n : ℕ} (h : i.queues = some n) :
    i.demanded n = 1 := by
  rcases i with i | i
  · cases i with
    | startQueue | pushDemand => exact if_pos h
    | _ => cases h
  · cases h

/-- What is in the queues after an instruction, and what is no longer in them. -/
theorem PoolInstr.run_queue {c : Choice} {nodes nodes' : NodeMap S} {tasks tasks' : Tasks S}
    {i : PoolInstr S} {code : List (PoolInstr S)}
    (h : i.run c nodes tasks = some (nodes', tasks', code)) (p : ℕ) (t : Task S) :
    (t ∈ tasks'.unifiedQueue p → t ∈ tasks.unifiedQueue p ∨ t.onDemand = true ∨ i.kind = .call) ∧
      (t ∈ tasks.unifiedQueue p → t ∈ tasks'.unifiedQueue p ∨ p < numPriority ∧
        (i.kind = .call ∨ (∃ n src, i = .startPrune n src) ∨ ∃ g t', i = .popTask g ∧
          tasks.popTask g = some t' ∧ t'.node = t.node ∧
          (t'.onDemand = true → code = [.moveDemand t']))) := by
  cases i with
  | acquireTensor | overflow | snapshotExec | enqueuePrefetch | fetchExec | arrived | sameDevice
  | moveDemand | beginPrefetch | clearPrefetching | takeCandidate | moveVictim | movePrefetch
  | freePrefetch | stopExec | execErase | freeNode | freeVictim | releaseOwn =>
    cases h
    exact ⟨Or.inl, Or.inl⟩
  | replaceCandidates ts =>
    cases h
    refine ⟨fun _ => Or.inr (Or.inr rfl), fun ht => ?_⟩
    by_cases hp : 1 ≤ p ∧ p < numPriority
    · exact Or.inr ⟨hp.2, Or.inl rfl⟩
    · exact Or.inl (mem_removeIf.mpr ⟨ht, fun hall => hp ⟨hall.1, hall.2.1⟩⟩)
  | enqueuePrune m src | fetchPrune m src =>
    cases h
    refine ⟨fun _ => Or.inr (Or.inr rfl), fun ht => ?_⟩
    by_cases hp : 1 ≤ p ∧ p < numPriority
    · exact Or.inr ⟨hp.2, Or.inl rfl⟩
    · exact Or.inl (mem_removeIf.mpr ⟨ht, fun hall => hp ⟨hall.1, hall.2.1⟩⟩)
  | pushPrefetch m src | pushFetch m src =>
    cases h
    exact ⟨fun _ => Or.inr (Or.inr rfl), fun ht => Or.inl (mem_push.mpr (Or.inl ht))⟩
  | pushDemand m src =>
    cases h
    refine ⟨fun ht => ?_, fun ht => Or.inl (mem_push.mpr (Or.inl ht))⟩
    rcases mem_push.mp ht with hold | ⟨rfl, -⟩
    · exact Or.inl hold
    · exact Or.inr (Or.inl rfl)
  | startPrune m src =>
    cases h
    refine ⟨fun ht => Or.inl (mem_removeIf.mp ht).1, fun ht => ?_⟩
    by_cases hp : p < numPriority
    · exact Or.inr ⟨hp, Or.inr (Or.inl ⟨m, src, rfl⟩)⟩
    · exact Or.inl (mem_removeIf.mpr ⟨ht, fun hall => hp hall.2.1⟩)
  | acquireNode t =>
    simp only [run] at h
    split_ifs at h <;> cases h <;> exact ⟨Or.inl, Or.inl⟩
  | removeCached r | measure r nodesExec | takeVictim ev v victims | startExec m | startQueue m src
  | awaitNode m | takePrefetch task =>
    simp only [run] at h
    split_ifs at h <;> cases h <;> exact ⟨Or.inl, Or.inl⟩
  | nextVictim ev victims =>
    cases victims with
    | nil => cases h; exact ⟨Or.inl, Or.inl⟩
    | cons v victims =>
      simp only [run] at h
      split_ifs at h <;> cases h <;> exact ⟨Or.inl, Or.inl⟩
  | releaseTensor t =>
    simp only [run] at h
    split at h
    · cases h; exact ⟨Or.inl, Or.inl⟩
    · split at h
      · cases h; exact ⟨Or.inl, Or.inl⟩
      · split at h
        · cases h
        · split at h <;> cases h <;> exact ⟨Or.inl, Or.inl⟩
  | popTask g =>
    simp only [run] at h
    split at h
    · cases h
    · next t' hpop =>
      cases h
      refine ⟨fun ht => Or.inl (mem_removeIf.mp ht).1, fun ht => ?_⟩
      by_cases hgone : 0 ≤ p ∧ p < numPriority ∧
        (t.node == t'.node && t.dstDevice = t'.dstDevice) = true
      · have hnode : t'.node = t.node := by
          have := hgone.2.2
          simp only [Bool.and_eq_true, beq_iff_eq] at this
          exact this.1.symm
        exact Or.inr ⟨hgone.2.1, Or.inr (Or.inr ⟨g, t', rfl, hpop, hnode, fun hd => if_pos hd⟩)⟩
      · exact Or.inl (mem_removeIf.mpr ⟨ht, hgone⟩)

theorem Room.queues_done (r : Room S) (b : Bool) {n : ℕ} :
    ∀ j ∈ (r.done b : List (PoolInstr S)), j.queues ≠ some n := by
  cases r <;> cases b <;> simp [Room.done, PoolInstr.queues]

theorem Eviction.queues_goOn (ev : Eviction S) (victims : List ℕ) {n : ℕ} :
    ∀ j ∈ ev.goOn victims, j.queues ≠ some n := by
  unfold Eviction.goOn
  split
  · exact ev.room.queues_done true
  · simp [PoolInstr.queues]

/-- Where an on-demand task comes from, and what is in the queues before it. -/
theorem PoolInstr.run_queues {c : Choice} {nodes nodes' : NodeMap S} {tasks tasks' : Tasks S}
    {i : PoolInstr S} {code : List (PoolInstr S)}
    (h : i.run c nodes tasks = some (nodes', tasks', code)) (n : ℕ) :
    (0 < tasks'.demanded n → 0 < tasks.demanded n ∨ i.queues = some n) ∧
      ∀ j ∈ code, j.queues = some n →
        i.queues = some n ∨ ∀ p < numPriority, ∀ t ∈ tasks'.unifiedQueue p, t.node ≠ n := by
  cases i with
  | acquireTensor | overflow | snapshotExec | enqueuePrefetch | fetchExec | arrived | sameDevice
  | moveDemand | beginPrefetch | clearPrefetching | takeCandidate | moveVictim | movePrefetch
  | freePrefetch | stopExec | execErase | freeNode =>
    cases h
    exact ⟨Or.inl, by simp [queues]⟩
  | freeVictim ev v victims =>
    cases h
    refine ⟨Or.inl, fun j hj hq => ?_⟩
    exact absurd hq (Eviction.queues_goOn _ _ j hj)
  | releaseOwn t =>
    cases h
    refine ⟨Or.inl, ?_⟩
    split <;> simp [queues]
  | replaceCandidates ts =>
    cases h
    exact ⟨fun hpos => Or.inl (lt_of_lt_of_le hpos (demanded_removeIf tasks 1 _ n)),
      fun _ hj => absurd hj List.not_mem_nil⟩
  | enqueuePrune m src | fetchPrune m src =>
    cases h
    refine ⟨fun hpos => Or.inl (lt_of_lt_of_le hpos (demanded_removeIf tasks 1 _ n)), ?_⟩
    split <;> simp [queues]
  | pushPrefetch m src | pushFetch m src =>
    cases h
    exact ⟨fun hpos => Or.inl (by simpa using hpos), fun _ hj => absurd hj List.not_mem_nil⟩
  | pushDemand m src =>
    cases h
    refine ⟨fun hpos => ?_, fun _ hj => absurd hj List.not_mem_nil⟩
    by_cases hm : m = n
    · exact Or.inr (congrArg some hm)
    · rw [demanded_push_demandTask, one_of_ne hm, Nat.add_zero] at hpos
      exact Or.inl hpos
  | startPrune m src =>
    cases h
    refine ⟨fun hpos => Or.inl (lt_of_lt_of_le hpos (demanded_removeIf tasks 0 _ n)),
      fun j hj hq => ?_⟩
    rw [List.mem_singleton.mp hj] at hq
    obtain rfl : m = n := Option.some.inj hq
    refine Or.inr fun p hp t ht hnode => ?_
    exact (mem_removeIf.mp ht).2 ⟨Nat.zero_le p, hp, by simp [hnode]⟩
  | acquireNode t =>
    simp only [run] at h
    split_ifs at h <;> cases h <;> exact ⟨Or.inl, by simp [queues]⟩
  | removeCached r | measure r nodesExec =>
    simp only [run] at h
    split_ifs at h <;> cases h
    · exact ⟨Or.inl, fun j hj hq => absurd hq (r.queues_done _ j hj)⟩
    all_goals exact ⟨Or.inl, by simp [queues]⟩
  | takeVictim ev v victims =>
    simp only [run] at h
    split_ifs at h <;> cases h
    · exact ⟨Or.inl, by simp [queues]⟩
    · exact ⟨Or.inl, fun j hj hq => absurd hq (ev.queues_goOn _ j hj)⟩
  | startExec m | startQueue m src | awaitNode m | takePrefetch task =>
    simp only [run] at h
    split_ifs at h <;> cases h <;> exact ⟨Or.inl, by simp +contextual [queues]⟩
  | nextVictim ev victims =>
    cases victims with
    | nil => cases h; exact ⟨Or.inl, fun j hj hq => absurd hq (ev.room.queues_done _ j hj)⟩
    | cons v victims =>
      simp only [run] at h
      split_ifs at h <;> cases h <;> exact ⟨Or.inl, by simp [queues]⟩
  | releaseTensor t =>
    simp only [run] at h
    split at h
    · cases h; exact ⟨Or.inl, fun _ hj => absurd hj List.not_mem_nil⟩
    · split at h
      · cases h; exact ⟨Or.inl, by simp [queues]⟩
      · split at h
        · cases h
        · split at h <;> cases h <;> exact ⟨Or.inl, by simp [queues]⟩
  | popTask g =>
    simp only [run] at h
    split at h <;> cases h
    refine ⟨fun hpos => Or.inl (lt_of_lt_of_le hpos (demanded_removeIf tasks 0 _ n)), ?_⟩
    split <;> simp [queues]

/-- While a node is demanded, or its on-demand task is about to be queued, all tasks of the node in
the queues are on demand. -/
def Pure (s : System S) : Prop :=
  ∀ n, (0 < s.shared.tasks.demanded n ∨ ∃ i ∈ s.code .caller, i.queues = some n) →
    ∀ p < numPriority, ∀ t ∈ s.shared.tasks.unifiedQueue p, t.node = n → t.onDemand = true

theorem Pure.init (w : ℕ → ℕ → S.Weight) : Pure (System.init S w) := by
  intro n _ p _ t ht
  cases ht

theorem Pure.called {s : System S} (h : Pure s) (k : Call S) :
    Pure ((program S).called s k) := by
  intro n hn p hp t ht hnode
  refine h n (hn.imp_right ?_) p hp t ht hnode
  rintro ⟨i, hi, hq⟩
  rw [show ((program S).called s k).code .caller = k.code from called_code_self s k] at hi
  have hzero : codeWeight (Instr.demanded n) k.code = 0 := (k.chained_code n).2
  have hle : i.demanded n ≤ codeWeight (Instr.demanded n) k.code := le_codeWeight _ hi
  rw [i.demanded_of_queues hq] at hle
  omega

theorem Pure.ran {s : System S} (h : Pure s) (ha : Acquiring s) {th : Thread S} {c : Choice}
    {i : Instr S} {rest : List (Instr S)} {sh : Shared S} {code : List (Instr S)}
    (hn : (program S).next s th = some (i, rest)) (hr : i.run c s.shared = some (sh, code)) :
    Pure (s.ran th i rest sh code) := by
  intro n hcond p hp t ht hnode
  have ha' := ha.ran hn hr
  rcases i with i | i
  · obtain ⟨nodes, tasks, is, hrun, rfl, rfl⟩ := run_pool hr
    by_cases hcall : i.kind = .call
    · -- nothing is demanded during another call
      exfalso
      have hzero := ha.apart.acquiring_of_call hn hcall
      have hle := acquiring_ran_le hn hr
      have hdemanded := ha'.demanded_le n
      rcases hcond with hpos | ⟨j, hj, hq⟩
      · have hnone := ha'.no_task_of_call (by omega) n
        omega
      · have hone : j.demanded n ≤ demanded _ n := le_total (Instr.demanded n) _ hj
        rw [j.demanded_of_queues hq] at hone
        omega
    · rcases (i.run_queue hrun p t).1 ht with hold | hd | hcall'
      · obtain ⟨hpos, hcode⟩ := i.run_queues hrun n
        -- the instruction itself is in the code of the caller, unless no task of the node is left
        have hself : i.queues = some n → ∃ j ∈ s.code .caller, j.queues = some n := by
          intro hq
          have hd : Instr.demanded n (.pool i) = 1 := Instr.demanded_of_queues (i := .pool i) hq
          have hmem := mem_of_demanded hn hd
          have hth : th = .caller := by
            refine ha.apart.caller_of_kind hmem (Or.inl ?_)
            cases i <;> first | rfl | cases hq
          subst hth
          exact ⟨.pool i, hmem, hq⟩
        rcases hcond with hnew | ⟨j, hj, hq⟩
        · exact h n ((hpos hnew).imp_right hself) p hp t hold hnode
        · rcases mem_of_mem_ran hn hj with hj | ⟨-, hj⟩
          · exact h n (Or.inr ⟨j, hj, hq⟩) p hp t hold hnode
          · obtain ⟨k, hk, rfl⟩ := List.mem_map.mp hj
            rcases hcode k hk hq with hi | hnone
            · exact h n (Or.inr (hself hi)) p hp t hold hnode
            · exact absurd hnode (hnone p hp t ht)
      · exact hd
      · exact absurd hcall' hcall
  · obtain ⟨nodes, d, is, hrun, rfl, rfl⟩ := run_dispatch hr
    refine h n (hcond.imp_right ?_) p hp t ht hnode
    rintro ⟨j, hj, hq⟩
    rcases mem_of_mem_ran hn hj with hj | ⟨-, hj⟩
    · exact ⟨j, hj, hq⟩
    · obtain ⟨k, -, rfl⟩ := List.mem_map.mp hj
      cases hq

/-- An on-demand task stays in its queue until a worker takes it. -/
def KeepsDemands (s : System S) (o : Op S) : Prop :=
  ∀ p, ∀ t ∈ s.shared.tasks.unifiedQueue p, t.onDemand = true →
    t ∈ ((program S).step s o).shared.tasks.unifiedQueue p ∨
      ∃ th c g rest, o = .run th c ∧ (program S).next s th = some (.pool (.popTask g), rest) ∧
        s.shared.tasks.popTask g = some t ∧
          ((program S).step s o).code th = .pool (.moveDemand t) :: rest

theorem keepsDemands {s : System S} (ha : Acquiring s) (h : Pure s) (o : Op S) :
    KeepsDemands s o := by
  intro p t ht hd
  rcases step_cases (program S) s o
    with heq | ⟨k, -, -, heq⟩ | ⟨th, c, i, rest, sh, code, rfl, hn, hr, heq⟩
  · exact Or.inl (by rw [heq]; exact ht)
  · exact Or.inl (by rw [heq]; exact ht)
  · rw [heq]
    rcases i with i | i
    · obtain ⟨nodes, tasks, is, hrun, rfl, rfl⟩ := run_pool hr
      rcases (i.run_queue hrun p t).2 ht
        with hstay | ⟨hp, hcall | ⟨m, src, rfl⟩ | ⟨g, t', rfl, hpop, hnode, hcode⟩⟩
      · exact Or.inl hstay
      · have hpos := Tasks.demanded_pos hp ht hd
        have hzero := ha.no_task_of_call (ha.apart.acquiring_of_call hn hcall) t.node
        omega
      · have hpos := Tasks.demanded_pos hp ht hd
        have hone : Instr.demanded m (.pool (.startPrune m src)) = 1 := one_self m
        have hzero := ha.no_task (mem_of_demanded hn hone) hone t.node
        omega
      · -- the worker's own task is on demand too, so it is this one
        have hpos := Tasks.demanded_pos hp ht hd
        obtain ⟨q, hq, ht'⟩ := mem_of_popTask hpop
        have hd' := h t.node (Or.inl hpos) q hq t' ht' hnode
        have hle : s.shared.tasks.demanded t.node ≤ 1 := by
          have hpart : s.shared.tasks.demanded t.node ≤ demanded s t.node := Nat.le_add_right _ _
          have hdemanded := ha.demanded_le t.node
          have hsingle := ha.single
          omega
        obtain rfl := Tasks.demand_unique hle hp hq ht ht' ⟨hd, rfl⟩ ⟨hd', hnode⟩
        refine Or.inr ⟨th, c, g, rest, rfl, hn, hpop, ?_⟩
        rw [ran_code_self, hcode hd]
        rfl
    · obtain ⟨nodes, d, is, hrun, rfl, rfl⟩ := run_dispatch hr
      exact Or.inl ht

end MoeInfinity.Core.Nodes
