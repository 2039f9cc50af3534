import MoeInfinity.Core.Demands
import MoeInfinity.Core.Exclusive

/-! # Acquired nodes

What an acquire waits for happens, and lasts: its on-demand task leaves the queues only when a
worker takes it, the node is on a GPU when the wait ends, and it stays there while the node is in
the books. Evictions move every node that is idle, so this holds in the runs in which the state word
is a lock.

* `Resident`: where the node of an acquisition is, from the books to the end of the wait and after
  it.
* `served_of_orderly`: what an acquire relies on, in all orderly runs.
* `acquired_node_evicted`: a node that was given back by somebody else is evicted while it is
  acquired. -/

namespace MoeInfinity.Core.Nodes

open MoeInfinity.Lib.Threads MoeInfinity.Lib.Runs

variable {S : Setup}

/-! ### Where the node is -/

/-- The node that an instruction moves to the host. -/
def PoolInstr.drops : PoolInstr S → Option ℕ
  | .moveVictim _ v _ => some v
  | _ => none

def DispatchInstr.drops : DispatchInstr S → Option ℕ
  | .evict _ _ victim => some (S.node victim)
  | .unload _ out => some (S.node out.args.expert)
  | _ => none

def Instr.drops : Instr S → Option ℕ
  | .pool i => i.drops
  | .dispatch i => i.drops

theorem isSome_setDevice (nodes : NodeMap S) (n : ℕ) (g : Fin S.gpus) :
    (setDevice nodes n (some g) n).device.isSome := by
  rw [device_setDevice]
  split
  · rfl
  · next h => simpa [Option.isSome_iff_ne_none] using h

/-- A node on a GPU stays there unless it is moved to the host. -/
theorem Instr.run_device_of_isSome {c : Choice} {i : Instr S} {sh sh' : Shared S}
    {code : List (Instr S)} (h : i.run c sh = some (sh', code)) {n : ℕ} (hd : i.drops ≠ some n)
    (hs : (sh.node n).device.isSome) : (sh'.node n).device = (sh.node n).device := by
  have hsame : ∀ g : Fin S.gpus, (setDevice sh.node n (some g) n).device =
      (sh.node n).device := fun g => by
    rw [device_setDevice, if_neg (by simp [hs])]
  by_cases hm : i.moves = some n
  · rcases i with i | i
    · cases i with
      | moveVictim => exact absurd hm hd
      | moveDemand task | movePrefetch task =>
        cases h
        obtain rfl : task.node = n := Option.some.inj hm
        exact hsame _
      | _ => cases hm
    · cases i with
      | evict | unload => exact absurd hm hd
      | load g args own =>
        cases h
        obtain rfl : S.node args.expert = n := Option.some.inj hm
        exact hsame _
      | _ => cases hm
  · exact i.run_device h hm

theorem Instr.holds_of_drops {i : Instr S} {n : ℕ} (sh : Shared S) (h : i.drops = some n) :
    i.holds = some n ∨ n ∈ i.unowned sh := by
  rcases i with i | i
  · cases i with
    | moveVictim => exact Or.inl h
    | _ => cases h
  · cases i with
    | evict | unload =>
      refine Or.inr ?_
      simpa [unowned, DispatchInstr.unowned, drops, DispatchInstr.drops, eq_comm] using h
    | _ => cases h

/-- **A node in the books stays on its GPU**: it is held. -/
theorem Exclusive.kept {s : System S} (h : Exclusive s) {th : Thread S} {c : Choice} {i : Instr S}
    {rest : List (Instr S)} {sh : Shared S} {code : List (Instr S)}
    (hn : (program S).next s th = some (i, rest)) (hr : i.run c s.shared = some (sh, code))
    (ho : i.Orderly s.shared) {n : ℕ} (hset : s.shared.tasks.acquired n ≠ ∅)
    (hs : (s.shared.node n).device.isSome) : (sh.node n).device = (s.shared.node n).device := by
  refine i.run_device_of_isSome hr (fun hd => ?_) hs
  have hpart := tasks_holders_le s n
  rw [Tasks.holders, if_neg hset] at hpart
  rcases i.holds_of_drops s.shared hd with hi | hunowned
  · have hsingle := h.single n
    have hcode := code_le_total (Instr.held n) (Shared.holders n) s th
    have hle : i.held n ≤ codeWeight (Instr.held n) (s.code th) :=
      le_codeWeight _ (mem_of_held hn hi)
    have hbooks : s.shared.tasks.holders n ≤ s.shared.holders n := Nat.le_add_right _ _
    rw [Tasks.holders, if_neg hset] at hbooks
    rw [Instr.held, hi, one_self] at hle
    unfold holders at hsingle
    omega
  · have hfree := h.free (ho n hunowned)
    omega

/-! ### What an instruction does to the books -/

/-- The node that a release takes out of the execution queue. -/
def PoolInstr.stops : PoolInstr S → Option ℕ
  | .stopExec n _ => some n
  | .execErase n _ => some n
  | _ => none

/-- The node that an instruction works for before it enters the execution queue. -/
def PoolInstr.readies (i : PoolInstr S) : Option ℕ :=
  match i with
  | .awaitNode _ => none
  | i => i.works

/-- The node that was on a GPU when its acquire began. -/
def PoolInstr.hits : PoolInstr S → Option ℕ
  | .startPrune n src => if src.isSome then some n else none
  | .startQueue n src => if src.isSome then some n else none
  | _ => none

theorem PoolInstr.works_of_readies {i : PoolInstr S} {n : ℕ} (h : i.readies = some n) :
    i.works = some n := by
  cases i <;> first | exact h | cases h

theorem PoolInstr.works_of_hits {i : PoolInstr S} {n : ℕ} (h : i.hits = some n) :
    i.works = some n := by
  cases i with
  | startPrune m src | startQueue m src =>
    simp only [hits] at h
    split at h
    · exact h
    · cases h
  | _ => cases h

/-- The execution queue and the books, and what the code does about them. -/
theorem PoolInstr.run_exec {c : Choice} {nodes nodes' : NodeMap S} {tasks tasks' : Tasks S}
    {i : PoolInstr S} {code : List (PoolInstr S)}
    (h : i.run c nodes tasks = some (nodes', tasks', code)) (n : ℕ) :
    (n ∈ tasks'.execQueue → n ∈ tasks.execQueue ∨ i.readies = some n ∧
      ∀ j ∈ code, j.readies = none) ∧ (i.stops = some n → n ∈ tasks'.execQueue →
        ∃ j ∈ code, j.stops = some n) ∧
      (tasks.acquired n ≠ ∅ → tasks'.acquired n ≠ ∅ ∨ ∃ j ∈ code, j.stops = some n) := by
  cases i with
  | acquireTensor | overflow | snapshotExec | enqueuePrefetch | fetchExec | arrived | sameDevice
  | moveDemand | beginPrefetch | clearPrefetching | takeCandidate | moveVictim | movePrefetch
  | freePrefetch | pushDemand | pushPrefetch | pushFetch | startPrune | freeNode | freeVictim
  | replaceCandidates | enqueuePrune | fetchPrune =>
    cases h
    exact ⟨Or.inl, fun hs => absurd hs.symm (Option.some_ne_none n), Or.inl⟩
  | stopExec m own =>
    cases h
    exact ⟨Or.inl, fun hs _ => ⟨_, List.mem_cons_self, hs⟩, Or.inl⟩
  | execErase m own =>
    cases h
    refine ⟨fun hn => Or.inl (Finset.mem_of_mem_erase hn), fun hs hn => ?_, Or.inl⟩
    obtain rfl : m = n := Option.some.inj hs
    exact absurd rfl (Finset.ne_of_mem_erase hn)
  | acquireNode t =>
    simp only [run] at h
    split at h
    · cases h; exact ⟨Or.inl, fun hs => absurd hs.symm (Option.some_ne_none n), Or.inl⟩
    · split at h <;> cases h
      refine ⟨Or.inl, fun hs => absurd hs.symm (Option.some_ne_none n), fun hset => Or.inl ?_⟩
      rw [acquired_setAcquired]
      split
      · exact tensorIds_ne_empty t
      · exact hset
  | startQueue m src =>
    simp only [run] at h
    split_ifs at h <;> cases h <;>
      refine ⟨fun hn => ?_, fun hs => absurd hs.symm (Option.some_ne_none n), Or.inl⟩
    · exact (Finset.mem_insert.mp hn).symm.imp_right fun heq =>
        ⟨congrArg some heq.symm, by simp [readies]⟩
    · exact Or.inl hn
    · exact (Finset.mem_insert.mp hn).symm.imp_right fun heq =>
        ⟨congrArg some heq.symm, by simp [readies, works, chain]⟩
  | removeCached r | measure r nodesExec | takeVictim ev v victims | startExec m | awaitNode m
  | takePrefetch task =>
    simp only [run] at h
    split_ifs at h <;> cases h <;>
      exact ⟨Or.inl, fun hs => absurd hs.symm (Option.some_ne_none n), Or.inl⟩
  | nextVictim ev victims =>
    cases victims with
    | nil => cases h; exact ⟨Or.inl, fun hs => absurd hs.symm (Option.some_ne_none n), Or.inl⟩
    | cons v victims =>
      simp only [run] at h
      split_ifs at h <;> cases h <;>
        exact ⟨Or.inl, fun hs => absurd hs.symm (Option.some_ne_none n), Or.inl⟩
  | releaseTensor t =>
    simp only [run] at h
    split at h
    · cases h; exact ⟨Or.inl, fun hs => absurd hs.symm (Option.some_ne_none n), Or.inl⟩
    · split at h
      · cases h; exact ⟨Or.inl, fun hs => absurd hs.symm (Option.some_ne_none n), Or.inl⟩
      · split at h
        · cases h
        · next last hlast =>
          split at h <;> cases h
          · exact ⟨Or.inl, fun hs => absurd hs.symm (Option.some_ne_none n), Or.inl⟩
          · refine ⟨Or.inl, fun hs => absurd hs.symm (Option.some_ne_none n), fun hset => ?_⟩
            by_cases hm : n = last
            · subst hm
              exact Or.inr ⟨_, List.mem_cons_self, rfl⟩
            · refine Or.inl ?_
              rw [acquired_setAcquired, if_neg hm]
              exact hset
  | releaseOwn t =>
    cases h
    refine ⟨Or.inl, fun hs => absurd hs.symm (Option.some_ne_none n), fun hset => ?_⟩
    by_cases hm : n = S.nodeOf t
    · subst hm
      by_cases hleft : (tasks.acquired (S.nodeOf t)).erase t = ∅
      · exact Or.inr ⟨_, by rw [if_pos hleft]; exact List.mem_cons_self, rfl⟩
      · refine Or.inl ?_
        show (tasks.setAcquired (S.nodeOf t) _).acquired (S.nodeOf t) ≠ ∅
        rw [acquired_setAcquired, if_pos rfl]
        exact hleft
    · refine Or.inl ?_
      show (tasks.setAcquired (S.nodeOf t) _).acquired n ≠ ∅
      rw [acquired_setAcquired, if_neg hm]
      exact hset
  | popTask g =>
    simp only [run] at h
    split at h <;> cases h
    exact ⟨Or.inl, fun hs => absurd hs.symm (Option.some_ne_none n), Or.inl⟩

theorem Room.works_of_done {r : Room S} {b : Bool} {n : ℕ} (h : r.acquirer = some n) :
    ∃ j ∈ (r.done b : List (PoolInstr S)), j.works = some n := by
  cases r <;> cases b <;> simp_all [Room.done, Room.acquirer, PoolInstr.works, PoolInstr.chain]

theorem Eviction.works_of_goOn {ev : Eviction S} {victims : List ℕ} {n : ℕ}
    (h : ev.room.acquirer = some n) : ∃ j ∈ ev.goOn victims, j.works = some n := by
  unfold Eviction.goOn
  split
  · exact Room.works_of_done h
  · exact ⟨_, List.mem_cons_self, h⟩

theorem Room.readies_done {r : Room S} {b : Bool} {n : ℕ} :
    ∀ j ∈ (r.done b : List (PoolInstr S)), j.readies = some n → r.acquirer = some n := by
  cases r <;> cases b <;>
    simp [Room.done, PoolInstr.readies, PoolInstr.works, PoolInstr.chain, Room.acquirer]

theorem Eviction.readies_goOn {ev : Eviction S} {victims : List ℕ} {n : ℕ} :
    ∀ j ∈ ev.goOn victims, j.readies = some n → ev.room.acquirer = some n := by
  unfold Eviction.goOn
  split
  · exact Room.readies_done
  · simp [PoolInstr.readies, PoolInstr.works, PoolInstr.chain]

/-- How an acquisition goes on. -/
theorem PoolInstr.run_acquisition {c : Choice} {nodes nodes' : NodeMap S} {tasks tasks' : Tasks S}
    {i : PoolInstr S} {code : List (PoolInstr S)}
    (h : i.run c nodes tasks = some (nodes', tasks', code)) (n : ℕ) :
    (tasks'.acquired n ≠ ∅ → tasks.acquired n ≠ ∅ ∨ ∃ j ∈ code, j.works = some n) ∧
      (i.works = some n → (∃ j ∈ code, j.works = some n) ∨ i = .awaitNode n) ∧
      ∀ j ∈ code, j.readies = some n → i.readies = some n ∨ i.kind = .acquire ∧
        tasks.acquired n = ∅ := by
  cases i with
  | acquireTensor | enqueuePrefetch | fetchExec | arrived | sameDevice | moveDemand
  | beginPrefetch | clearPrefetching | takeCandidate | movePrefetch | freePrefetch | overflow
  | pushDemand | pushPrefetch | pushFetch | stopExec | execErase | freeNode | replaceCandidates =>
    cases h
    exact ⟨Or.inl, fun hs => absurd hs.symm (Option.some_ne_none n),
      by simp [readies, works, chain]⟩
  | snapshotExec | moveVictim | startPrune =>
    cases h
    exact ⟨Or.inl, fun hw => Or.inl ⟨_, List.mem_cons_self, hw⟩,
      fun j hj hready => Or.inl (by rw [List.mem_singleton.mp hj] at hready; exact hready)⟩
  | freeVictim ev v victims =>
    cases h
    refine ⟨Or.inl, fun hw => Or.inl (Eviction.works_of_goOn hw), fun j hj hready => ?_⟩
    have hroom := Eviction.readies_goOn j hj hready
    exact Or.inl hroom
  | enqueuePrune | fetchPrune =>
    cases h
    refine ⟨Or.inl, fun hs => absurd hs.symm (Option.some_ne_none n), ?_⟩
    split <;> simp [readies, works, chain]
  | acquireNode t =>
    simp only [run] at h
    split at h
    · cases h; exact ⟨Or.inl, fun hs => absurd hs.symm (Option.some_ne_none n),
        fun _ hj => absurd hj List.not_mem_nil⟩
    · next hset =>
      split at h <;> cases h
      have hnew :
          ∀ j ∈ [PoolInstr.removeCached (S := S)
            (if S.isSparse (S.nodeOf t) = true then .sparse (S.nodeOf t) else .dense (S.nodeOf t))],
            j.works = some (S.nodeOf t) := by
        intro j hj
        rw [List.mem_singleton.mp hj]
        split <;> rfl
      refine ⟨fun hn => ?_, fun hs => absurd hs.symm (Option.some_ne_none n),
        fun j hj hready => Or.inr ⟨rfl, ?_⟩⟩
      · by_cases hm : n = S.nodeOf t
        · subst hm
          exact Or.inr ⟨_, List.mem_cons_self, hnew _ List.mem_cons_self⟩
        · rw [acquired_setAcquired, if_neg hm] at hn
          exact Or.inl hn
      · have hm := (hnew j hj).symm.trans (works_of_readies hready)
        obtain rfl := Option.some.inj hm
        exact not_not.mp hset
  | removeCached r | measure r nodesExec =>
    simp only [run] at h
    split_ifs at h <;> cases h
    · exact ⟨Or.inl, fun hw => Or.inl (Room.works_of_done hw),
        fun j hj hready => Or.inl (Room.readies_done j hj hready)⟩
    all_goals
      exact ⟨Or.inl, fun hw => Or.inl ⟨_, List.mem_cons_self, hw⟩,
        fun j hj hready => Or.inl (by rw [List.mem_singleton.mp hj] at hready; exact hready)⟩
  | takeVictim ev v victims =>
    simp only [run] at h
    split_ifs at h <;> cases h
    · exact ⟨Or.inl, fun hw => Or.inl ⟨_, List.mem_cons_self, hw⟩,
        fun j hj hready => Or.inl (by rw [List.mem_singleton.mp hj] at hready; exact hready)⟩
    · exact ⟨Or.inl, fun hw => Or.inl (Eviction.works_of_goOn hw),
        fun j hj hready => Or.inl (Eviction.readies_goOn j hj hready)⟩
  | nextVictim ev victims =>
    cases victims with
    | nil =>
      cases h
      exact ⟨Or.inl, fun hw => Or.inl (Room.works_of_done hw),
        fun j hj hready => Or.inl (Room.readies_done j hj hready)⟩
    | cons v victims =>
      simp only [run] at h
      split_ifs at h <;> cases h <;>
        exact ⟨Or.inl, fun hw => Or.inl ⟨_, List.mem_cons_self, hw⟩,
          fun j hj hready => Or.inl (by rw [List.mem_singleton.mp hj] at hready; exact hready)⟩
  | startExec m =>
    simp only [run] at h
    split_ifs at h <;> cases h <;>
      exact ⟨Or.inl, fun hw => Or.inl ⟨_, List.mem_cons_self, hw⟩,
        fun j hj hready => Or.inl (by rw [List.mem_singleton.mp hj] at hready; exact hready)⟩
  | startQueue m src =>
    simp only [run] at h
    split_ifs at h <;> cases h
    · exact ⟨Or.inl, fun hw => Or.inl ⟨_, List.mem_cons_self, hw⟩, by simp [readies]⟩
    · exact ⟨Or.inl, fun hw => Or.inl ⟨_, List.mem_cons_self, hw⟩, by simp [readies]⟩
    · exact ⟨Or.inl, fun hw => Or.inl ⟨_, List.mem_cons_of_mem _ List.mem_cons_self, hw⟩,
        by simp [readies, works, chain]⟩
  | awaitNode m =>
    simp only [run] at h
    split_ifs at h
    cases h
    exact ⟨Or.inl, fun hw => Or.inr (congrArg awaitNode (Option.some.inj hw)),
      fun _ hj => absurd hj List.not_mem_nil⟩
  | takePrefetch task =>
    simp only [run] at h
    split_ifs at h <;> cases h <;>
      exact ⟨Or.inl, fun hs => absurd hs.symm (Option.some_ne_none n),
        by simp [readies, works, chain]⟩
  | releaseTensor t =>
    simp only [run] at h
    split at h
    · cases h; exact ⟨Or.inl, fun hs => absurd hs.symm (Option.some_ne_none n),
        fun _ hj => absurd hj List.not_mem_nil⟩
    · split at h
      · cases h; exact ⟨Or.inl, fun hs => absurd hs.symm (Option.some_ne_none n),
          by simp [readies, works, chain]⟩
      · split at h
        · cases h
        · next last hlast =>
          split at h <;> cases h
          · exact ⟨Or.inl, fun hs => absurd hs.symm (Option.some_ne_none n),
              by simp [readies, works, chain]⟩
          · refine ⟨fun hn => Or.inl fun hempty => ?_,
              fun hs => absurd hs.symm (Option.some_ne_none n), by simp [readies, works, chain]⟩
            rw [acquired_setAcquired] at hn
            split at hn
            · exact hn rfl
            · exact hn hempty
  | releaseOwn t =>
    cases h
    refine ⟨fun hn => Or.inl fun hempty => ?_, fun hs => absurd hs.symm (Option.some_ne_none n), ?_⟩
    · have hset : (tasks.setAcquired (S.nodeOf t) ((tasks.acquired (S.nodeOf t)).erase t)).acquired
        n ≠ ∅ := hn
      rw [acquired_setAcquired] at hset
      split at hset
      · next hm =>
        rw [← hm, hempty] at hset
        exact hset (Finset.erase_empty t)
      · exact hset hempty
    · split <;> simp [readies, works, chain]
  | popTask g =>
    simp only [run] at h
    split at h <;> cases h
    refine ⟨Or.inl, fun hs => absurd hs.symm (Option.some_ne_none n), ?_⟩
    split <;> simp [readies, works, chain, Room.acquirer]

theorem Room.await_done (r : Room S) (b : Bool) (n : ℕ) {p q : Prop} :
    (∀ j ∈ (r.done b : List (PoolInstr S)), j.hits = some n → p) ∧
    (.awaitNode n ∈ (r.done b : List (PoolInstr S)) → q) := by
  cases r <;> cases b <;> simp [Room.done, PoolInstr.hits]

theorem Eviction.await_goOn (ev : Eviction S) (victims : List ℕ) (n : ℕ) {p q : Prop} :
    (∀ j ∈ ev.goOn victims, j.hits = some n → p) ∧ (.awaitNode n ∈ ev.goOn victims → q) := by
  unfold Eviction.goOn
  split
  · exact ev.room.await_done true n
  · simp [PoolInstr.hits]

/-- How the wait of an acquisition comes about. -/
theorem PoolInstr.run_await {c : Choice} {nodes nodes' : NodeMap S} {tasks tasks' : Tasks S}
    {i : PoolInstr S} {code : List (PoolInstr S)}
    (h : i.run c nodes tasks = some (nodes', tasks', code)) (n : ℕ) :
    (∀ j ∈ code, j.hits = some n → i.hits = some n ∨ (nodes' n).device.isSome) ∧
      (.awaitNode n ∈ code → i.hits = some n ∨ (i.readies = some n ∧ n ∈ tasks.execQueue) ∨
        ∃ src, .pushDemand n src ∈ code) := by
  cases i with
  | acquireTensor | enqueuePrefetch | fetchExec | arrived | sameDevice | moveDemand
  | beginPrefetch | clearPrefetching | takeCandidate | movePrefetch | freePrefetch | overflow
  | pushDemand | pushPrefetch | pushFetch | stopExec | execErase | freeNode | replaceCandidates
  | snapshotExec | moveVictim =>
    cases h
    simp [hits]
  | startPrune m src =>
    cases h
    refine ⟨fun j hj hh => Or.inl ?_, by simp⟩
    rw [List.mem_singleton.mp hj] at hh
    exact hh
  | freeVictim ev v victims =>
    cases h
    exact Eviction.await_goOn _ _ n
  | enqueuePrune | fetchPrune | releaseOwn =>
    cases h
    split <;> simp [hits]
  | acquireNode t =>
    simp only [run] at h
    split_ifs at h <;> cases h <;> simp [hits]
  | removeCached r | measure r nodesExec =>
    simp only [run] at h
    split_ifs at h <;> cases h
    · exact Room.await_done _ _ n
    all_goals simp [hits]
  | takeVictim ev v victims =>
    simp only [run] at h
    split_ifs at h <;> cases h
    · simp [hits]
    · exact Eviction.await_goOn _ _ n
  | nextVictim ev victims =>
    cases victims with
    | nil => cases h; exact Room.await_done _ _ n
    | cons v victims =>
      simp only [run] at h
      split_ifs at h <;> cases h <;> simp [hits]
  | startExec m =>
    simp only [run] at h
    split_ifs at h with hs <;> cases h
    · refine ⟨fun j hj hh => Or.inr ?_, by simp⟩
      rw [List.mem_singleton.mp hj] at hh
      simp only [hits, hs, if_true] at hh
      rw [← Option.some.inj hh, device_countVisit]
      exact hs
    · simp [hits]
  | startQueue m src =>
    simp only [run] at h
    split_ifs at h with hsrc hmem <;> cases h
    · refine ⟨by simp [hits], fun hn => Or.inl ?_⟩
      cases List.mem_singleton.mp hn
      exact if_pos hsrc
    · refine ⟨by simp [hits], fun hn => Or.inr (Or.inl ?_)⟩
      cases List.mem_singleton.mp hn
      exact ⟨rfl, hmem⟩
    · refine ⟨by simp [hits], fun hn => Or.inr (Or.inr ⟨src, ?_⟩)⟩
      have hm : n = m := by simpa using hn
      rw [hm]
      exact List.mem_cons_self
  | awaitNode m | takePrefetch task =>
    simp only [run] at h
    split_ifs at h <;> cases h <;> simp [hits]
  | releaseTensor t =>
    simp only [run] at h
    split at h
    · cases h; simp
    · split at h
      · cases h; simp [hits]
      · split at h
        · cases h
        · split at h <;> cases h <;> simp [hits]
  | popTask g =>
    simp only [run] at h
    split at h <;> cases h
    split <;> simp [hits]

/-! ### The invariant -/

def Instr.stops : Instr S → Option ℕ
  | .pool i => i.stops
  | .dispatch _ => none

def Instr.readies : Instr S → Option ℕ
  | .pool i => i.readies
  | .dispatch _ => none

def Instr.hits : Instr S → Option ℕ
  | .pool i => i.hits
  | .dispatch _ => none

theorem Instr.run_exec {c : Choice} {i : Instr S} {sh sh' : Shared S} {code : List (Instr S)}
    (h : i.run c sh = some (sh', code)) (n : ℕ) :
    (n ∈ sh'.tasks.execQueue → n ∈ sh.tasks.execQueue ∨ i.readies = some n ∧
      ∀ j ∈ code, j.readies = none) ∧ (i.stops = some n → n ∈ sh'.tasks.execQueue →
        ∃ j ∈ code, j.stops = some n) ∧
      (sh.tasks.acquired n ≠ ∅ → sh'.tasks.acquired n ≠ ∅ ∨ ∃ j ∈ code, j.stops = some n) := by
  cases i with
  | pool i =>
    obtain ⟨nodes, tasks, is, hr, rfl, rfl⟩ := run_pool h
    simpa [readies, stops] using i.run_exec hr n
  | dispatch i =>
    obtain ⟨nodes, d, is, hr, rfl, rfl⟩ := run_dispatch h
    exact ⟨Or.inl, nofun, Or.inl⟩

theorem Instr.run_acquisition {c : Choice} {i : Instr S} {sh sh' : Shared S} {code : List (Instr S)}
    (h : i.run c sh = some (sh', code)) (n : ℕ) :
    (sh'.tasks.acquired n ≠ ∅ → sh.tasks.acquired n ≠ ∅ ∨ ∃ j ∈ code, j.works = some n) ∧
      (i.works = some n → (∃ j ∈ code, j.works = some n) ∨ i = .pool (.awaitNode n)) ∧
      ∀ j ∈ code, j.readies = some n → i.readies = some n ∨ i.kind = .acquire ∧
        sh.tasks.acquired n = ∅ := by
  cases i with
  | pool i =>
    obtain ⟨nodes, tasks, is, hr, rfl, rfl⟩ := run_pool h
    simpa [works, readies, kind] using i.run_acquisition hr n
  | dispatch i =>
    obtain ⟨nodes, d, is, hr, rfl, rfl⟩ := run_dispatch h
    exact ⟨Or.inl, fun hs => absurd hs.symm (Option.some_ne_none n), by simp [readies]⟩

theorem Instr.run_await {c : Choice} {i : Instr S} {sh sh' : Shared S} {code : List (Instr S)}
    (h : i.run c sh = some (sh', code)) (n : ℕ) :
    (∀ j ∈ code, j.hits = some n → i.hits = some n ∨ (sh'.node n).device.isSome) ∧
      (.pool (.awaitNode n) ∈ code → i.hits = some n ∨
        (i.readies = some n ∧ n ∈ sh.tasks.execQueue) ∨
        ∃ src, .pool (.pushDemand n src) ∈ code) := by
  cases i with
  | pool i =>
    obtain ⟨nodes, tasks, is, hr, rfl, rfl⟩ := run_pool h
    simpa [hits, readies] using i.run_await hr n
  | dispatch i =>
    obtain ⟨nodes, d, is, hr, rfl, rfl⟩ := run_dispatch h
    exact ⟨by simp [hits], by simp⟩

theorem Instr.kind_of_works {i : Instr S} {n : ℕ} (h : i.works = some n) : i.kind = .acquire :=
  i.kind_of_acquiring (i.acquiring_of_works h)

theorem Instr.works_of_readies {i : Instr S} {n : ℕ} (h : i.readies = some n) :
    i.works = some n := by
  rcases i with i | i
  · exact i.works_of_readies h
  · cases h

theorem Instr.works_of_hits {i : Instr S} {n : ℕ} (h : i.hits = some n) : i.works = some n := by
  rcases i with i | i
  · exact i.works_of_hits h
  · cases h

theorem Instr.kind_of_stops {i : Instr S} {n : ℕ} (h : i.stops = some n) : i.kind = .call := by
  rcases i with i | i
  · cases i with
    | stopExec | execErase => rfl
    | _ => cases h
  · cases h

/-- The node is on its way: its on-demand task will be queued, is queued, or is taken by a
worker. -/
def Coming (s : System S) (n : ℕ) : Prop :=
  (∃ src, .pool (.pushDemand n src) ∈ s.code .caller) ∨
    (∃ p < numPriority, ∃ t ∈ s.shared.tasks.unifiedQueue p, t.onDemand = true ∧ t.node = n) ∨
      ∃ th task, .pool (.moveDemand task) ∈ s.code th ∧ task.node = n

/-- Where the node of an acquisition is. A node of the execution queue is in the books, or a release
is about to take it out; one that is being made ready is not in that queue; one that was on a GPU
still is; while the caller waits the node is on a GPU or on its way; and after that it stays. -/
structure Resident (s : System S) : Prop where
  exec : ∀ n ∈ s.shared.tasks.execQueue, s.shared.tasks.acquired n ≠ ∅ ∨ ∃ i ∈ s.code .caller,
    i.stops = some n
  ready : ∀ i ∈ s.code .caller, ∀ n, i.readies = some n → n ∉ s.shared.tasks.execQueue
  hit : ∀ i ∈ s.code .caller, ∀ n, i.hits = some n → (s.shared.node n).device.isSome
  await : ∀ n, .pool (.awaitNode n) ∈ s.code .caller → (s.shared.node n).device.isSome ∨ Coming s n
  kept : ∀ n, s.shared.tasks.acquired n ≠ ∅ → (∀ i ∈ s.code .caller, i.works ≠ some n) →
    (s.shared.node n).device.isSome

/-- What is on its way is demanded. -/
theorem Coming.demanded_pos {s : System S} {n : ℕ} (h : Coming s n) : 0 < demanded s n := by
  rcases h with ⟨src, hi⟩ | ⟨p, hp, t, ht, hd, rfl⟩ | ⟨th, task, hi, rfl⟩
  · have hle : Instr.demanded n (.pool (.pushDemand n src)) ≤ demanded s n :=
      le_total (Instr.demanded n) _ hi
    rw [show Instr.demanded n (.pool (.pushDemand n src) : Instr S) = 1 from one_self n] at hle
    omega
  · have hpos := Tasks.demanded_pos hp ht hd
    have hpart : s.shared.tasks.demanded t.node ≤ demanded s t.node := Nat.le_add_right _ _
    omega
  · have hle : Instr.demanded task.node (.pool (.moveDemand task)) ≤ demanded s task.node :=
      le_total (Instr.demanded task.node) _ hi
    rw [show Instr.demanded task.node (.pool (.moveDemand task) : Instr S) = 1 from one_self _]
      at hle
    omega

/-- **The end of the wait**: the node is on a GPU. -/
theorem Resident.arrived {s : System S} (h : Resident s) (ha : Acquiring s) {n : ℕ}
    (hi : .pool (.awaitNode n) ∈ s.code .caller) (hstate : (s.shared.node n).state = false) :
    (s.shared.node n).device.isSome := by
  rcases h.await n hi with hs | hcoming
  · exact hs
  · have hup := ha.state n hcoming.demanded_pos
    rw [hstate] at hup
    cases hup

theorem Resident.init (w : ℕ → ℕ → S.Weight) : Resident (System.init S w) :=
  ⟨fun _ hn => absurd hn (Finset.notMem_empty _), fun _ hi => absurd hi List.not_mem_nil,
    fun _ hi => absurd hi List.not_mem_nil, fun _ hi => absurd hi List.not_mem_nil,
    fun _ hn => absurd rfl hn⟩

theorem Call.readies_code (k : Call S) : ∀ i ∈ k.code, i.readies = none ∧ i.hits = none ∧
    ∀ n, i ≠ .pool (.awaitNode n) := by
  cases k <;>
    simp [Call.code, Instr.readies, Instr.hits, PoolInstr.readies, PoolInstr.works, PoolInstr.chain,
      PoolInstr.hits, or_imp, forall_and]

theorem Resident.called {s : System S} (h : Resident s) (hnil : s.code .caller = []) (k : Call S) :
    Resident ((program S).called s k) := by
  have hcode : ((program S).called s k).code .caller = k.code := called_code_self s k
  refine ⟨fun n hn => ?_, fun i hi n hq => ?_, fun i hi n hq => ?_, fun n hi => ?_,
    fun n hset _ => ?_⟩
  · rcases h.exec n hn with hset | ⟨i, hi, -⟩
    · exact Or.inl hset
    · rw [hnil] at hi
      cases hi
  · rw [hcode] at hi
    rw [(k.readies_code i hi).1] at hq
    cases hq
  · rw [hcode] at hi
    rw [(k.readies_code i hi).2.1] at hq
    cases hq
  · rw [hcode] at hi
    exact absurd rfl ((k.readies_code _ hi).2.2 n)
  · exact h.kept n hset (by simp [hnil])

/-- What is on its way arrives or is still on its way. -/
theorem Coming.ran {s : System S} {n : ℕ} (h : Coming s n) (ha : Acquiring s) (hp : Pure s)
    {th : Thread S} {c : Choice} {i : Instr S} {rest : List (Instr S)} {sh : Shared S}
    {code : List (Instr S)} (hn : (program S).next s th = some (i, rest))
    (hr : i.run c s.shared = some (sh, code)) :
    (sh.node n).device.isSome ∨ Coming (s.ran th i rest sh code) n := by
  rcases h with ⟨src, hi⟩ | ⟨p, hlt, t, ht, hd, hnode⟩ | ⟨th', task, hi, hnode⟩
  · rcases mem_code_ran sh code hn hi with hstay | ⟨-, heq⟩
    · exact Or.inr (Or.inl ⟨src, hstay⟩)
    · subst heq
      cases hr
      exact Or.inr (Or.inr (Or.inl ⟨0, by decide, demandTask n src,
        mem_push.mpr (Or.inr ⟨rfl, rfl⟩), rfl, rfl⟩))
  · have hkeeps := keepsDemands ha hp (.run th c) p t ht hd
    rw [step_run hn hr] at hkeeps
    rcases hkeeps with hstay | ⟨th', c', g, rest', -, -, -, hcode⟩
    · exact Or.inr (Or.inr (Or.inl ⟨p, hlt, t, hstay, hd, hnode⟩))
    · exact Or.inr (Or.inr (Or.inr ⟨th', t, by rw [hcode]; exact List.mem_cons_self, hnode⟩))
  · rcases mem_code_ran sh code hn hi with hstay | ⟨-, heq⟩
    · exact Or.inr (Or.inr (Or.inr ⟨th', task, hstay, hnode⟩))
    · subst heq
      cases hr
      subst hnode
      exact Or.inl (isSome_setDevice _ _ _)

theorem Resident.ran {s : System S} (h : Resident s) (ha : Acquiring s) (hp : Pure s)
    (he : Exclusive s) {th : Thread S} {c : Choice} {i : Instr S} {rest : List (Instr S)}
    {sh : Shared S} {code : List (Instr S)} (hn : (program S).next s th = some (i, rest))
    (hr : i.run c s.shared = some (sh, code)) (ho : i.Orderly s.shared) :
    Resident (s.ran th i rest sh code) := by
  have hkept : ∀ n, s.shared.tasks.acquired n ≠ ∅ → (s.shared.node n).device.isSome →
      (sh.node n).device.isSome := fun n hset hs => by
    rw [he.kept hn hr ho hset hs]
    exact hs
  have hlisted := fun j hj n => ha.listed .caller j hj n
  -- an instruction of the handle is the caller's, and what it returns comes into the caller's code
  have hself : i.kind = .acquire ∨ i.kind = .call → th = .caller ∧ i ∈ s.code .caller := by
    intro hk
    have hallows := ha.apart.next hn
    have hth : th = .caller := by
      rcases hk with hk | hk <;> rw [hk] at hallows <;> cases th <;> first | rfl | cases hallows
    subst hth
    rcases next_eq_some hn with hcode | ⟨-, -, hloop⟩
    · exact ⟨rfl, by rw [hcode]; exact List.mem_cons_self⟩
    · cases hloop
  have hnew : ∀ j ∈ code, j.kind = .acquire ∨ j.kind = .call →
      j ∈ (s.ran th i rest sh code).code .caller := by
    intro j hj hk
    rw [i.run_kind hr j hj] at hk
    obtain ⟨rfl, -⟩ := hself hk
    rw [ran_code_self]
    exact List.mem_append_left rest hj
  have hstay := fun j (hj : j ∈ s.code .caller) => mem_code_ran sh code hn hj
  have hcome := fun j (hj : j ∈ (s.ran th i rest sh code).code .caller) => mem_of_mem_ran hn hj
  refine ⟨fun n hmem => ?_, fun j hj n hq hmem => ?_, fun j hj n hq => ?_, fun n hj => ?_,
    fun n hset hall => ?_⟩
  · obtain ⟨hgrow, hstop, hbooks⟩ := i.run_exec hr n
    have hset : s.shared.tasks.acquired n ≠ ∅ → sh.tasks.acquired n ≠ ∅ ∨
        ∃ j ∈ (s.ran th i rest sh code).code .caller, j.stops = some n := fun hset =>
      (hbooks hset).imp_right fun ⟨j, hj, hq⟩ => ⟨j, hnew j hj (Or.inr (j.kind_of_stops hq)), hq⟩
    rcases hgrow hmem with hold | ⟨hready, -⟩
    · rcases h.exec n hold with hin | ⟨j, hj, hq⟩
      · exact hset hin
      · rcases hstay j hj with hj | ⟨-, rfl⟩
        · exact Or.inr ⟨j, hj, hq⟩
        · obtain ⟨k, hk, hq'⟩ := hstop hq hmem
          exact Or.inr ⟨k, hnew k hk (Or.inr (k.kind_of_stops hq')), hq'⟩
    · have hw := i.works_of_readies hready
      exact hset (hlisted i (hself (Or.inl (i.kind_of_works hw))).2 n hw)
  · obtain ⟨hgrow, -, -⟩ := i.run_exec hr n
    obtain ⟨-, hgoes, hbegin⟩ := i.run_acquisition hr n
    rcases hgrow hmem with hold | ⟨hready, hnone⟩
    · -- the node was in the queue before, so it is not made ready
      rcases hcome j hj with hj | ⟨-, hj⟩
      · exact h.ready j hj n hq hold
      · rcases hbegin j hj hq with hready | ⟨hk, hempty⟩
        · exact h.ready i (hself (Or.inl (i.kind_of_works (i.works_of_readies hready)))).2
            n hready hold
        · rcases h.exec n hold with hin | ⟨k, hk', hstop⟩
          · exact hin hempty
          · have hsame := ha.apart.caller i (hself (Or.inl hk)).2 k hk'
            rw [hk, k.kind_of_stops hstop] at hsame
            cases hsame
    · -- the node enters the queue: its acquisition is elsewhere, and there is only one
      have hw := i.works_of_readies hready
      rcases hgoes hw with ⟨k, hk, hkw⟩ | rfl
      · have hne : k ≠ j := by
          rintro rfl
          rw [hnone k hk] at hq
          cases hq
        have hk' := hnew k hk (Or.inl (k.kind_of_works hkw))
        have htwo := add_le_codeWeight Instr.acquiring hk' hj hne
        have hle := code_le_total Instr.acquiring (fun _ => 0) (s.ran th i rest sh code) .caller
        have hsingle : acquiring (s.ran th i rest sh code) ≤ 1 := (ha.ran hn hr).single
        have hpos := k.acquiring_of_works hkw
        have hpos' := j.acquiring_of_works (j.works_of_readies hq)
        unfold acquiring at hsingle
        omega
      · cases hready
  · obtain ⟨hhit, -⟩ := i.run_await hr n
    have hold : ∀ k ∈ s.code .caller, k.hits = some n → (sh.node n).device.isSome := fun k hk hq =>
      hkept n (hlisted k hk n (k.works_of_hits hq)) (h.hit k hk n hq)
    rcases hcome j hj with hj | ⟨-, hj⟩
    · exact hold j hj hq
    · rcases hhit j hj hq with hq' | hs
      · exact hold i (hself (Or.inl (i.kind_of_works (i.works_of_hits hq')))).2 hq'
      · exact hs
  · obtain ⟨-, hawait⟩ := i.run_await hr n
    rcases hcome _ hj with hj | ⟨-, hj⟩
    · rcases h.await n hj with hs | hcoming
      · exact Or.inl (hkept n (hlisted _ hj n rfl) hs)
      · exact hcoming.ran ha hp hn hr
    · rcases hawait hj with hq | ⟨hready, hmem⟩ | ⟨src, hpush⟩
      · have hw := i.works_of_hits hq
        have hi := (hself (Or.inl (i.kind_of_works hw))).2
        exact Or.inl (hkept n (hlisted i hi n hw) (h.hit i hi n hq))
      · exact absurd hmem
          (h.ready i (hself (Or.inl (i.kind_of_works (i.works_of_readies hready)))).2 n hready)
      · exact Or.inr (Or.inl ⟨src, hnew _ hpush (Or.inl rfl)⟩)
  · obtain ⟨hbooks, hgoes, -⟩ := i.run_acquisition hr n
    have hnone : ¬ ∃ j ∈ code, j.works = some n := fun ⟨j, hj, hw⟩ =>
      hall j (hnew j hj (Or.inl (j.kind_of_works hw))) hw
    have hset := (hbooks hset).resolve_right hnone
    by_cases hbefore : ∃ j ∈ s.code .caller, j.works = some n
    · obtain ⟨j, hj, hw⟩ := hbefore
      rcases hstay j hj with hj' | ⟨-, rfl⟩
      · exact absurd hw (hall j hj')
      · -- the wait of this node ends
        obtain rfl := (hgoes hw).resolve_left hnone
        obtain ⟨hstate, rfl, -⟩ := run_awaitNode hr
        exact h.arrived ha hj hstate
    · exact hkept n hset (h.kept n hset fun j hj hw => hbefore ⟨j, hj, hw⟩)

/-! ### Books -/

/-- The layer of the last release is that of its node. -/
def LastLayer (tasks : Tasks S) : Prop :=
  ∀ m, tasks.lastNode = some m → tasks.lastLayerId = S.layer m

theorem PoolInstr.run_books {c : Choice} {nodes nodes' : NodeMap S} {tasks tasks' : Tasks S}
    {i : PoolInstr S} {code : List (PoolInstr S)}
    (h : i.run c nodes tasks = some (nodes', tasks', code)) (hlast : LastLayer tasks) :
    LastLayer tasks' ∧ ∀ n, tasks.acquired n ≠ ∅ → tasks'.acquired n ≠ ∅ ∨
      (∃ t, i = .releaseOwn t ∧ S.nodeOf t = n ∧ tasks.acquired n = {t}) ∨
        ∃ t, i = .releaseTensor t ∧ S.layer (S.nodeOf t) ≠ S.layer n := by
  cases i with
  | acquireTensor | overflow | snapshotExec | enqueuePrefetch | fetchExec | arrived | sameDevice
  | moveDemand | beginPrefetch | clearPrefetching | takeCandidate | moveVictim | movePrefetch
  | freePrefetch | pushDemand | pushPrefetch | pushFetch | startPrune | freeNode | freeVictim
  | replaceCandidates | enqueuePrune | fetchPrune | stopExec | execErase =>
    cases h
    exact ⟨hlast, fun _ => Or.inl⟩
  | acquireNode t =>
    simp only [run] at h
    split at h
    · cases h; exact ⟨hlast, fun _ => Or.inl⟩
    · split at h <;> cases h
      refine ⟨hlast, fun n hset => Or.inl ?_⟩
      rw [acquired_setAcquired]
      split
      · exact tensorIds_ne_empty t
      · exact hset
  | startQueue m src | removeCached r | measure r nodesExec | takeVictim ev v victims | startExec m
  | awaitNode m | takePrefetch task =>
    simp only [run] at h
    split_ifs at h <;> cases h <;> exact ⟨hlast, fun _ => Or.inl⟩
  | nextVictim ev victims =>
    cases victims with
    | nil => cases h; exact ⟨hlast, fun _ => Or.inl⟩
    | cons v victims =>
      simp only [run] at h
      split_ifs at h <;> cases h <;> exact ⟨hlast, fun _ => Or.inl⟩
  | releaseTensor t =>
    simp only [run] at h
    split at h
    · cases h; exact ⟨hlast, fun _ => Or.inl⟩
    · split at h
      · cases h; exact ⟨hlast, fun _ => Or.inl⟩
      · next hlayer =>
        split at h
        · cases h
        · next last hnode =>
          split at h <;> cases h
          · exact ⟨hlast, fun _ => Or.inl⟩
          · refine ⟨hlast, fun n hset => ?_⟩
            by_cases hm : n = last
            · rw [hlast last hnode, ← hm] at hlayer
              exact Or.inr (Or.inr ⟨t, rfl, hlayer⟩)
            · rw [acquired_setAcquired, if_neg hm]
              exact Or.inl hset
  | releaseOwn t =>
    cases h
    refine ⟨fun m hm => ?_, fun n hset => ?_⟩
    · rw [← Option.some.inj hm]
      rfl
    · by_cases hm : n = S.nodeOf t
      · subst hm
        by_cases hleft : (tasks.acquired (S.nodeOf t)).erase t = ∅
        · exact Or.inr (Or.inl
            ⟨t, rfl, rfl, ((Finset.erase_eq_empty_iff _ _).mp hleft).resolve_left hset⟩)
        · refine Or.inl ?_
          show (tasks.setAcquired (S.nodeOf t) _).acquired (S.nodeOf t) ≠ ∅
          rw [acquired_setAcquired, if_pos rfl]
          exact hleft
      · refine Or.inl ?_
        show (tasks.setAcquired (S.nodeOf t) _).acquired n ≠ ∅
        rw [acquired_setAcquired, if_neg hm]
        exact hset
  | popTask g =>
    simp only [run] at h
    split at h <;> cases h
    exact ⟨hlast, fun _ => Or.inl⟩

theorem Instr.run_books {c : Choice} {i : Instr S} {sh sh' : Shared S} {code : List (Instr S)}
    (h : i.run c sh = some (sh', code)) (hlast : LastLayer sh.tasks) :
    LastLayer sh'.tasks ∧ ∀ n, sh.tasks.acquired n ≠ ∅ → sh'.tasks.acquired n ≠ ∅ ∨
      (∃ t, i = .pool (.releaseOwn t) ∧ S.nodeOf t = n ∧ sh.tasks.acquired n = {t}) ∨
        ∃ t, i = .pool (.releaseTensor t) ∧ S.layer (S.nodeOf t) ≠ S.layer n := by
  cases i with
  | pool i =>
    obtain ⟨nodes, tasks, is, hr, rfl, rfl⟩ := run_pool h
    simpa using i.run_books hr hlast
  | dispatch i =>
    obtain ⟨nodes, d, is, hr, rfl, rfl⟩ := run_dispatch h
    exact ⟨hlast, fun _ => Or.inl⟩

/-! ### What an acquire is served -/

/-- A wait that ends finds its node on a GPU. -/
def AwaitsDevice (s : System S) (o : Op S) : Prop :=
  (program S).AtStep (fun c sh i => ∀ n, i = .pool (.awaitNode n) → (i.run c sh).isSome →
    (sh.node n).device.isSome) s o

/-- A node in the books is on a GPU, once its acquire does not wait for it any more, and is not
moved. -/
def HeldOnDevice (s : System S) (o : Op S) : Prop :=
  ∀ n, s.shared.tasks.acquired n ≠ ∅ → (∀ i ∈ s.code .caller, i.works ≠ some n) →
    (s.shared.node n).device.isSome ∧
      (((program S).step s o).shared.node n).device = (s.shared.node n).device

/-- A node leaves the books when the last of its tensors is released, or a tensor of another
layer. -/
def LeavesBooks (s : System S) (o : Op S) : Prop :=
  ∀ n, s.shared.tasks.acquired n ≠ ∅ → ((program S).step s o).shared.tasks.acquired n ≠ ∅ ∨
    ∃ th c t rest, o = .run th c ∧
      ((program S).next s th = some (.pool (.releaseOwn t), rest) ∧ S.nodeOf t = n ∧
          s.shared.tasks.acquired n = {t} ∨
        (program S).next s th = some (.pool (.releaseTensor t), rest) ∧
          S.layer (S.nodeOf t) ≠ S.layer n)

/-- What an acquire relies on. -/
structure Served (s : System S) (o : Op S) : Prop where
  keeps : KeepsDemands s o
  awaits : AwaitsDevice s o
  held : HeldOnDevice s o
  leaves : LeavesBooks s o

/-- The invariants of an orderly run. -/
structure OnDemand (s : System S) : Prop where
  exclusive : Exclusive s
  acquiring : Acquiring s
  uniform : Pure s
  resident : Resident s
  lastLayer : LastLayer s.shared.tasks

theorem OnDemand.init (w : ℕ → ℕ → S.Weight) : OnDemand (System.init S w) :=
  ⟨Exclusive.init w, Acquiring.init w, Pure.init w, Resident.init w, fun _ => nofun⟩

theorem OnDemand.step {s : System S} {o : Op S} (h : OnDemand s)
    (ho : (program S).AtStep (fun _ sh i => i.Orderly sh) s o) :
    OnDemand ((program S).step s o) := by
  refine ⟨h.exclusive.step ho, h.acquiring.step o, ?_, ?_, ?_⟩ <;>
    rcases step_cases (program S) s o
      with heq | ⟨k, -, hnil, heq⟩ | ⟨th, c, i, rest, sh, code, rfl, hn, hr, heq⟩ <;>
    rw [heq]
  · exact h.uniform
  · exact h.uniform.called k
  · exact h.uniform.ran h.acquiring hn hr
  · exact h.resident
  · exact h.resident.called hnil k
  · exact h.resident.ran h.acquiring h.uniform h.exclusive hn hr (ho.run hn)
  · exact h.lastLayer
  · exact h.lastLayer
  · exact (i.run_books hr h.lastLayer).1

theorem OnDemand.served {s : System S} {o : Op S} (h : OnDemand s)
    (ho : (program S).AtStep (fun _ sh i => i.Orderly sh) s o) : Served s o := by
  refine ⟨keepsDemands h.acquiring h.uniform o,
    Program.AtStep.intro fun th c i rest heq hn n hi hrun => ?_,
    fun n hset hnone => ⟨h.resident.kept n hset hnone, ?_⟩, fun n hset => ?_⟩
  · subst hi
    obtain ⟨x, hx⟩ := Option.isSome_iff_exists.mp hrun
    have hcode : Instr.pool (.awaitNode n) ∈ s.code .caller := by
      have hallows := h.acquiring.apart.next hn
      rcases next_eq_some hn with hcode | ⟨-, -, hloop⟩
      · cases th with
        | caller => rw [hcode]; exact List.mem_cons_self
        | worker | fetcher | executor => cases hallows
      · cases th <;> cases hloop
    exact h.resident.arrived h.acquiring hcode (run_awaitNode hx).1
  · rcases step_cases (program S) s o
      with heq | ⟨k, -, -, heq⟩ | ⟨th, c, i, rest, sh, code, rfl, hn, hr, heq⟩ <;> rw [heq]
    · rfl
    · exact h.exclusive.kept hn hr (ho.run hn) hset (h.resident.kept n hset hnone)
  · rcases step_cases (program S) s o
      with heq | ⟨k, -, -, heq⟩ | ⟨th, c, i, rest, sh, code, rfl, hn, hr, heq⟩ <;> rw [heq]
    · exact Or.inl hset
    · exact Or.inl hset
    · rcases (i.run_books hr h.lastLayer).2 n hset
        with hstay | ⟨t, rfl, hnode, hlast⟩ | ⟨t, rfl, hlayer⟩
      · exact Or.inl hstay
      · exact Or.inr ⟨th, c, t, rest, rfl, Or.inl ⟨hn, hnode, hlast⟩⟩
      · exact Or.inr ⟨th, c, t, rest, rfl, Or.inr ⟨hn, hlayer⟩⟩

/-- **An acquire gets its node and keeps it**, in every run in which what acts on a node without
having taken it finds the node idle. -/
theorem served_of_orderly (w : ℕ → ℕ → S.Weight) (os : List (Op S))
    (h : Along (program S).step ((program S).AtStep fun _ sh i => i.Orderly sh)
      (System.init S w) os) :
    Along (program S).step Served (System.init S w) os :=
  along_of_inv (fun _ _ hI ho => OnDemand.step hI ho) (fun _ _ hI ho => OnDemand.served hI ho) os _
    (OnDemand.init w) h

/-! ### A node that is taken away -/

/-- A sparse node is prefetched, a dense one acquired and released, the sparse one acquired, and a
tensor of another layer released. -/
def servedRun : List (Op oneGpu) :=
  calls (.enqueuePrefetch 1) 3 ++ runs (.worker gpu) 9 ++
    calls (.acquireTensor 0) 8 ++ runs (.worker gpu) 3 ++ runs .caller 1 ++
      calls (.releaseTensor 0) 5 ++
    calls (.acquireTensor 1) 7 ++ calls (.releaseTensor 1) 5

theorem served_servedRun : Along (program oneGpu).step Served
    (System.init oneGpu fun _ _ => (0 : ℤ)) servedRun :=
  served_of_orderly _ _ (by decide +kernel)

/-- One GPU that keeps one of three dense nodes when a fourth one comes. -/
def tightGpu : Setup := { oneGpu with denseNodes := [0, 2, 4], deviceCacheLimit := fun _ => 1 }

def tightGpuInit : System tightGpu := System.init tightGpu fun _ _ => (0 : ℤ)

def tight : Fin tightGpu.gpus := ⟨0, Nat.one_pos⟩

/-- The worker moves node 0 for a prefetch, when two more prefetches give it back; it is acquired,
and the worker gives it back again. Then node 2 is acquired, and the acquire of node 4 evicts node
0. -/
def evictedRun : List (Op tightGpu) :=
  calls (.enqueuePrefetch 0) 3 ++ runs (.worker tight) 6 ++
    calls (.enqueuePrefetch 0) 3 ++ calls (.enqueuePrefetch 0) 3 ++
    calls (.acquireTensor 0) 8 ++ runs (.worker tight) 6 ++ runs .caller 1 ++
    calls (.acquireTensor 2) 8 ++ runs (.worker tight) 3 ++ runs .caller 1 ++
    calls (.acquireTensor 4) 3 ++ [.run .caller { order := [0, 2] }] ++ runs .caller 2

theorem acquired_node_evicted :
    ¬ Along (program tightGpu).step Served tightGpuInit (evictedRun ++ [.run .caller {}]) := by
  intro h
  have hheld := (along_append.mp h).2.1.held 0 (by decide +kernel) (by decide +kernel)
  revert hheld
  decide +kernel

end MoeInfinity.Core.Nodes
