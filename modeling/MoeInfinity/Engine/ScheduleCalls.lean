import MoeInfinity.Engine.BlockCounts

/-! # Calls of `schedule`

After every call the queues hold the requests they held before, each with the status of its queue,
and what is scheduled is running, was not preempted in the call and has a table for its prompt
(`schedule_call`). The transfers are arbitrary: a failed one sends the request to another queue.

The ids of queued requests are distinct, and a request is added with the status of a new one. -/

namespace MoeInfinity.Engine.ScheduleCalls

open MoeInfinity.Python MoeInfinity.Lib.Imperative MoeInfinity.Lib.Runs
open MoeInfinity.Memory.Blocks MoeInfinity.Memory.KvManager
open MoeInfinity.Engine.Transfer MoeInfinity.Engine.Schedule MoeInfinity.Engine.Schedule.Scheduler
open MoeInfinity.Engine.KvOps MoeInfinity.Engine.GpuOps MoeInfinity.Engine.QueueMachine
open MoeInfinity.Engine.SwapBlocks
  (Op named named_nil named_cons named_append named_perm named_pos NewId step
    noTransfers oneGpuBlock)
open MoeInfinity.Engine.BlockCounts (named_moved named_filter table_of_ne table_self)

/-! ### What is required -/

/-- A request is added with the status of a new one, under an id that no queued request has. -/
def NewRequest {τ : Type} (s : Scheduler τ) (o : Op) : Prop :=
  NewId s o ∧ match o with
    | .addRequest r => r.status = .waiting
    | _ => True

instance {τ : Type} (s : Scheduler τ) : ∀ o : Op, Decidable (NewRequest s o)
  | .addRequest r => inferInstanceAs (Decidable (NewId s (.addRequest r) ∧ r.status = .waiting))
  | .schedule p => inferInstanceAs (Decidable (NewId s (.schedule p) ∧ True))
  | .finishRequest i => inferInstanceAs (Decidable (NewId s (.finishRequest i) ∧ True))
  | .abortRequest i => inferInstanceAs (Decidable (NewId s (.abortRequest i) ∧ True))

/-- A request without its status. -/
def identity (r : Request) : String × List ℕ := (r.requestId, r.promptTokenIds)

/-- The request has a table with room for its prompt. -/
def Covered (k : KVCacheManager) (r : Request) : Prop :=
  ∃ ids : List ℕ, k.seqToGpuBlocks r.requestId = some ids ∧
    r.promptTokenIds.length ≤ ids.length * k.blockSize

/-- What a call of `schedule` promises. -/
structure WellScheduled {τ : Type} (env : Env τ) (s : Scheduler τ) (out : SchedulerOutput)
    (s' : Scheduler τ) : Prop where
  conserved : ((s'.waiting ++ s'.running ++ s'.swapped).map identity).Perm
    ((s.waiting ++ s.running ++ s.swapped).map identity)
  waiting : ∀ r ∈ s'.waiting, r.status = .waiting
  running : ∀ r ∈ s'.running, r.status = .running
  swapped : ∀ r ∈ s'.swapped, r.status = .swapped
  seats : s'.running.length ≤ env.maxNumSeqs
  budget : out.numBatchedTokens ≤ env.maxNumBatchedTokens
  nodup : out.scheduledSeqs.Nodup
  scheduled : ∀ i ∈ out.scheduledSeqs, i ∉ out.preemptedSeqs ∧
    ∃ r ∈ s'.running, r.requestId = i ∧ Covered s'.kvMgr r

/-! ### Tables -/

section Tables

variable {k k' : KVCacheManager} {i : String} {r : Request}

theorem Covered.congr (h : Covered k r) (hsize : k'.blockSize = k.blockSize)
    (htab : k'.seqToGpuBlocks r.requestId = k.seqToGpuBlocks r.requestId) : Covered k' r := by
  obtain ⟨ids, hids, hlen⟩ := h
  exact ⟨ids, htab.trans hids, by rw [hsize]; exact hlen⟩

theorem Covered.update {t : Option (List ℕ)} (h : Covered k r) (hsize : k'.blockSize = k.blockSize)
    (hi : r.requestId ≠ i) (htab : k'.seqToGpuBlocks = Function.update k.seqToGpuBlocks i t) :
    Covered k' r := h.congr hsize (table_of_ne hi htab)

theorem covered_of_allocated (hsize : k'.blockSize = k.blockSize)
    (h : Allocated r.requestId r.promptTokenIds k k') : Covered k' r := by
  obtain ⟨ids, htab, hlen, -⟩ := h.table
  exact ⟨ids, table_self htab, by rw [hsize]; exact hlen⟩

theorem covered_of_swappedIn {ids : List ℕ} (hsize : k'.blockSize = k.blockSize)
    (hlen : r.promptTokenIds.length ≤ ids.length * k.blockSize)
    (h : SwappedIn r.requestId ids k k') :
    Covered k' r := by
  obtain ⟨new, hnew, htab, -⟩ := h.table
  exact ⟨new, table_self htab, by rw [hsize, hnew]; exact hlen⟩

end Tables

/-! ### The invariant -/

variable {hash : ℤ → List ℕ → ℤ} {maxNumSeqs : ℕ} {mayFail : Prop} {c c' : Custody}

/-- Where the requests are, and what a call relies on: the waiting requests are new, what runs has a
table, and a swapped request that is not to start again has a copy for its prompt. -/
structure Placed (maxNumSeqs : ℕ) (c : Custody) : Prop where
  waiting : ∀ r ∈ c.waiting, r.status = .waiting
  once : ∀ i, named i c.waiting + named i c.running + named i c.swapped + named i c.admitted +
    named i c.pending ≤ 1
  seats : c.running.length + c.admitted.length ≤ maxNumSeqs
  covered : ∀ r ∈ c.running ++ c.admitted, Covered c.kv r
  saved : ∀ r ∈ c.swapped ++ c.pending, r.requestId ∉ c.flagged → ∃ ids : List ℕ,
    c.gpuIds r.requestId = some ids ∧ r.promptTokenIds.length ≤ ids.length * c.kv.blockSize
  preempted : ∀ i ∈ c.preempted, 0 < named i c.swapped

theorem Placed.fresh (h : Placed maxNumSeqs c) {r : Request} {rest : List Request}
    (hw : c.waiting = r :: rest) : ∀ r' ∈ c.running ++ c.admitted, r'.requestId ≠ r.requestId := by
  intro r' hr' heq
  have h1 := h.once r.requestId
  have h2 := named_pos hr'
  simp only [hw, named_cons, heq, if_true, named_append] at h1 h2
  omega

theorem Placed.victim (h : Placed maxNumSeqs c) {v : Request} {rest : List Request}
    (hrun : c.running = v :: rest) : (∀ r ∈ rest ++ c.admitted, r.requestId ≠ v.requestId) ∧
      ∀ r ∈ c.swapped ++ c.pending, r.requestId ≠ v.requestId := by
  have h1 := h.once v.requestId
  simp only [hrun, named_cons, if_true] at h1
  constructor <;> intro r hr heq <;> have h2 := named_pos hr
  all_goals
    simp only [heq, named_append] at h2
    omega

theorem Placed.visited (h : Placed maxNumSeqs c) {x : Request} {rest : List Request}
    (hpe : c.pending = x :: rest) : (∀ r ∈ c.running ++ c.admitted, r.requestId ≠ x.requestId) ∧
      ∀ r ∈ c.swapped ++ rest, r.requestId ≠ x.requestId := by
  have h1 := h.once x.requestId
  simp only [hpe, named_cons, if_true] at h1
  constructor <;> intro r hr heq <;> have h2 := named_pos hr
  all_goals
    simp only [heq, named_append] at h2
    omega

theorem Placed.untouched (h : Placed maxNumSeqs c) {op : KvOp}
    (hu : Untouched c.kv (c.did hash op).kv) :
    Placed maxNumSeqs (c.did hash op) := by
  have hsize : (c.did hash op).kv.blockSize = c.kv.blockSize := blockSize_kvStep hash c.kv op
  refine ⟨h.waiting, h.once, h.seats, fun r hr => ?_, ?_, h.preempted⟩
  · exact (h.covered r hr).congr hsize (congrFun hu.tables _)
  · rw [hsize]; exact h.saved

/-- The table of a request that neither runs nor is admitted may change. -/
theorem Placed.table (h : Placed maxNumSeqs c) {op : KvOp} {i : String} {t : Option (List ℕ)}
    (htab : (c.did hash op).kv.seqToGpuBlocks = Function.update c.kv.seqToGpuBlocks i t)
    (hi : ∀ r ∈ c.running ++ c.admitted, r.requestId ≠ i) : Placed maxNumSeqs (c.did hash op) := by
  have hsize : (c.did hash op).kv.blockSize = c.kv.blockSize := blockSize_kvStep hash c.kv op
  refine ⟨h.waiting, h.once, h.seats, fun r hr => ?_, ?_, h.preempted⟩
  · exact (h.covered r hr).update hsize (hi r hr) htab
  · rw [hsize]; exact h.saved

theorem preempted_snoc (h : ∀ i ∈ c.preempted, 0 < named i c.swapped) (v : Request) :
    ∀ i ∈ c.preempted ++ [v.requestId], 0 < named i (c.swapped ++ [moved .swapped v]) := by
  intro i hi
  rw [named_append]
  rcases List.mem_append.mp hi with hi | hi
  · exact Nat.add_pos_left (h i hi) _
  · rw [List.mem_singleton.mp hi]
    exact Nat.add_pos_right _ (named_pos (r := moved .swapped v) (List.mem_singleton_self _))

theorem mem_snoc_append {α : Type} {x y : α} {xs ys : List α} (h : x ∈ xs ++ [y] ++ ys) :
    x ∈ xs ++ ys ∨ x = y := by
  simp only [List.mem_append, List.mem_singleton] at h ⊢
  tauto

theorem mem_append_tail {α : Type} {x y : α} {xs ys rest : List α} (hys : ys = y :: rest)
    (h : x ∈ xs ++ rest) : x ∈ xs ++ ys := by
  rw [hys]
  exact ((List.sublist_cons_self y rest).append_left xs).subset h

theorem Placed.step (h : Placed maxNumSeqs c) (hstep : Step hash maxNumSeqs mayFail c c') :
    Placed maxNumSeqs c' := by
  have hsize : ∀ (c : Custody) op, (c.did hash op).kv.blockSize = c.kv.blockSize := fun c op =>
    blockSize_kvStep hash c.kv op
  have honce : ∀ i, named i c'.waiting + named i c'.running + named i c'.swapped +
      named i c'.admitted + named i c'.pending ≤ 1 :=
        fun i => (named_step hstep i).trans_le (h.once i)
  cases hstep with
  | start ha hp hperm =>
    refine ⟨fun r hr => h.waiting r (hperm.subset hr), honce, h.seats, h.covered, fun r hr => ?_,
      fun _ h0 => by cases h0⟩
    refine h.saved r ?_
    simpa [hp] using hr
  | refuse r hu => exact h.untouched hu
  | @accept r rest hw hst hroom hal =>
    have hfresh := h.fresh hw
    obtain ⟨ids, htab, -, -⟩ := hal.table
    refine ⟨forall_mem_tail h.waiting hw, honce, ?_, fun r' hr' => ?_, ?_, h.preempted⟩
    · simp only [did_running, List.length_append, List.length_singleton]
      omega
    · simp only [did_running, ← List.append_assoc] at hr'
      rcases List.mem_append.mp hr' with hr' | hr'
      · exact (h.covered r' hr').update (hsize _ _) (hfresh r' hr') htab
      · rw [List.mem_singleton.mp hr']
        exact covered_of_allocated (hsize _ _) hal
    · simp only [hsize]; exact h.saved
  | @giveUp r rest hw hal hfree =>
    obtain ⟨ids, htab, -, -⟩ := hal.table
    exact (h.table htab (h.fresh hw)).table hfree.tables (h.fresh hw)
  | @swapOut v rest ids hrun ho =>
    obtain ⟨hr, hs⟩ := h.victim hrun
    have hmem : ∀ r ∈ rest ++ c.admitted, r ∈ c.running ++ c.admitted := fun r h0 => by
      rw [hrun]; exact List.mem_cons_of_mem v h0
    refine ⟨h.waiting, honce, ?_, fun r hmem' => ?_, fun r hmem' hflag => ?_,
      preempted_snoc h.preempted v⟩
    · have h1 := h.seats
      rw [hrun, List.length_cons] at h1
      simp only [did_admitted]
      omega
    · exact (h.covered r (hmem r hmem')).update (hsize _ _) (hr r hmem') ho.tables
    · simp only [hsize]
      rcases mem_snoc_append hmem' with hmem' | rfl
      · rw [Function.update_of_ne (hs r hmem')]
        exact h.saved r hmem' hflag
      · obtain ⟨ids', hids', hlen⟩ := h.covered v (by rw [hrun]; exact List.mem_cons_self)
        have htable := ho.table
        unfold KVCacheManager.getBlockTable at htable
        rw [hids'] at htable
        exact ⟨ids, Function.update_self _ _ _, by rw [← htable]; exact hlen⟩
  | @evict v rest hrun ho hfree gpuIds hids =>
    obtain ⟨hr, hs⟩ := h.victim hrun
    have hmem : ∀ r ∈ rest ++ c.admitted, r ∈ c.running ++ c.admitted := fun r h0 => by
      rw [hrun]; exact List.mem_cons_of_mem v h0
    have hout : ∀ r ∈ rest ++ c.admitted, Covered (c.did hash (.swapOut v.requestId)).kv r := by
      intro r hmem'
      rcases ho with hu | ⟨ids, ho⟩
      · exact (h.covered r (hmem r hmem')).congr (hsize _ _) (congrFun hu.tables _)
      · exact (h.covered r (hmem r hmem')).update (hsize _ _) (hr r hmem') ho.tables
    refine ⟨h.waiting, honce, ?_, fun r hmem' => ?_, fun r hmem' hflag => ?_,
      preempted_snoc h.preempted v⟩
    · have h1 := h.seats
      rw [hrun, List.length_cons] at h1
      simp only [did_admitted]
      omega
    · exact (hout r hmem').update (hsize _ _) (hr r hmem') hfree.tables
    · simp only [hsize]
      rcases mem_snoc_append hmem' with hmem' | rfl
      · rw [hids _ (hs r hmem')]
        exact h.saved r hmem' fun h0 => hflag (Finset.mem_insert_of_mem h0)
      · exact absurd (Finset.mem_insert_self _ _) hflag
  | settle =>
    refine ⟨h.waiting, honce, ?_, ?_, h.saved, h.preempted⟩
    · have h1 := h.seats
      rw [List.length_append, List.length_nil]
      omega
    · rw [List.append_nil]; exact h.covered
  | stay hpe =>
    refine ⟨h.waiting, honce, h.seats, h.covered, ?_, fun i hi => ?_⟩
    · rw [List.append_assoc, List.singleton_append, ← hpe]
      exact h.saved
    · rw [named_append]
      exact Nat.add_pos_left (h.preempted i hi) _
  | finish => exact ⟨h.waiting, honce, h.seats, h.covered, h.saved, fun _ h0 => by cases h0⟩
  | @restart x rest hpe hf =>
    refine ⟨List.forall_mem_cons.mpr ⟨rfl, h.waiting⟩, honce, h.seats, h.covered,
      fun r hr hflag => ?_, h.preempted⟩
    have hx := (h.visited hpe).2 r hr
    exact h.saved r (mem_append_tail hpe hr) fun h0 => hflag (Finset.mem_erase.mpr ⟨hx, h0⟩)
  | retry x ids hu => exact h.untouched hu
  | @resume x rest ids hpe hf hroom hids hin =>
    obtain ⟨hrunning, hswapped⟩ := h.visited hpe
    obtain ⟨new, -, htab, -⟩ := hin.table
    refine ⟨h.waiting, honce, ?_, fun r hr => ?_, fun r hr hflag => ?_, h.preempted⟩
    · simp only [did_admitted, List.length_append, List.length_singleton]
      omega
    · rcases mem_snoc_append hr with hr | rfl
      · exact (h.covered r hr).update (hsize _ _) (hrunning r hr) htab
      · obtain ⟨ids', hids', hlen⟩ := h.saved x (by rw [hpe]; simp) hf
        rw [hids'] at hids
        rw [show ids' = ids from hids] at hlen
        exact covered_of_swappedIn (r := moved .running x) (hsize _ _) hlen hin
    · simp only [hsize]
      rw [Function.update_of_ne (hswapped r hr)]
      exact h.saved r (mem_append_tail hpe hr) hflag
  | @fail x rest ids hmay hpe hf hids hin hfree =>
    obtain ⟨hrunning, hswapped⟩ := h.visited hpe
    obtain ⟨new, -, htab, -⟩ := hin.table
    refine ⟨List.forall_mem_cons.mpr ⟨rfl, h.waiting⟩, honce, h.seats, fun r hr => ?_,
      fun r hr hflag => ?_, h.preempted⟩
    · exact ((h.covered r hr).update (hsize _ _) (hrunning r hr) htab).update (hsize _ _)
        (hrunning r hr) hfree.tables
    · simp only [hsize]
      rw [Function.update_of_ne (hswapped r hr)]
      exact h.saved r (mem_append_tail hpe hr) fun h0 => hflag (Finset.mem_insert_of_mem h0)

theorem Placed.abort (h : Placed maxNumSeqs c) (ha : Abort hash c c') : Placed maxNumSeqs c' := by
  cases ha with
  | @division r rest hw hbs =>
    refine ⟨forall_mem_tail h.waiting hw, fun i => ?_, ?_, fun r' hr' => ?_, fun r' hr' => ?_,
      fun _ h0 => by cases h0⟩
    · have h1 := h.once i
      simp only [hw, named_cons, named_nil] at h1 ⊢
      omega
    · exact (Nat.le_add_right _ _).trans h.seats
    · rw [List.append_nil] at hr'
      exact h.covered r' (List.mem_append_left _ hr')
    · rw [List.append_nil] at hr'
      exact h.saved r' (List.mem_append_left _ hr')
  | status hw hst hal => exact absurd (h.waiting _ (hw ▸ List.mem_cons_self)) hst

/-- A request is taken out of the queues. -/
theorem Placed.without (h : Placed maxNumSeqs c) (ha : c.admitted = []) (hpe : c.pending = [])
    (hpr : c.preempted = []) (rid : String) : Placed maxNumSeqs (c.without rid) := by
  refine ⟨fun r hr => h.waiting r (List.mem_filter.mp hr).1, fun i => ?_, ?_, fun r hr => ?_,
    fun r hr hflag => ?_, ?_⟩
  · have h1 := h.once i
    have h2 := SwapBlocks.named_filter_le i (·.requestId ≠ rid) c.waiting
    have h3 := SwapBlocks.named_filter_le i (·.requestId ≠ rid) c.running
    have h4 := SwapBlocks.named_filter_le i (·.requestId ≠ rid) c.swapped
    change named i (c.waiting.filter _) + named i (c.running.filter _) + named i
      (c.swapped.filter _) + named i c.admitted + named i c.pending ≤ 1
    omega
  · exact (Nat.add_le_add_right (List.length_filter_le _ _) _).trans h.seats
  · change r ∈ c.running.filter _ ++ c.admitted at hr
    rw [ha, List.append_nil] at hr
    exact h.covered r (List.mem_append_left _ (List.mem_filter.mp hr).1)
  · change r ∈ c.swapped.filter _ ++ c.pending at hr
    rw [hpe, List.append_nil] at hr
    obtain ⟨hr, hne⟩ := List.mem_filter.mp hr
    have hne : r.requestId ≠ rid := by simpa using hne
    change ∃ ids, Function.update c.gpuIds rid none r.requestId = some ids ∧ _
    rw [Function.update_of_ne hne]
    exact h.saved r (List.mem_append_left _ hr) fun h0 => hflag (Finset.mem_erase.mpr ⟨hne, h0⟩)
  · change ∀ i ∈ c.preempted, _
    rw [hpr]
    exact fun _ h0 => by cases h0

theorem Placed.finish {rid : String} (h : Placed maxNumSeqs c) (ha : c.admitted = [])
    (hpe : c.pending = []) (hpr : c.preempted = []) (hf : Finish hash rid c c') :
    Placed maxNumSeqs c' := by
  have hfreed : ∀ {c₁ : Custody}, Placed maxNumSeqs c₁ → c₁.admitted = [] → c₁.pending = [] →
      c₁.preempted = [] → Freed rid c₁.kv (c₁.did hash (.freeSequence rid)).kv →
      Placed maxNumSeqs ((c₁.did hash (.freeSequence rid)).without rid) := by
    intro c₁ h₁ ha₁ hpe₁ hpr₁ hfree
    refine Placed.table (c := c₁.without rid) (h₁.without ha₁ hpe₁ hpr₁ rid) hfree.tables
      fun r hr => ?_
    change r ∈ c₁.running.filter _ ++ c₁.admitted at hr
    rw [ha₁, List.append_nil] at hr
    simpa using (List.mem_filter.mp hr).2
  cases hf with
  | raise prompt hbs htable hu => exact h.untouched hu
  | unregistered hfree => exact hfreed h ha hpe hpr hfree
  | registered prompt hu hfree => exact hfreed (h.untouched hu) ha hpe hpr hfree

theorem Placed.add {r : Request} (h : Placed maxNumSeqs c) (hst : r.status = .waiting)
    (hnew : named r.requestId c.waiting + named r.requestId c.running +
      named r.requestId c.swapped + named r.requestId c.admitted + named r.requestId
        c.pending = 0) :
    Placed maxNumSeqs { c with waiting := c.waiting ++ [r] } := by
  refine ⟨forall_mem_snoc h.waiting hst, fun i => ?_, h.seats, h.covered, h.saved, h.preempted⟩
  have h1 := h.once i
  simp only [named_append, named_cons, named_nil]
  by_cases hi : r.requestId = i
  · rw [hi] at hnew
    rw [if_pos hi]
    omega
  · rw [if_neg hi]
    omega

/-! ### Runs -/

section Runs

variable {τ : Type} {env : Env τ} {s : Scheduler τ}

/-- **One operation** keeps the invariant. -/
theorem placed_step (hready : Ready (view s)) (h : Placed env.maxNumSeqs (view s)) : ∀ {o : Op},
    NewRequest s o → Placed env.maxNumSeqs (view (step env s o))
  | .addRequest r, ho => by
    refine h.add ho.2 ?_
    have hno := SwapBlocks.named_eq_zero ho.1
    simp only [named_append] at hno
    exact hno
  | .schedule predict, _ => inv_schedule hready predict (Or.inl trivial) (fun _ _ => Placed.step)
    (fun _ _ => Placed.abort) h
  | .finishRequest rid, _ => h.finish rfl rfl rfl (finish_finishRequest hready rid)
  | .abortRequest rid, _ => h.finish rfl rfl rfl (finish_finishRequest hready rid)

theorem placed_new (maxNumSeqs numGpu numCpu blockSize : ℕ) (t : τ) :
    Placed maxNumSeqs (view (Scheduler.new (KVCacheManager.new numGpu numCpu blockSize) t)) where
  waiting := fun _ h0 => by cases h0
  once := fun _ => Nat.zero_le _
  seats := Nat.zero_le _
  covered := fun _ h0 => by cases h0
  saved := fun _ h0 => by cases h0
  preempted := fun _ h0 => by cases h0

theorem placed_exec : ∀ (ops : List Op) (s : Scheduler τ), Ready (view s) →
    Placed env.maxNumSeqs (view s) → Along (step env) NewRequest s ops →
    Ready (view (exec (step env) s ops)) ∧ Placed env.maxNumSeqs (view (exec (step env) s ops))
  | [], _, hready, h, _ => ⟨hready, h⟩
  | o :: ops, s, hready, h, hnew =>
    placed_exec ops (step env s o) (ready_step hready o) (placed_step hready h hnew.1) hnew.2

/-! ### One call -/

theorem tally_reaches {hash : ℤ → List ℕ → ℤ} {maxNumSeqs : ℕ} {mayFail : Prop} {c c' : Custody}
    {p : Request → Bool} (hp : ∀ status r, p (moved status r) = p r)
    (h : Reaches hash maxNumSeqs mayFail c c') : c'.tally p = c.tally p :=
  h.inv (I := fun c₁ => c₁.tally p = c.tally p) (fun _ _ h0 hs => (tally_step hp hs).trans h0) rfl

theorem perm_of_tally {q q' : List Request}
    (h : ∀ x : String × List ℕ, q.countP (fun r => identity r = x) =
      q'.countP (fun r => identity r = x)) :
    (q.map identity).Perm (q'.map identity) := by
  rw [List.perm_iff_count]
  intro x
  have hcount : ∀ q : List Request, (q.map identity).count x =
      q.countP (fun r => identity r = x) := by
    intro q
    rw [List.count, List.countP_map]
    exact List.countP_congr fun r _ => by simp
  rw [hcount, hcount, h x]

theorem Placed.nodup_running {maxNumSeqs : ℕ} {c : Custody} (h : Placed maxNumSeqs c) :
    (c.running.map (·.requestId)).Nodup := by
  rw [List.nodup_iff_count_le_one]
  intro i
  have hcount : (c.running.map (·.requestId)).count i = named i c.running := by
    unfold named
    rw [List.count, List.countP_map]
    exact List.countP_congr fun r _ => by simp
  rw [hcount]
  have h1 := h.once i
  omega

theorem wellScheduled (h : Placed env.maxNumSeqs (view s)) (hready : Ready (view s))
    {out : SchedulerOutput} {s' : Scheduler τ} (hs : Scheduled env True s out s') :
    WellScheduled env s out s' := by
  have hp := hs.reaches.inv (fun _ _ => Placed.step) h
  have hr := hs.reaches.inv (fun _ _ => Ready.step) hready
  obtain ⟨admitted, taken, hadmitted, htaken, hnew, hscheduled⟩ := hs.chosen
  have hnodup : (s'.running.map (·.requestId)).Nodup := hp.nodup_running
  have hrunning : ∀ i ∈ out.scheduledSeqs, ∃ r ∈ s'.running, r.requestId = i := by
    intro i hi
    rw [hscheduled] at hi
    rcases List.mem_append.mp hi with hi | hi <;> obtain ⟨r, hmem, rfl⟩ := List.mem_map.mp hi
    · exact ⟨r, hadmitted.subset hmem, rfl⟩
    · exact ⟨r, htaken.subset hmem, rfl⟩
  refine ⟨perm_of_tally fun x => ?_, hp.waiting, hr.running, hr.swapped, ?_, hs.budget, ?_,
    fun i hi => ?_⟩
  · have htally := tally_reaches (p := fun r => identity r = x) (fun _ _ => rfl) hs.reaches
    unfold Custody.tally at htally
    rw [List.countP_append, List.countP_append, List.countP_append, List.countP_append]
    exact htally
  · exact hp.seats
  · rw [hscheduled]
    refine List.nodup_append'.mpr
      ⟨hnodup.sublist (hadmitted.map _), hnodup.sublist (htaken.map _), ?_⟩
    intro i hi hi'
    obtain ⟨r, hmem, rfl⟩ := List.mem_map.mp hi'
    exact hnew r hmem hi
  · obtain ⟨r, hmem, rfl⟩ := hrunning i hi
    refine ⟨fun hpre => ?_, r, hmem, rfl, ?_⟩
    · have h1 := hp.once r.requestId
      have h2 : 0 < named r.requestId s'.swapped := hp.preempted _ hpre
      have h3 := named_pos hmem
      change named r.requestId s'.waiting + named r.requestId s'.running +
        named r.requestId s'.swapped + _ + _ ≤ 1 at h1
      omega
    · exact hp.covered r (List.mem_append_left _ hmem)

/-- **Calls of `schedule`** in a state that is reached with new requests, each waiting when it is
added, return, unless the block size is zero, and the queues and the schedule are then as
required. -/
theorem schedule_call (env : Env τ) (numGpu numCpu blockSize : ℕ) (t : τ) (ops : List Op)
    (hnew : Along (step env) NewRequest
      (Scheduler.new (KVCacheManager.new numGpu numCpu blockSize) t) ops)
    (predict : Option (String → List ℕ → ℚ)) :
    (0 < blockSize → ∃ out s', (schedule env predict).run (exec (step env)
        (Scheduler.new (KVCacheManager.new numGpu numCpu blockSize) t) ops) = (s', .ok out)) ∧
      ∀ out s', (schedule env predict).run (exec (step env)
          (Scheduler.new (KVCacheManager.new numGpu numCpu blockSize) t) ops) = (s', .ok out) →
        WellScheduled env (exec (step env)
          (Scheduler.new (KVCacheManager.new numGpu numCpu blockSize) t) ops) out s' := by
  obtain ⟨hready, hplaced⟩ := placed_exec ops _ (ready_new numGpu numCpu blockSize t)
    (placed_new env.maxNumSeqs numGpu numCpu blockSize t) hnew
  have hsynced := (run_ready_synced env numGpu numCpu blockSize t ops).2
  set s := exec (step env) (Scheduler.new (KVCacheManager.new numGpu numCpu blockSize) t) ops
  have hwp : wp (schedule env predict) (Scheduled env True s) (Raised env True (view s)) s :=
    wp_schedule hready predict (Or.inl trivial)
  constructor
  · intro hpos
    rcases hrun : (schedule env predict).run s with ⟨s', e | out⟩
    · obtain ⟨⟨c, hreach, habort⟩, -⟩ := wp_error hwp hrun
      have hsize := (hreach.inv (fun _ _ => Synced.step) hsynced).blockSize
      generalize view s' = c' at habort
      cases habort with
      | division hw hbs => exact absurd (hsize.symm.trans hbs) hpos.ne'
      | status hw hst hal =>
        have hp := hreach.inv (fun _ _ => Placed.step) hplaced
        exact absurd (hp.waiting _ (hw ▸ List.mem_cons_self)) hst
    · exact ⟨out, s', rfl⟩
  · intro out s' hrun
    exact wellScheduled hplaced hready (wp_ok hwp hrun)

/-! ### A preemption -/

/-- A request runs and another one waits for its block. -/
def blockTaken : List Op :=
  [.addRequest ⟨"a", [1, 2], .waiting⟩, .schedule none, .addRequest ⟨"b", [3], .waiting⟩]

theorem schedule_call_blockTaken : ∃ out s',
    (schedule noTransfers none).run (exec (step noTransfers) oneGpuBlock blockTaken) =
    (s', .ok out) ∧
      out.scheduledSeqs = ["b"] ∧ out.preemptedSeqs = ["a"] ∧
      WellScheduled noTransfers (exec (step noTransfers) oneGpuBlock blockTaken) out s' := by
  obtain ⟨hreturns, hwell⟩ := schedule_call noTransfers 1 2 4 () blockTaken (by decide) none
  obtain ⟨out, s', hrun⟩ := hreturns (by decide)
  have hout :
      ((schedule noTransfers none).run
        (exec (step noTransfers) oneGpuBlock blockTaken)).2.toOption.map (fun out =>
        (out.scheduledSeqs, out.preemptedSeqs)) = some (["b"], ["a"]) := by decide
  have hrun : (schedule noTransfers none).run (exec (step noTransfers) oneGpuBlock blockTaken) =
    (s', .ok out) := hrun
  rw [hrun] at hout
  obtain ⟨hscheduled, hpreempted⟩ := Prod.mk.inj (Option.some.inj hout)
  exact ⟨out, s', hrun, hscheduled, hpreempted, hwell out s' hrun⟩

end Runs

end MoeInfinity.Engine.ScheduleCalls
