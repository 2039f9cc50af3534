import MoeInfinity.Engine.ScheduleCalls

/-! # Requests to be prefilled again

A preempted request without a copy is flagged, and its flag is read when its turn to come back has
come. So a flag is for a swapped request without a copy, and a copy is for a swapped request without
a flag: this holds in every run in which no transfer of a swap-in fails and the swap-outs meet
`FreshKeys` (`honest_run`).

When such a transfer fails, the request is flagged although it is sent to the waiting queue at once,
and the flag stays until its next turn: a copy made in between is thrown away (`stale_flag`). -/

namespace MoeInfinity.Engine.Reprefill

open MoeInfinity.Python MoeInfinity.Lib.Imperative MoeInfinity.Lib.Runs
open MoeInfinity.Memory.Blocks MoeInfinity.Memory.KvManager MoeInfinity.Memory.SwapRecords
open MoeInfinity.Memory.KvManagerSpec
open MoeInfinity.Engine.Transfer MoeInfinity.Engine.Schedule MoeInfinity.Engine.Schedule.Scheduler
open MoeInfinity.Engine.KvOps MoeInfinity.Engine.GpuOps MoeInfinity.Engine.QueueMachine
open MoeInfinity.Engine.SwapBlocks
  (Op named named_nil named_cons named_append named_perm named_pos NewId step noTransfers
    oneGpuBlock outAndBack Live live_new)
open MoeInfinity.Engine.BlockCounts (named_moved)
open MoeInfinity.Engine.ScheduleCalls

variable {τ : Type}

/-! ### What is required -/

/-- Flags are for swapped requests without a copy, and the CPU blocks in use for swapped
requests. -/
structure Honest (s : Scheduler τ) : Prop where
  flagged : ∀ i ∈ s.swapNeedsReprefill, (∃ r ∈ s.swapped, r.requestId = i) ∧
    s.kvMgr.seqToSwappedGpuBlocks i = none
  recorded : ∀ c < s.kvMgr.cpuPool.numBlocks, c ∉ s.kvMgr.cpuPool.freeQueue →
    ∃ r ∈ s.swapped, c ∈ cpuBlocks s.kvMgr r.requestId

/-- Requests are added as new ones, and no transfer of a swap-in fails. -/
def Completes (env : Env τ) (s : Scheduler τ) (o : Op) : Prop :=
  NewRequest s o ∧ match o with
    | .schedule predict => swapInsComplete env predict s
    | _ => True

instance (env : Env τ) (predict : Option (String → List ℕ → ℚ)) (s : Scheduler τ) :
    Decidable (swapInsComplete env predict s) := decidableAlong _ _ _

instance (env : Env τ) (s : Scheduler τ) : ∀ o : Op, Decidable (Completes env s o)
  | .addRequest r => inferInstanceAs (Decidable (NewRequest s (.addRequest r) ∧ True))
  | .schedule p =>
    inferInstanceAs (Decidable (NewRequest s (.schedule p) ∧ swapInsComplete env p s))
  | .finishRequest i => inferInstanceAs (Decidable (NewRequest s (.finishRequest i) ∧ True))
  | .abortRequest i => inferInstanceAs (Decidable (NewRequest s (.abortRequest i) ∧ True))

/-! ### The copies of the manager -/

section Copies

variable {k k' : KVCacheManager} {i j : String}

theorem copy_congr (h : records k' = records k) :
    k'.seqToSwappedGpuBlocks j = k.seqToSwappedGpuBlocks j :=
  congrFun (congrArg Records.swapped h) j

theorem copy_drop_self {ids : List ℕ} (h : records k' = drop i ids (records k)) :
    k'.seqToSwappedGpuBlocks i = none :=
  (congrFun (congrArg Records.swapped h) i).trans (Function.update_self _ _ _)

theorem copy_drop_of_ne {ids : List ℕ} (h : records k' = drop i ids (records k)) (hj : j ≠ i) :
    k'.seqToSwappedGpuBlocks j = k.seqToSwappedGpuBlocks j :=
  (congrFun (congrArg Records.swapped h) j).trans (Function.update_of_ne hj _ _)

theorem copy_swappedOut {ids : List ℕ} (h : SwappedOut i ids k k') (hj : j ≠ i) :
    k'.seqToSwappedGpuBlocks j = k.seqToSwappedGpuBlocks j := by
  obtain ⟨pairs, -, hrec⟩ := h.records
  exact (congrFun (congrArg Records.swapped hrec) j).trans (Function.update_of_ne hj _ _)

end Copies

/-! ### The invariant -/

variable {hash : ℤ → List ℕ → ℤ} {maxNumSeqs : ℕ} {c c' : Custody}

/-- The requests that are swapped, or still to be visited in this call. -/
def away (i : String) (c : Custody) : ℕ := named i c.swapped + named i c.pending

/-- A flag or a copy is for a request that is away, which has not both. -/
structure Marked (c : Custody) : Prop where
  flagged : ∀ i ∈ c.flagged, 0 < away i c ∧ c.kv.seqToSwappedGpuBlocks i = none
  copies : ∀ i, c.kv.seqToSwappedGpuBlocks i ≠ none → 0 < away i c
  idle : c.kv.blockSize = 0 → c.running = [] ∧ c.admitted = [] ∧ c.swapped = [] ∧ c.pending = []

theorem Marked.same (h : Marked c) (haway : ∀ i, away i c' = away i c)
    (hflag : c'.flagged = c.flagged)
    (hcopy : ∀ i, c'.kv.seqToSwappedGpuBlocks i = c.kv.seqToSwappedGpuBlocks i)
    (hidle : c'.kv.blockSize = 0 → c'.running = [] ∧ c'.admitted = [] ∧ c'.swapped = [] ∧
      c'.pending = []) :
    Marked c' := by
  refine ⟨fun i hi => ?_, fun i hi => ?_, hidle⟩
  · rw [haway, hcopy]
    exact h.flagged i (hflag ▸ hi)
  · rw [haway]
    exact h.copies i (by rw [← hcopy]; exact hi)

/-- Only one request changes. -/
theorem Marked.change (v : String) (h : Marked c) (haway : ∀ i, i ≠ v → away i c' = away i c)
    (hflag : ∀ i, i ≠ v → i ∈ c'.flagged → i ∈ c.flagged)
    (hcopy : ∀ i, i ≠ v → c'.kv.seqToSwappedGpuBlocks i = c.kv.seqToSwappedGpuBlocks i)
    (hv : v ∈ c'.flagged → 0 < away v c' ∧ c'.kv.seqToSwappedGpuBlocks v = none)
    (hv' : c'.kv.seqToSwappedGpuBlocks v ≠ none → 0 < away v c')
    (hidle : c'.kv.blockSize = 0 → c'.running = [] ∧ c'.admitted = [] ∧ c'.swapped = [] ∧
      c'.pending = []) :
    Marked c' := by
  refine ⟨fun i hi => ?_, fun i hi => ?_, hidle⟩ <;> by_cases hiv : i = v
  · rw [hiv] at hi ⊢
    exact hv hi
  · rw [haway i hiv, hcopy i hiv]
    exact h.flagged i (hflag i hiv hi)
  · rw [hiv] at hi ⊢
    exact hv' hi
  · rw [haway i hiv]
    exact h.copies i (by rw [← hcopy i hiv]; exact hi)

theorem Marked.size_ne_zero (h : Marked c)
    (hne : c.running ≠ [] ∨ c.pending ≠ []) : c.kv.blockSize ≠ 0 := by
  intro h0
  obtain ⟨hr, -, -, hpe⟩ := h.idle h0
  exact hne.elim (fun h1 => h1 hr) fun h1 => h1 hpe

/-- A running request is not flagged. -/
theorem Marked.notMem_flagged (h : Marked c) (hp : Placed maxNumSeqs c) {v : Request}
    {rest : List Request} (hrun : c.running = v :: rest) : v.requestId ∉ c.flagged := by
  intro hv
  have h1 := hp.once v.requestId
  have h2 := (h.flagged _ hv).1
  unfold away at h2
  simp only [hrun, named_cons, if_true] at h1
  omega

theorem away_snoc_self (v : Request) (swapped pending : List Request) :
    0 < named v.requestId (swapped ++ [moved .swapped v]) + named v.requestId pending := by
  rw [named_append, named_moved, named_cons, if_pos rfl]
  omega

theorem away_snoc_of_ne {i : String} {v : Request} (hi : i ≠ v.requestId)
    (swapped pending : List Request) :
    named i (swapped ++ [moved .swapped v]) + named i pending =
      named i swapped + named i pending := by
  rw [named_append, named_moved, named_cons, if_neg hi.symm, named_nil, Nat.add_zero]

theorem away_tail_of_ne {i : String} {x : Request} {rest : List Request}
    (hpe : c.pending = x :: rest) (hi : i ≠ x.requestId) :
    named i c.swapped + named i rest = away i c := by
  unfold away
  rw [hpe, named_cons, if_neg hi.symm, Nat.add_zero]

theorem Marked.step (h : Marked c) (hp : Placed maxNumSeqs c)
    (hstep : Step hash maxNumSeqs False c c') :
    Marked c' := by
  have hsize : ∀ (c : Custody) op, (c.did hash op).kv.blockSize = c.kv.blockSize := fun c op =>
    blockSize_kvStep hash c.kv op
  cases hstep with
  | start ha hpe hperm =>
    refine h.same (fun i => ?_) rfl (fun _ => rfl) fun h0 => ?_
    · unfold away
      rw [hpe, named_nil, Nat.add_comm]
    · obtain ⟨hr, ha', hs, -⟩ := h.idle h0
      exact ⟨hr, ha', rfl, hs⟩
  | refuse r hu =>
    exact h.same (fun _ => rfl) rfl (fun _ => copy_congr hu.records) fun h0 =>
      h.idle (by rwa [hsize] at h0)
  | accept hw hst hroom hal =>
    refine h.same (fun _ => rfl) rfl (fun _ => copy_congr hal.records) fun h0 => ?_
    simp only [hsize] at h0
    exact absurd h0 hal.size
  | @giveUp r rest hw hal hfree =>
    refine h.change r.requestId (fun _ _ => rfl) (fun _ _ h0 => h0) (fun i hi => ?_) (fun h0 => ?_)
      (fun h0 => absurd (copy_drop_self hfree.records) h0) fun h0 => ?_
    · exact (copy_drop_of_ne hfree.records hi).trans (copy_congr hal.records)
    · exact ⟨(h.flagged _ h0).1, copy_drop_self hfree.records⟩
    · simp only [hsize] at h0
      exact absurd h0 hal.size
  | @swapOut v rest ids hrun ho =>
    refine h.change v.requestId (fun i hi => away_snoc_of_ne hi _ _) (fun _ _ h0 => h0)
      (fun i hi => copy_swappedOut ho hi) (fun h0 => absurd h0 (h.notMem_flagged hp hrun))
      (fun _ => away_snoc_self v _ _) fun h0 => ?_
    simp only [hsize] at h0
    exact absurd h0 (h.size_ne_zero (Or.inl (by rw [hrun]; simp)))
  | @evict v rest hrun ho hfree gpuIds hids =>
    refine h.change v.requestId (fun i hi => away_snoc_of_ne hi _ _)
      (fun i hi h0 => Finset.mem_of_mem_insert_of_ne h0 hi) (fun i hi => ?_)
      (fun _ => ⟨away_snoc_self v _ _, copy_drop_self hfree.records⟩)
      (fun h0 => absurd (copy_drop_self hfree.records) h0) fun h0 => ?_
    · refine (copy_drop_of_ne hfree.records hi).trans ?_
      rcases ho with hu | ⟨ids, ho⟩
      · exact copy_congr hu.records
      · exact copy_swappedOut ho hi
    · simp only [hsize] at h0
      exact absurd h0 (h.size_ne_zero (Or.inl (by rw [hrun]; simp)))
  | settle =>
    refine h.same (fun _ => rfl) rfl (fun _ => rfl) fun h0 => ?_
    obtain ⟨hr, ha, hs, hpe⟩ := h.idle h0
    exact ⟨by rw [hr, ha]; rfl, rfl, hs, hpe⟩
  | @stay x rest hpe =>
    refine h.same (fun i => ?_) rfl (fun _ => rfl) fun h0 => ?_
    · unfold away
      simp only [hpe, named_append, named_cons, named_nil]
      omega
    · exact absurd h0 (h.size_ne_zero (Or.inr (by rw [hpe]; simp)))
  | finish => exact ⟨h.flagged, h.copies, h.idle⟩
  | @restart x rest hpe hf =>
    refine h.change x.requestId (fun i hi => away_tail_of_ne hpe hi)
      (fun _ _ h0 => Finset.mem_of_mem_erase h0) (fun _ _ => rfl)
      (fun h0 => absurd rfl (Finset.ne_of_mem_erase h0))
      (fun h0 => absurd (h.flagged _ hf).2 h0) fun h0 => ?_
    exact absurd h0 (h.size_ne_zero (Or.inr (by rw [hpe]; simp)))
  | retry x ids hu =>
    exact h.same (fun _ => rfl) rfl (fun _ => copy_congr hu.records) fun h0 =>
      h.idle (by rwa [hsize] at h0)
  | @resume x rest ids hpe hf hroom hids hin =>
    refine h.change x.requestId (fun i hi => away_tail_of_ne hpe hi) (fun _ _ h0 => h0)
      (fun i hi => copy_drop_of_ne hin.records hi) (fun h0 => absurd h0 hf)
      (fun h0 => absurd (copy_drop_self hin.records) h0) fun h0 => ?_
    simp only [hsize] at h0
    exact absurd h0 (h.size_ne_zero (Or.inr (by rw [hpe]; simp)))
  | fail hmay => exact hmay.elim

theorem Marked.abort (h : Marked c) (hp : Placed maxNumSeqs c) (ha : Abort hash c c') :
    Marked c' := by
  cases ha with
  | division hw hbs =>
    obtain ⟨hr, -, hs, hpe⟩ := h.idle hbs
    refine h.same (fun i => ?_) rfl (fun _ => rfl) fun _ => ⟨hr, rfl, hs, rfl⟩
    unfold away
    rw [hpe]
  | status hw hst hal => exact absurd (hp.waiting _ (hw ▸ List.mem_cons_self)) hst

theorem named_filter_of_ne {i rid : String} (hi : i ≠ rid) (q : List Request) :
    named i (q.filter (·.requestId ≠ rid)) = named i q := by
  unfold named
  rw [List.countP_filter]
  refine List.countP_congr fun r _ => ?_
  simp only [Bool.and_eq_true, decide_eq_true_eq, and_iff_left_iff_imp]
  rintro rfl
  exact hi

theorem Marked.finish {rid : String} (h : Marked c) (hf : Finish hash rid c c') : Marked c' := by
  have hfreed : ∀ {c₁ : Custody}, Marked c₁ → Freed rid c₁.kv (c₁.did hash (.freeSequence rid)).kv →
      Marked ((c₁.did hash (.freeSequence rid)).without rid) := by
    intro c₁ h₁ hfree
    refine h₁.change rid (fun i hi => ?_) (fun _ _ h0 => Finset.mem_of_mem_erase h0)
      (fun i hi => copy_drop_of_ne hfree.records hi)
      (fun h0 => absurd rfl (Finset.ne_of_mem_erase h0))
      (fun h0 => absurd (copy_drop_self hfree.records) h0) fun h0 => ?_
    · change named i (c₁.swapped.filter _) + named i c₁.pending = _
      rw [named_filter_of_ne hi]
      rfl
    · obtain ⟨hr, ha, hs, hpe⟩ := h₁.idle ((blockSize_kvStep hash c₁.kv _).symm.trans h0)
      refine ⟨?_, ha, ?_, hpe⟩
      · change c₁.running.filter _ = []
        rw [hr]; rfl
      · change c₁.swapped.filter _ = []
        rw [hs]; rfl
  have hregister : ∀ prompt, Untouched c.kv (c.did hash (.register rid prompt)).kv →
      Marked (c.did hash (.register rid prompt)) := fun prompt hu =>
    h.same (fun _ => rfl) rfl (fun _ => copy_congr hu.records) fun h0 =>
      h.idle ((blockSize_kvStep hash c.kv _).symm.trans h0)
  cases hf with
  | raise prompt hbs htable hu => exact hregister prompt hu
  | unregistered hfree => exact hfreed h hfree
  | registered prompt hu hfree => exact hfreed (hregister prompt hu) hfree

/-! ### Runs -/

variable {env : Env τ} {s : Scheduler τ}

/-- **One operation** keeps the invariant. -/
theorem marked_step (hready : Ready (view s)) (hp : Placed env.maxNumSeqs (view s))
    (h : Marked (view s)) :
    ∀ {o : Op}, Completes env s o → Marked (view (step env s o))
  | .addRequest _, _ => ⟨h.flagged, h.copies, h.idle⟩
  | .schedule predict, ho =>
    (inv_schedule (I := fun c => Placed env.maxNumSeqs c ∧ Marked c) hready predict (Or.inr ho.2)
      (fun _ _ hc hs => ⟨hc.1.step hs, hc.2.step hc.1 hs⟩)
      (fun _ _ hc ha => ⟨hc.1.abort ha, hc.2.abort hc.1 ha⟩) ⟨hp, h⟩).2
  | .finishRequest rid, _ => h.finish (finish_finishRequest hready rid)
  | .abortRequest rid, _ => h.finish (finish_finishRequest hready rid)

theorem marked_new (numGpu numCpu blockSize : ℕ) (t : τ) :
    Marked (view (Scheduler.new (KVCacheManager.new numGpu numCpu blockSize) t)) where
  flagged := fun _ h0 => absurd h0 (Finset.notMem_empty _)
  copies := fun _ h0 => absurd rfl h0
  idle := fun _ => ⟨rfl, rfl, rfl, rfl⟩

theorem marked_exec (numGpu numCpu blockSize : ℕ) (t : τ) (ops : List Op)
    (h : Along (step env) (Completes env)
      (Scheduler.new (KVCacheManager.new numGpu numCpu blockSize) t) ops) :
    Marked (view
    (exec (step env) (Scheduler.new (KVCacheManager.new numGpu numCpu blockSize) t) ops)) := by
  refine (inv_exec (I := fun s => Ready (view s) ∧ Placed env.maxNumSeqs (view s) ∧ Marked (view s))
    (fun s o hs ho => ?_) ops _ ⟨ready_new numGpu numCpu blockSize t,
      placed_new env.maxNumSeqs numGpu numCpu blockSize t,
      marked_new numGpu numCpu blockSize t⟩ h).2.2
  obtain ⟨hready, hp, hm⟩ := hs
  exact ⟨ready_step hready o, placed_step hready hp ho.1, marked_step hready hp hm ho⟩

theorem exists_of_named_pos {i : String} {q : List Request} (h : 0 < named i q) :
    ∃ r ∈ q, r.requestId = i := by
  obtain ⟨r, hr, hi⟩ := List.countP_pos_iff.mp h
  exact ⟨r, hr, by simpa using hi⟩

/-- **Flags and copies** are for swapped requests, in every run without a failed swap-in in which
the swap-outs meet `FreshKeys`. -/
theorem honest_run (env : Env τ) (numGpu numCpu blockSize : ℕ) (t : τ) (ops : List Op)
    (hops : Along (step env) (Completes env)
      (Scheduler.new (KVCacheManager.new numGpu numCpu blockSize) t) ops)
    (hkeys : Along (kvStep env.hashBlockTokens) FreshKeys
      (KVCacheManager.new numGpu numCpu blockSize)
      (exec (step env) (Scheduler.new (KVCacheManager.new numGpu numCpu blockSize) t) ops).issued) :
    Honest (exec (step env)
    (Scheduler.new (KVCacheManager.new numGpu numCpu blockSize) t) ops) := by
  have hm := marked_exec numGpu numCpu blockSize t ops hops
  have hlive := inv_exec (I := Live env (KVCacheManager.new numGpu numCpu blockSize) [] [])
    (fun s o hs ho => hs.step ho) ops _ (live_new env numGpu numCpu blockSize t)
    (hops.mono fun _ _ h => h.1.1)
  have hacc := accounted_of_kept hlive.sound (hlive.good hkeys).1
  have hqueued : ∀ i, 0 < away i (view (exec (step env)
      (Scheduler.new (KVCacheManager.new numGpu numCpu blockSize) t) ops)) →
      ∃ r ∈ (exec (step env)
        (Scheduler.new (KVCacheManager.new numGpu numCpu blockSize) t) ops).swapped,
        r.requestId = i :=
    fun i hi => exists_of_named_pos hi
  refine ⟨fun i hi => ?_, fun c hc hfree => ?_⟩
  · obtain ⟨haway, hcopy⟩ := hm.flagged i hi
    exact ⟨hqueued i haway, hcopy⟩
  · obtain ⟨i, hi⟩ := ((hacc.pool c).mp hc).resolve_left hfree
    have hcopy : (exec (step env)
        (Scheduler.new (KVCacheManager.new numGpu numCpu blockSize) t)
        ops).kvMgr.seqToSwappedGpuBlocks i ≠
          none := by
      intro h0
      unfold cpuBlocks at hi
      rw [h0] at hi
      cases hi
    obtain ⟨r, hr, rfl⟩ := hqueued i (hm.copies i hcopy)
    exact ⟨r, hr, hi⟩

theorem honest_run_outAndBack :
    Honest (exec (step noTransfers) oneGpuBlock (outAndBack.take 4)) ∧
      (exec (step noTransfers) oneGpuBlock (outAndBack.take 4)).swapped.map (·.requestId) = ["a"] :=
  ⟨honest_run noTransfers 1 2 4 () (outAndBack.take 4) (by decide) (by decide), by decide⟩

/-! ### A failed swap-in -/

/-- Every transfer completes, but those of swap-ins. -/
def swapInsFail : TransferScheduler Unit where
  enqueue := fun request _ => (if request.transferType = .kvSwapIn then "lost" else "done", ())
  cancel := fun _ _ => (true, ())
  wait := fun transferId _ => (transferId = "done", ())

/-- The transfer of the swap-in fails, the request is admitted again and swapped out a second
time. -/
def outBackAndOut : List Op :=
  outAndBack ++ [.schedule none, .addRequest ⟨"c", [3], .waiting⟩, .schedule none]

/-- After the failed swap-in the flag is of a waiting request, and later of a request with a copy,
which is thrown away. -/
theorem stale_flag : ¬ ∀ (env : Env Unit) (numGpu numCpu blockSize : ℕ) (ops : List Op),
    Along (step env) NewRequest
      (Scheduler.new (KVCacheManager.new numGpu numCpu blockSize) ()) ops →
    Honest (exec (step env) (Scheduler.new (KVCacheManager.new numGpu numCpu blockSize) ())
    ops) := by
  intro h
  have hhonest := h { noTransfers with transferScheduler := some swapInsFail } 1 2 4
    outBackAndOut (by decide)
  obtain ⟨-, hcopy⟩ := hhonest.flagged "a" (by decide)
  revert hcopy
  decide

end MoeInfinity.Engine.Reprefill
