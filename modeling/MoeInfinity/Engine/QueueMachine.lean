import Mathlib.Data.List.Perm.Basic
import Mathlib.Logic.Relation
import MoeInfinity.Engine.GpuOps
import MoeInfinity.Engine.SwapBlocks

/-! # Requests in custody

What the scheduler does, as a machine of small steps on the queues, the manager and the books of the
swapped requests. The machine knows nothing of transfers: whether the transfer of a swap completes
is a choice between two steps. Every operation of the scheduler is a run of the machine
(`wp_schedule`), so what each small step keeps holds in every run of the scheduler.

Within a call the request in hand is still the first of the waiting queue, `admitted` are the
requests admitted in this call, `pending` the swapped requests still to be visited and `preempted`
the ids of the requests preempted in this call. -/

namespace MoeInfinity.Engine.QueueMachine

open MoeInfinity.Python MoeInfinity.Lib.Imperative MoeInfinity.Lib.Runs
open MoeInfinity.Memory.Blocks MoeInfinity.Memory.KvManager
open MoeInfinity.Memory.SwapRecords MoeInfinity.Memory.KvManagerSpec MoeInfinity.Memory.RefCounts
open MoeInfinity.Engine.Transfer MoeInfinity.Engine.Schedule MoeInfinity.Engine.Schedule.Scheduler
open MoeInfinity.Engine.KvOps MoeInfinity.Engine.GpuOps
open MoeInfinity.Engine.SwapBlocks (named wp_onKv wp_onTransfer)

structure Custody where
  kv : KVCacheManager
  issued : List KvOp
  waiting : List Request
  running : List Request
  swapped : List Request
  admitted : List Request := []
  pending : List Request := []
  preempted : List String := []
  gpuIds : String → Option (List ℕ)
  flagged : Finset String

/-- The request with another status. -/
def moved (status : SequenceStatus) (r : Request) : Request := { r with status := status }

@[simp] theorem requestId_moved (status : SequenceStatus) (r : Request) :
    (moved status r).requestId = r.requestId := rfl

/-- What the scheduler asks for to admit a request. -/
def allocation (r : Request) : KvOp := .allocate r.requestId r.promptTokenIds

section

variable (hash : ℤ → List ℕ → ℤ)

/-- The manager has done a step. -/
def Custody.did (op : KvOp) (c : Custody) : Custody :=
  { c with kv := kvStep hash c.kv op, issued := c.issued ++ [op] }

@[simp] theorem did_waiting (op : KvOp) (c : Custody) : (c.did hash op).waiting = c.waiting := rfl

@[simp] theorem did_running (op : KvOp) (c : Custody) : (c.did hash op).running = c.running := rfl

@[simp] theorem did_swapped (op : KvOp) (c : Custody) : (c.did hash op).swapped = c.swapped := rfl

@[simp] theorem did_admitted (op : KvOp) (c : Custody) :
    (c.did hash op).admitted = c.admitted := rfl

@[simp] theorem did_pending (op : KvOp) (c : Custody) : (c.did hash op).pending = c.pending := rfl

@[simp] theorem did_preempted (op : KvOp) (c : Custody) :
    (c.did hash op).preempted = c.preempted := rfl

@[simp] theorem did_gpuIds (op : KvOp) (c : Custody) : (c.did hash op).gpuIds = c.gpuIds := rfl

@[simp] theorem did_flagged (op : KvOp) (c : Custody) : (c.did hash op).flagged = c.flagged := rfl

/-- The small steps. A transfer of a swap-in fails only if `mayFail`. -/
inductive Step (maxNumSeqs : ℕ) (mayFail : Prop) : Custody → Custody → Prop where
  /-- A call begins. -/
  | start {c : Custody} {waiting : List Request} (hadmitted : c.admitted =
      []) (hpending : c.pending = []) (hperm : waiting.Perm c.waiting) :
      Step maxNumSeqs mayFail c
        { c with waiting := waiting, pending := c.swapped, swapped := [], preempted := [] }
  /-- An allocation without success. -/
  | refuse {c : Custody} (r : Request) (h : Untouched c.kv (c.did hash (allocation r)).kv) :
      Step maxNumSeqs mayFail c (c.did hash (allocation r))
  | accept {c : Custody} {r : Request} {rest : List Request} (hwaiting : c.waiting = r :: rest)
      (hstatus : r.status = .waiting) (hroom : c.running.length + c.admitted.length < maxNumSeqs)
      (h : Allocated r.requestId r.promptTokenIds c.kv (c.did hash (allocation r)).kv) :
      Step maxNumSeqs mayFail c
        { c.did hash (allocation r) with
          waiting := rest, admitted := c.admitted ++ [moved .running r] }
  /-- The request does not fit into the token budget of the call. -/
  | giveUp {c : Custody} {r : Request} {rest : List Request} (hwaiting : c.waiting = r :: rest)
      (h : Allocated r.requestId r.promptTokenIds c.kv (c.did hash (allocation r)).kv)
      (hfree : Freed r.requestId (c.did hash (allocation r)).kv
        ((c.did hash (allocation r)).did hash (.freeSequence r.requestId)).kv) :
      Step maxNumSeqs mayFail c ((c.did hash (allocation r)).did hash (.freeSequence r.requestId))
  | swapOut {c : Custody} {v : Request} {rest : List Request} {ids : List ℕ}
      (hrunning : c.running = v :: rest)
      (h : SwappedOut v.requestId ids c.kv (c.did hash (.swapOut v.requestId)).kv) :
      Step maxNumSeqs mayFail c
        { c.did hash (.swapOut v.requestId) with
          running := rest, swapped := c.swapped ++ [moved .swapped v]
          preempted := c.preempted ++ [v.requestId]
          gpuIds := Function.update c.gpuIds v.requestId (some ids) }
  /-- A preemption without a copy, or whose transfer fails. -/
  | evict {c : Custody} {v : Request} {rest : List Request} (hrunning : c.running = v :: rest)
      (h : Untouched c.kv (c.did hash (.swapOut v.requestId)).kv ∨
        ∃ ids, SwappedOut v.requestId ids c.kv (c.did hash (.swapOut v.requestId)).kv)
      (hfree : Freed v.requestId (c.did hash (.swapOut v.requestId)).kv
        ((c.did hash (.swapOut v.requestId)).did hash (.freeSequence v.requestId)).kv)
      {gpuIds : String → Option (List ℕ)} (hids : ∀ i, i ≠ v.requestId → gpuIds i = c.gpuIds i) :
      Step maxNumSeqs mayFail c
        { (c.did hash (.swapOut v.requestId)).did hash (.freeSequence v.requestId) with
          running := rest, swapped := c.swapped ++ [moved .swapped v]
          preempted := c.preempted ++ [v.requestId]
          gpuIds := gpuIds, flagged := insert v.requestId c.flagged }
  /-- The admitted requests join the running ones. -/
  | settle {c : Custody} :
      Step maxNumSeqs mayFail c { c with running := c.running ++ c.admitted, admitted := [] }
  | stay {c : Custody} {x : Request} {rest : List Request} (hpending : c.pending = x :: rest) :
      Step maxNumSeqs mayFail c { c with pending := rest, swapped := c.swapped ++ [x] }
  /-- A call ends. -/
  | finish {c : Custody} (hadmitted : c.admitted = []) (hpending : c.pending = []) :
      Step maxNumSeqs mayFail c { c with preempted := [] }
  /-- A flagged request is to be prefilled again. -/
  | restart {c : Custody} {x : Request} {rest : List Request} (hpending : c.pending = x :: rest)
      (hflag : x.requestId ∈ c.flagged) :
      Step maxNumSeqs mayFail c
        { c with
          pending := rest, waiting := moved .waiting x :: c.waiting
          flagged := c.flagged.erase x.requestId }
  /-- A swap-in without success. -/
  | retry {c : Custody} (x : Request) (ids : List ℕ)
      (h : Untouched c.kv (c.did hash (.swapIn x.requestId ids)).kv) :
      Step maxNumSeqs mayFail c (c.did hash (.swapIn x.requestId ids))
  | resume {c : Custody} {x : Request} {rest : List Request} {ids : List ℕ}
      (hpending : c.pending = x :: rest) (hflag : x.requestId ∉ c.flagged)
      (hroom : c.running.length + c.admitted.length < maxNumSeqs)
      (hids : (c.gpuIds x.requestId).getD [] = ids)
      (h : SwappedIn x.requestId ids c.kv (c.did hash (.swapIn x.requestId ids)).kv) :
      Step maxNumSeqs mayFail c
        { c.did hash (.swapIn x.requestId ids) with
          pending := rest, running := c.running ++ [moved .running x]
          gpuIds := Function.update c.gpuIds x.requestId none }
  /-- The transfer of a swap-in fails. -/
  | fail {c : Custody} {x : Request} {rest : List Request} {ids : List ℕ} (hmay : mayFail)
      (hpending : c.pending = x :: rest) (hflag : x.requestId ∉ c.flagged)
      (hids : (c.gpuIds x.requestId).getD [] = ids)
      (h : SwappedIn x.requestId ids c.kv (c.did hash (.swapIn x.requestId ids)).kv)
      (hfree : Freed x.requestId (c.did hash (.swapIn x.requestId ids)).kv
        ((c.did hash (.swapIn x.requestId ids)).did hash (.freeSequence x.requestId)).kv) :
      Step maxNumSeqs mayFail c
        { (c.did hash (.swapIn x.requestId ids)).did hash (.freeSequence x.requestId) with
          pending := rest, waiting := moved .waiting x :: c.waiting
          gpuIds := Function.update c.gpuIds x.requestId none
          flagged := insert x.requestId c.flagged }

/-- A call of `schedule` raises: the request in hand is lost, with the requests of this call. -/
inductive Abort : Custody → Custody → Prop where
  /-- The block size is zero. -/
  | division {c : Custody} {r : Request} {rest : List Request} (hwaiting : c.waiting = r :: rest)
      (hsize : c.kv.blockSize = 0) :
      Abort c { c with waiting := rest, admitted := [], pending := [], preempted := [] }
  /-- The request was added in another status. -/
  | status {c : Custody} {r : Request} {rest : List Request} (hwaiting : c.waiting = r :: rest)
      (hstatus : r.status ≠ .waiting)
      (h : Allocated r.requestId r.promptTokenIds c.kv (c.did hash (allocation r)).kv) :
      Abort c
        { c.did hash (allocation r) with
          waiting := rest, admitted := [], pending := [], preempted := [] }

end

/-- The machine gets from `c` to `c'`. -/
def Reaches (hash : ℤ → List ℕ → ℤ) (maxNumSeqs : ℕ) (mayFail : Prop) : Custody → Custody → Prop :=
  Relation.ReflTransGen (Step hash maxNumSeqs mayFail)

/-- **Invariants of the machine.** -/
theorem Reaches.inv {hash : ℤ → List ℕ → ℤ} {maxNumSeqs : ℕ} {mayFail : Prop} {I : Custody → Prop}
    {c c' : Custody} (h : Reaches hash maxNumSeqs mayFail c c')
    (hstep : ∀ c c', I c → Step hash maxNumSeqs mayFail c c' → I c') (hI : I c) : I c' := by
  induction h with
  | refl => exact hI
  | tail _ hs ih => exact hstep _ _ ih hs

/-! ### Conservation -/

/-- The number of requests with a property in custody. -/
def Custody.tally (p : Request → Bool) (c : Custody) : ℕ :=
  c.waiting.countP p + c.running.countP p + c.swapped.countP p + c.admitted.countP p +
    c.pending.countP p

theorem countP_cons_toNat (p : Request → Bool) (r : Request) (q : List Request) :
    (r :: q).countP p = q.countP p + (p r).toNat := by
  rw [List.countP_cons]
  cases p r <;> rfl

/-- **Conservation**: a small step neither loses nor makes a request, it changes at most its
status. -/
theorem tally_step {hash : ℤ → List ℕ → ℤ} {maxNumSeqs : ℕ} {mayFail : Prop} {c c' : Custody}
    {p : Request → Bool} (hp : ∀ status r, p (moved status r) = p r)
    (hstep : Step hash maxNumSeqs mayFail c c') : c'.tally p = c.tally p := by
  unfold Custody.tally
  cases hstep with
  | start ha hpe hperm =>
    simp only [ha, hpe, List.countP_nil, hperm.countP_eq]
    omega
  | refuse r hu => rfl
  | accept hw hst hroom hal =>
    simp only [hw, did_running, did_swapped, did_pending, List.countP_append, countP_cons_toNat,
      List.countP_nil, hp]
    omega
  | giveUp hw hal hfree => rfl
  | swapOut hrun ho =>
    simp only [hrun, did_waiting, did_admitted, did_pending, List.countP_append, countP_cons_toNat,
      List.countP_nil, hp]
    omega
  | evict hrun ho hfree hids =>
    simp only [hrun, did_waiting, did_admitted, did_pending, List.countP_append, countP_cons_toNat,
      List.countP_nil, hp]
    omega
  | settle =>
    simp only [List.countP_append, List.countP_nil]
    omega
  | stay hpe =>
    simp only [hpe, List.countP_append, countP_cons_toNat, List.countP_nil]
    omega
  | finish => rfl
  | restart hpe hf =>
    simp only [hpe, countP_cons_toNat, hp]
    omega
  | retry y ids hu => rfl
  | resume hpe hf hroom hids hin =>
    simp only [hpe, did_waiting, did_swapped, did_admitted, List.countP_append, countP_cons_toNat,
      List.countP_nil, hp]
    omega
  | fail hmay hpe hf hids hin hfree =>
    simp only [hpe, did_running, did_swapped, did_admitted, countP_cons_toNat, hp]
    omega

theorem named_step {hash : ℤ → List ℕ → ℤ} {maxNumSeqs : ℕ} {mayFail : Prop} {c c' : Custody}
    (hstep : Step hash maxNumSeqs mayFail c c') (i : String) :
    named i c'.waiting + named i c'.running + named i c'.swapped + named i c'.admitted +
        named i c'.pending =
      named i c.waiting + named i c.running + named i c.swapped + named i c.admitted +
        named i c.pending :=
  tally_step (p := fun r => r.requestId = i) (fun _ _ => rfl) hstep

/-! ### The history of the manager -/

/-- The manager has come from `k₀` by the steps it was asked for. -/
def Synced (hash : ℤ → List ℕ → ℤ) (k₀ : KVCacheManager) (c : Custody) : Prop :=
  c.kv = exec (kvStep hash) k₀ c.issued

section Synced

variable {hash : ℤ → List ℕ → ℤ} {maxNumSeqs : ℕ} {mayFail : Prop} {k₀ : KVCacheManager}
  {c c' : Custody}

theorem Synced.did (h : Synced hash k₀ c) (op : KvOp) : Synced hash k₀ (c.did hash op) := by
  unfold Synced at h ⊢
  change kvStep hash c.kv op = exec (kvStep hash) k₀ (c.issued ++ [op])
  rw [exec_append, ← h]
  rfl

theorem Synced.step (h : Synced hash k₀ c) (hstep : Step hash maxNumSeqs mayFail c c') :
    Synced hash k₀ c' := by
  cases hstep with
  | start | settle | stay | finish | restart => exact h
  | refuse r => exact h.did (allocation r)
  | @accept r => exact h.did (allocation r)
  | @giveUp r => exact (h.did (allocation r)).did (.freeSequence r.requestId)
  | @swapOut v => exact h.did (.swapOut v.requestId)
  | @evict v => exact (h.did (.swapOut v.requestId)).did (.freeSequence v.requestId)
  | retry x ids => exact h.did (.swapIn x.requestId ids)
  | @resume x rest ids => exact h.did (.swapIn x.requestId ids)
  | @fail x rest ids => exact (h.did (.swapIn x.requestId ids)).did (.freeSequence x.requestId)

theorem Synced.abort (h : Synced hash k₀ c) (ha : Abort hash c c') : Synced hash k₀ c' := by
  cases ha with
  | division => exact h
  | @status r => exact h.did (allocation r)

theorem blockSize_exec (hash : ℤ → List ℕ → ℤ) : ∀ (ops : List KvOp) (k : KVCacheManager),
    (exec (kvStep hash) k ops).blockSize = k.blockSize
  | [], _ => rfl
  | op :: ops, k => (blockSize_exec hash ops (kvStep hash k op)).trans (blockSize_kvStep hash k op)

theorem Synced.blockSize (h : Synced hash k₀ c) : c.kv.blockSize = k₀.blockSize := by
  unfold Synced at h
  rw [h, blockSize_exec]

end Synced

/-! ### What the scheduler can rely on -/

/-- The references of the GPU blocks are known, and apart from the waiting requests each request has
the status of its place. -/
structure Ready (c : Custody) : Prop where
  held : ∃ held, Holds c.kv held
  running : ∀ r ∈ c.running, r.status = .running
  admitted : ∀ r ∈ c.admitted, r.status = .running
  swapped : ∀ r ∈ c.swapped, r.status = .swapped
  pending : ∀ r ∈ c.pending, r.status = .swapped

theorem forall_mem_snoc {α : Type} {p : α → Prop} {xs : List α} {x : α}
    (h : ∀ y ∈ xs, p y) (hx : p x) :
    ∀ y ∈ xs ++ [x], p y := by
  intro y hy
  rcases List.mem_append.mp hy with hy | hy
  · exact h y hy
  · rw [List.mem_singleton.mp hy]; exact hx

theorem forall_mem_tail {α : Type} {p : α → Prop} {xs rest : List α} {x : α} (h : ∀ y ∈ xs, p y)
    (hxs : xs = x :: rest) : ∀ y ∈ rest, p y := fun y hy => h y (hxs ▸ List.mem_cons_of_mem x hy)

theorem Ready.step {hash : ℤ → List ℕ → ℤ} {maxNumSeqs : ℕ} {mayFail : Prop} {c c' : Custody}
    (h : Ready c) (hstep : Step hash maxNumSeqs mayFail c c') : Ready c' := by
  obtain ⟨⟨held, hheld⟩, hr, ha, hs, hp⟩ := h
  cases hstep with
  | start => exact ⟨⟨held, hheld⟩, hr, ha, fun _ h0 => by (cases h0), hs⟩
  | refuse r hu => exact ⟨⟨held, hu.holds held hheld⟩, hr, ha, hs, hp⟩
  | accept hw hst hroom hal =>
    obtain ⟨ids, -, -, hh⟩ := hal.table
    exact ⟨⟨_, hh held hheld⟩, hr, forall_mem_snoc ha rfl, hs, hp⟩
  | giveUp hw hal hfree =>
    obtain ⟨ids, -, -, hh⟩ := hal.table
    exact ⟨⟨_, hfree.holds _ (hh held hheld)⟩, hr, ha, hs, hp⟩
  | swapOut hrun ho =>
    exact ⟨⟨_, ho.holds held hheld⟩, forall_mem_tail hr hrun, ha, forall_mem_snoc hs rfl, hp⟩
  | @evict v rest hrun ho hfree gpuIds hids =>
    have hkv : ∃ held', Holds (c.did hash (.swapOut v.requestId)).kv held' := by
      rcases ho with hu | ⟨ids, ho⟩
      · exact ⟨held, hu.holds held hheld⟩
      · exact ⟨_, ho.holds held hheld⟩
    obtain ⟨held', hheld'⟩ := hkv
    exact ⟨⟨_, hfree.holds _ hheld'⟩, forall_mem_tail hr hrun, ha, forall_mem_snoc hs rfl, hp⟩
  | settle =>
    refine ⟨⟨held, hheld⟩, fun r hmem => ?_, fun _ h0 => by (cases h0), hs, hp⟩
    exact (List.mem_append.mp hmem).elim (hr r) (ha r)
  | stay hpe =>
    exact ⟨⟨held, hheld⟩, hr, ha, forall_mem_snoc hs (hp _ (hpe ▸ List.mem_cons_self)),
      forall_mem_tail hp hpe⟩
  | finish => exact ⟨⟨held, hheld⟩, hr, ha, hs, hp⟩
  | restart hpe => exact ⟨⟨held, hheld⟩, hr, ha, hs, forall_mem_tail hp hpe⟩
  | retry x ids hu => exact ⟨⟨held, hu.holds held hheld⟩, hr, ha, hs, hp⟩
  | resume hpe hflag hroom hids hi =>
    obtain ⟨new, -, -, hh⟩ := hi.table
    exact ⟨⟨_, hh held hheld⟩, forall_mem_snoc hr rfl, ha, hs, forall_mem_tail hp hpe⟩
  | fail hmay hpe hflag hids hi hfree =>
    obtain ⟨new, -, -, hh⟩ := hi.table
    exact ⟨⟨_, hfree.holds _ (hh held hheld)⟩, hr, ha, hs, forall_mem_tail hp hpe⟩

theorem Ready.abort {hash : ℤ → List ℕ → ℤ} {c c' : Custody} (h : Ready c) (ha : Abort hash c c') :
    Ready c' := by
  obtain ⟨⟨held, hheld⟩, hr, -, hs, -⟩ := h
  cases ha with
  | division => exact ⟨⟨held, hheld⟩, hr, fun _ h0 => by (cases h0), hs, fun _ h0 => by (cases h0)⟩
  | status hw hst hal =>
    obtain ⟨ids, -, -, hh⟩ := hal.table
    exact ⟨⟨_, hh held hheld⟩, hr, fun _ h0 => by (cases h0), hs, fun _ h0 => by (cases h0)⟩

/-! ### The scheduler as the machine sees it -/

variable {τ : Type}

/-- The scheduler between calls. -/
def view (s : Scheduler τ) : Custody where
  kv := s.kvMgr
  issued := s.issued
  waiting := s.waiting
  running := s.running
  swapped := s.swapped
  gpuIds := s.swappedGpuIds
  flagged := s.swapNeedsReprefill

/-- The scheduler within a call, with the requests in local variables. -/
def inCall (s : Scheduler τ) (hand admitted pending : List Request) (preempted : List String) :
    Custody :=
  { view s with
    waiting := hand ++ s.waiting, admitted := admitted, pending := pending, preempted := preempted }

/-- The messages of the exceptions that a call of `schedule` may end with. -/
inductive FromRequest : PyError → Prop where
  | division : FromRequest (.zeroDivisionError "integer division or modulo by zero")
  | transition (old new : SequenceStatus) :
      FromRequest (.valueError s!"Invalid transition: {old.show} -> {new.show}")

section Walk

variable {env : Env τ} {mayFail : Prop} {s : Scheduler τ} {held : Multiset ℕ} {c₀ c : Custody}
  {x : Request}

/-- A call has raised, after a run of the machine. -/
structure Raised (env : Env τ) (mayFail : Prop) (c₀ : Custody) (e : PyError)
    (s : Scheduler τ) : Prop where
  aborts : ∃ c, Reaches env.hashBlockTokens env.maxNumSeqs mayFail c₀ c ∧
    Abort env.hashBlockTokens c (view s)
  message : FromRequest e

theorem transitionTo_ok {r : Request} {old new : SequenceStatus} (hr : r.status = old)
    (h : new ∈ allowedTransitions old) : r.transitionTo new = .ok (moved new r) := by
  unfold Request.transitionTo
  rw [if_neg (by rw [hr]; exact fun h0 => h0 h)]
  rfl

theorem wp_onKv_error {α : Type} {m : Prog PyError KVCacheManager α} {k k' : KVCacheManager}
    {e : PyError} (hk : s.kvMgr = k) (hm : m.run k = (k', .error e)) {Q : α → Scheduler τ → Prop}
    {R : PyError → Scheduler τ → Prop} (hR : R e { s with kvMgr := k' }) : wp (onKv m) Q R s := by
  rw [onKv, wp_zoom, hk]
  exact wp_of_error hm hR

/-- **An allocation.** -/
theorem wp_allocate (hheld : Holds s.kvMgr held) (x : Request) :
    wp (allocateWithPrefixCache env x)
      (fun r s' => view s' = (view s).did env.hashBlockTokens (allocation x) ∧
        r.2 ≤ x.promptTokenIds.length ∧
        if r.1 = true then Allocated x.requestId x.promptTokenIds s.kvMgr s'.kvMgr
        else Untouched s.kvMgr s'.kvMgr)
      (fun e s' => view s' = (view s).did env.hashBlockTokens (allocation x) ∧
        Untouched s.kvMgr s'.kvMgr ∧ s.kvMgr.blockSize = 0 ∧ FromRequest e) s := by
  simp only [allocateWithPrefixCache, wp_bind, wp_update]
  rcases allocate_run env.hashBlockTokens hheld x.requestId x.promptTokenIds with
    ⟨hbs, hkv, hrun⟩ | ⟨allocated, n, -, hn, hrun, hcase⟩
  · refine wp_onKv_error (by rfl) hrun ⟨?_, Untouched.refl _, hbs, .division⟩
    unfold Custody.did allocation
    rw [show kvStep env.hashBlockTokens (view s).kv _ = s.kvMgr from hkv]
    rfl
  · refine wp_onKv (by rfl) hrun ?_
    simp only [wp_ite, wp_bind, wp_update, wp_pure]
    cases allocated with
    | true => exact ⟨fun _ => ⟨rfl, hn, hcase⟩, fun h0 => absurd rfl h0⟩
    | false => exact ⟨fun h0 => (by cases h0), fun _ => ⟨rfl, Nat.zero_le _, hcase⟩⟩

theorem wp_free (hash : ℤ → List ℕ → ℤ) {k : KVCacheManager} (hheld : Holds k held) (i : String)
    (hk : s.kvMgr = k) {R : PyError → Scheduler τ → Prop} :
    wp (Scheduler.freeSequence i) (fun _ s' => s' = { issue (.freeSequence i) s with
        kvMgr := kvStep hash k (.freeSequence i) } ∧ Freed i k s'.kvMgr) R s := by
  obtain ⟨hrun, hfree⟩ := freeSequence_outcome hash hheld i
  simp only [Scheduler.freeSequence, wp_bind, wp_update]
  exact wp_onKv (by exact hk) hrun ⟨rfl, hfree⟩

/-! ### Preemption -/

theorem view_noteMove (i : String) (b : Bool) (ids : List ℕ) (s₀ s : Scheduler τ) :
    view (noteMove i b ids s₀ s) = view s := by
  unfold noteMove
  split_ifs <;> rfl

theorem running_noteMove (i : String) (b : Bool) (ids : List ℕ) (s₀ s : Scheduler τ) :
    (noteMove i b ids s₀ s).running = s.running :=
  congrArg Custody.running (view_noteMove i b ids s₀ s)

theorem inCall_noteMove (i : String) (b : Bool) (ids : List ℕ) (s₀ s : Scheduler τ)
    (hand a p : List Request) (q : List String) :
    inCall (noteMove i b ids s₀ s) hand a p q = inCall s hand a p q := by
  have hw : (noteMove i b ids s₀ s).waiting = s.waiting :=
    congrArg Custody.waiting (view_noteMove i b ids s₀ s)
  unfold inCall
  rw [view_noteMove, hw]

/-- The copy is kept, or everything of the sequence goes. -/
theorem wp_transferOut {k₂ : KVCacheManager} {pairs : List (ℕ × ℕ)} {i : String}
    (hrun : (KVCacheManager.commitSwapOut i pairs).run s.kvMgr = (k₂, .ok ()))
    (hheld : Holds k₂ held) {R : PyError → Scheduler τ → Prop} :
    wp (transferOut env i pairs) (fun _ s' => view s' = { view s with kv := k₂ } ∨
      (Freed i k₂ s'.kvMgr ∧ view s' = { view s with
        kv := kvStep env.hashBlockTokens k₂ (.freeSequence i)
        issued := s.issued ++ [.freeSequence i]
        gpuIds := Function.update s.swappedGpuIds i none
        flagged := insert i s.swapNeedsReprefill })) R s := by
  unfold transferOut
  cases env.transferScheduler with
  | none => exact wp_onKv (by rfl) hrun (Or.inl rfl)
  | some ts =>
    simp only [wp_bind, wp_onTransfer, wp_ite]
    refine ⟨fun _ => wp_onKv (by rfl) hrun (Or.inl rfl), fun _ => wp_onKv (by rfl) hrun ?_⟩
    simp only [wp_update]
    refine wp_mono (wp_free env.hashBlockTokens hheld i (by rfl)) ?_ fun _ _ h0 => h0
    rintro _ s' ⟨rfl, hfree⟩
    exact Or.inr ⟨hfree, rfl⟩

/-- **Preemption** is one step of the machine. -/
theorem wp_preempt (mayFail : Prop) {v : Request} (hheld : Holds s.kvMgr held)
    (hv : v.status = .running) {R : PyError → Scheduler τ → Prop} :
    wp (preemptWithTransfer env v) (fun _ s' => s'.running = s.running ∧ ∀ hand a p q,
      Step env.hashBlockTokens env.maxNumSeqs mayFail
        { inCall s hand a p q with running := v :: s.running }
        (inCall s' hand a p (q ++ [v.requestId]))) R s := by
  have hto : v.transitionTo .swapped = .ok (moved .swapped v) := transitionTo_ok hv (by decide)
  obtain ⟨k₁, pairs, hrun, hcase⟩ := swapOut_outcome env.hashBlockTokens hheld v.requestId
  simp only [preemptWithTransfer, wp_bind, wp_current, wp_update]
  refine wp_onKv (by rfl) hrun ?_
  rcases hcase with ⟨hp, hkv, hu⟩ | ⟨hp, hrun₂, hout⟩
  · simp only [wp_ite, hp, forall_const, not_true, false_imp_iff, and_true, wp_bind, wp_update]
    have h₁ := hu.holds held hheld
    rw [← hkv] at hu h₁ ⊢
    refine wp_mono (wp_free env.hashBlockTokens h₁ v.requestId (by rfl)) ?_ fun _ _ h0 => h0
    rintro _ s' ⟨rfl, hfree⟩
    simp only [toSwapped, wp_bind, hto, wp_ofExcept_ok, wp_update]
    exact ⟨rfl, fun hand a p q => Step.evict rfl (Or.inl hu) hfree fun i _ => rfl⟩
  · simp only [wp_ite, hp, false_imp_iff, true_and, not_false_eq_true, forall_const,
      wp_bind, wp_update]
    refine wp_mono (wp_transferOut hrun₂ (hout.holds held hheld)) ?_ fun _ _ h0 => h0
    intro _ s' hs'
    simp only [toSwapped, wp_bind, hto, wp_ofExcept_ok, wp_update]
    refine ⟨?_, fun hand a p q => ?_⟩
    · rw [running_noteMove]
      rcases hs' with hs' | ⟨-, hs'⟩ <;> exact congrArg Custody.running hs'
    · rw [inCall_noteMove]
      change Step _ _ _ _ { view s' with
        swapped := (view s').swapped ++ [moved .swapped v], waiting := hand ++ (view s').waiting
        admitted := a, pending := p, preempted := q ++ [v.requestId] }
      rcases hs' with hs' | ⟨hfree, hs'⟩
      · rw [hs']
        exact Step.swapOut rfl hout
      · have hkv := congrArg Custody.kv hs'
        change s'.kvMgr = _ at hkv
        rw [hkv] at hfree
        rw [hs']
        refine Step.evict rfl (Or.inr ⟨_, hout⟩) hfree fun i hi => ?_
        exact (Function.update_of_ne hi _ _).trans (Function.update_of_ne hi _ _)

/-! ### Admission -/

theorem Reaches.ready (h : Reaches env.hashBlockTokens env.maxNumSeqs mayFail c₀ c)
    (hready : Ready c₀) :
    Ready c := h.inv (fun _ _ => Ready.step) hready

theorem inCall_did {s' : Scheduler τ} {op : KvOp}
    (h : view s' = (view s).did env.hashBlockTokens op) (hand a p : List Request)
    (q : List String) :
    inCall s' hand a p q = (inCall s hand a p q).did env.hashBlockTokens op := by
  have hw : s'.waiting = s.waiting := congrArg Custody.waiting h
  unfold inCall
  rw [h, hw]
  rfl

/-- The state after an attempt to allocate for `x`. -/
def Tried (env : Env τ) (mayFail : Prop) (x : Request) (c₀ : Custody) (r : Bool × ℕ)
    (c : Custody) : Prop :=
  if r.1 = true then r.2 ≤ x.promptTokenIds.length ∧
    ∃ c₁, Reaches env.hashBlockTokens env.maxNumSeqs mayFail c₀ c₁ ∧
      c = c₁.did env.hashBlockTokens (allocation x) ∧
      Allocated x.requestId x.promptTokenIds c₁.kv (c₁.did env.hashBlockTokens (allocation x)).kv
  else Reaches env.hashBlockTokens env.maxNumSeqs mayFail c₀ c

theorem wp_tryAllocate (hready : Ready c₀) {a p : List Request} {q : List String}
    (h : Reaches env.hashBlockTokens env.maxNumSeqs mayFail c₀ (inCall s [x] a p q)) :
    wp (allocateWithPrefixCache env x)
      (fun r s' => s'.running = s.running ∧ Tried env mayFail x c₀ r (inCall s' [x] a p q))
      (Raised env mayFail c₀) s := by
  obtain ⟨held, hheld⟩ := (h.ready hready).held
  refine wp_mono (wp_allocate (s := s) hheld x) ?_ ?_
  · rintro r s' ⟨hview, hn, hcase⟩
    refine ⟨congrArg Custody.running hview, ?_⟩
    have hkv : s'.kvMgr = ((inCall s [x] a p q).did env.hashBlockTokens (allocation x)).kv :=
      congrArg Custody.kv hview
    rw [hkv] at hcase
    rw [inCall_did hview]
    unfold Tried
    split_ifs at hcase ⊢ with hr
    · exact ⟨hn, _, h, rfl, hcase⟩
    · exact h.tail (Step.refuse x hcase)
  · rintro e s' ⟨hview, hu, hbs, he⟩
    have hkv : s'.kvMgr = ((inCall s [x] a p q).did env.hashBlockTokens (allocation x)).kv :=
      congrArg Custody.kv hview
    have hsize : s'.kvMgr.blockSize = 0 := by
      rw [hkv]
      exact (blockSize_kvStep env.hashBlockTokens s.kvMgr (allocation x)).trans hbs
    rw [hkv] at hu
    have hreach := h.tail (Step.refuse x hu)
    rw [← inCall_did hview] at hreach
    exact ⟨⟨_, hreach, Abort.division rfl hsize⟩, he⟩

theorem wp_preemptLoop (hready : Ready c₀) {a p : List Request} : ∀ (n : ℕ) (r : Bool × ℕ)
    (preempted : List String) {s : Scheduler τ}, s.running.length + a.length < env.maxNumSeqs →
    Tried env mayFail x c₀ r (inCall s [x] a p preempted) →
    wp (preemptLoop env x n r preempted) (fun res s' =>
      s'.running.length + a.length < env.maxNumSeqs ∧
        Tried env mayFail x c₀ res.1 (inCall s' [x] a p res.2)) (Raised env mayFail c₀) s
  | 0, _, _, _, hroom, h => ⟨hroom, h⟩
  | n + 1, r, preempted, s, hroom, h => by
    rw [preemptLoop]
    simp only [wp_bind, wp_current, wp_ite, wp_pure]
    refine ⟨fun _ => ⟨hroom, h⟩, fun hr => ?_⟩
    split
    · exact ⟨hroom, h⟩
    · next victim rest hrun =>
      simp only [wp_bind, wp_update]
      unfold Tried at h
      rw [if_neg hr] at h
      have hready₁ := h.ready hready
      have hvictim : victim.status = .running :=
        hready₁.running victim (by change victim ∈ s.running; rw [hrun]; exact List.mem_cons_self)
      obtain ⟨held, hheld⟩ := hready₁.held
      have hbefore : inCall s [x] a p preempted =
          { inCall { s with
            running := rest } [x] a p preempted with running := victim :: rest } := by
        unfold inCall view
        rw [hrun]
      rw [hrun, List.length_cons] at hroom
      refine wp_mono (wp_preempt (s := { s with running := rest }) mayFail hheld hvictim) ?_
        fun _ _ h0 => h0
      rintro _ s₂ ⟨hrunning, hstep⟩
      rw [hbefore] at h
      have h₂ := h.tail (hstep [x] a p preempted)
      refine wp_mono (wp_tryAllocate hready h₂) ?_ fun _ _ h0 => h0
      rintro r' s₃ ⟨hrunning₃, h₃⟩
      refine wp_preemptLoop hready n r' _ ?_ h₃
      rw [hrunning₃, hrunning]
      change rest.length + a.length < _
      omega

theorem transitionTo_running_error {r : Request} (h : r.status ≠ .waiting) :
    ∃ old new : SequenceStatus, r.transitionTo .running =
      .error (.valueError s!"Invalid transition: {old.show} -> {new.show}") := by
  refine ⟨r.status, .running, ?_⟩
  unfold Request.transitionTo
  rw [if_pos]
  cases hs : r.status with
  | waiting => exact absurd hs h
  | running => decide
  | swapped => decide
  | finishedStopped => decide
  | finishedLength => decide

/-- The request in hand is admitted, after a successful allocation. -/
theorem wp_accept {a p : List Request} {q : List String} {c₁ : Custody}
    (hroom : s.running.length + a.length < env.maxNumSeqs)
    (h : Reaches env.hashBlockTokens env.maxNumSeqs mayFail c₀ c₁)
    (heq : inCall s [x] a p q = c₁.did env.hashBlockTokens (allocation x))
    (hal : Allocated x.requestId x.promptTokenIds c₁.kv
      (c₁.did env.hashBlockTokens (allocation x)).kv)
    {k : Request → Prog PyError (Scheduler τ) Round} {Q : Round → Scheduler τ → Prop}
    (hk : ∀ g, Reaches env.hashBlockTokens env.maxNumSeqs mayFail c₀
        (inCall s [] (a ++ [moved .running x]) p q) →
      wp (k (moved .running x)) Q (Raised env mayFail c₀) { s with seqGeneratedTokens := g }) :
    wp (do
      let req ← ofExcept (x.transitionTo .running)
      update fun s => { s with
        seqGeneratedTokens := Function.update s.seqGeneratedTokens req.requestId (some 0) }
      k req) Q (Raised env mayFail c₀) s := by
  have hwaiting : c₁.waiting = x :: s.waiting := (congrArg Custody.waiting heq).symm
  have hrunning : c₁.running = s.running := (congrArg Custody.running heq).symm
  have hadmitted : c₁.admitted = a := (congrArg Custody.admitted heq).symm
  simp only [wp_bind]
  by_cases hst : x.status = .waiting
  · rw [transitionTo_ok hst (by decide)]
    simp only [wp_ofExcept_ok, wp_update]
    have hstep := h.tail (Step.accept hwaiting hst (by rw [hrunning, hadmitted]; exact hroom) hal)
    rw [← heq, hadmitted] at hstep
    exact hk _ hstep
  · obtain ⟨old, new, herr⟩ := transitionTo_running_error hst
    rw [herr]
    simp only [wp_ofExcept_error]
    have habort := Abort.status hwaiting hst hal
    rw [← heq] at habort
    exact ⟨⟨c₁, h, habort⟩, .transition old new⟩

theorem wp_admissionLoop (hready : Ready c₀) {p : List Request} : ∀ (n : ℕ) (round : Round)
    {s : Scheduler τ}, round.numTokens ≤ env.maxNumBatchedTokens →
    Reaches env.hashBlockTokens env.maxNumSeqs mayFail c₀
      (inCall s [] round.newRunning p round.preempted) →
    wp (admissionLoop env n round) (fun round' s' => round'.numTokens ≤ env.maxNumBatchedTokens ∧
      Reaches env.hashBlockTokens env.maxNumSeqs mayFail c₀
        (inCall s' [] round'.newRunning p round'.preempted)) (Raised env mayFail c₀) s
  | 0, _, _, hn, h => ⟨hn, h⟩
  | n + 1, round, s, hn, h => by
    rw [admissionLoop]
    simp only [wp_bind, wp_current]
    split
    · exact ⟨hn, h⟩
    · next req rest hw =>
      rw [wp_ite]
      refine ⟨fun _ => ⟨hn, h⟩, fun hroom => ?_⟩
      rw [Nat.not_le] at hroom
      simp only [wp_bind, wp_update]
      have h₁ : Reaches env.hashBlockTokens env.maxNumSeqs mayFail c₀
          (inCall { s with waiting := rest } [req] round.newRunning p round.preempted) := by
        have heq : inCall s [] round.newRunning p round.preempted =
            inCall { s with waiting := rest } [req] round.newRunning p round.preempted := by
          unfold inCall view
          rw [hw]
          rfl
        rw [← heq]
        exact h
      refine wp_mono (wp_tryAllocate hready h₁) ?_ fun _ _ h0 => h0
      rintro r s₂ ⟨hrunning₂, h₂⟩
      have hroom₂ : s₂.running.length + round.newRunning.length < env.maxNumSeqs := by
        rw [hrunning₂]; exact hroom
      refine wp_mono (wp_preemptLoop hready _ r _ hroom₂ h₂) ?_ fun _ _ h0 => h0
      rintro ⟨r', preempted⟩ s₃ ⟨hroom₃, h₃⟩
      unfold Tried at h₃
      rw [wp_ite]
      refine ⟨fun hr => ?_, fun hr => ?_⟩
      · simp only [wp_bind, wp_update, wp_pure]
        rw [if_neg (by simpa using hr)] at h₃
        exact ⟨hn, h₃⟩
      · rw [if_pos (by simpa using hr)] at h₃
        obtain ⟨hle, c₁, hreach, heq, hal⟩ := h₃
        rw [wp_ite]
        have hkv : s₃.kvMgr = (c₁.did env.hashBlockTokens (allocation req)).kv :=
          congrArg Custody.kv heq
        refine ⟨fun _ => ?_, fun hbudget => ?_⟩
        · obtain ⟨held, hheld⟩ := (hreach.ready hready).held
          obtain ⟨ids, -, -, hholds⟩ := hal.table
          have h₃ := hholds held hheld
          rw [← hkv] at h₃
          simp only [wp_bind, wp_update, wp_pure]
          refine wp_mono (wp_free env.hashBlockTokens h₃ req.requestId (by rfl)) ?_ fun _ _ h0 => h0
          rintro _ s₄ ⟨rfl, hfree⟩
          refine ⟨hn, ?_⟩
          have hfree : Freed req.requestId s₃.kvMgr
            (kvStep env.hashBlockTokens s₃.kvMgr (.freeSequence req.requestId)) := hfree
          rw [hkv] at hfree
          have hwaiting : c₁.waiting = req :: s₃.waiting := (congrArg Custody.waiting heq).symm
          have hstep := hreach.tail (Step.giveUp hwaiting hal hfree)
          rw [← heq] at hstep
          exact hstep
        · rw [Nat.not_lt] at hbudget
          refine wp_accept hroom₃ hreach heq hal fun g h₄ => ?_
          exact wp_admissionLoop hready n _ hbudget h₄

/-! ### Coming back -/

/-- The transfer of a swap-in does not complete, for a transfer scheduler in the state `t`. -/
def transferFails (env : Env τ) (requestId : String) (pairs : List (ℕ × ℕ)) (t : τ) : Bool :=
  match env.transferScheduler with
  | none => false
  | some ts =>
    let sent := ts.enqueue (swapInTransfer requestId (pairs.map (·.1))) t
    !(ts.wait sent.1 sent.2).1

/-- The request finds its copy, and the transfer fails. -/
def swapInFails (env : Env τ) (s : Scheduler τ) (x : Request) : Bool :=
  if x.requestId ∈ s.swapNeedsReprefill ∨ env.maxNumSeqs ≤ s.running.length then false
  else match ((KVCacheManager.prepareSwapIn x.requestId ((s.swappedGpuIds x.requestId).getD [])).run
      s.kvMgr).2 with
    | .error _ => false
    | .ok pairs => pairs ≠ [] && transferFails env x.requestId pairs s.transfer

/-- The request is running again, or everything of the sequence goes. -/
theorem wp_transferIn {k₂ : KVCacheManager} {ids : List ℕ} {pairs : List (ℕ × ℕ)}
    (hx : x.status = .swapped)
    (hrun : (KVCacheManager.commitSwapIn x.requestId ids pairs).run s.kvMgr = (k₂, .ok ()))
    (hheld : Holds k₂ held) {R : PyError → Scheduler τ → Prop} :
    wp (transferIn env x ids pairs) (fun _ s' =>
      view s' = { view s with
        kv := k₂, running := s.running ++ [moved .running x]
        gpuIds := Function.update s.swappedGpuIds x.requestId none } ∨
      (transferFails env x.requestId pairs s.transfer = true ∧ Freed x.requestId k₂ s'.kvMgr ∧
        view s' = { view s with
          kv := kvStep env.hashBlockTokens k₂ (.freeSequence x.requestId)
          issued := s.issued ++ [.freeSequence x.requestId]
          waiting := moved .waiting x :: s.waiting
          gpuIds := Function.update s.swappedGpuIds x.requestId none
          flagged := insert x.requestId s.swapNeedsReprefill })) R s := by
  have hwaiting : x.transitionTo .waiting = .ok (moved .waiting x) := transitionTo_ok hx (by decide)
  have hrunning : (moved .waiting x).transitionTo .running = .ok (moved .running x) :=
    transitionTo_ok (show (moved .waiting x).status = .waiting from rfl) (by decide)
  unfold transferIn transferFails
  cases env.transferScheduler with
  | none =>
    simp only [wp_bind]
    refine wp_onKv (by rfl) hrun ?_
    simp only [wp_update, toRunning, wp_bind, hwaiting, wp_ofExcept_ok, hrunning]
    exact Or.inl rfl
  | some ts =>
    simp only [wp_bind, wp_onTransfer, wp_ite]
    refine ⟨fun _ => wp_onKv (by rfl) hrun ?_, fun hfail => wp_onKv (by rfl) hrun ?_⟩
    · simp only [wp_update, toRunning, wp_bind, hwaiting, wp_ofExcept_ok, hrunning]
      exact Or.inl rfl
    · simp only [wp_update]
      refine wp_mono (wp_free env.hashBlockTokens hheld x.requestId (by rfl)) ?_ fun _ _ h0 => h0
      rintro _ s' ⟨rfl, hfree⟩
      simp only [toWaiting, wp_bind, hwaiting, wp_ofExcept_ok, wp_update]
      refine Or.inr ⟨by simpa using hfail, hfree, rfl⟩

/-- **A swapped request comes back**, or is still to be visited. -/
theorem wp_swapInRequest (hready : Ready c₀) {p : List Request} {q : List String}
    (hroom : s.running.length < env.maxNumSeqs) (hfail : swapInFails env s x = true → mayFail)
    (h : Reaches env.hashBlockTokens env.maxNumSeqs mayFail c₀ (inCall s [] [] (x :: p) q))
    {R : PyError → Scheduler τ → Prop} :
    wp (swapInRequest env x) (fun returned s' => s.running <+: s'.running ∧
      Reaches env.hashBlockTokens env.maxNumSeqs mayFail c₀
        (inCall s' [] [] (if returned then p else x :: p) q)) R s := by
  have hready₁ := h.ready hready
  have hx : x.status = .swapped := hready₁.pending x List.mem_cons_self
  obtain ⟨held, hheld⟩ := hready₁.held
  have hheld : Holds s.kvMgr held := hheld
  simp only [swapInRequest, wp_bind, wp_current, wp_ite, wp_update, wp_pure]
  refine ⟨fun hflag => ?_, fun hflag => ?_⟩
  · simp only [toWaiting, wp_bind, transitionTo_ok hx (show .waiting ∈ _ by decide), wp_ofExcept_ok,
      wp_update]
    exact ⟨List.prefix_rfl, h.tail (Step.restart rfl hflag)⟩
  · set ids := (s.swappedGpuIds x.requestId).getD [] with hids
    obtain ⟨k₁, pairs, hrun, hcase⟩ := swapIn_outcome env.hashBlockTokens hheld x.requestId ids
    refine wp_onKv (by rfl) hrun ?_
    rcases hcase with ⟨hp, hkv, hu⟩ | ⟨hp, hrun₂, hin⟩
    · simp only [hp, forall_const, not_true, false_imp_iff, and_true, Bool.false_eq_true, if_false]
      rw [← hkv] at hu ⊢
      exact ⟨List.prefix_rfl, h.tail (Step.retry x ids hu)⟩
    · simp only [hp, false_imp_iff, true_and, not_false_eq_true, forall_const, if_true]
      obtain ⟨new, -, -, hholds⟩ := hin.table
      refine wp_mono (wp_transferIn hx hrun₂ (hholds held hheld)) ?_ fun _ _ h0 => h0
      intro _ s' hs'
      refine ⟨?_, ?_⟩
      · rw [running_noteMove]
        rcases hs' with hs' | ⟨-, -, hs'⟩
        · rw [show s'.running = _ from congrArg Custody.running hs']
          exact List.prefix_append _ _
        · rw [show s'.running = _ from congrArg Custody.running hs']
          exact List.prefix_rfl
      rw [inCall_noteMove]
      change Reaches _ _ _ _ { view s' with
        waiting := (view s').waiting, admitted := [], pending := p, preempted := q }
      rcases hs' with hs' | ⟨hf, hfree, hs'⟩
      · rw [hs']
        exact h.tail (Step.resume rfl hflag hroom rfl hin)
      · have hf : transferFails env x.requestId pairs s.transfer = true := hf
        have hmay : mayFail := hfail (by
          unfold swapInFails
          rw [if_neg (by simp only [not_or, Nat.not_le]; exact ⟨hflag, hroom⟩), hrun]
          simpa [hp] using hf)
        have hkv := congrArg Custody.kv hs'
        change s'.kvMgr = _ at hkv
        rw [hkv] at hfree
        rw [hs']
        exact h.tail (Step.fail hmay rfl hflag rfl hin hfree)

/-- One request of the swap-in loop. -/
def swapInRound (env : Env τ) (s : Scheduler τ) (x : Request) : Scheduler τ :=
  (swapInLoop env [x] []).state s

theorem swapInRound_full (h : env.maxNumSeqs ≤ s.running.length) :
    swapInRound env s x = { s with swapped := s.swapped ++ [x] } := by
  unfold swapInRound Prog.state
  rw [swapInLoop, run_bind_ok (show current.run s = (s, .ok s) from rfl), if_pos h]
  rfl

theorem swapInRound_of_run (h : ¬ env.maxNumSeqs ≤ s.running.length) {s' : Scheduler τ}
    {returned : Bool} (hrun : (swapInRequest env x).run s = (s', .ok returned)) :
    swapInRound env s x = if returned then s' else { s' with swapped := s'.swapped ++ [x] } := by
  unfold swapInRound Prog.state
  rw [swapInLoop, run_bind_ok (show current.run s = (s, .ok s) from rfl), if_neg h,
    run_bind_ok hrun]
  cases returned <;> rfl

theorem wp_swapInLoop (hready : Ready c₀) {q : List String} {R : PyError → Scheduler τ → Prop} :
    ∀ (reqs : List Request) (swappedIn : List String) {s : Scheduler τ},
      (mayFail ∨ Along (swapInRound env) (fun s x => swapInFails env s x = false) s reqs) →
      Reaches env.hashBlockTokens env.maxNumSeqs mayFail c₀ (inCall s [] [] reqs q) →
      wp (swapInLoop env reqs swappedIn) (fun _ s' => s.running <+: s'.running ∧
        Reaches env.hashBlockTokens env.maxNumSeqs mayFail c₀ (inCall s' [] [] [] q)) R s
  | [], _, _, _, h => ⟨List.prefix_rfl, h⟩
  | x :: reqs, swappedIn, s, hfail, h => by
    have hnow : swapInFails env s x = true → mayFail := fun h0 => by
      rcases hfail with hfail | hfail
      · exact hfail
      · rw [hfail.1] at h0
        cases h0
    have hlater : mayFail ∨ Along (swapInRound env) (fun s x => swapInFails env s x = false)
        (swapInRound env s x) reqs := hfail.imp_right fun h0 => h0.2
    rw [swapInLoop]
    simp only [wp_bind, wp_current, wp_ite, wp_update]
    refine ⟨fun hfull => ?_, fun hroom => ?_⟩
    · rw [swapInRound_full hfull] at hlater
      exact wp_swapInLoop hready reqs _ hlater (h.tail (Step.stay rfl))
    · refine wp_mono (wp_and (wp_swapInRequest hready (Nat.not_le.mp hroom) hnow h (R := R))
        (wp_run (swapInRequest env x) s)) ?_ fun _ _ h0 => h0.1
      rintro returned s₁ ⟨⟨hpre, h₁⟩, hrun⟩
      rw [swapInRound_of_run hroom hrun] at hlater
      cases returned with
      | true =>
        refine ⟨fun _ => ?_, fun h0 => absurd rfl h0⟩
        exact wp_mono (wp_swapInLoop hready reqs _ hlater h₁)
          (fun _ _ h₂ => ⟨hpre.trans h₂.1, h₂.2⟩) fun _ _ h0 => h0
      | false =>
        refine ⟨fun h0 => (by cases h0), fun _ => ?_⟩
        exact wp_mono (wp_swapInLoop hready reqs _ hlater (h₁.tail (Step.stay rfl)))
          (fun _ _ h₂ => ⟨hpre.trans h₂.1, h₂.2⟩) fun _ _ h0 => h0

/-! ### A call of `schedule` -/

theorem wp_decodeLoop (scheduledIds : List String) {R : PyError → Scheduler τ → Prop} :
    ∀ (reqs : List Request) (scheduled : List String) (n : ℕ) {s : Scheduler τ},
      n ≤ env.maxNumBatchedTokens →
      wp (decodeLoop env scheduledIds reqs scheduled n) (fun res s' => view s' = view s ∧
        res.2 ≤ env.maxNumBatchedTokens ∧ ∃ taken : List Request, taken.Sublist reqs ∧
          (∀ r ∈ taken, r.requestId ∉ scheduledIds) ∧
          res.1 = scheduled ++ taken.map (·.requestId)) R s
  | [], scheduled, _, _, hn =>
    ⟨rfl, hn, [], List.Sublist.refl _, fun _ h0 => (by cases h0), by simp⟩
  | req :: reqs, scheduled, n, s, hn => by
    rw [decodeLoop]
    simp only [wp_ite, wp_pure, wp_bind, wp_update]
    refine ⟨fun _ => ?_, fun hnew => ⟨fun _ => ?_, fun hroom => ?_⟩⟩
    · refine wp_mono (wp_decodeLoop scheduledIds reqs scheduled n hn) ?_ fun _ _ h0 => h0
      rintro res s' ⟨hview, hle, taken, hsub, hids, hres⟩
      exact ⟨hview, hle, taken, hsub.cons req, hids, hres⟩
    · exact ⟨trivial, hn, [], List.nil_sublist _, fun _ h0 => (by cases h0), by simp⟩
    · rw [Nat.not_lt] at hroom
      refine wp_mono (wp_decodeLoop scheduledIds reqs _ _ hroom) ?_ fun _ _ h0 => h0
      rintro res s' ⟨hview, hle, taken, hsub, hids, hres⟩
      refine ⟨hview, hle, req :: taken, hsub.cons_cons req,
        List.forall_mem_cons.mpr ⟨hnew, hids⟩, ?_⟩
      rw [hres, List.map_cons, List.append_assoc, List.singleton_append]

theorem perm_sortWaiting (predict : Option (String → List ℕ → ℚ)) (s : Scheduler τ) :
    (sortWaiting predict s).waiting.Perm s.waiting := by
  unfold sortWaiting
  split
  · exact List.Perm.refl _
  · split_ifs
    · exact List.perm_insertionSort _ _
    · exact List.Perm.refl _

/-- The part of `schedule` before the swap-in loop. -/
def beforeSwapIns (env : Env τ) (predict : Option (String → List ℕ → ℚ)) :
    Prog PyError (Scheduler τ) Unit := do
  let s ← current
  update fun s => { s with swapped := [] }
  update (sortWaiting predict)
  let round ← admissionLoop env s.waiting.length {}
  update fun s => { s with running := s.running ++ round.newRunning }

/-- No transfer of a swap-in fails in a call. -/
def swapInsComplete (env : Env τ) (predict : Option (String → List ℕ → ℚ))
    (s : Scheduler τ) : Prop :=
  Along (swapInRound env) (fun s x => swapInFails env s x = false)
    ((beforeSwapIns env predict).state s) s.swapped

/-- What a call of `schedule` does. -/
structure Scheduled (env : Env τ) (mayFail : Prop) (s : Scheduler τ) (out : SchedulerOutput)
    (s' : Scheduler τ) : Prop where
  reaches : Reaches env.hashBlockTokens env.maxNumSeqs mayFail (view s)
    (inCall s' [] [] [] out.preemptedSeqs)
  budget : out.numBatchedTokens ≤ env.maxNumBatchedTokens
  chosen : ∃ admitted taken : List Request, admitted.Sublist s'.running ∧ taken.Sublist s'.running ∧
    (∀ r ∈ taken, r.requestId ∉ admitted.map (·.requestId)) ∧
    out.scheduledSeqs = admitted.map (·.requestId) ++ taken.map (·.requestId)

theorem Scheduled.view {out : SchedulerOutput} {s' : Scheduler τ}
    (h : Scheduled env mayFail s out s') :
    Reaches env.hashBlockTokens env.maxNumSeqs mayFail (view s) (view s') :=
  h.reaches.tail (Step.finish rfl rfl)

/-- **A call of `schedule`** is a run of the machine. -/
theorem wp_schedule (hready : Ready (view s)) (predict : Option (String → List ℕ → ℚ))
    (hfail : mayFail ∨ swapInsComplete env predict s) :
    wp (schedule env predict) (Scheduled env mayFail s) (Raised env mayFail (view s)) s := by
  simp only [schedule, wp_bind, wp_current, wp_update]
  have hsort := SwapBlocks.sortWaiting_eq predict { s with swapped := [] }
  have hstart : Reaches env.hashBlockTokens env.maxNumSeqs mayFail (QueueMachine.view s)
      (inCall (sortWaiting predict { s with swapped := [] }) [] [] s.swapped []) := by
    have hstep : Step env.hashBlockTokens env.maxNumSeqs mayFail (QueueMachine.view s)
        { QueueMachine.view s with
          waiting := (sortWaiting predict { s with swapped := [] }).waiting
          pending := s.swapped, swapped := [], preempted := [] } :=
      Step.start rfl rfl (perm_sortWaiting predict { s with swapped := [] })
    rw [hsort]
    exact Relation.ReflTransGen.single hstep
  refine wp_mono (wp_and (wp_admissionLoop hready s.waiting.length {} (Nat.zero_le _) hstart)
    (wp_run (admissionLoop env s.waiting.length {}) _)) ?_ fun _ _ h0 => h0.1
  rintro round s₂ ⟨⟨hn, h₂⟩, hrun⟩
  set s₃ : Scheduler τ := { s₂ with running := s₂.running ++ round.newRunning } with hs₃
  have h₃ : Reaches env.hashBlockTokens env.maxNumSeqs mayFail (QueueMachine.view s)
      (inCall s₃ [] [] s.swapped round.preempted) := h₂.tail Step.settle
  have hstate : (beforeSwapIns env predict).state s = s₃ := by
    change ((admissionLoop env s.waiting.length {} >>= fun round => update fun s : Scheduler τ =>
      { s with running := s.running ++ round.newRunning }).run
        (sortWaiting predict { s with swapped := [] })).1 = s₃
    rw [run_bind_ok hrun]
    rfl
  unfold swapInsComplete at hfail
  rw [hstate] at hfail
  refine wp_mono (wp_swapInLoop hready s.swapped [] hfail h₃) ?_ fun _ _ h0 => h0
  rintro swappedIn s₄ ⟨hpre, h₄⟩
  refine wp_mono (wp_decodeLoop _ s₄.running _ _ hn) ?_ fun _ _ h0 => h0
  rintro ⟨scheduled, numTokens⟩ s₅ ⟨hview, hle, taken, hsub, hids, hres⟩
  have hrunning : s₅.running = s₄.running := congrArg Custody.running hview
  have hcall : inCall s₅ [] [] [] round.preempted = inCall s₄ [] [] [] round.preempted := by
    have hw : s₅.waiting = s₄.waiting := congrArg Custody.waiting hview
    unfold inCall
    rw [hview, hw]
  refine ⟨?_, hle, round.newRunning, taken, ?_, ?_, hids, hres⟩
  · change Reaches _ _ _ _ (inCall s₅ [] [] [] round.preempted)
    rw [hcall]
    exact h₄
  · rw [hrunning]
    exact (List.sublist_append_right _ _).trans hpre.sublist
  · rw [hrunning]
    exact hsub

/-! ### Finishing a request -/

/-- The queues without the requests of an id, and its books cleared. -/
def Custody.without (requestId : String) (c : Custody) : Custody :=
  { c with
    waiting := c.waiting.filter (·.requestId ≠ requestId)
    running := c.running.filter (·.requestId ≠ requestId)
    swapped := c.swapped.filter (·.requestId ≠ requestId)
    gpuIds := Function.update c.gpuIds requestId none
    flagged := c.flagged.erase requestId }

/-- What `finish_request` does. -/
inductive Finish (hash : ℤ → List ℕ → ℤ) (requestId : String) : Custody → Custody → Prop where
  /-- With a block size of zero, registering raises. -/
  | raise {c : Custody} (prompt : List ℕ) (hsize : c.kv.blockSize = 0)
      (htable : c.kv.getBlockTable requestId ≠ [])
      (h : Untouched c.kv (c.did hash (.register requestId prompt)).kv) :
      Finish hash requestId c (c.did hash (.register requestId prompt))
  | unregistered {c : Custody}
      (hfree : Freed requestId c.kv (c.did hash (.freeSequence requestId)).kv) :
      Finish hash requestId c ((c.did hash (.freeSequence requestId)).without requestId)
  | registered {c : Custody} (prompt : List ℕ)
      (h : Untouched c.kv (c.did hash (.register requestId prompt)).kv)
      (hfree : Freed requestId (c.did hash (.register requestId prompt)).kv
        ((c.did hash (.register requestId prompt)).did hash (.freeSequence requestId)).kv) :
      Finish hash requestId c
        (((c.did hash (.register requestId prompt)).did hash (.freeSequence requestId)).without
          requestId)

theorem Ready.finish {hash : ℤ → List ℕ → ℤ} {requestId : String} {c' : Custody} (h : Ready c)
    (hf : Finish hash requestId c c') : Ready c' := by
  obtain ⟨⟨held, hheld⟩, hr, ha, hs, hp⟩ := h
  have hfilter : ∀ {q : List Request} {st : SequenceStatus}, (∀ r ∈ q, r.status = st) →
      ∀ r ∈ q.filter (·.requestId ≠ requestId), r.status = st := fun hq r hmem =>
    hq r (List.mem_filter.mp hmem).1
  cases hf with
  | raise prompt hsize htable hu => exact ⟨⟨held, hu.holds held hheld⟩, hr, ha, hs, hp⟩
  | unregistered hfree => exact ⟨⟨_, hfree.holds held hheld⟩, hfilter hr, ha, hfilter hs, hp⟩
  | registered prompt hu hfree =>
    exact ⟨⟨_, hfree.holds _ (hu.holds held hheld)⟩, hfilter hr, ha, hfilter hs, hp⟩

theorem Synced.finish {hash : ℤ → List ℕ → ℤ} {requestId : String} {k₀ : KVCacheManager}
    {c' : Custody} (h : Synced hash k₀ c) (hf : Finish hash requestId c c') :
    Synced hash k₀ c' := by
  cases hf with
  | raise prompt => exact h.did (.register requestId prompt)
  | unregistered => exact h.did (.freeSequence requestId)
  | registered prompt => exact (h.did (.register requestId prompt)).did (.freeSequence requestId)

theorem register_cases (hash : ℤ → List ℕ → ℤ) {k : KVCacheManager}
    (hheld : Holds k held) (i : String) (prompt : List ℕ) :
    (k.blockSize = 0 ∧ Untouched k (kvStep hash k (.register i prompt)) ∧ ∃ e, FromRequest e ∧
        (registerCompletedBlocksInCache hash i prompt).run k =
        (kvStep hash k (.register i prompt), .error e)) ∨
      ((registerCompletedBlocksInCache hash i prompt).run k =
        (kvStep hash k (.register i prompt), .ok ()) ∧
        Untouched k (kvStep hash k (.register i prompt))) := by
  have hwp := wp_register hash hheld i prompt
  have hkv : kvStep hash k (.register i prompt) =
    ((registerCompletedBlocksInCache hash i prompt).run k).1 := rfl
  by_cases hsize : k.blockSize = 0
  · have hrun : (registerCompletedBlocksInCache hash i prompt).run k =
        (k, .error (.zeroDivisionError "integer division or modulo by zero")) := by
      unfold registerCompletedBlocksInCache
      rw [run_bind_ok (show current.run k = (k, .ok k) from rfl), if_pos hsize]
      rfl
    rw [hkv, hrun]
    exact Or.inl ⟨hsize, Untouched.refl k, _, .division, rfl⟩
  · rcases hrun : (registerCompletedBlocksInCache hash i prompt).run k with ⟨k', e | ⟨⟩⟩
    · exact absurd (wp_error hwp hrun).1 hsize
    · rw [hkv, hrun]
      exact Or.inr ⟨rfl, wp_ok (Q := fun _ => Untouched k) hwp hrun⟩

theorem wp_finishRequest (hheld : Holds s.kvMgr held) (rid : String) :
    wp (finishRequest env rid) (fun _ s' => Finish env.hashBlockTokens rid (view s) (view s'))
      (fun e s' => FromRequest e ∧ Finish env.hashBlockTokens rid (view s) (view s')) s := by
  have hrest : ∀ {held : Multiset ℕ} {s₁ : Scheduler τ}, Holds s₁.kvMgr held → wp (do
      update (Scheduler.withoutRequest rid)
      update (Scheduler.setSwappedGpuIds rid none)
      update (Scheduler.unflag rid)
      update fun s => { s with seqGeneratedTokens := Function.update s.seqGeneratedTokens rid none }
      update (Scheduler.dropBlockHashes rid)
      Scheduler.freeSequence rid : Prog PyError (Scheduler τ) Unit)
      (fun _ s' => Freed rid s₁.kvMgr ((view s₁).did env.hashBlockTokens (.freeSequence rid)).kv ∧
        view s' = ((view s₁).did env.hashBlockTokens (.freeSequence rid)).without rid)
      (fun _ _ => False) s₁ := by
    intro held s₁ h₁
    simp only [wp_bind, wp_update]
    refine wp_mono (wp_free env.hashBlockTokens h₁ rid (by rfl)) ?_ fun _ _ h0 => h0
    rintro _ s' ⟨rfl, hfree⟩
    exact ⟨hfree, rfl⟩
  simp only [finishRequest, wp_bind, wp_current] at hrest ⊢
  split
  · refine wp_mono (hrest hheld) ?_ fun _ _ h0 => h0.elim
    rintro _ s' ⟨hfree, hview⟩
    rw [hview]
    exact Finish.unregistered hfree
  · next request hfind =>
    have hid : request.requestId = rid := by simpa using List.find?_some hfind
    simp only [wp_ite, wp_bind, wp_update]
    refine ⟨fun htable => ?_, fun _ => ?_⟩
    · rw [hid]
      rcases register_cases env.hashBlockTokens hheld rid request.promptTokenIds with
        ⟨hsize, hu, e, he, hrun⟩ | ⟨hrun, hu⟩
      · refine wp_onKv_error (by rfl) hrun ⟨he, ?_⟩
        exact Finish.raise request.promptTokenIds hsize htable hu
      · refine wp_onKv (by rfl) hrun ?_
        refine wp_mono (hrest (hu.holds held hheld)) ?_ fun _ _ h0 => h0.elim
        rintro _ s' ⟨hfree, hview⟩
        rw [hview]
        exact Finish.registered request.promptTokenIds hu hfree
    · refine wp_mono (hrest hheld) ?_ fun _ _ h0 => h0.elim
      rintro _ s' ⟨hfree, hview⟩
      rw [hview]
      exact Finish.unregistered hfree

/-! ### Runs -/

/-- **Invariants of a call**: what the small steps and an abort keep. -/
theorem inv_schedule {I : Custody → Prop} (hready : Ready (view s))
    (predict : Option (String → List ℕ → ℚ)) (hfail : mayFail ∨ swapInsComplete env predict s)
    (hstep : ∀ c c', I c → Step env.hashBlockTokens env.maxNumSeqs mayFail c c' → I c')
    (habort : ∀ c c', I c → Abort env.hashBlockTokens c c' → I c') (hI : I (view s)) :
    I (view (SwapBlocks.step env s (.schedule predict))) := by
  refine inv_of_wp (I := fun s' => I (view s')) (wp_mono (wp_schedule hready predict hfail) ?_ ?_)
  · intro _ s' h
    exact h.view.inv hstep hI
  · rintro e s' ⟨⟨c, hc, ha⟩, -⟩
    exact habort c _ (hc.inv hstep hI) ha

theorem finish_finishRequest (hready : Ready (view s)) (rid : String) :
    Finish env.hashBlockTokens rid (view s)
      (view (SwapBlocks.step env s (.finishRequest rid))) := by
  obtain ⟨held, hheld⟩ := hready.held
  exact inv_of_wp (I := fun s' => Finish env.hashBlockTokens rid (view s) (view s'))
    (wp_mono (wp_finishRequest hheld rid) (fun _ _ h => h) fun _ _ h => h.2)

theorem ready_step (hready : Ready (view s)) : ∀ o, Ready (view (SwapBlocks.step env s o))
  | .addRequest _ => ⟨hready.held, hready.running, hready.admitted, hready.swapped, hready.pending⟩
  | .schedule predict => inv_schedule hready predict (Or.inl trivial) (fun _ _ => Ready.step)
    (fun _ _ => Ready.abort) hready
  | .finishRequest rid => hready.finish (finish_finishRequest hready rid)
  | .abortRequest rid => hready.finish (finish_finishRequest hready rid)

theorem ready_new (numGpu numCpu blockSize : ℕ) (t : τ) :
    Ready (view (Scheduler.new (KVCacheManager.new numGpu numCpu blockSize) t)) where
  held := ⟨0, holds_new numGpu numCpu blockSize⟩
  running := fun _ h => by cases h
  admitted := fun _ h => by cases h
  swapped := fun _ h => by cases h
  pending := fun _ h => by cases h

theorem synced_step {k₀ : KVCacheManager} (hready : Ready (view s))
    (h : Synced env.hashBlockTokens k₀ (view s)) : ∀ o,
    Synced env.hashBlockTokens k₀ (view (SwapBlocks.step env s o))
  | .addRequest _ => h
  | .schedule predict => inv_schedule hready predict (Or.inl trivial) (fun _ _ => Synced.step)
    (fun _ _ => Synced.abort) h
  | .finishRequest rid => h.finish (finish_finishRequest hready rid)
  | .abortRequest rid => h.finish (finish_finishRequest hready rid)

/-- **Every run** leads to a state that the machine is ready for, with the manager where its history
says. -/
theorem run_ready_synced (env : Env τ) (numGpu numCpu blockSize : ℕ) (t : τ)
    (ops : List SwapBlocks.Op) :
    Ready (view (exec (SwapBlocks.step env)
        (Scheduler.new (KVCacheManager.new numGpu numCpu blockSize) t) ops)) ∧
      Synced env.hashBlockTokens (KVCacheManager.new numGpu numCpu blockSize)
        (view (exec (SwapBlocks.step env)
          (Scheduler.new (KVCacheManager.new numGpu numCpu blockSize) t) ops)) :=
  inv_exec_all (I := fun s => Ready (view s) ∧
      Synced env.hashBlockTokens (KVCacheManager.new numGpu numCpu blockSize) (view s))
    (fun _ o h => ⟨ready_step h.1 o, synced_step h.1 h.2 o⟩) ops _
    ⟨ready_new numGpu numCpu blockSize t, rfl⟩

end Walk

end MoeInfinity.Engine.QueueMachine
