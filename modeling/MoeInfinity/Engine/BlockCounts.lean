import Mathlib.Algebra.BigOperators.Group.Finset.Piecewise
import MoeInfinity.Engine.QueueMachine

/-! # The reference counts of the GPU blocks

In every run of the engine scheduler the reference count of a GPU block is the number of its
occurrences in the block tables, the free queue holds the blocks without references and the manager
tracks the others. So a block is never freed once too often (`block_counts`).

A request is live from `add_request` until it is finished or aborted. The ids of live requests are
distinct; nothing else is asked of a run. A call that raises loses the requests it has in local
variables, with their tables: they stay live, and `finish_request` still frees them. -/

namespace MoeInfinity.Engine.BlockCounts

open MoeInfinity.Python MoeInfinity.Lib.Imperative MoeInfinity.Lib.Runs
open MoeInfinity.Memory.Blocks MoeInfinity.Memory.KvManager
open MoeInfinity.Memory.SwapRecords MoeInfinity.Memory.KvManagerSpec MoeInfinity.Memory.RefCounts
open MoeInfinity.Engine.Schedule MoeInfinity.Engine.Schedule.Scheduler
open MoeInfinity.Engine.KvOps MoeInfinity.Engine.GpuOps MoeInfinity.Engine.QueueMachine
open MoeInfinity.Engine.SwapBlocks
  (Op named named_nil named_cons named_append named_perm step noTransfers oneGpuBlock outAndBack)

/-! ### What is required -/

/-- The live requests after an operation. -/
def liveAfter (live : Finset String) : Op → Finset String
  | .addRequest r => insert r.requestId live
  | .schedule _ => live
  | .finishRequest rid => live.erase rid
  | .abortRequest rid => live.erase rid

/-- A request is added under an id that no live request has. -/
def Unused (live : Finset String) : Op → Prop
  | .addRequest r => r.requestId ∉ live
  | _ => True

instance (live : Finset String) : ∀ o : Op, Decidable (Unused live o)
  | .addRequest _ => inferInstanceAs (Decidable (_ ∉ live))
  | .schedule _ => isTrue trivial
  | .finishRequest _ => isTrue trivial
  | .abortRequest _ => isTrue trivial

/-- The number of occurrences of a block in the tables of the given sequences. -/
def occurrences (live : Finset String) (k : KVCacheManager) (b : ℕ) : ℕ :=
  ∑ i ∈ live, (k.getBlockTable i).count b

/-- The references of the GPU blocks are those of the block tables, all of which are of live
requests. -/
structure Exact (live : Finset String) (k : KVCacheManager) : Prop where
  tables : ∀ i ∉ live, k.seqToGpuBlocks i = none
  refCnt : ∀ b, (k.gpuPool.blocks b).refCnt = occurrences live k b
  free : ∀ b < k.gpuPool.numBlocks, b ∈ k.gpuPool.freeQueue ↔ (k.gpuPool.blocks b).refCnt = 0
  tracked : ∀ b, b ∈ k.gpuAllocatedBlocks ↔ 0 < (k.gpuPool.blocks b).refCnt

/-- The exception of an operation, if it raises. -/
def raised {τ : Type} (env : Env τ) (s : Scheduler τ) : Op → Option PyError
  | .addRequest _ => none
  | .schedule predict => errorOf ((Scheduler.schedule env predict).run s).2
  | .finishRequest rid => errorOf ((Scheduler.finishRequest env rid).run s).2
  | .abortRequest rid => errorOf ((Scheduler.abortRequest env rid).run s).2
where
  errorOf {α : Type} : Except PyError α → Option PyError
    | .ok _ => none
    | .error e => some e

/-- The exception of `free_block`. -/
def FreeBlockError (e : PyError) : Prop :=
  ∃ b refCnt : ℕ, e = .valueError s!"block {b} has non-positive ref_cnt={refCnt}"

/-! ### The references of the tables -/

/-- The entries of the tables. -/
def entries (live : Finset String) (k : KVCacheManager) : Multiset ℕ :=
  ∑ i ∈ live, (k.getBlockTable i : Multiset ℕ)

variable {live : Finset String} {k k' : KVCacheManager} {i : String}

theorem count_entries (b : ℕ) : (entries live k).count b = occurrences live k b := by
  unfold entries occurrences
  rw [Multiset.count_sum']
  exact Finset.sum_congr rfl fun i _ => Multiset.coe_count b _

/-- The tables are of live requests and account for the references. -/
structure Tabled (live : Finset String) (k : KVCacheManager) : Prop where
  only : ∀ i ∉ live, k.seqToGpuBlocks i = none
  holds : Holds k (entries live k)

theorem Tabled.exact (h : Tabled live k) : Exact live k where
  tables := h.only
  refCnt := fun b => (h.holds.count b).trans (count_entries b)
  free := fun b hb => by
    rw [h.holds.sound.gpu.free b]
    exact ⟨fun h0 => h0.2, fun h0 => ⟨hb, h0⟩⟩
  tracked := fun b => by rw [h.holds.tracked b, h.holds.count b, Multiset.count_pos]

theorem entries_congr (h : k'.seqToGpuBlocks = k.seqToGpuBlocks) :
    entries live k' = entries live k := by
  unfold entries KVCacheManager.getBlockTable
  rw [h]

/-- The entries when one table is replaced. -/
theorem entries_update {t : Option (List ℕ)} (hi : i ∈ live)
    (h : k'.seqToGpuBlocks = Function.update k.seqToGpuBlocks i t) :
    entries live k' = (t.getD [] : Multiset ℕ) + ∑ j ∈ live \ {i},
    (k.getBlockTable j : Multiset ℕ) := by
  have hfun : (fun j => (k'.getBlockTable j : Multiset ℕ)) =
      Function.update (fun j => (k.getBlockTable j : Multiset ℕ)) i (t.getD [] : Multiset ℕ) := by
    funext j
    unfold KVCacheManager.getBlockTable
    rw [h]
    by_cases hj : j = i
    · rw [hj, Function.update_self, Function.update_self]
    · rw [Function.update_of_ne hj, Function.update_of_ne hj]
  unfold entries
  rw [hfun]
  exact Finset.sum_update_of_mem hi _ _

theorem entries_eq (hi : i ∈ live) :
    entries live k = (k.getBlockTable i : Multiset ℕ) + ∑ j ∈ live \ {i},
    (k.getBlockTable j : Multiset ℕ) :=
  entries_update (t := k.seqToGpuBlocks i) hi (Function.update_eq_self i _).symm

theorem only_update {t : Option (List ℕ)} (h : ∀ j ∉ live, k.seqToGpuBlocks j = none)
    (ht : i ∉ live → t = none) (htab : k'.seqToGpuBlocks = Function.update k.seqToGpuBlocks i t) :
    ∀ j ∉ live, k'.seqToGpuBlocks j = none := by
  intro j hj
  rw [htab]
  by_cases hji : j = i
  · rw [hji, Function.update_self]
    exact ht (hji ▸ hj)
  · rw [Function.update_of_ne hji]
    exact h j hj

theorem Tabled.untouched (h : Tabled live k) (hu : Untouched k k') : Tabled live k' := by
  refine ⟨by rw [hu.tables]; exact h.only, ?_⟩
  rw [entries_congr hu.tables]
  exact hu.holds _ h.holds

/-- A sequence without a table gets one. -/
theorem Tabled.gain (h : Tabled live k) (hi : i ∈ live) (hnone : k.seqToGpuBlocks i = none)
    {ids : List ℕ} (htab : k'.seqToGpuBlocks = Function.update k.seqToGpuBlocks i (some ids))
    (hholds : ∀ held, Holds k held → Holds k' ((ids : Multiset ℕ) + held)) : Tabled live k' := by
  refine ⟨only_update h.only (fun h0 => absurd hi h0) htab, ?_⟩
  have hk := hholds _ h.holds
  have hempty : k.getBlockTable i = [] := by
    unfold KVCacheManager.getBlockTable
    rw [hnone]
    rfl
  rw [entries_eq hi, hempty, Multiset.coe_nil, zero_add] at hk
  rw [entries_update hi htab]
  exact hk

/-- A sequence loses its table, if it has one. -/
theorem Tabled.lose (h : Tabled live k)
    (htab : k'.seqToGpuBlocks = Function.update k.seqToGpuBlocks i none)
    (hholds : ∀ held, Holds k held → Holds k' (held - (k.getBlockTable i : Multiset ℕ))) :
    Tabled live k' := by
  refine ⟨only_update h.only (fun _ => rfl) htab, ?_⟩
  have hk := hholds _ h.holds
  by_cases hi : i ∈ live
  · rw [entries_eq hi, add_tsub_cancel_left] at hk
    rw [entries_update hi htab, Option.getD_none, Multiset.coe_nil, zero_add]
    exact hk
  · have hnone := h.only i hi
    have hempty : k.getBlockTable i = [] := by
      unfold KVCacheManager.getBlockTable
      rw [hnone]
      rfl
    have hsame : k'.seqToGpuBlocks = k.seqToGpuBlocks := by
      rw [htab, ← hnone, Function.update_eq_self]
    rw [hempty, Multiset.coe_nil, tsub_zero] at hk
    rw [entries_congr hsame]
    exact hk

theorem Tabled.freed (h : Tabled live k) (hf : Freed i k k') : Tabled live k' :=
  h.lose hf.tables hf.holds

theorem Tabled.swappedOut (h : Tabled live k) {ids : List ℕ} (ho : SwappedOut i ids k k') :
    Tabled live k' := h.lose ho.tables (by rw [ho.table]; exact ho.holds)

theorem Tabled.allocated (h : Tabled live k) (hi : i ∈ live) (hnone : k.seqToGpuBlocks i = none)
    {prompt : List ℕ} (ha : Allocated i prompt k k') : Tabled live k' := by
  obtain ⟨ids, htab, -, hholds⟩ := ha.table
  exact h.gain hi hnone htab hholds

theorem Tabled.swappedIn (h : Tabled live k) (hi : i ∈ live) (hnone : k.seqToGpuBlocks i = none)
    {ids : List ℕ} (hin : SwappedIn i ids k k') : Tabled live k' := by
  obtain ⟨new, -, htab, hholds⟩ := hin.table
  exact h.gain hi hnone htab hholds

theorem Tabled.erase (h : Tabled live k) (hnone : k.seqToGpuBlocks i = none) :
    Tabled (live.erase i) k := by
  have hempty : k.getBlockTable i = [] := by
    unfold KVCacheManager.getBlockTable
    rw [hnone]
    rfl
  refine ⟨fun j hj => ?_, ?_⟩
  · by_cases hji : j = i
    · rw [hji]; exact hnone
    · exact h.only j fun h0 => hj (Finset.mem_erase.mpr ⟨hji, h0⟩)
  · have heq : entries (live.erase i) k = entries live k := by
      unfold entries
      exact Finset.sum_erase live (by rw [hempty]; rfl)
    rw [heq]
    exact h.holds

theorem Tabled.insert (h : Tabled live k) (hi : i ∉ live) : Tabled (insert i live) k := by
  have hempty : k.getBlockTable i = [] := by
    unfold KVCacheManager.getBlockTable
    rw [h.only i hi]
    rfl
  refine ⟨fun j hj => h.only j fun h0 => hj (Finset.mem_insert_of_mem h0), ?_⟩
  have heq : entries (Insert.insert i live) k = entries live k := by
    unfold entries
    rw [Finset.sum_insert hi, hempty, Multiset.coe_nil, zero_add]
  rw [heq]
  exact h.holds

/-! ### The invariant -/

/-- With a block size of zero nothing is ever allocated. -/
def Idle (k : KVCacheManager) : Prop :=
  k.blockSize = 0 → (∀ i, k.seqToGpuBlocks i = none) ∧ ∀ g, k.swapMapGpuToCpu g = none

theorem Idle.untouched (h : Idle k) (hsize : k'.blockSize = k.blockSize) (hu : Untouched k k') :
    Idle k' := by
  intro h0
  obtain ⟨htab, hmap⟩ := h (hsize ▸ h0)
  refine ⟨fun j => by rw [hu.tables]; exact htab j, fun g => ?_⟩
  exact (congrFun (congrArg Records.map hu.records) g).trans (hmap g)

theorem Idle.allocated {prompt : List ℕ} (hsize : k'.blockSize = k.blockSize)
    (ha : Allocated i prompt k k') : Idle k' := fun h0 => absurd (hsize ▸ h0) ha.size

theorem Idle.freed (h : Idle k) (hsize : k'.blockSize = k.blockSize) (hf : Freed i k k') :
    Idle k' := by
  intro h0
  obtain ⟨htab, hmap⟩ := h (hsize ▸ h0)
  refine ⟨fun j => ?_, fun g => ?_⟩
  · rw [hf.tables]
    by_cases hj : j = i
    · rw [hj, Function.update_self]
    · rw [Function.update_of_ne hj]; exact htab j
  · refine (congrFun (congrArg Records.map hf.records) g).trans ?_
    change (if g ∈ _ then none else k.swapMapGpuToCpu g) = none
    rw [hmap g, ite_self]

theorem Idle.swappedOut (h : Idle k) (hsize : k'.blockSize = k.blockSize) {ids : List ℕ}
    (ho : SwappedOut i ids k k') : Idle k' := by
  intro h0
  have htab := (h (hsize ▸ h0)).1 i
  refine absurd ?_ ho.ne_nil
  rw [← ho.table]
  unfold KVCacheManager.getBlockTable
  rw [htab]
  rfl

theorem Idle.swappedIn (h : Idle k) (hsize : k'.blockSize = k.blockSize) {ids : List ℕ}
    (hin : SwappedIn i ids k k') : Idle k' := by
  intro h0
  have hmap := (h (hsize ▸ h0)).2
  obtain ⟨g, hg⟩ := List.exists_mem_of_ne_nil ids hin.ne_nil
  obtain ⟨c, hc⟩ := hin.known g hg
  rw [hmap g] at hc
  cases hc

/-- The queued requests are live, in one place each, and have a table only when they run. -/
structure Owned (live : Finset String) (c : Custody) : Prop where
  tabled : Tabled live c.kv
  once : ∀ i, named i c.waiting + named i c.running + named i c.swapped + named i c.admitted +
    named i c.pending ≤ if i ∈ live then 1 else 0
  bare : ∀ i, c.kv.seqToGpuBlocks i ≠ none →
    named i c.waiting + named i c.swapped + named i c.pending = 0
  idle : Idle c.kv

variable {hash : ℤ → List ℕ → ℤ} {maxNumSeqs : ℕ} {mayFail : Prop} {c c' : Custody}

theorem Owned.mem_live (h : Owned live c) {r : Request}
    (hr : 0 < named r.requestId c.waiting + named r.requestId c.running +
      named r.requestId c.swapped + named r.requestId c.admitted + named r.requestId c.pending) :
      r.requestId ∈ live := by
  by_contra h0
  have h1 := h.once r.requestId
  rw [if_neg h0] at h1
  omega

theorem Owned.no_table (h : Owned live c) {r : Request}
    (hr : 0 < named r.requestId c.waiting + named r.requestId c.swapped +
      named r.requestId c.pending) :
    c.kv.seqToGpuBlocks r.requestId = none := by
  by_contra h0
  have h1 := h.bare r.requestId h0
  omega

/-- A move changes no id. -/
theorem named_moved (i : String) (status : SequenceStatus) (r : Request) (q : List Request) :
    named i (moved status r :: q) = named i (r :: q) := by
  rw [named_cons, named_cons]
  rfl

/-- A table for another sequence is as it was. -/
theorem table_of_ne {t : Option (List ℕ)} {j : String} (hj : j ≠ i)
    (htab : k'.seqToGpuBlocks = Function.update k.seqToGpuBlocks i t) :
    k'.seqToGpuBlocks j = k.seqToGpuBlocks j := by
  rw [htab, Function.update_of_ne hj]

theorem table_self {t : Option (List ℕ)}
    (htab : k'.seqToGpuBlocks = Function.update k.seqToGpuBlocks i t) :
    k'.seqToGpuBlocks i = t := by
  rw [htab, Function.update_self]

theorem Owned.step (h : Owned live c) (hstep : Step hash maxNumSeqs mayFail c c') :
    Owned live c' := by
  have hsize : ∀ (c : Custody) op, (c.did hash op).kv.blockSize = c.kv.blockSize := fun c op =>
    blockSize_kvStep hash c.kv op
  cases hstep with
  | start ha hp hperm =>
    refine ⟨h.tabled, fun i => ?_, fun i hi => ?_, h.idle⟩
    · have h1 := h.once i
      simp only [ha, hp, named_nil, named_perm hperm] at h1 ⊢
      omega
    · have h1 := h.bare i hi
      simp only [named_nil, named_perm hperm] at h1 ⊢
      omega
  | refuse r hu =>
    exact ⟨h.tabled.untouched hu, h.once, fun i hi => h.bare i (by rw [← hu.tables]; exact hi),
      h.idle.untouched (hsize _ _) hu⟩
  | @accept r rest hw hst hroom hal =>
    have hr : 0 < named r.requestId c.waiting := by rw [hw]; simp
    obtain ⟨ids, htab, -, -⟩ := hal.table
    refine ⟨h.tabled.allocated (h.mem_live (by omega)) (h.no_table (by omega)) hal, fun i => ?_,
      fun i hi => ?_, Idle.allocated (hsize _ _) hal⟩
    · have h1 := h.once i
      simp only [hw, did_running, did_swapped, did_pending, named_append, named_moved] at h1 ⊢
      simp only [named_cons, named_nil] at h1 ⊢
      omega
    · simp only [did_swapped, did_pending]
      by_cases hir : i = r.requestId
      · have h1 := h.once i
        simp only [hw, named_cons, hir, if_true] at h1 ⊢
        split_ifs at h1 <;> omega
      · have h1 := h.bare i (by rw [← table_of_ne hir htab]; exact hi)
        simp only [hw, named_cons] at h1
        omega
  | @giveUp r rest hw hal hfree =>
    have hr : 0 < named r.requestId c.waiting := by rw [hw]; simp
    have hnone := h.no_table (r := r) (by omega)
    obtain ⟨ids, htab, -, -⟩ := hal.table
    refine ⟨(h.tabled.allocated (h.mem_live (by omega)) hnone hal).freed hfree, h.once,
      fun i hi => ?_, (Idle.allocated (hsize _ _) hal).freed (hsize _ _) hfree⟩
    refine h.bare i fun h0 => hi ?_
    by_cases hir : i = r.requestId
    · rw [hir]; exact table_self hfree.tables
    · exact (table_of_ne hir hfree.tables).trans ((table_of_ne hir htab).trans h0)
  | @swapOut v rest ids hrun ho =>
    refine ⟨h.tabled.swappedOut ho, fun i => ?_, fun i hi => ?_, h.idle.swappedOut (hsize _ _) ho⟩
    · have h1 := h.once i
      simp only [hrun, did_waiting, did_admitted, did_pending, named_append, named_moved] at h1 ⊢
      simp only [named_cons, named_nil] at h1 ⊢
      omega
    · have hir : i ≠ v.requestId := by
        rintro rfl
        exact hi (table_self ho.tables)
      have h1 := h.bare i (by rw [← table_of_ne hir ho.tables]; exact hi)
      simp only [did_waiting, did_pending, named_append, named_moved]
      simp only [named_cons, named_nil, if_neg hir.symm]
      omega
  | @evict v rest hrun ho hfree gpuIds hids =>
    have hout : Tabled live (c.did hash (.swapOut v.requestId)).kv ∧
        Idle (c.did hash (.swapOut v.requestId)).kv ∧ ∀ i, i ≠ v.requestId →
          (c.did hash (.swapOut v.requestId)).kv.seqToGpuBlocks i = c.kv.seqToGpuBlocks i := by
      rcases ho with hu | ⟨ids, ho⟩
      · exact ⟨h.tabled.untouched hu, h.idle.untouched (hsize _ _) hu,
          fun i _ => congrFun hu.tables i⟩
      · exact ⟨h.tabled.swappedOut ho, h.idle.swappedOut (hsize _ _) ho,
          fun i hi => table_of_ne hi ho.tables⟩
    obtain ⟨htabled, hidle, hother⟩ := hout
    refine ⟨htabled.freed hfree, fun i => ?_, fun i hi => ?_, hidle.freed (hsize _ _) hfree⟩
    · have h1 := h.once i
      simp only [hrun, did_waiting, did_admitted, did_pending, named_append, named_moved] at h1 ⊢
      simp only [named_cons, named_nil] at h1 ⊢
      omega
    · have hir : i ≠ v.requestId := by
        rintro rfl
        exact hi (table_self hfree.tables)
      have h1 := h.bare i (by rw [← hother i hir, ← table_of_ne hir hfree.tables]; exact hi)
      simp only [did_waiting, did_pending, named_append, named_moved]
      simp only [named_cons, named_nil, if_neg hir.symm]
      omega
  | settle =>
    refine ⟨h.tabled, fun i => ?_, h.bare, h.idle⟩
    have h1 := h.once i
    simp only [named_append, named_nil] at h1 ⊢
    omega
  | stay hpe =>
    refine ⟨h.tabled, fun i => ?_, fun i hi => ?_, h.idle⟩
    · have h1 := h.once i
      simp only [hpe, named_append, named_cons, named_nil] at h1 ⊢
      omega
    · have h1 := h.bare i hi
      simp only [hpe, named_append, named_cons, named_nil] at h1 ⊢
      omega
  | finish => exact ⟨h.tabled, h.once, h.bare, h.idle⟩
  | restart hpe hf =>
    refine ⟨h.tabled, fun i => ?_, fun i hi => ?_, h.idle⟩
    · have h1 := h.once i
      simp only [hpe, named_moved] at h1 ⊢
      simp only [named_cons] at h1 ⊢
      omega
    · have h1 := h.bare i hi
      simp only [hpe, named_moved] at h1 ⊢
      simp only [named_cons] at h1 ⊢
      omega
  | retry x ids hu =>
    exact ⟨h.tabled.untouched hu, h.once, fun i hi => h.bare i (by rw [← hu.tables]; exact hi),
      h.idle.untouched (hsize _ _) hu⟩
  | @resume x rest ids hpe hf hroom hids hin =>
    have hx : 0 < named x.requestId c.pending := by rw [hpe]; simp
    obtain ⟨new, -, htab, -⟩ := hin.table
    refine ⟨h.tabled.swappedIn (h.mem_live (by omega)) (h.no_table (by omega)) hin, fun i => ?_,
      fun i hi => ?_, h.idle.swappedIn (hsize _ _) hin⟩
    · have h1 := h.once i
      simp only [hpe, did_waiting, did_swapped, did_admitted, named_append, named_moved] at h1 ⊢
      simp only [named_cons, named_nil] at h1 ⊢
      omega
    · simp only [did_waiting, did_swapped]
      by_cases hir : i = x.requestId
      · have h1 := h.once i
        simp only [hpe, named_cons, hir, if_true] at h1 ⊢
        split_ifs at h1 <;> omega
      · have h1 := h.bare i (by rw [← table_of_ne hir htab]; exact hi)
        simp only [hpe, named_cons] at h1
        omega
  | @fail x rest ids hmay hpe hf hids hin hfree =>
    have hx : 0 < named x.requestId c.pending := by rw [hpe]; simp
    have hnone := h.no_table (r := x) (by omega)
    obtain ⟨new, -, htab, -⟩ := hin.table
    refine ⟨(h.tabled.swappedIn (h.mem_live (by omega)) hnone hin).freed hfree, fun i => ?_,
      fun i hi => ?_, (h.idle.swappedIn (hsize _ _) hin).freed (hsize _ _) hfree⟩
    · have h1 := h.once i
      simp only [hpe, did_running, did_swapped, did_admitted, named_moved] at h1 ⊢
      simp only [named_cons] at h1 ⊢
      omega
    · have hir : i ≠ x.requestId := by
        rintro rfl
        exact hi (table_self hfree.tables)
      have h1 := h.bare i (by rw [← table_of_ne hir htab, ← table_of_ne hir hfree.tables]; exact hi)
      simp only [hpe, did_swapped, named_moved] at h1 ⊢
      simp only [named_cons] at h1 ⊢
      omega

theorem Owned.abort (h : Owned live c) (ha : Abort hash c c') : Owned live c' := by
  have hsize : ∀ (c : Custody) op, (c.did hash op).kv.blockSize = c.kv.blockSize := fun c op =>
    blockSize_kvStep hash c.kv op
  cases ha with
  | division hw hbs =>
    refine ⟨h.tabled, fun i => ?_, fun i hi => ?_, h.idle⟩
    · have h1 := h.once i
      simp only [hw, named_cons, named_nil] at h1 ⊢
      omega
    · have h1 := h.bare i hi
      simp only [hw, named_cons, named_nil] at h1 ⊢
      omega
  | @status r rest hw hst hal =>
    have hr : 0 < named r.requestId c.waiting := by rw [hw]; simp
    obtain ⟨ids, htab, -, -⟩ := hal.table
    refine ⟨h.tabled.allocated (h.mem_live (by omega)) (h.no_table (by omega)) hal, fun i => ?_,
      fun i hi => ?_, Idle.allocated (hsize _ _) hal⟩
    · have h1 := h.once i
      simp only [hw, did_running, did_swapped, named_cons, named_nil] at h1 ⊢
      omega
    · simp only [did_swapped, named_nil]
      by_cases hir : i = r.requestId
      · have h1 := h.once i
        simp only [hw, named_cons, hir, if_true] at h1 ⊢
        split_ifs at h1 <;> omega
      · have h1 := h.bare i (by rw [← table_of_ne hir htab]; exact hi)
        simp only [hw, named_cons] at h1
        omega

theorem named_filter (i : String) (q : List Request) :
    named i (q.filter (·.requestId ≠ i)) = 0 :=
  SwapBlocks.named_eq_zero fun r hr => by simpa using (List.mem_filter.mp hr).2

theorem Owned.finish {rid : String} (h : Owned live c) (ha : c.admitted = []) (hp : c.pending = [])
    (hf : Finish hash rid c c') : Owned (live.erase rid) c' := by
  have hsize : ∀ (c : Custody) op, (c.did hash op).kv.blockSize = c.kv.blockSize := fun c op =>
    blockSize_kvStep hash c.kv op
  have hcleared : ∀ c₁ : Custody, Tabled live c₁.kv → Idle c₁.kv →
      c₁.kv.seqToGpuBlocks = c.kv.seqToGpuBlocks → c₁.waiting = c.waiting → c₁.running = c.running →
      c₁.swapped = c.swapped → c₁.admitted = [] → c₁.pending = [] →
      Freed rid c₁.kv (c₁.did hash (.freeSequence rid)).kv →
      Owned (live.erase rid) ((c₁.did hash (.freeSequence rid)).without rid) := by
    intro c₁ htab hidle htables hw hr hs ha₁ hp₁ hfree
    refine ⟨(htab.freed hfree).erase (table_self hfree.tables), fun i => ?_, fun i hi => ?_,
      hidle.freed (hsize _ _) hfree⟩
    · change named i (c₁.waiting.filter _) + named i (c₁.running.filter _) +
        named i (c₁.swapped.filter _) + named i c₁.admitted + named i c₁.pending ≤ _
      rw [hw, hr, hs, ha₁, hp₁, named_nil]
      by_cases hi : i = rid
      · rw [hi, named_filter, named_filter, named_filter]
        exact Nat.zero_le _
      · have h1 := h.once i
        have h2 := SwapBlocks.named_filter_le i (·.requestId ≠ rid) c.waiting
        have h3 := SwapBlocks.named_filter_le i (·.requestId ≠ rid) c.running
        have h4 := SwapBlocks.named_filter_le i (·.requestId ≠ rid) c.swapped
        have hbound : (if i ∈ live.erase rid then 1 else 0) = if i ∈ live then 1 else 0 :=
          by simp [hi]
        rw [hbound]
        omega
    · have hir : i ≠ rid := by
        rintro rfl
        exact hi (table_self hfree.tables)
      have h1 := h.bare i (by rw [← htables, ← table_of_ne hir hfree.tables]; exact hi)
      have h2 := SwapBlocks.named_filter_le i (·.requestId ≠ rid) c.waiting
      have h4 := SwapBlocks.named_filter_le i (·.requestId ≠ rid) c.swapped
      change named i (c₁.waiting.filter _) + named i (c₁.swapped.filter _) + named i c₁.pending = 0
      rw [hw, hs, hp₁, named_nil]
      omega
  cases hf with
  | raise prompt hbs htable hu =>
    refine absurd ?_ htable
    unfold KVCacheManager.getBlockTable
    rw [(h.idle hbs).1 rid]
    rfl
  | unregistered hfree => exact hcleared c h.tabled h.idle rfl rfl rfl rfl ha hp hfree
  | registered prompt hu hfree =>
    exact hcleared (c.did hash (.register rid prompt)) (h.tabled.untouched hu)
      (h.idle.untouched (hsize _ _) hu) hu.tables rfl rfl rfl ha hp hfree

theorem Owned.add {r : Request} (h : Owned live c) (hr : r.requestId ∉ live) :
    Owned (insert r.requestId live) { c with waiting := c.waiting ++ [r] } := by
  have hnone := h.tabled.only _ hr
  refine ⟨h.tabled.insert hr, fun i => ?_, fun i hi => ?_, h.idle⟩
  · have h1 := h.once i
    simp only [named_append, named_cons, named_nil, Finset.mem_insert]
    by_cases hi : i = r.requestId
    · subst hi
      rw [if_neg hr] at h1
      simp only [true_or, if_true]
      omega
    · rw [if_neg (Ne.symm hi)]
      simp only [hi, false_or]
      omega
  · have hir : r.requestId ≠ i := by
      rintro rfl
      exact hi hnone
    have h1 := h.bare i hi
    simp only [named_append, named_cons, named_nil, if_neg hir]
    omega

/-! ### Runs -/

section Runs

variable {τ : Type} {env : Env τ} {s : Scheduler τ}

/-- **One operation** keeps the invariant. -/
theorem owned_step (hready : Ready (view s)) (h : Owned live (view s)) : ∀ {o : Op}, Unused live o →
    Owned (liveAfter live o) (view (step env s o))
  | .addRequest _, ho => h.add ho
  | .schedule predict, _ => inv_schedule hready predict (Or.inl trivial) (fun _ _ => Owned.step)
    (fun _ _ => Owned.abort) h
  | .finishRequest rid, _ => h.finish rfl rfl (finish_finishRequest hready rid)
  | .abortRequest rid, _ => h.finish rfl rfl (finish_finishRequest hready rid)

theorem owned_exec : ∀ (ops : List Op) (live : Finset String) (s : Scheduler τ), Ready (view s) →
    Owned live (view s) → Along liveAfter Unused live ops →
    Owned (exec liveAfter live ops) (view (exec (step env) s ops))
  | [], _, _, _, h, _ => h
  | o :: ops, live, s, hready, h, hids =>
    owned_exec ops (liveAfter live o) (step env s o) (ready_step hready o)
      (owned_step hready h hids.1) hids.2

theorem owned_new (numGpu numCpu blockSize : ℕ) (t : τ) :
    Owned ∅ (view (Scheduler.new (KVCacheManager.new numGpu numCpu blockSize) t)) where
  tabled := ⟨fun _ _ => rfl, holds_new numGpu numCpu blockSize⟩
  once := fun _ => Nat.zero_le _
  bare := fun _ _ => rfl
  idle := fun _ => ⟨fun _ => rfl, fun _ => rfl⟩

theorem fromRequest_of_raised (hready : Ready (view s)) : ∀ {o : Op} {e : PyError},
    raised env s o = some e → FromRequest e
  | .addRequest _, _, h => by cases h
  | .schedule predict, e, h => by
    have hwp : wp (Scheduler.schedule env predict) (Scheduled env True s)
        (Raised env True (view s)) s :=
      wp_schedule hready predict (Or.inl trivial)
    change raised.errorOf ((Scheduler.schedule env predict).run s).2 = some e at h
    rcases hrun : (Scheduler.schedule env predict).run s with ⟨s', e' | out⟩
    · rw [hrun] at h
      cases h
      exact (wp_error hwp hrun).message
    · rw [hrun] at h
      cases h
  | .finishRequest rid, e, h => finish_raised h
  | .abortRequest rid, e, h => finish_raised h
where
  finish_raised {rid : String} {e : PyError}
      (h : raised.errorOf ((Scheduler.finishRequest env rid).run s).2 = some e) :
        FromRequest e := by
    obtain ⟨held, hheld⟩ := hready.held
    have hwp : wp (Scheduler.finishRequest env rid) _ _ s := wp_finishRequest hheld rid
    rcases hrun : (Scheduler.finishRequest env rid).run s with ⟨s', e' | out⟩
    · rw [hrun] at h
      cases h
      exact (wp_error hwp hrun).1
    · rw [hrun] at h
      cases h

theorem not_freeBlockError {e : PyError} (h : FromRequest e) : ¬ FreeBlockError e := by
  rintro ⟨b, n, rfl⟩
  generalize hmsg : s!"block {b} has non-positive ref_cnt={n}" = msg at h
  cases h with
  | transition old new =>
    have hfirst := congrArg (fun s : String => s.toList.head?) hmsg
    simp [toString] at hfirst

/-- **The reference counts** are those of the block tables in every state, and no operation frees a
block without references. -/
theorem block_counts (env : Env τ) (numGpu numCpu blockSize : ℕ) (t : τ) (ops : List Op)
    (hids : Along liveAfter Unused ∅ ops) :
    Exact (exec liveAfter ∅ ops)
        (exec (step env) (Scheduler.new (KVCacheManager.new numGpu numCpu blockSize) t) ops).kvMgr ∧
      Along (step env) (fun s o => ∀ e, raised env s o = some e → ¬ FreeBlockError e)
        (Scheduler.new (KVCacheManager.new numGpu numCpu blockSize) t) ops := by
  constructor
  · exact (owned_exec ops ∅ _ (ready_new numGpu numCpu blockSize t)
      (owned_new numGpu numCpu blockSize t) hids).tabled.exact
  · exact along_of_inv_all (I := fun s => Ready (view s)) (fun _ o hs => ready_step hs o)
      (fun _ _ hs e he => not_freeBlockError (fromRequest_of_raised hs he)) ops _
      (ready_new numGpu numCpu blockSize t)

/-! ### A shared block -/

/-- Three GPU blocks of two tokens. -/
def threeGpuBlocks : Scheduler Unit := Scheduler.new (KVCacheManager.new 3 0 2) ()

/-- A request registers its block, and two requests take it from the prefix cache. -/
def sharedPrefix : List Op :=
  [.addRequest ⟨"a", [1, 2], .waiting⟩, .schedule none, .finishRequest "a",
    .addRequest ⟨"b", [1, 2, 3], .waiting⟩, .addRequest ⟨"c", [1, 2, 4], .waiting⟩, .schedule none]

theorem block_counts_sharedPrefix :
    Exact (exec liveAfter ∅ sharedPrefix)
      (exec (step noTransfers) threeGpuBlocks sharedPrefix).kvMgr ∧
      occurrences (exec liveAfter ∅ sharedPrefix)
        (exec (step noTransfers) threeGpuBlocks sharedPrefix).kvMgr 0 = 2 :=
  ⟨(block_counts noTransfers 3 0 2 () sharedPrefix (by decide)).1, by decide⟩

end Runs

end MoeInfinity.Engine.BlockCounts
