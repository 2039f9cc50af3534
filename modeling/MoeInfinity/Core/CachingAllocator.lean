import Mathlib.Algebra.Ring.Nat
import Mathlib.Data.List.AList
import MoeInfinity.Lib.Runs

/-! # The caching allocator

`core/memory/caching_allocator.cpp`: blocks that are freed are kept by their size and given out
again, and are returned to the backing allocator when the limit would be exceeded. A pointer that
the backing allocator gives is an argument of the call; `outstanding` has the blocks it gave that
were not returned, and `wrapped` says whether a subtraction of the counters has wrapped. After
`DLOG_FATAL` the process is gone: `fatal` is set, and calls do nothing.

* `layout_exec`: in every run the live blocks and the cached ones are apart.
* `books_iff`: the counters are right in every state of a run exactly when every allocation of it
  asks for 0 bytes, or for more than the limit. -/

namespace MoeInfinity.Core.Caching

open MoeInfinity.Lib.Runs

abbrev SizeT := BitVec 64

abbrev Ptr := ℕ

structure CachingAllocator where
  maxBytes : SizeT
  allocatedBytes : SizeT
  usedBytes : SizeT
  availableMap : AList fun _ : SizeT => List Ptr
  allocationMap : AList fun _ : Ptr => SizeT
  outstanding : AList fun _ : Ptr => SizeT
  wrapped : Bool
  fatal : Bool

inductive Call where
  | allocate (bytes : SizeT) (fresh : Ptr)
  | free (ptr : Ptr)
  | freeCached
deriving DecidableEq, Repr

namespace CachingAllocator

def init (maxBytes : SizeT) : CachingAllocator := ⟨maxBytes, 0, 0, ∅, ∅, ∅, false, false⟩

variable (c : CachingAllocator)

/-- `available_map_[size]`. -/
def deque (size : SizeT) : List Ptr := (c.availableMap.lookup size).getD []

/-- One round of the loop of `FreeCached`. -/
def freeBlock (size : SizeT) (ptr : Ptr) : CachingAllocator :=
  { c with
    outstanding := c.outstanding.erase ptr
    allocatedBytes := c.allocatedBytes - size
    allocationMap := c.allocationMap.erase ptr
    usedBytes := c.usedBytes - size
    wrapped := c.wrapped || decide (c.allocatedBytes < size) || decide (c.usedBytes < size) }

def freeCached : CachingAllocator :=
  { c.availableMap.entries.foldl
    (fun c it => it.2.foldl (fun c ptr => c.freeBlock it.1 ptr) c) c with
    availableMap := ∅ }

def allocateMemory (bytes : SizeT) (fresh : Ptr) : CachingAllocator :=
  { c with outstanding := c.outstanding.insert fresh bytes }

/-- The state in which `AllocateAndCache` asks for the memory. -/
def makeRoom (bytes : SizeT) : CachingAllocator :=
  if c.maxBytes < c.allocatedBytes + bytes then c.freeCached else c

def allocateAndCache (bytes : SizeT) (fresh : Ptr) : CachingAllocator × Option Ptr :=
  let c' := c.makeRoom bytes
  if c'.maxBytes < c'.allocatedBytes + bytes then
    -- the message has a subtraction, too
    ({ c' with fatal := true, wrapped := c'.wrapped || decide (c'.maxBytes < c'.allocatedBytes) },
      none)
  else
    (c'.allocateMemory bytes fresh, some fresh)

/-- The memory of `Allocate`: a cached block, or a new one. -/
def find (bytes : SizeT) (fresh : Ptr) : CachingAllocator × Option Ptr :=
  match (c.deque bytes).getLast? with
  | some ptr =>
    ({ c with availableMap := c.availableMap.insert bytes (c.deque bytes).dropLast }, some ptr)
  | none =>
    if bytes = 0 then (c.allocateMemory bytes fresh, some fresh)  -- `malloc(0)`
    else c.allocateAndCache bytes fresh

def allocate (bytes : SizeT) (fresh : Ptr) : CachingAllocator × Option Ptr :=
  match c.find bytes fresh with
  | (c, some ptr) =>
    ({ c with usedBytes := c.usedBytes + bytes, allocationMap := c.allocationMap.insert ptr bytes },
      some ptr)
  | (c, none) => (c, none)

def free (ptr : Ptr) : CachingAllocator :=
  match c.allocationMap.lookup ptr with
  | none => { c with fatal := true }
  | some alloc_size =>
    { c with
      availableMap := c.availableMap.insert alloc_size (c.deque alloc_size ++ [ptr])
      usedBytes := c.usedBytes - alloc_size
      allocationMap := c.allocationMap.erase ptr
      wrapped := c.wrapped || decide (c.usedBytes < alloc_size) }

def step (c : CachingAllocator) (call : Call) : CachingAllocator :=
  if c.fatal then
    c
  else
    match call with
    | .allocate bytes fresh => (c.allocate bytes fresh).1
    | .free ptr => c.free ptr
    | .freeCached => c.freeCached

/-- The backing allocator gives no pointer that was not returned to it. -/
def Backed : Call → Prop
  | .allocate bytes fresh =>
    if bytes = 0 then fresh ∉ c.outstanding else fresh ∉ (c.makeRoom bytes).outstanding
  | _ => True

instance (call : Call) : Decidable (c.Backed call) := by
  cases call <;> unfold Backed <;> infer_instance

/-- An allocation asks for 0 bytes, or for more than the limit. -/
def Meets : Call → Prop
  | .allocate bytes _ => c.fatal = false → bytes = 0 ∨ c.maxBytes < bytes
  | _ => True

end CachingAllocator

open CachingAllocator

/-- The bytes of blocks. -/
def bytesOf (blocks : AList fun _ : Ptr => SizeT) : ℕ := (blocks.entries.map fun b => b.2.toNat).sum

/-- **The counters are right**, and no block is both live and cached. -/
structure Books (c : CachingAllocator) : Prop where
  allocated : c.allocatedBytes.toNat = bytesOf c.outstanding
  le_max : c.allocatedBytes ≤ c.maxBytes
  used : c.usedBytes.toNat = bytesOf c.allocationMap
  disjoint : ∀ size, ∀ ptr ∈ c.deque size, ptr ∉ c.allocationMap
  wrapped : c.wrapped = false

/-- Live blocks and cached ones are outstanding, with their sizes, and they are apart. -/
structure Layout (c : CachingAllocator) : Prop where
  live : ∀ ptr size, c.allocationMap.lookup ptr = some size → c.outstanding.lookup ptr = some size
  cached : ∀ size, ∀ ptr ∈ c.deque size, c.outstanding.lookup ptr = some size ∧
    ptr ∉ c.allocationMap
  nodup : ∀ size, (c.deque size).Nodup

variable {c : CachingAllocator} {call : Call} {bytes size : SizeT} {ptr fresh : Ptr}

/-! ### Flushing -/

/-- The cached blocks in the order in which they are returned. -/
def CachingAllocator.blocks (c : CachingAllocator) : List (SizeT × Ptr) :=
  c.availableMap.entries.flatMap fun it => it.2.map fun ptr => (it.1, ptr)

theorem mem_blocks : (size, ptr) ∈ c.blocks ↔ ptr ∈ c.deque size := by
  rw [CachingAllocator.blocks, List.mem_flatMap, deque]
  constructor
  · rintro ⟨it, hit, hmem⟩
    obtain ⟨ptr', hptr, heq⟩ := List.mem_map.mp hmem
    cases heq
    rw [AList.mem_lookup_iff.mpr hit]
    exact hptr
  · intro hptr
    cases hlookup : c.availableMap.lookup size with
    | none =>
      rw [hlookup] at hptr
      nomatch hptr
    | some ptrs =>
      rw [hlookup] at hptr
      exact ⟨⟨size, ptrs⟩, AList.mem_lookup_iff.mp hlookup, List.mem_map.mpr ⟨ptr, hptr, rfl⟩⟩

theorem freeCached_eq (c : CachingAllocator) :
    c.freeCached =
      { c.blocks.foldl (fun c b => c.freeBlock b.1 b.2) c with availableMap := ∅ } := by
  rw [freeCached, CachingAllocator.blocks, List.foldl_flatMap]
  simp only [List.foldl_map]

/-- What the loop leaves. -/
structure Returned (bs : List (SizeT × Ptr)) (c c' : CachingAllocator) : Prop where
  maxBytes : c'.maxBytes = c.maxBytes
  fatal : c'.fatal = c.fatal
  live : ∀ ptr size, c'.allocationMap.lookup ptr = some size ↔
    c.allocationMap.lookup ptr = some size ∧ ptr ∉ bs.map Prod.snd
  outstanding : ∀ ptr size, c'.outstanding.lookup ptr = some size ↔
    c.outstanding.lookup ptr = some size ∧ ptr ∉ bs.map Prod.snd

theorem lookup_erase_eq_some {β : Type} (m : AList fun _ : Ptr => β) {ptr ptr' : Ptr} {b : β} :
    (m.erase ptr).lookup ptr' = some b ↔ m.lookup ptr' = some b ∧ ptr' ≠ ptr := by
  by_cases hptr : ptr' = ptr
  · subst hptr
    rw [AList.lookup_erase]
    exact iff_of_false nofun fun h => h.2 rfl
  · rw [AList.lookup_erase_ne hptr, and_iff_left hptr]

theorem returned_foldl (bs : List (SizeT × Ptr)) (c : CachingAllocator) :
    Returned bs c (bs.foldl (fun c b => c.freeBlock b.1 b.2) c) := by
  induction bs generalizing c with
  | nil => exact ⟨rfl, rfl, by simp, by simp⟩
  | cons b bs ih =>
    have h := ih (c.freeBlock b.1 b.2)
    refine ⟨h.maxBytes, h.fatal, fun ptr size => ?_, fun ptr size => ?_⟩
    · rw [List.foldl_cons, h.live, freeBlock, lookup_erase_eq_some, List.map_cons, List.mem_cons,
        not_or, and_assoc]
    · rw [List.foldl_cons, h.outstanding, freeBlock, lookup_erase_eq_some, List.map_cons,
        List.mem_cons, not_or, and_assoc]

theorem returned_freeCached (c : CachingAllocator) : Returned c.blocks c c.freeCached := by
  rw [freeCached_eq]
  exact ⟨(returned_foldl c.blocks c).maxBytes, (returned_foldl c.blocks c).fatal,
    (returned_foldl c.blocks c).live, (returned_foldl c.blocks c).outstanding⟩

theorem Layout.freeCached (h : Layout c) : Layout c.freeCached where
  live ptr size hlive := by
    rw [(returned_freeCached c).live] at hlive
    rw [(returned_freeCached c).outstanding]
    exact ⟨h.live ptr size hlive.1, hlive.2⟩
  cached size ptr hmem := nomatch hmem
  nodup _ := List.nodup_nil

/-! ### The layout of every run -/

/-- A new block, or a cached one that is taken out, becomes live. -/
theorem Layout.insert (h : Layout c) (hout : c.outstanding.lookup ptr = some bytes)
    (hcached : ∀ size, ptr ∉ c.deque size) (used : SizeT) :
    Layout { c with usedBytes := used, allocationMap := c.allocationMap.insert ptr bytes } where
  live ptr' size hlive := by
    dsimp only at hlive ⊢
    by_cases hptr : ptr' = ptr
    · subst hptr
      rwa [AList.lookup_insert, ← hout] at hlive
    · rw [AList.lookup_insert_ne hptr] at hlive
      exact h.live ptr' size hlive
  cached size ptr' hmem := by
    obtain ⟨hlookup, hnot⟩ := h.cached size ptr' hmem
    refine ⟨hlookup, ?_⟩
    rw [AList.mem_insert, not_or]
    refine ⟨?_, hnot⟩
    rintro rfl
    exact hcached size hmem
  nodup := h.nodup

theorem Layout.allocateMemory (h : Layout c) (hfresh : fresh ∉ c.outstanding) (bytes : SizeT) :
    Layout (c.allocateMemory bytes fresh) ∧
    (c.allocateMemory bytes fresh).outstanding.lookup fresh = some bytes ∧
      ∀ size, fresh ∉ (c.allocateMemory bytes fresh).deque size := by
  have hne : ∀ ptr size, c.outstanding.lookup ptr = some size → ptr ≠ fresh := by
    rintro ptr size hlookup rfl
    rw [AList.lookup_eq_none.mpr hfresh] at hlookup
    nomatch hlookup
  refine ⟨⟨fun ptr size hlive => ?_, fun size ptr hmem => ?_, h.nodup⟩, AList.lookup_insert _,
    fun size hmem => ?_⟩
  · exact (AList.lookup_insert_ne (hne ptr size (h.live ptr size hlive))).trans
      (h.live ptr size hlive)
  · obtain ⟨hlookup, hnot⟩ := h.cached size ptr hmem
    exact ⟨(AList.lookup_insert_ne (hne ptr size hlookup)).trans hlookup, hnot⟩
  · exact hne fresh size (h.cached size fresh hmem).1 rfl

theorem deque_insert (size : SizeT) (ptrs : List Ptr) (size' : SizeT) :
    ({ c with availableMap := c.availableMap.insert size ptrs } : CachingAllocator).deque size' =
      if size' = size then ptrs else c.deque size' := by
  unfold deque
  dsimp only
  split_ifs with hsize
  · subst hsize
    rw [AList.lookup_insert]
    rfl
  · rw [AList.lookup_insert_ne hsize]

/-- A cached block is taken out. -/
theorem Layout.pop (h : Layout c) {ptrs : List Ptr} (hdeque : c.deque bytes = ptrs ++ [ptr]) :
    Layout { c with availableMap := c.availableMap.insert bytes ptrs } ∧
    c.outstanding.lookup ptr = some bytes ∧
      ∀ size,
        ptr ∉ ({ c with availableMap := c.availableMap.insert bytes ptrs } : CachingAllocator).deque
          size := by
  have hmem : ptr ∈ c.deque bytes := by
    rw [hdeque]
    exact List.mem_concat_self
  have hnodup := h.nodup bytes
  rw [hdeque] at hnodup
  have hsub : ∀ size ptr', ptr' ∈ (if size = bytes then ptrs else c.deque size) →
      ptr' ∈ c.deque size := by
    intro size ptr' hptr'
    split_ifs at hptr' with hsize
    · subst hsize
      rw [hdeque]
      exact List.mem_append_left _ hptr'
    · exact hptr'
  refine ⟨⟨h.live, fun size ptr' hptr' => ?_, fun size => ?_⟩, (h.cached bytes ptr hmem).1,
    fun size hptr => ?_⟩
  · rw [deque_insert] at hptr'
    exact h.cached size ptr' (hsub size ptr' hptr')
  · rw [deque_insert]
    split_ifs
    · exact hnodup.of_append_left
    · exact h.nodup size
  · rw [deque_insert] at hptr
    have hsize : size = bytes := by
      have hout := (h.cached size ptr (hsub size ptr hptr)).1
      rw [(h.cached bytes ptr hmem).1, Option.some_inj] at hout
      exact hout.symm
    rw [if_pos hsize] at hptr
    exact List.disjoint_of_nodup_append hnodup hptr (List.mem_singleton_self ptr)

theorem Layout.makeRoom (h : Layout c) (bytes : SizeT) : Layout (c.makeRoom bytes) := by
  unfold CachingAllocator.makeRoom
  split_ifs
  · exact h.freeCached
  · exact h

theorem Layout.allocate (h : Layout c) (hbacked : c.Backed (.allocate bytes fresh)) :
    Layout (c.allocate bytes fresh).1 := by
  unfold CachingAllocator.allocate CachingAllocator.find
  unfold CachingAllocator.Backed at hbacked
  dsimp only at hbacked
  cases hlast : (c.deque bytes).getLast? with
  | some ptr =>
    obtain ⟨ptrs, hdeque⟩ := List.getLast?_eq_some_iff.mp hlast
    dsimp only
    rw [hdeque, List.dropLast_concat]
    obtain ⟨hpop, hout, hcached⟩ := h.pop hdeque
    exact hpop.insert hout hcached _
  | none =>
    dsimp only
    by_cases hzero : bytes = 0
    · rw [if_pos hzero] at hbacked ⊢
      obtain ⟨hnew, hout, hcached⟩ := h.allocateMemory hbacked bytes
      exact hnew.insert hout hcached _
    · rw [if_neg hzero] at hbacked ⊢
      unfold CachingAllocator.allocateAndCache
      dsimp only
      by_cases hfatal : (c.makeRoom bytes).maxBytes < (c.makeRoom bytes).allocatedBytes + bytes
      · rw [if_pos hfatal]
        exact ⟨(h.makeRoom bytes).live, (h.makeRoom bytes).cached, (h.makeRoom bytes).nodup⟩
      · rw [if_neg hfatal]
        obtain ⟨hnew, hout, hcached⟩ := (h.makeRoom bytes).allocateMemory hbacked bytes
        exact hnew.insert hout hcached _

theorem Layout.free (h : Layout c) (ptr : Ptr) : Layout (c.free ptr) := by
  unfold CachingAllocator.free
  cases hlive : c.allocationMap.lookup ptr with
  | none => exact ⟨h.live, h.cached, h.nodup⟩
  | some alloc_size =>
    have hmem : ptr ∈ c.allocationMap := by
      rw [← AList.lookup_isSome, hlive]
      rfl
    dsimp only
    refine ⟨fun ptr' size hlive' => ?_, fun size ptr' hptr' => ?_, fun size => ?_⟩
    · exact h.live ptr' size ((lookup_erase_eq_some _).mp hlive').1
    · have hcases : size = alloc_size ∧ ptr' = ptr ∨ ptr' ∈ c.deque size := by
        change ptr' ∈ ({ c with
          availableMap := c.availableMap.insert alloc_size (c.deque alloc_size ++ [ptr]) } :
            CachingAllocator).deque size at hptr'
        rw [deque_insert] at hptr'
        split_ifs at hptr' with hsize
        · subst hsize
          rcases List.mem_append.mp hptr' with hold | hnew
          · exact Or.inr hold
          · exact Or.inl ⟨rfl, List.mem_singleton.mp hnew⟩
        · exact Or.inr hptr'
      rcases hcases with ⟨rfl, rfl⟩ | hold
      · exact ⟨h.live _ _ hlive, fun h => (AList.mem_erase.mp h).1 rfl⟩
      · obtain ⟨hout, hnot⟩ := h.cached size ptr' hold
        exact ⟨hout, fun h => hnot (AList.mem_erase.mp h).2⟩
    · have hnodup :
          (if size = alloc_size then c.deque alloc_size ++ [ptr] else c.deque size).Nodup := by
        split_ifs
        · rw [← List.concat_eq_append]
          exact (h.nodup alloc_size).concat fun hcached => (h.cached alloc_size ptr hcached).2 hmem
        · exact h.nodup size
      rwa [← deque_insert] at hnodup

theorem Layout.step (h : Layout c) (hbacked : c.Backed call) : Layout (c.step call) := by
  unfold CachingAllocator.step
  split_ifs
  · exact h
  · cases call with
    | allocate bytes fresh => exact h.allocate hbacked
    | free ptr => exact h.free ptr
    | freeCached => exact h.freeCached

theorem layout_init (maxBytes : SizeT) : Layout (init maxBytes) where
  live _ _ hlive := nomatch hlive
  cached _ _ hmem := nomatch hmem
  nodup _ := List.nodup_nil

/-- **In every run the live blocks and the cached ones are apart.** -/
theorem layout_exec (maxBytes : SizeT) (calls : List Call)
    (h : Along CachingAllocator.step CachingAllocator.Backed (init maxBytes) calls) :
    Layout (exec CachingAllocator.step (init maxBytes) calls) :=
  inv_exec (fun _ _ hlayout hbacked => Layout.step hlayout hbacked) calls _ (layout_init maxBytes) h

/-! ### The counters -/

/-- Nothing that was obtained has a byte. -/
structure Zero (c : CachingAllocator) : Prop where
  sizes : ∀ ptr size, c.outstanding.lookup ptr = some size → size = 0
  allocated : c.allocatedBytes = 0#64
  used : c.usedBytes = 0#64
  wrapped : c.wrapped = false

theorem bytesOf_eq_zero {blocks : AList fun _ : Ptr => SizeT} :
    bytesOf blocks = 0 ↔ ∀ ptr size, blocks.lookup ptr = some size → size = 0 := by
  rw [bytesOf, List.sum_eq_zero_iff_forall_eq_nat]
  constructor
  · intro h ptr size hlookup
    exact BitVec.eq_of_toNat_eq (h _ (List.mem_map_of_mem (AList.mem_lookup_iff.mp hlookup)))
  · intro h n hn
    obtain ⟨b, hb, rfl⟩ := List.mem_map.mp hn
    rw [h b.1 b.2 (AList.mem_lookup_iff.mpr hb)]
    rfl

theorem Zero.books (h : Zero c) (hlayout : Layout c) : Books c where
  allocated := by
    rw [h.allocated, bytesOf_eq_zero.mpr h.sizes]
    rfl
  le_max := by
    rw [h.allocated]
    exact BitVec.le_def.mpr (Nat.zero_le _)
  used := by
    rw [h.used, bytesOf_eq_zero.mpr fun ptr size hlive =>
      h.sizes ptr size (hlayout.live ptr size hlive)]
    rfl
  disjoint size ptr hmem := (hlayout.cached size ptr hmem).2
  wrapped := h.wrapped

theorem zero_foldl (bs : List (SizeT × Ptr)) (hbs : ∀ b ∈ bs, b.1 = 0) (h : Zero c) :
    Zero (bs.foldl (fun c b => c.freeBlock b.1 b.2) c) := by
  induction bs generalizing c with
  | nil => exact h
  | cons b bs ih =>
    refine ih (fun b' hb' => hbs b' (List.mem_cons_of_mem b hb')) ?_
    have hsize := hbs b List.mem_cons_self
    dsimp only
    rw [hsize]
    refine ⟨fun ptr size hlookup => h.sizes ptr size ((lookup_erase_eq_some _).mp hlookup).1,
      ?_, ?_, ?_⟩
    · rw [freeBlock, h.allocated]
      rfl
    · rw [freeBlock, h.used]
      rfl
    · rw [freeBlock, h.allocated, h.used, h.wrapped]
      rfl

theorem Zero.freeCached (h : Zero c) (hlayout : Layout c) : Zero c.freeCached := by
  rw [freeCached_eq]
  have hfold :=
    zero_foldl c.blocks
      (fun b hb => h.sizes b.2 b.1 (hlayout.cached b.1 b.2 (mem_blocks.mp hb)).1) h
  exact ⟨hfold.sizes, hfold.allocated, hfold.used, hfold.wrapped⟩

theorem Zero.free (h : Zero c) (hlayout : Layout c) (ptr : Ptr) : Zero (c.free ptr) := by
  unfold CachingAllocator.free
  cases hlive : c.allocationMap.lookup ptr with
  | none => exact ⟨h.sizes, h.allocated, h.used, h.wrapped⟩
  | some alloc_size =>
    obtain rfl := h.sizes ptr alloc_size (hlayout.live ptr alloc_size hlive)
    refine ⟨h.sizes, h.allocated, ?_, ?_⟩
    · dsimp only
      rw [h.used]
      rfl
    · dsimp only
      rw [h.used, h.wrapped]
      rfl

/-- A new allocation asks for a new block: no cached one has a byte. -/
theorem Zero.getLast? (h : Zero c) (hlayout : Layout c) (hbytes : bytes ≠ 0) :
    (c.deque bytes).getLast? = none := by
  rw [List.getLast?_eq_none_iff, List.eq_nil_iff_forall_not_mem]
  exact fun ptr hptr => hbytes (h.sizes ptr bytes (hlayout.cached bytes ptr hptr).1)

theorem Zero.allocate (h : Zero c) (hlayout : Layout c) (hbytes : bytes = 0 ∨ c.maxBytes < bytes) :
    Zero (c.allocate bytes fresh).1 := by
  by_cases hzero : bytes = 0
  · subst hzero
    unfold CachingAllocator.allocate CachingAllocator.find
    cases hlast : (c.deque 0).getLast? with
    | some ptr => exact ⟨h.sizes, h.allocated, by dsimp only; rw [h.used]; rfl, h.wrapped⟩
    | none =>
      refine ⟨fun ptr size hlookup => ?_, h.allocated,
        by rw [if_pos rfl]; exact (BitVec.add_zero _).trans h.used, h.wrapped⟩
      by_cases hptr : ptr = fresh
      · subst hptr
        exact (Option.some_inj.mp ((AList.lookup_insert _).symm.trans hlookup)).symm
      · exact h.sizes ptr size ((AList.lookup_insert_ne hptr).symm.trans hlookup)
  · have hmax := hbytes.resolve_left hzero
    -- the process dies: the flush has returned no bytes
    have hroom : c.makeRoom bytes = c.freeCached := if_pos (by rwa [h.allocated, BitVec.zero_add])
    have hflush := h.freeCached hlayout
    have hfatal : c.freeCached.maxBytes < c.freeCached.allocatedBytes + bytes := by
      rwa [hflush.allocated, BitVec.zero_add, (returned_freeCached c).maxBytes]
    unfold CachingAllocator.allocate CachingAllocator.find
    rw [h.getLast? hlayout hzero]
    dsimp only
    rw [if_neg hzero, CachingAllocator.allocateAndCache, hroom, if_pos hfatal]
    refine ⟨hflush.sizes, hflush.allocated, hflush.used, ?_⟩
    dsimp only
    rw [hflush.allocated, hflush.wrapped, Bool.false_or, decide_eq_false_iff_not, BitVec.not_lt]
    exact BitVec.le_def.mpr (Nat.zero_le _)

theorem Zero.step (h : Zero c) (hlayout : Layout c) (hmeets : c.Meets call) :
    Zero (c.step call) := by
  unfold CachingAllocator.step
  split_ifs with hfatal
  · exact h
  · cases call with
    | allocate bytes fresh => exact h.allocate hlayout (hmeets (Bool.eq_false_iff.mpr hfatal))
    | free ptr => exact h.free hlayout ptr
    | freeCached => exact h.freeCached hlayout

/-- **One call.** The counters are right after it exactly when it is no allocation of a new block
with bytes. -/
theorem books_step_iff (h : Zero c) (hlayout : Layout c) (hbacked : c.Backed call) :
    Books (c.step call) ↔ c.Meets call := by
  refine ⟨fun hbooks => ?_, fun hmeets => (h.step hlayout hmeets).books (hlayout.step hbacked)⟩
  cases call with
  | free ptr => exact trivial
  | freeCached => exact trivial
  | allocate bytes fresh =>
    intro hfatal
    by_contra hbytes
    rw [not_or, BitVec.not_lt] at hbytes
    obtain ⟨hzero, hmax⟩ := hbytes
    have hroom : c.makeRoom bytes = c :=
      if_neg (by rwa [h.allocated, BitVec.zero_add, BitVec.not_lt])
    have hstep : (c.step (.allocate bytes fresh)).allocatedBytes = 0 ∧
        (c.step (.allocate bytes fresh)).outstanding.lookup fresh = some bytes := by
      unfold CachingAllocator.step
      rw [if_neg (by rw [hfatal]; nofun)]
      unfold CachingAllocator.allocate CachingAllocator.find
      dsimp only
      rw [h.getLast? hlayout hzero]
      dsimp only
      rw [if_neg hzero, CachingAllocator.allocateAndCache, hroom,
        if_neg (by rwa [h.allocated, BitVec.zero_add, BitVec.not_lt])]
      exact ⟨h.allocated, AList.lookup_insert _⟩
    have hallocated := hbooks.allocated
    rw [hstep.1] at hallocated
    exact hzero (bytesOf_eq_zero.mp hallocated.symm fresh bytes hstep.2)

theorem zero_init (maxBytes : SizeT) : Zero (init maxBytes) := ⟨nofun, rfl, rfl, rfl⟩

/-- **The counters are right in every state of a run exactly when every allocation of it asks for 0
bytes, or for more than the limit**, where the process dies. -/
theorem books_iff (maxBytes : SizeT) (calls : List Call)
    (hbacked : Along CachingAllocator.step CachingAllocator.Backed (init maxBytes) calls) :
    (Books (init maxBytes) ∧
      Along CachingAllocator.step (fun c call => Books (c.step call)) (init maxBytes) calls) ↔
      Along CachingAllocator.step CachingAllocator.Meets (init maxBytes) calls := by
  rw [and_iff_right ((zero_init maxBytes).books (layout_init maxBytes))]
  have hiff := @along_iff_of_inv _ _ CachingAllocator.step (fun c => Zero c ∧ Layout c)
    (fun c call => c.Meets call ∧ c.Backed call) (fun c call => Books (c.step call) ∧ c.Backed call)
    (fun c call h hG => ⟨h.1.step h.2 hG.1, h.2.step hG.2⟩)
    (fun c call h => and_congr_left (books_step_iff h.1 h.2)) calls (init maxBytes)
    ⟨zero_init maxBytes, layout_init maxBytes⟩
  constructor
  · exact fun h => (hiff.mp (along_and h hbacked)).mono fun _ _ h => h.1
  · exact fun h => (hiff.mpr (along_and h hbacked)).mono fun _ _ h => h.1

theorem books_iff_zeroBytesTwice :
    (Books (init 16) ∧
      Along CachingAllocator.step (fun c call => Books (c.step call)) (init 16)
        [.allocate 0 1, .free 1, .allocate 0 2]) ↔
        Along CachingAllocator.step CachingAllocator.Meets (init 16)
          [.allocate 0 1, .free 1, .allocate 0 2] :=
  books_iff 16 _ (by decide)

/-- A first allocation of 8 bytes is not counted. After it is freed, one of 20 bytes is granted,
though the limit is 16: the flush makes the counter wrap. -/
theorem allocate_uncounted : ¬ Books ((init 16).step (.allocate 8 1)) ∧
    ((((init 16).step (.allocate 8 1)).step (.free 1)).allocate 20 2).2 = some 2 := by
  refine ⟨fun h => ?_, by decide⟩
  have hallocated := h.allocated
  revert hallocated
  decide

end MoeInfinity.Core.Caching
