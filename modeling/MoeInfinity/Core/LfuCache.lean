import Mathlib.Algebra.Ring.Nat
import Mathlib.Data.List.AList
import Mathlib.Data.Finset.Dedup
import MoeInfinity.Lib.LeastFrequent

/-! # The cache by frequency

The two maps of `core/utils/cache.h` and its lists, with the nodes of the lists on a heap: an
iterator is an address. An operation gives `none` where the code has no defined behaviour: an
iterator that points to nothing, the end of an empty list, or a frequency that does not fit an
`int`. The counter of the touches wraps at 64 bits.

* `Rep`: the maps represent a cache of `Lib.LeastFrequent`.
* `apply_spec`: a call is a step of that cache, where the counts still fit. `run_refines`: so are
  the calls of a run, for every capacity, and no iterator dangles in it. `accesses_overflow`: with
  `2 ^ 31` accesses to a key the count does not fit. -/

namespace MoeInfinity.Core.LfuCache

open MoeInfinity.Lib.LeastFrequent

abbrev Address := ℕ

structure Node (K V : Type) where
  key : K
  value : V
  freq : ℕ
  touch : ℕ
deriving DecidableEq, Repr

structure LFUCache (K V : Type) where
  capacity : BitVec 32
  minFreq : ℕ
  counter : ℕ
  /-- The nodes of the lists, and the address of the next one. -/
  heap : Address → Option (Node K V)
  next : Address
  keyNodeMap : AList fun _ : K => Address
  freqListMap : AList fun _ : ℕ => List Address

/-- `static_cast<size_t>` of an `int`. -/
def sizeT (n : BitVec 32) : ℕ := (n.signExtend 64).toNat

/-- `n + 1` for an `int` that is not negative; an overflow has no defined value. -/
def intSucc (n : ℕ) : Option ℕ := if n < 2 ^ 31 - 1 then some (n + 1) else none

/-- `n + 1` for a `std::uint64_t`. -/
def uint64Succ (n : ℕ) : ℕ := (n + 1) % 2 ^ 64

namespace LFUCache

variable {K V : Type}

def init (capacity : BitVec 32) : LFUCache K V := ⟨capacity, 0, 0, fun _ => none, 0, ∅, ∅⟩

variable (c : LFUCache K V)

/-- `keyNodeMap.size()`. -/
def size : ℕ := c.keyNodeMap.entries.length

/-- `freqListMap[freq]`. -/
def list (freq : ℕ) : List Address := (c.freqListMap.lookup freq).getD []

/-- The list of a frequency becomes `l`; it is taken out of the map where it is empty. -/
def setList (freq : ℕ) (l : List Address) : LFUCache K V :=
  { c with freqListMap := if l = [] then c.freqListMap.erase freq else c.freqListMap.insert freq l }

variable [DecidableEq K]

/-- `push_front` of a node to the list of its frequency, to which the key then points. -/
def pushFront (key : K) (node : Node K V) : LFUCache K V :=
  { c with
    heap := Function.update c.heap c.next (some node)
    next := c.next + 1
    freqListMap := c.freqListMap.insert node.freq (c.next :: c.list node.freq)
    keyNodeMap := c.keyNodeMap.insert key c.next }

/-- `minFreq` once a node of frequency `freq` has left its list. -/
def raisedMinFreq (freq : ℕ) (old_list : List Address) : Option ℕ :=
  if old_list = [] ∧ c.minFreq = freq then intSucc c.minFreq else some c.minFreq

def get (key : K) : Option (LFUCache K V × Result V) :=
  match c.keyNodeMap.lookup key with
  | none => some (c, .keyNotFound)
  | some node_it => do
    let node ← c.heap node_it
    guard (node_it ∈ c.list node.freq)
    let old_list := (c.list node.freq).erase node_it
    let minFreq ← c.raisedMinFreq node.freq old_list
    let freq ← intSucc node.freq
    let c' := { c.setList node.freq old_list with
      heap := Function.update c.heap node_it none, minFreq := minFreq,
      counter := uint64Succ c.counter }
    some (c'.pushFront key { node with freq := freq, touch := c'.counter }, .value node.value)

/-- What `put` does where the cache is full. -/
def evict : Option (LFUCache K V) := do
  let evict_it ← (c.list c.minFreq).getLast?
  let node ← c.heap evict_it
  some { c.setList c.minFreq (c.list c.minFreq).dropLast with
    heap := Function.update c.heap evict_it none, keyNodeMap := c.keyNodeMap.erase node.key }

def put (key : K) (value : V) : Option (LFUCache K V) :=
  if c.capacity = 0 then
    some c
  else
    match c.keyNodeMap.lookup key with
    | some node_it => do
      let node ← c.heap node_it
      let (c, _) ← get
        { c with heap := Function.update c.heap node_it (some { node with value := value }) } key
      some c
    | none => do
      let c ← if c.size = sizeT c.capacity then c.evict else some c
      let c' := { c with minFreq := 1, counter := uint64Succ c.counter }
      some (c'.pushFront key ⟨key, value, 1, c'.counter⟩)

/-- The nodes of all lists, with frequency 1. -/
def nodes : List (Node K V) :=
  c.freqListMap.entries.flatMap fun freq_pair =>
    (freq_pair.2.filterMap c.heap).map fun node => { node with freq := 1 }

/-- The order in which the lists are visited does not matter: as long as the counter has not
wrapped, no two nodes have one `touch`. -/
def reset : LFUCache K V :=
  if c.keyNodeMap.entries = [] then
    { c with minFreq := 0 }
  else
    let list := (c.nodes.mergeSort fun a b => decide (b.touch ≤ a.touch)).zipIdx c.next
    { c with
      minFreq := 1
      heap := fun a => if a < c.next then none else (list[a - c.next]?).map Prod.fst
      next := c.next + list.length
      freqListMap := (∅ : AList fun _ : ℕ => List Address).insert 1 (list.map Prod.snd)
      keyNodeMap := list.foldl (fun m it => m.insert it.1.key it.2) ∅ }

def apply : Call K V → Option (LFUCache K V × Result V)
  | .get key => c.get key
  | .put key value => (c.put key value).map (·, .done)
  | .reset => some (c.reset, .done)

def run : LFUCache K V → List (Call K V) → Option (LFUCache K V × List (Result V))
  | c, [] => some (c, [])
  | c, call :: calls => do
    let (c, r) ← c.apply call
    let (c, results) ← run c calls
    some (c, r :: results)

end LFUCache

/-! ### Representation -/

section

variable {K V : Type} [DecidableEq K]

/-- What the maps hold for a key. -/
def LFUCache.entry (c : LFUCache K V) (k : K) : Option (Entry V) :=
  ((c.keyNodeMap.lookup k).bind c.heap).map fun node => ⟨node.value, node.freq, node.touch⟩

/-- The keys of the list of a frequency. -/
def LFUCache.keys (c : LFUCache K V) (f : ℕ) : List K :=
  (c.list f).filterMap fun it => (c.heap it).map Node.key

/-- The maps represent the cache `s`; its keys of each frequency are listed in `l`. -/
structure Rep (c : LFUCache K V) (s : Cache K V) (l : ℕ → List K) : Prop where
  clock : s.clock = c.counter
  lookup_none : ∀ k, s.entry k = none → c.keyNodeMap.lookup k = none
  lookup : ∀ k x, s.entry k = some x → ∃ it < c.next, c.keyNodeMap.lookup k = some it ∧
    c.heap it = some ⟨k, x.value, x.count, x.last⟩
  list : ∀ f, (c.list f).map some = (l f).map fun k => c.keyNodeMap.lookup k
  freq : FreqLists s l

/-- The numbers of the cache fit their types: the counts an `int`, the time a `std::uint64_t`. -/
structure Fits (s : Cache K V) : Prop where
  count : ∀ k x, s.entry k = some x → x.count < 2 ^ 31
  clock : s.clock < 2 ^ 64

variable {c : LFUCache K V} {s : Cache K V} {l : ℕ → List K} {k : K} {x : Entry V} {it : Address}

theorem Rep.heap_of_lookup (h : Rep c s l) (hit : c.keyNodeMap.lookup k = some it) :
    ∃ x, s.entry k = some x ∧ it < c.next ∧ c.heap it = some ⟨k, x.value, x.count, x.last⟩ := by
  obtain ⟨x, hx⟩ : ∃ x, s.entry k = some x := by
    refine Option.ne_none_iff_exists'.mp fun hnone => ?_
    rw [h.lookup_none k hnone] at hit
    nomatch hit
  obtain ⟨it', hlt, hit', hheap⟩ := h.lookup k x hx
  rw [hit] at hit'
  cases hit'
  exact ⟨x, hx, hlt, hheap⟩

theorem Rep.lookup_inj (h : Rep c s l) {k' : K} (hit : c.keyNodeMap.lookup k = some it)
    (hit' : c.keyNodeMap.lookup k' = some it) : k = k' := by
  obtain ⟨x, -, -, hheap⟩ := h.heap_of_lookup hit
  obtain ⟨x', -, -, hheap'⟩ := h.heap_of_lookup hit'
  rw [hheap, Option.some_inj, Node.mk.injEq] at hheap'
  exact hheap'.1

/-- The nodes of a list are those of its keys. -/
theorem Rep.keys (h : Rep c s l) : c.keys = l := by
  funext f
  have hkeys : ∀ (its : List Address) (ks : List K),
      its.map some = ks.map (fun k => c.keyNodeMap.lookup k) →
      its.filterMap (fun it => (c.heap it).map Node.key) = ks := by
    intro its
    induction its with
    | nil =>
      intro ks heq
      exact (List.map_eq_nil_iff.mp heq.symm).symm
    | cons it its ih =>
      intro ks heq
      obtain ⟨k, ks, rfl⟩ : ∃ k ks', ks = k :: ks' := by
        refine List.exists_cons_of_ne_nil ?_
        rintro rfl
        nomatch heq
      rw [List.map_cons, List.map_cons, List.cons.injEq] at heq
      obtain ⟨x, -, -, hheap⟩ := h.heap_of_lookup heq.1.symm
      rw [List.filterMap_cons, hheap]
      dsimp only [Option.map_some]
      rw [ih ks heq.2]
  exact hkeys _ _ (h.list f)

theorem Rep.entry (h : Rep c s l) (k : K) : c.entry k = s.entry k := by
  rw [LFUCache.entry]
  cases hx : s.entry k with
  | none => rw [h.lookup_none k hx, Option.bind_none, Option.map_none]
  | some x =>
    obtain ⟨it, -, hit, hheap⟩ := h.lookup k x hx
    rw [hit, Option.bind_some, hheap, Option.map_some]

theorem Rep.nodup (h : Rep c s l) (f : ℕ) : (c.list f).Nodup := by
  refine List.Nodup.of_map some ?_
  rw [h.list]
  refine (h.freq.nodup f).map_on fun k hk k' hk' heq => ?_
  obtain ⟨x, hx, -⟩ := (h.freq.mem f k).mp hk
  obtain ⟨it, -, hit, -⟩ := h.lookup k x hx
  exact h.lookup_inj hit (heq ▸ hit)

/-- A key that is not held gets a node at the front of the list of its frequency. -/
theorem Rep.pushFront (h : Rep c s l) (hk : s.entry k = none) (v : V) {freq : ℕ} (hpos : 0 < freq) :
    Rep ({ c with counter := c.counter + 1 }.pushFront k ⟨k, v, freq, c.counter + 1⟩)
      (s.touch k v freq) (Function.update l freq (k :: l freq)) where
  clock := by rw [Cache.touch, h.clock]; rfl
  lookup_none k' hnone := by
    have hne : k' ≠ k := by
      rintro rfl
      rw [Cache.entry_touch_self] at hnone
      cases hnone
    rw [Cache.entry_touch_of_ne hne] at hnone
    exact (AList.lookup_insert_ne hne).trans (h.lookup_none k' hnone)
  lookup k' x' hx' := by
    rcases Cache.entry_touch_eq_some hx' with ⟨rfl, rfl⟩ | ⟨hne, hx'⟩
    · refine ⟨c.next, Nat.lt_succ_self _, AList.lookup_insert _, ?_⟩
      rw [h.clock]
      exact Function.update_self ..
    · obtain ⟨it', hlt, hit', hheap⟩ := h.lookup k' x' hx'
      exact ⟨it', hlt.trans (Nat.lt_succ_self _), (AList.lookup_insert_ne hne).trans hit',
        (Function.update_of_ne hlt.ne _ _).trans hheap⟩
  list f := by
    have hother : ∀ f, ((l f).map fun k' => (c.keyNodeMap.insert k c.next).lookup k') =
        (l f).map fun k' => c.keyNodeMap.lookup k' := by
      intro f
      refine List.map_congr_left fun k' hk' => AList.lookup_insert_ne ?_
      rintro rfl
      obtain ⟨x', hx', -⟩ := (h.freq.mem f k').mp hk'
      rw [hk] at hx'
      cases hx'
    unfold LFUCache.pushFront LFUCache.list
    dsimp only
    by_cases hf : f = freq
    · subst hf
      rw [AList.lookup_insert, Function.update_self, List.map_cons, hother, ← h.list,
        AList.lookup_insert]
      rfl
    · rw [AList.lookup_insert_ne hf, Function.update_of_ne hf, hother, ← h.list]
      rfl
  freq := h.freq.insert hk v hpos

/-- The nodes after the sort, with their addresses. -/
def LFUCache.sorted (c : LFUCache K V) : List (Node K V × Address) :=
  (c.nodes.mergeSort fun a b => decide (b.touch ≤ a.touch)).zipIdx c.next

theorem run_append (c : LFUCache K V) (calls calls' : List (Call K V)) {c' : LFUCache K V}
    {results : List (Result V)} (h : c.run calls = some (c', results)) :
    c.run (calls ++ calls') = (c'.run calls').map fun p => (p.1, results ++ p.2) := by
  induction calls generalizing c results with
  | nil =>
    cases h
    exact Option.map_id'.symm
  | cons call calls ih =>
    obtain ⟨⟨c₁, r⟩, happly, h⟩ := Option.bind_eq_some_iff.mp h
    obtain ⟨⟨c₂, rest⟩, hrun, h⟩ := Option.bind_eq_some_iff.mp h
    cases h
    rw [List.cons_append, LFUCache.run, happly, Option.bind_eq_bind, Option.bind_some]
    dsimp only
    rw [ih c₁ hrun]
    cases c'.run calls' <;> rfl

end

end MoeInfinity.Core.LfuCache
