import Mathlib.Data.Finset.Card
import Mathlib.Data.List.Nodup
import Mathlib.Logic.Function.Basic

/-! # Least-frequently-used caches

A cache holds a value for some keys, with the number of accesses to the key and the time of the last
one. `Step` says what a call does: a new key that finds the cache full replaces the coldest one, the
least recently touched of the least frequently used. A reset forgets how often the keys were used,
but not when.

* `Run.size_le`, `Run.holds`: a run keeps the capacity, and the values are those last put.
  `Run.count_le`: no count is larger than the number of the calls.
* `FreqLists`: for each frequency the list of its keys, the last touched first. `FreqLists.erase`,
  `FreqLists.insert` and `FreqLists.reset` keep them; the end of the list of the least frequency is
  the coldest key (`FreqLists.coldest`). -/

namespace MoeInfinity.Lib.LeastFrequent

variable {K V : Type*}

structure Entry (V : Type*) where
  value : V
  count : ℕ
  last : ℕ
deriving DecidableEq, Repr

@[ext] structure Cache (K V : Type*) where
  entry : K → Option (Entry V)
  clock : ℕ

inductive Call (K V : Type*) where
  | get (key : K)
  | put (key : K) (value : V)
  | reset
deriving DecidableEq, Repr

inductive Result (V : Type*) where
  | done
  | value (v : V)
  | keyNotFound
deriving DecidableEq, Repr

namespace Cache

def empty : Cache K V := ⟨fun _ => none, 0⟩

variable (s : Cache K V)

/-- The time at which a key was last touched. -/
def last (k : K) : ℕ := (s.entry k).elim 0 (·.last)

/-- The cache holds `n` keys. -/
def HasSize (n : ℕ) : Prop := ∃ keys : Finset K, (∀ k, k ∈ keys ↔ s.entry k ≠ none) ∧ keys.card = n

/-- The least recently touched key among the least frequently used ones. -/
def Coldest (k : K) : Prop :=
  ∃ x, s.entry k = some x ∧ ∀ k' x', s.entry k' = some x' → k' ≠ k →
    x.count < x'.count ∨ (x.count = x'.count ∧ x.last < x'.last)

def reset : Cache K V := { s with entry := fun k => (s.entry k).map fun x => { x with count := 1 } }

variable [DecidableEq K]

/-- The key `k` is touched; it has the value `v` then, and was used `count` times. -/
def touch (k : K) (v : V) (count : ℕ) : Cache K V :=
  ⟨Function.update s.entry k (some ⟨v, count, s.clock + 1⟩), s.clock + 1⟩

def erase (k : K) : Cache K V := { s with entry := Function.update s.entry k none }

end Cache

/-! ### Sizes and values -/

section Sizes

variable {s : Cache K V} {k : K} {v : V} {n : ℕ}

theorem Cache.HasSize.unique {m : ℕ} (hm : s.HasSize m) (hn : s.HasSize n) : m = n := by
  obtain ⟨keys, hkeys, rfl⟩ := hm
  obtain ⟨keys', hkeys', rfl⟩ := hn
  have heq : keys = keys' := by
    ext k
    rw [hkeys, hkeys']
  rw [heq]

theorem Cache.HasSize.reset (h : s.HasSize n) : s.reset.HasSize n := by
  obtain ⟨keys, hkeys, rfl⟩ := h
  refine ⟨keys, fun k => ?_, rfl⟩
  rw [hkeys, Cache.reset]
  simp

theorem Cache.HasSize.entry_eq_none (h : s.HasSize 0) (k : K) : s.entry k = none := by
  obtain ⟨keys, hkeys, hcard⟩ := h
  rw [Finset.card_eq_zero] at hcard
  by_contra hk
  have hmem := (hkeys k).mpr hk
  rw [hcard] at hmem
  exact absurd hmem (Finset.notMem_empty k)

theorem Cache.entry_reset_of_eq {x : Entry V} (hx : s.entry k = some x) :
    s.reset.entry k = some { x with count := 1 } := by
  rw [Cache.reset]
  dsimp only
  rw [hx, Option.map_some]

theorem Cache.entry_reset {x : Entry V} (hx : s.reset.entry k = some x) :
    ∃ x₀, s.entry k = some x₀ ∧ x = { x₀ with count := 1 } := by
  obtain ⟨x₀, hx₀, rfl⟩ := Option.map_eq_some_iff.mp hx
  exact ⟨x₀, hx₀, rfl⟩

variable [DecidableEq K]

theorem Cache.entry_touch_self (count : ℕ) :
    (s.touch k v count).entry k = some ⟨v, count, s.clock + 1⟩ :=
  Function.update_self ..

theorem Cache.entry_touch_of_ne {k' : K} (h : k' ≠ k) (count : ℕ) :
    (s.touch k v count).entry k' = s.entry k' :=
  Function.update_of_ne h ..

theorem Cache.entry_erase_self : (s.erase k).entry k = none := Function.update_self ..

theorem Cache.entry_erase_of_ne {k' : K} (h : k' ≠ k) : (s.erase k).entry k' = s.entry k' :=
  Function.update_of_ne h ..

theorem Cache.entry_erase_eq_some {k' : K} {x : Entry V} :
    (s.erase k).entry k' = some x ↔ k' ≠ k ∧ s.entry k' = some x := by
  by_cases hk : k' = k
  · subst hk
    rw [Cache.entry_erase_self]
    exact iff_of_false nofun fun h => h.1 rfl
  · rw [Cache.entry_erase_of_ne hk, and_iff_right hk]

theorem Cache.entry_touch_eq_some {k' : K} {x : Entry V} {count : ℕ}
    (hx : (s.touch k v count).entry k' = some x) :
    k' = k ∧ x = ⟨v, count, s.clock + 1⟩ ∨ k' ≠ k ∧ s.entry k' = some x := by
  by_cases hk : k' = k
  · subst hk
    rw [Cache.entry_touch_self, Option.some_inj] at hx
    exact Or.inl ⟨rfl, hx.symm⟩
  · rw [Cache.entry_touch_of_ne hk] at hx
    exact Or.inr ⟨hk, hx⟩

theorem Cache.HasSize.touch (h : s.HasSize n) (k : K) (v : V) (count : ℕ) :
    (s.touch k v count).HasSize (if s.entry k = none then n + 1 else n) := by
  obtain ⟨keys, hkeys, rfl⟩ := h
  refine ⟨Insert.insert k keys, fun k' => ?_, ?_⟩
  · rw [Finset.mem_insert, hkeys]
    by_cases hk : k' = k
    · subst hk
      simp [Cache.entry_touch_self]
    · simp [hk, Cache.entry_touch_of_ne]
  · rw [Finset.card_insert_eq_ite]
    simp only [hkeys, ne_eq, ite_not]

theorem Cache.HasSize.erase (h : s.HasSize n) (hk : s.entry k ≠ none) :
    (s.erase k).HasSize (n - 1) := by
  obtain ⟨keys, hkeys, rfl⟩ := h
  refine ⟨keys.erase k, fun k' => ?_, Finset.card_erase_of_mem ((hkeys k).mpr hk)⟩
  rw [Finset.mem_erase, hkeys]
  by_cases hk' : k' = k
  · subst hk'
    simp [Cache.entry_erase_self]
  · simp [hk', Cache.entry_erase_of_ne]

end Sizes

section Calls

variable [DecidableEq K]

/-- **One call** on a cache of at most `capacity` keys. -/
inductive Step (capacity : ℕ) (s : Cache K V) : Call K V → Cache K V → Result V → Prop
  | hit {k : K} {x : Entry V} : s.entry k = some x →
      Step capacity s (.get k) (s.touch k x.value (x.count + 1)) (.value x.value)
  | miss {k : K} : s.entry k = none → Step capacity s (.get k) s .keyNotFound
  | dropped {k : K} {v : V} : capacity = 0 → Step capacity s (.put k v) s .done
  | replace {k : K} {v : V} {x : Entry V} : capacity ≠ 0 → s.entry k = some x →
      Step capacity s (.put k v) (s.touch k v (x.count + 1)) .done
  | insert {k : K} {v : V} : capacity ≠ 0 → s.entry k = none → ¬ s.HasSize capacity →
      Step capacity s (.put k v) (s.touch k v 1) .done
  | evict {k victim : K} {v :
      V} : capacity ≠ 0 → s.entry k = none → s.HasSize capacity → s.Coldest victim →
      Step capacity s (.put k v) ((s.erase victim).touch k v 1) .done
  | reset : Step capacity s .reset s.reset .done

/-- A run of calls, with their results. -/
def Run (capacity : ℕ) : Cache K V → List (Call K V) → List (Result V) → Cache K V → Prop
  | s, [], results, s' => results = [] ∧ s' = s
  | s, c :: calls, results, s' => ∃ s₁ r rest, Step capacity s c s₁ r ∧ results = r :: rest ∧
      Run capacity s₁ calls rest s'

end Calls

section Runs

variable [DecidableEq K] {capacity : ℕ} {s s' : Cache K V} {c : Call K V} {r : Result V} {n : ℕ}

/-- A call keeps the capacity. -/
theorem Step.size_le (h : Step capacity s c s' r) (hsize : s.HasSize n) (hle : n ≤ capacity) :
    ∃ n' ≤ capacity, s'.HasSize n' := by
  cases h with
  | @hit k x hk =>
    have hsize' := hsize.touch k x.value (x.count + 1)
    rw [if_neg (by rw [hk]; nofun)] at hsize'
    exact ⟨n, hle, hsize'⟩
  | miss hk => exact ⟨n, hle, hsize⟩
  | dropped hcap => exact ⟨n, hle, hsize⟩
  | @replace k v x hcap hk =>
    have hsize' := hsize.touch k v (x.count + 1)
    rw [if_neg (by rw [hk]; nofun)] at hsize'
    exact ⟨n, hle, hsize'⟩
  | @insert k v hcap hk hfull =>
    have hne : n ≠ capacity := fun h => hfull (h ▸ hsize)
    have hsize' := hsize.touch k v 1
    rw [if_pos hk] at hsize'
    exact ⟨n + 1, by omega, hsize'⟩
  | @evict k victim v hcap hk hfull hcold =>
    obtain rfl := hsize.unique hfull
    obtain ⟨x, hx, -⟩ := hcold
    have hne : k ≠ victim := by
      rintro rfl
      rw [hk] at hx
      nomatch hx
    have hsize' := (hsize.erase (k := victim) (by rw [hx]; nofun)).touch k v 1
    rw [if_pos ((Cache.entry_erase_of_ne hne).trans hk)] at hsize'
    exact ⟨n - 1 + 1, by omega, hsize'⟩
  | reset => exact ⟨n, hle, hsize.reset⟩

/-- **A run keeps the capacity.** -/
theorem Run.size_le {calls : List (Call K V)} {results : List (Result V)}
    (h : Run capacity s calls results s') (hsize : s.HasSize n) (hle : n ≤ capacity) :
    ∃ n' ≤ capacity, s'.HasSize n' := by
  induction calls generalizing s results n with
  | nil =>
    obtain ⟨-, rfl⟩ := h
    exact ⟨n, hle, hsize⟩
  | cons c calls ih =>
    obtain ⟨s₁, r, rest, hstep, -, hrun⟩ := h
    obtain ⟨n₁, hle₁, hsize₁⟩ := hstep.size_le hsize hle
    exact ih hrun hsize₁ hle₁

/-- The values that were put last, after those of `last`. -/
def lastPut (last : K → Option V) (calls : List (Call K V)) : K → Option V :=
  calls.foldl (fun last c =>
    match c with
    | .put k v => Function.update last k (some v)
    | _ => last) last

/-- Every value held is the one of `last`. -/
def Cache.Holds (s : Cache K V) (last : K → Option V) : Prop :=
  ∀ k x, s.entry k = some x → last k = some x.value

theorem Cache.Holds.touch {last : K → Option V} (h : s.Holds last) (k : K) (v : V) (count : ℕ) :
    (s.touch k v count).Holds (Function.update last k (some v)) := by
  intro k' x hx
  rcases Cache.entry_touch_eq_some hx with ⟨rfl, rfl⟩ | ⟨hk, hx⟩
  · rw [Function.update_self]
  · rw [Function.update_of_ne hk]
    exact h k' x hx

theorem Cache.Holds.erase {last : K → Option V} (h : s.Holds last) (k : K) :
    (s.erase k).Holds last :=
  fun k' x hx => h k' x (Cache.entry_erase_eq_some.mp hx).2

/-- A call changes values only by a put. With capacity 0 nothing is held. -/
theorem Step.holds {last : K → Option V} (h : Step capacity s c s' r) (hsize : s.HasSize n)
    (hle : n ≤ capacity) (hlast : s.Holds last) : s'.Holds (lastPut last [c]) := by
  cases h with
  | @hit k x hk =>
    have hheld := hlast.touch k x.value (x.count + 1)
    rwa [← hlast k x hk, Function.update_eq_self] at hheld
  | miss hk => exact hlast
  | dropped hcap =>
    obtain rfl : n = 0 := by omega
    intro k x hx
    rw [hsize.entry_eq_none] at hx
    nomatch hx
  | replace hcap hk => exact hlast.touch _ _ _
  | insert hcap hk hfull => exact hlast.touch _ _ _
  | evict hcap hk hfull hcold => exact (hlast.erase _).touch _ _ _
  | reset =>
    intro k x hx
    obtain ⟨x₀, hx₀, rfl⟩ := Cache.entry_reset hx
    exact hlast k x₀ hx₀

/-- **The values of a run are those last put.** -/
theorem Run.holds {calls : List (Call K V)} {results : List (Result V)} {last : K → Option V}
    (h : Run capacity s calls results s') (hsize : s.HasSize n) (hle : n ≤ capacity)
    (hlast : s.Holds last) :
    s'.Holds (lastPut last calls) := by
  induction calls generalizing s results n last with
  | nil =>
    obtain ⟨-, rfl⟩ := h
    exact hlast
  | cons c calls ih =>
    obtain ⟨s₁, r, rest, hstep, -, hrun⟩ := h
    obtain ⟨n₁, hle₁, hsize₁⟩ := hstep.size_le hsize hle
    exact ih hrun hsize₁ hle₁ (hstep.holds hsize hle hlast)

/-- A call counts one access more for one key at most, and touches one key at most. -/
theorem Step.count_le (h : Step capacity s c s' r)
    (hcount : ∀ k x, s.entry k = some x → x.count ≤ n) :
    (∀ k x, s'.entry k = some x → x.count ≤ n + 1) ∧ s'.clock ≤ s.clock + 1 := by
  have htouch : ∀ (t : Cache K V) (k : K) (v : V) (count : ℕ), count ≤ n + 1 →
      (∀ k x, t.entry k = some x → x.count ≤ n) → ∀ k' x, (t.touch k v count).entry k' = some x →
      x.count ≤ n + 1 := by
    intro t k v count hle ht k' x hx
    rcases Cache.entry_touch_eq_some hx with ⟨-, rfl⟩ | ⟨-, hx⟩
    · exact hle
    · exact (ht k' x hx).trans (Nat.le_succ n)
  have hone : 1 ≤ n + 1 := Nat.le_add_left 1 n
  have hsame : ∀ k x, s.entry k = some x → x.count ≤ n + 1 := fun k x hx =>
    (hcount k x hx).trans (Nat.le_succ n)
  cases h with
  | @hit k x hk => exact ⟨htouch s k x.value _ (Nat.succ_le_succ (hcount k x hk)) hcount, le_rfl⟩
  | miss hk => exact ⟨hsame, Nat.le_succ _⟩
  | dropped hcap => exact ⟨hsame, Nat.le_succ _⟩
  | @replace k v x hcap hk =>
    exact ⟨htouch s k v _ (Nat.succ_le_succ (hcount k x hk)) hcount, le_rfl⟩
  | @insert k v hcap hk hfull => exact ⟨htouch s k v 1 hone hcount, le_rfl⟩
  | @evict k victim v hcap hk hfull hcold =>
    refine ⟨htouch (s.erase victim) k v 1 hone fun k' x hx => ?_, le_rfl⟩
    exact hcount k' x (Cache.entry_erase_eq_some.mp hx).2
  | reset =>
    refine ⟨fun k x hx => ?_, Nat.le_succ _⟩
    obtain ⟨x₀, -, rfl⟩ := Cache.entry_reset hx
    exact hone

/-- **A run counts no key more often than it has calls.** -/
theorem Run.count_le {calls : List (Call K V)} {results : List (Result V)}
    (h : Run capacity s calls results s') (hcount : ∀ k x, s.entry k = some x → x.count ≤ n) :
    (∀ k x, s'.entry k = some x → x.count ≤ n + calls.length) ∧
    s'.clock ≤ s.clock + calls.length := by
  induction calls generalizing s results n with
  | nil =>
    obtain ⟨-, rfl⟩ := h
    exact ⟨hcount, le_rfl⟩
  | cons c calls ih =>
    obtain ⟨s₁, r, rest, hstep, -, hrun⟩ := h
    obtain ⟨hcount₁, hclock₁⟩ := hstep.count_le hcount
    obtain ⟨hcount', hclock'⟩ := ih hrun hcount₁
    rw [List.length_cons]
    refine ⟨fun k x hx => ?_, by omega⟩
    have hle := hcount' k x hx
    omega

/-- `P` holds after every call of the run. -/
def Stays (capacity : ℕ) (P : Cache K V → Prop) (s : Cache K V) (calls : List (Call K V)) : Prop :=
  ∀ done results s', done <+: calls → Run capacity s done results s' → P s'

theorem Stays.step {P : Cache K V → Prop} {calls : List (Call K V)}
    (h : Stays capacity P s (c :: calls)) (hstep : Step capacity s c s' r) :
    P s' ∧ Stays capacity P s' calls := by
  have hcons : ∀ {done results t}, done <+: calls → Run capacity s' done results t → P t :=
    fun hdone hrun => h _ _ _ ((List.prefix_cons_inj c).mpr hdone) ⟨s', r, _, hstep, rfl, hrun⟩
  exact ⟨hcons (List.nil_prefix) ⟨rfl, rfl⟩, fun _ _ _ hdone hrun => hcons hdone hrun⟩

end Runs

/-! ### One list for each frequency -/

/-- `l f` has the keys used `f` times, the last touched first. -/
structure FreqLists (s : Cache K V) (l : ℕ → List K) : Prop where
  mem : ∀ f k, k ∈ l f ↔ ∃ x, s.entry k = some x ∧ x.count = f
  sorted : ∀ f, (l f).Pairwise fun k k' => s.last k' < s.last k
  last_le : ∀ k x, s.entry k = some x → x.last ≤ s.clock
  last_inj : ∀ k k' x x', s.entry k = some x → s.entry k' = some x' → x.last = x'.last → k = k'
  pos : ∀ k x, s.entry k = some x → 0 < x.count

/-- `m` is the least frequency of a key. -/
structure IsMinFreq (s : Cache K V) (m : ℕ) : Prop where
  attained : ∃ k x, s.entry k = some x ∧ x.count = m
  le : ∀ k x, s.entry k = some x → m ≤ x.count

section FreqLists

variable {s : Cache K V} {l : ℕ → List K} {k : K} {x : Entry V}

theorem Cache.last_eq (h : s.entry k = some x) : s.last k = x.last := by
  rw [Cache.last, h]
  rfl

theorem Cache.last_reset : s.reset.last k = s.last k := by
  unfold Cache.last Cache.reset
  dsimp only
  cases s.entry k <;> rfl

theorem FreqLists.nodup (h : FreqLists s l) (f : ℕ) : (l f).Nodup :=
  (h.sorted f).imp fun hlt heq => (heq ▸ hlt).false

/-- The end of the list of the least frequency is the coldest key. -/
theorem FreqLists.coldest (h : FreqLists s l) {m : ℕ} (hmin : IsMinFreq s m) {ks : List K}
    (hk : l m = ks ++ [k]) :
    s.Coldest k := by
  obtain ⟨x, hx, hcount⟩ :=
    (h.mem m k).mp (by rw [hk]; exact List.mem_append_right _ (List.mem_singleton_self k))
  refine ⟨x, hx, fun k' x' hx' hne => ?_⟩
  rcases (hmin.le k' x' hx').lt_or_eq with hlt | heq
  · exact Or.inl (hcount ▸ hlt)
  · refine Or.inr ⟨hcount.trans heq, ?_⟩
    have hmem : k' ∈ ks := by
      have hmem := (h.mem m k').mpr ⟨x', hx', heq.symm⟩
      rw [hk, List.mem_append, List.mem_singleton] at hmem
      exact hmem.resolve_right hne
    have hsorted := h.sorted m
    rw [hk, List.pairwise_append] at hsorted
    have hlt := hsorted.2.2 k' hmem k (List.mem_singleton_self k)
    rwa [Cache.last_eq hx, Cache.last_eq hx'] at hlt

/-- A reset makes one list of all the keys. -/
theorem FreqLists.reset (h : FreqLists s l) {ks : List K} (hmem : ∀ k, k ∈ ks ↔ s.entry k ≠ none)
    (hsorted : ks.Pairwise fun k k' => s.last k' < s.last k) :
    FreqLists s.reset fun f => if f = 1 then ks else [] where
  mem f k := by
    split_ifs with hf
    · subst hf
      rw [hmem, Option.ne_none_iff_exists']
      constructor
      · rintro ⟨x, hx⟩
        exact ⟨_, Cache.entry_reset_of_eq hx, rfl⟩
      · rintro ⟨x, hx, -⟩
        obtain ⟨x₀, hx₀, -⟩ := Cache.entry_reset hx
        exact ⟨x₀, hx₀⟩
    · refine iff_of_false List.not_mem_nil ?_
      rintro ⟨x, hx, rfl⟩
      obtain ⟨x₀, -, rfl⟩ := Cache.entry_reset hx
      exact hf rfl
  sorted f := by
    split_ifs
    · refine hsorted.imp fun {k k'} hlt => ?_
      rwa [Cache.last_reset, Cache.last_reset]
    · exact List.Pairwise.nil
  last_le k x hx := by
    obtain ⟨x₀, hx₀, rfl⟩ := Cache.entry_reset hx
    exact h.last_le k x₀ hx₀
  last_inj k k' x x' hx hx' heq := by
    obtain ⟨x₀, hx₀, rfl⟩ := Cache.entry_reset hx
    obtain ⟨x₀', hx₀', rfl⟩ := Cache.entry_reset hx'
    exact h.last_inj k k' x₀ x₀' hx₀ hx₀' heq
  pos k x hx := by
    obtain ⟨x₀, -, rfl⟩ := Cache.entry_reset hx
    exact Nat.one_pos

theorem IsMinFreq.reset (h : ∃ k, s.entry k ≠ none) : IsMinFreq s.reset 1 where
  attained := by
    obtain ⟨k, hk⟩ := h
    obtain ⟨x, hx⟩ := Option.ne_none_iff_exists'.mp hk
    exact ⟨k, _, Cache.entry_reset_of_eq hx, rfl⟩
  le k x hx := by
    obtain ⟨x₀, -, rfl⟩ := Cache.entry_reset hx
    exact le_rfl

theorem FreqLists.empty : FreqLists (Cache.empty : Cache K V) fun _ => [] where
  mem _ _ := iff_of_false List.not_mem_nil fun ⟨_, hx, _⟩ => nomatch hx
  sorted _ := List.Pairwise.nil
  last_le _ _ hx := nomatch hx
  last_inj _ _ _ _ hx := nomatch hx
  pos _ _ hx := nomatch hx

variable [DecidableEq K]

theorem FreqLists.mem_erase (h : FreqLists s l) (hk : s.entry k = some x) (f : ℕ) (k' : K) :
    k' ∈ Function.update l x.count ((l x.count).erase k) f ↔ k' ≠ k ∧ k' ∈ l f := by
  by_cases hf : f = x.count
  · subst hf
    rw [Function.update_self]
    exact (h.nodup _).mem_erase_iff
  · rw [Function.update_of_ne hf, iff_and_self]
    rintro hmem rfl
    obtain ⟨x', hx', rfl⟩ := (h.mem f k').mp hmem
    rw [hk] at hx'
    cases hx'
    exact hf rfl

/-- A key leaves its list. -/
theorem FreqLists.erase (h : FreqLists s l) (hk : s.entry k = some x) :
    FreqLists (s.erase k) (Function.update l x.count ((l x.count).erase k)) where
  mem f k' := by
    rw [h.mem_erase hk, h.mem]
    simp only [Cache.entry_erase_eq_some, and_assoc, exists_and_left]
  sorted f := by
    have hsub : (Function.update l x.count ((l x.count).erase k) f).Sublist (l f) := by
      by_cases hf : f = x.count
      · subst hf
        rw [Function.update_self]
        exact List.erase_sublist
      · rw [Function.update_of_ne hf]
    have hlast : ∀ k' ∈ Function.update l x.count ((l x.count).erase k) f,
        (s.erase k).last k' = s.last k' := by
      intro k' hmem
      rw [Cache.last, Cache.last, Cache.entry_erase_of_ne ((h.mem_erase hk f k').mp hmem).1]
    refine ((h.sorted f).sublist hsub).imp_of_mem fun {k₁ k₂} h₁ h₂ hlt => ?_
    rwa [hlast k₁ h₁, hlast k₂ h₂]
  last_le k' x' hx' := h.last_le k' x' (Cache.entry_erase_eq_some.mp hx').2
  last_inj k₁ k₂ x₁ x₂ h₁ h₂ :=
    h.last_inj k₁ k₂ x₁ x₂ (Cache.entry_erase_eq_some.mp h₁).2 (Cache.entry_erase_eq_some.mp h₂).2
  pos k' x' hx' := h.pos k' x' (Cache.entry_erase_eq_some.mp hx').2

/-- A key that is not held comes first in the list of its frequency: it is the last touched. -/
theorem FreqLists.insert (h : FreqLists s l) (hk : s.entry k = none) (v : V) {count : ℕ}
    (hpos : 0 < count) :
    FreqLists (s.touch k v count) (Function.update l count (k :: l count)) := by
  have hne : ∀ {k' x'}, s.entry k' = some x' → k' ≠ k := by
    rintro k' x' hx' rfl
    rw [hk] at hx'
    nomatch hx'
  constructor
  case mem =>
    intro f k'
    have hmem : k' ∈ Function.update l count (k :: l count) f ↔ (k' = k ∧ f = count) ∨
        k' ∈ l f := by
      by_cases hf : f = count
      · subst hf
        rw [Function.update_self, List.mem_cons, and_iff_left rfl]
      · rw [Function.update_of_ne hf, or_iff_right fun h => hf h.2]
    rw [hmem, h.mem]
    constructor
    · rintro (⟨rfl, rfl⟩ | ⟨x', hx', rfl⟩)
      · exact ⟨_, Cache.entry_touch_self f, rfl⟩
      · exact ⟨x', (Cache.entry_touch_of_ne (hne hx') count).trans hx', rfl⟩
    · rintro ⟨x', hx', rfl⟩
      rcases Cache.entry_touch_eq_some hx' with ⟨rfl, rfl⟩ | ⟨-, hx'⟩
      · exact Or.inl ⟨rfl, rfl⟩
      · exact Or.inr ⟨x', hx', rfl⟩
  case sorted =>
    intro f
    have hlast : ∀ k' x', s.entry k' = some x' → (s.touch k v count).last k' = s.last k' := by
      intro k' x' hx'
      rw [Cache.last, Cache.last, Cache.entry_touch_of_ne (hne hx')]
    have htail : (l f).Pairwise fun k₁ k₂ => (s.touch k v count).last k₂ <
        (s.touch k v count).last k₁ := by
      refine (h.sorted f).imp_of_mem fun {k₁ k₂} h₁ h₂ hlt => ?_
      obtain ⟨x₁, hx₁, -⟩ := (h.mem f k₁).mp h₁
      obtain ⟨x₂, hx₂, -⟩ := (h.mem f k₂).mp h₂
      rwa [hlast k₁ x₁ hx₁, hlast k₂ x₂ hx₂]
    by_cases hf : f = count
    · subst hf
      rw [Function.update_self, List.pairwise_cons]
      refine ⟨fun k' hmem => ?_, htail⟩
      obtain ⟨x', hx', -⟩ := (h.mem f k').mp hmem
      rw [hlast k' x' hx', Cache.last_eq hx', Cache.last_eq (Cache.entry_touch_self f)]
      exact Nat.lt_succ_of_le (h.last_le k' x' hx')
    · rw [Function.update_of_ne hf]
      exact htail
  case last_le =>
    intro k' x' hx'
    rcases Cache.entry_touch_eq_some hx' with ⟨-, rfl⟩ | ⟨-, hx'⟩
    · exact le_rfl
    · exact (h.last_le k' x' hx').trans (Nat.le_succ _)
  case last_inj =>
    intro k₁ k₂ x₁ x₂ h₁ h₂ heq
    rcases Cache.entry_touch_eq_some h₁ with ⟨rfl, rfl⟩ | ⟨-, hold₁⟩ <;>
      rcases Cache.entry_touch_eq_some h₂ with ⟨rfl, rfl⟩ | ⟨-, hold₂⟩
    · rfl
    · exact absurd (h.last_le k₂ x₂ hold₂) (by rw [← heq]; exact Nat.not_succ_le_self _)
    · exact absurd (h.last_le k₁ x₁ hold₁) (by rw [heq]; exact Nat.not_succ_le_self _)
    · exact h.last_inj k₁ k₂ x₁ x₂ hold₁ hold₂ heq
  case pos =>
    intro k' x' hx'
    rcases Cache.entry_touch_eq_some hx' with ⟨-, rfl⟩ | ⟨-, hx'⟩
    · exact hpos
    · exact h.pos k' x' hx'

/-- The least frequency grows by one where its list had only the key that is touched. -/
theorem IsMinFreq.hit (h : FreqLists s l) {m : ℕ} (hmin : IsMinFreq s m)
    (hk : s.entry k = some x) (v : V) :
    IsMinFreq (s.touch k v (x.count + 1)) (if (l x.count).erase k = [] ∧
      m = x.count then m + 1 else m) := by
  have hm := hmin.le k x hk
  split_ifs with hempty
  · obtain ⟨hnil, rfl⟩ := hempty
    refine ⟨⟨k, _, Cache.entry_touch_self _, rfl⟩, fun k' x' hx' => ?_⟩
    rcases Cache.entry_touch_eq_some hx' with ⟨-, rfl⟩ | ⟨hne, hx'⟩
    · exact le_rfl
    · refine (hmin.le k' x' hx').lt_of_ne fun heq => ?_
      have hmem := (List.mem_erase_of_ne hne).mpr ((h.mem x.count k').mpr ⟨x', hx', heq.symm⟩)
      rw [hnil] at hmem
      nomatch hmem
  · refine ⟨?_, fun k' x' hx' => ?_⟩
    · -- the one of least frequency is another key, or another key of its list is
      by_cases hne : m = x.count
      · obtain ⟨k', hmem⟩ := List.exists_mem_of_ne_nil _ fun hnil => hempty ⟨hnil, hne⟩
        obtain ⟨hne', hmem⟩ := (h.nodup _).mem_erase_iff.mp hmem
        obtain ⟨x', hx', hcount⟩ := (h.mem _ _).mp hmem
        exact ⟨k', x', (Cache.entry_touch_of_ne hne' _).trans hx', hcount.trans hne.symm⟩
      · obtain ⟨k', x', hx', rfl⟩ := hmin.attained
        refine ⟨k', x', (Cache.entry_touch_of_ne ?_ _).trans hx', rfl⟩
        rintro rfl
        rw [hk] at hx'
        cases hx'
        exact hne rfl
    · rcases Cache.entry_touch_eq_some hx' with ⟨-, rfl⟩ | ⟨-, hx'⟩
      · exact hm.trans (Nat.le_succ _)
      · exact hmin.le k' x' hx'

theorem IsMinFreq.insert (h : FreqLists s l) (k : K) (v : V) : IsMinFreq (s.touch k v 1) 1 where
  attained := ⟨k, _, Cache.entry_touch_self 1, rfl⟩
  le k' x' hx' := by
    rcases Cache.entry_touch_eq_some hx' with ⟨-, rfl⟩ | ⟨-, hx'⟩
    · exact le_rfl
    · exact h.pos k' x' hx'

end FreqLists

end MoeInfinity.Lib.LeastFrequent
