import Mathlib.Data.List.Basic
import Mathlib.Data.List.Induction

/-! # Dictionaries in the order of insertion

A list of entries with `List.lookup`. A new key goes to the end, and a key that is there keeps its
place. -/

namespace MoeInfinity.Lib.Dict

variable {κ α : Type*} [BEq κ]

def put (k : κ) (v : α) : List (κ × α) → List (κ × α)
  | [] => [(k, v)]
  | e :: d => if e.1 == k then (k, v) :: d else e :: put k v d

variable [LawfulBEq κ] {k : κ} {v : α} {d d' : List (κ × α)}

theorem put_cons_self {v₀ : α} : put k v ((k, v₀) :: d) = (k, v) :: d := by simp [put]

theorem put_cons_of_ne {e : κ × α} (h : e.1 ≠ k) : put k v (e :: d) = e :: put k v d :=
  by simp [put, h]

theorem lookup_eq_none : d.lookup k = none ↔ k ∉ d.map Prod.fst := by
  rw [List.lookup_eq_none_iff, List.mem_map]
  constructor
  · rintro h ⟨e, he, rfl⟩
    simpa using h e he
  · intro h e he
    simp only [bne_iff_ne, ne_eq]
    exact fun h0 => h ⟨e, he, h0.symm⟩

theorem mem_of_lookup (h : d.lookup k = some v) : (k, v) ∈ d := by
  obtain ⟨l, l', rfl, -⟩ := List.lookup_eq_some_iff.mp h
  exact List.mem_append_right l List.mem_cons_self

theorem put_of_not_mem (h : k ∉ d.map Prod.fst) : put k v d = d ++ [(k, v)] := by
  induction d with
  | nil => rfl
  | cons e d ih =>
    rw [List.map_cons, List.mem_cons, not_or] at h
    rw [put_cons_of_ne (Ne.symm h.1), ih h.2, List.cons_append]

theorem mem_of_mem_put {e : κ × α} (h : e ∈ put k v d) : e = (k, v) ∨ e ∈ d := by
  induction d with
  | nil => exact Or.inl (List.mem_singleton.mp h)
  | cons e' d ih =>
    by_cases hk : e'.1 = k
    · obtain ⟨ke, ve⟩ := e'
      obtain rfl : ke = k := hk
      rw [put_cons_self] at h
      exact (List.mem_cons.mp h).imp_right (List.mem_cons_of_mem _)
    · rw [put_cons_of_ne hk] at h
      rcases List.mem_cons.mp h with rfl | h
      · exact Or.inr List.mem_cons_self
      · exact (ih h).imp_right (List.mem_cons_of_mem _)

theorem lookup_put_self : (put k v d).lookup k = some v := by
  induction d with
  | nil => simp [put]
  | cons e d ih =>
    obtain ⟨ke, ve⟩ := e
    by_cases h : ke = k
    · simp [put, h]
    · have hbeq : (k == ke) = false := by simpa using Ne.symm h
      rw [put_cons_of_ne h]
      simpa [List.lookup_cons, hbeq] using ih

theorem lookup_put_of_ne {k' : κ} (hne : k' ≠ k) : (put k v d).lookup k' = d.lookup k' := by
  have hnew : (k' == k) = false := by simpa using hne
  induction d with
  | nil => simp [put, List.lookup_cons, hnew]
  | cons e d ih =>
    obtain ⟨ke, ve⟩ := e
    by_cases h : ke = k
    · subst h
      rw [put_cons_self]
      simp [List.lookup_cons, hnew]
    · rw [put_cons_of_ne h, List.lookup_cons, List.lookup_cons, ih]

theorem put_put_self {v' : α} : put k v' (put k v d) = put k v' d := by
  induction d with
  | nil => simp [put]
  | cons e d ih =>
    obtain ⟨ke, ve⟩ := e
    by_cases h : ke = k
    · subst h
      rw [put_cons_self, put_cons_self, put_cons_self]
    · rw [put_cons_of_ne h, put_cons_of_ne h, put_cons_of_ne h, ih]

theorem lookup_foldl_put (keys : List κ) :
    (keys.foldl (fun d key => put key v d) d).lookup k = if k ∈ keys then some v
    else d.lookup k := by
  induction keys generalizing d with
  | nil => simp
  | cons key keys ih =>
    rw [List.foldl_cons, ih]
    by_cases h : k = key
    · subst h
      rw [lookup_put_self, ite_self, if_pos List.mem_cons_self]
    · simp only [List.mem_cons, h, false_or, lookup_put_of_ne h]

/-- A dictionary is rebuilt from its entries. -/
theorem foldl_put_of_nodup (h : ((d ++ d').map Prod.fst).Nodup) :
    d'.foldl (fun d e => put e.1 e.2 d) d = d ++ d' := by
  induction d' generalizing d with
  | nil => simp
  | cons e d' ih =>
    have hmem : e.1 ∉ d.map Prod.fst := by
      rw [List.map_append, List.map_cons, List.nodup_append] at h
      exact fun hmem => h.2.2 _ hmem _ List.mem_cons_self rfl
    rw [List.foldl_cons, put_of_not_mem hmem, ih (by simpa using h), List.append_assoc]
    rfl

/-! ### The order of use -/

/-- The entry of `k` goes to the end. -/
def moveToEnd (k : κ) (d : List (κ × α)) : List (κ × α) :=
  d.filter (fun e => !(e.1 == k)) ++ ((d.lookup k).map (k, ·)).toList

theorem mem_of_mem_moveToEnd {e : κ × α} (he : e ∈ moveToEnd k d) : e ∈ d := by
  unfold moveToEnd at he
  rcases List.mem_append.mp he with he | he
  · exact List.mem_of_mem_filter he
  · obtain ⟨v, hv, rfl⟩ := Option.map_eq_some_iff.mp (Option.mem_toList.mp he)
    exact mem_of_lookup hv

theorem length_moveToEnd_le : (moveToEnd k d).length ≤ d.length := by
  unfold moveToEnd
  cases hk : d.lookup k with
  | none => simpa using List.length_filter_le _ _
  | some v =>
    have hlt : (d.filter fun e => !(e.1 == k)).length < d.length :=
      List.length_filter_lt_length_iff_exists.mpr ⟨(k, v), mem_of_lookup hk, by simp⟩
    rw [Option.map_some, Option.toList_some, List.length_append, List.length_singleton]
    exact hlt

/-! ### Entries that are started where there is none -/

section Update

variable {β : Type*} {a₀ : α} {f : β → α → α}

/-- `f` at the value of `k`, and at `a₀` where there is no value. -/
def update (k : κ) (f : α → α) (a₀ : α) (d : List (κ × α)) : List (κ × α) :=
  put k (f ((d.lookup k).getD a₀)) d

theorem update_update_self {g h : α → α} :
    update k h a₀ (update k g a₀ d) = update k (h ∘ g) a₀ d := by
  unfold update
  rw [lookup_put_self, put_put_self]
  rfl

theorem update_of_not_mem {g : α → α} (h : k ∉ d.map Prod.fst) :
    update k g a₀ d = d ++ [(k, g a₀)] := by
  unfold update
  rw [put_of_not_mem h, lookup_eq_none.mpr h]
  rfl

/-- Updates of one entry come to one update. -/
theorem foldl_update (b : β) (bs : List β) :
    (b :: bs).foldl (fun d b => update k (f b) a₀ d) d =
      update k (fun a => (b :: bs).foldl (fun a b => f b a) a) a₀ d := by
  induction bs using List.reverseRecOn with
  | nil => rfl
  | append_singleton bs b' ih =>
    rw [← List.cons_append, List.foldl_append, ih]
    simp only [List.foldl_cons, List.foldl_nil, List.foldl_append]
    exact update_update_self

/-- **Values grouped by their keys**: where the groups follow one another, each is an entry at the
end. -/
theorem foldl_groups {groups : List (κ × List β)} (hkeys : (groups.map Prod.fst).Nodup)
    (hnew : ∀ g ∈ groups, g.1 ∉ d.map Prod.fst) (hne : ∀ g ∈ groups, g.2 ≠ []) :
    (groups.flatMap fun g => g.2.map (g.1, ·)).foldl (fun d e => update e.1 (f e.2) a₀ d) d =
      d ++ groups.map fun g => (g.1, g.2.foldl (fun a b => f b a) a₀) := by
  induction groups generalizing d with
  | nil => simp
  | cons g groups ih =>
    obtain ⟨k, bs⟩ := g
    obtain ⟨b, bs, rfl⟩ := List.exists_cons_of_ne_nil (hne _ List.mem_cons_self)
    rw [List.map_cons, List.nodup_cons] at hkeys
    have hk : k ∉ d.map Prod.fst := hnew _ List.mem_cons_self
    have hfirst : ((b :: bs).map (k, ·)).foldl (fun d e => update e.1 (f e.2) a₀ d) d =
        d ++ [(k, (b :: bs).foldl (fun a b => f b a) a₀)] := by
      rw [List.foldl_map, foldl_update, update_of_not_mem hk]
    rw [List.flatMap_cons, List.foldl_append, hfirst, ih hkeys.2 (fun g hg => ?_)
      fun g hg => hne g (List.mem_cons_of_mem _ hg)]
    · simp
    · rw [List.map_append, List.mem_append, not_or]
      refine ⟨hnew g (List.mem_cons_of_mem _ hg), fun h => ?_⟩
      rw [List.map_singleton, List.mem_singleton] at h
      exact hkeys.1 (h ▸ List.mem_map_of_mem hg)

end Update

end MoeInfinity.Lib.Dict
