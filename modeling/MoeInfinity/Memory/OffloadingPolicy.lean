import Mathlib.Data.List.Count
import MoeInfinity.Lib.Dict
import MoeInfinity.Lib.Runs
import MoeInfinity.Python

/-! # Cache policies (`memory/offloading_policy.py`)

`LRUPolicy` evicts the least recently used entry. `ARCPolicy` keeps the entries used once in `t1`
and the others in `t2`, with the keys evicted from them in the ghost lists `b1` and `b2`, and adapts
the target size `p` of `t1` at each hit of a ghost.

An `OrderedDict` is the list of its entries, the oldest first, and one without values the list of
its keys. Whatever calls of `get`, `put` and `evict` are made, the four lists of an `ARCPolicy` keep
to their bounds, no key is looked for in vain, and `get` gives what was last put (`arc_run`). -/

namespace MoeInfinity.Memory.OffloadingPolicy

open MoeInfinity.Python MoeInfinity.Lib MoeInfinity.Lib.Imperative MoeInfinity.Lib.Runs

variable {κ ν : Type} [DecidableEq κ] [ToString κ]

/-! ### Ordered dictionaries -/

/-- `popitem(last=False)`. -/
def popitem {α : Type} : Prog PyError (List α) α := do
  let d ← current
  match d with
  | [] => raise (.keyError "'dictionary is empty'")
  | e :: rest =>
    update fun _ => rest
    return e

/-- `d.pop(key)`. -/
def pop (key : κ) : Prog PyError (List (κ × ν)) ν := do
  let d ← current
  match d.lookup key with
  | none => raise (.keyError (toString key))
  | some v =>
    update fun d => d.eraseP (·.1 == key)
    return v

/-- `d.pop(key)` for a dictionary without values. -/
def popGhost (key : κ) : Prog PyError (List κ) Unit := do
  let d ← current
  if key ∈ d then update fun d => d.erase key else raise (.keyError (toString key))

/-- `d[key] = None`. -/
def addGhost (key : κ) (d : List κ) : List κ := if key ∈ d then d else d ++ [key]

/-! ### Least recently used -/

structure LRUPolicy (κ ν : Type) where
  capacity : ℕ
  data : List (κ × ν)

namespace LRUPolicy

def new (capacity : ℤ) : Except PyError (LRUPolicy κ ν) :=
  if capacity ≤ 0 then
    .error (.valueError "capacity must be positive") else .ok ⟨capacity.toNat, []⟩

def len (s : LRUPolicy κ ν) : ℕ := s.data.length

/-- Run a method of the dictionary. -/
def onData {α : Type} (m : Prog PyError (List (κ × ν)) α) : Prog PyError (LRUPolicy κ ν) α :=
  zoom data (fun d s => { s with data := d }) m

/-- `data[key] = value` and `move_to_end(key, last=True)`. -/
def setLast (key : κ) (value : ν) (s : LRUPolicy κ ν) : LRUPolicy κ ν :=
  { s with data := s.data.eraseP (·.1 == key) ++ [(key, value)] }

def get (key : κ) : Prog PyError (LRUPolicy κ ν) (Option ν) := do
  let s ← current
  match s.data.lookup key with
  | none => return none
  | some v =>
    update (setLast key v)
    return some v

def put (key : κ) (value : ν) : Prog PyError (LRUPolicy κ ν) Unit := do
  let s ← current
  if key ∈ s.data.map Prod.fst then update (setLast key value)
  else
    if s.capacity ≤ s.len then
      let _ ← onData popitem
    else pure ()
    update fun s => { s with data := Dict.put key value s.data }

def evict : Prog PyError (LRUPolicy κ ν) (Option (κ × ν)) := do
  let s ← current
  match s.data with
  | [] => return none
  | _ :: _ =>
    let e ← onData popitem
    return some e

end LRUPolicy

/-! ### Adaptive replacement -/

structure ARCPolicy (κ ν : Type) where
  capacity : ℕ
  p : ℕ := 0
  t1 : List (κ × ν) := []
  t2 : List (κ × ν) := []
  b1 : List κ := []
  b2 : List κ := []

namespace ARCPolicy

def new (capacity : ℤ) : Except PyError (ARCPolicy κ ν) :=
  if capacity ≤ 0 then
    .error (.valueError "capacity must be positive") else .ok ⟨capacity.toNat, 0, [], [], [], []⟩

def len (s : ARCPolicy κ ν) : ℕ := s.t1.length + s.t2.length

def onT1 {α : Type} (m : Prog PyError (List (κ × ν)) α) : Prog PyError (ARCPolicy κ ν) α :=
  zoom t1 (fun d s => { s with t1 := d }) m

def onT2 {α : Type} (m : Prog PyError (List (κ × ν)) α) : Prog PyError (ARCPolicy κ ν) α :=
  zoom t2 (fun d s => { s with t2 := d }) m

def onB1 {α : Type} (m : Prog PyError (List κ) α) : Prog PyError (ARCPolicy κ ν) α :=
  zoom b1 (fun d s => { s with b1 := d }) m

def onB2 {α : Type} (m : Prog PyError (List κ) α) : Prog PyError (ARCPolicy κ ν) α :=
  zoom b2 (fun d s => { s with b2 := d }) m

/-- `t2[key] = value`. -/
def putT2 (key : κ) (value : ν) (s : ARCPolicy κ ν) : ARCPolicy κ ν :=
  { s with t2 := Dict.put key value s.t2 }

/-- The oldest entry of `t1` becomes a ghost in `b1`. -/
def demoteT1 : Prog PyError (ARCPolicy κ ν) (κ × ν) := do
  let e ← onT1 popitem
  update fun s => { s with b1 := addGhost e.1 s.b1 }
  return e

/-- The oldest entry of `t2` becomes a ghost in `b2`. -/
def demoteT2 : Prog PyError (ARCPolicy κ ν) (κ × ν) := do
  let e ← onT2 popitem
  update fun s => { s with b2 := addGhost e.1 s.b2 }
  return e

/-- `_replace`. -/
def replace (incomingKey : κ) : Prog PyError (ARCPolicy κ ν) Unit := do
  let s ← current
  if s.t1 ≠ [] ∧ (s.p < s.t1.length ∨ (incomingKey ∈ s.b2 ∧ s.t1.length = s.p)) then
    let _ ← demoteT1
  else if s.t2 ≠ [] then
    let _ ← demoteT2
  else if s.t1 ≠ [] then
    let _ ← demoteT1
  else pure ()

/-- `while len(self._b1) > self._capacity`; the list has at most `n` keys. -/
def trimB1 : ℕ → Prog PyError (ARCPolicy κ ν) Unit
  | 0 => pure ()
  | n + 1 => do
    let s ← current
    if s.capacity < s.b1.length then
      let _ ← onB1 popitem
      trimB1 n
    else pure ()

/-- `while len(self._b2) > self._capacity`; the list has at most `n` keys. -/
def trimB2 : ℕ → Prog PyError (ARCPolicy κ ν) Unit
  | 0 => pure ()
  | n + 1 => do
    let s ← current
    if s.capacity < s.b2.length then
      let _ ← onB2 popitem
      trimB2 n
    else pure ()

/-- `while len(self._b1) + len(self._b2) > self._capacity`; the lists have at most `n` keys. -/
def trimBoth : ℕ → Prog PyError (ARCPolicy κ ν) Unit
  | 0 => pure ()
  | n + 1 => do
    let s ← current
    if s.capacity < s.b1.length + s.b2.length then
      if s.b2.length ≤ s.b1.length ∧ s.b1 ≠ [] then
        let _ ← onB1 popitem
        trimBoth n
      else if s.b2 ≠ [] then
        let _ ← onB2 popitem
        trimBoth n
      else pure ()
    else pure ()

/-- `_trim_ghosts`. -/
def trimGhosts : Prog PyError (ARCPolicy κ ν) Unit := do
  let s ← current
  trimB1 s.b1.length
  let s ← current
  trimB2 s.b2.length
  let s ← current
  trimBoth (s.b1.length + s.b2.length)

def get (key : κ) : Prog PyError (ARCPolicy κ ν) (Option ν) := do
  let s ← current
  if key ∈ s.t1.map Prod.fst then
    let value ← onT1 (pop key)
    update (putT2 key value)
    return some value
  else if key ∈ s.t2.map Prod.fst then
    let value ← onT2 (pop key)
    update (putT2 key value)
    return some value
  else return none

/-- The part of `put` for a key in none of the lists. -/
def putNew (key : κ) (value : ν) : Prog PyError (ARCPolicy κ ν) Unit := do
  let s ← current
  let l1Size := s.t1.length + s.b1.length
  let total := s.len + s.b1.length + s.b2.length
  if l1Size = s.capacity then
    if s.t1.length < s.capacity then
      let _ ← onB1 popitem
      replace key
    else
      let _ ← onT1 popitem
  else if l1Size < s.capacity ∧ s.capacity ≤ total then
    if 2 * s.capacity ≤ total ∧ s.b2 ≠ [] then
      let _ ← onB2 popitem
      replace key
    else replace key
  else pure ()
  update fun s => { s with t1 := Dict.put key value s.t1 }
  trimGhosts

def put (key : κ) (value : ν) : Prog PyError (ARCPolicy κ ν) Unit := do
  let s ← current
  if key ∈ s.t1.map Prod.fst then
    let _ ← onT1 (pop key)
    update (putT2 key value)
  else if key ∈ s.t2.map Prod.fst then
    let _ ← onT2 (pop key)
    update (putT2 key value)
  else if key ∈ s.b1 then
    let delta := max 1 (s.b2.length / max 1 s.b1.length)
    update fun s => { s with p := min s.capacity (s.p + delta) }
    replace key
    onB1 (popGhost key)
    update (putT2 key value)
    trimGhosts
  else if key ∈ s.b2 then
    let delta := max 1 (s.b1.length / max 1 s.b2.length)
    update fun s => { s with p := s.p - delta }
    replace key
    onB2 (popGhost key)
    update (putT2 key value)
    trimGhosts
  else putNew key value

def evict : Prog PyError (ARCPolicy κ ν) (Option (κ × ν)) := do
  let s ← current
  if s.t1 ≠ [] then
    let e ← demoteT1
    trimGhosts
    return some e
  else if s.t2 ≠ [] then
    let e ← demoteT2
    trimGhosts
    return some e
  else return none

end ARCPolicy

/-! ### Keys -/

/-- The keys of a dictionary. -/
abbrev keys (d : List (κ × ν)) : List κ := d.map Prod.fst

omit [DecidableEq κ] [ToString κ] in
theorem key_mem_keys {e : κ × ν} {d : List (κ × ν)} (h : e ∈ d) : e.1 ∈ keys d :=
  List.mem_map_of_mem h

omit [ToString κ] in
theorem keys_eraseP (key : κ) (d : List (κ × ν)) :
    keys (d.eraseP (·.1 == key)) = (keys d).erase key := by
  induction d with
  | nil => rfl
  | cons e d ih =>
    by_cases h : e.1 = key
    · simp [keys, h]
    · rw [List.eraseP_cons_of_neg (by simpa using h), keys, keys, List.map_cons, List.map_cons,
        List.erase_cons_tail (by simpa using h)]
      exact congrArg _ ih

omit [ToString κ] in
theorem length_eraseP {key : κ} {d : List (κ × ν)} (h : key ∈ keys d) :
    (d.eraseP (·.1 == key)).length + 1 = d.length := by
  have hlen := List.length_erase_of_mem h
  rw [← keys_eraseP, List.length_map, List.length_map] at hlen
  have hpos := List.length_pos_of_mem h
  rw [List.length_map] at hpos
  omega

omit [ToString κ] in
theorem exists_lookup {key : κ} {d : List (κ × ν)} (h : key ∈ keys d) :
    ∃ v, d.lookup key = some v := by
  cases hv : d.lookup key with
  | none => exact absurd h (Dict.lookup_eq_none.mp hv)
  | some v => exact ⟨v, rfl⟩

namespace ARCPolicy

variable {s s' s'' : ARCPolicy κ ν} {key x : κ} {value w : ν}

/-- How often a key is in the four lists. -/
def places (s : ARCPolicy κ ν) (x : κ) : ℕ :=
  (keys s.t1).count x + (keys s.t2).count x + s.b1.count x + s.b2.count x

/-- Every key is in one of the four lists at most, and there once. -/
def Once (s : ARCPolicy κ ν) : Prop := ∀ x, s.places x ≤ 1

/-- The entry is in the cache. -/
def Resident (s : ARCPolicy κ ν) (e : κ × ν) : Prop := e ∈ s.t1 ∨ e ∈ s.t2

/-- **The bounds** of the four lists and of the target size. -/
structure Bounded (s : ARCPolicy κ ν) : Prop where
  pos : 0 < s.capacity
  once : Once s
  resident : s.t1.length + s.t2.length ≤ s.capacity
  recent : s.t1.length + s.b1.length ≤ s.capacity
  ghosts : s.b1.length + s.b2.length ≤ s.capacity
  target : s.p ≤ s.capacity

section Once

omit [ToString κ]

theorem Once.notMem_b1_of_t1 (h : Once s) (hx : x ∈ keys s.t1) : x ∉ s.b1 := fun h0 => by
  have h1 := h x
  have h2 := List.count_pos_iff.mpr hx
  have h3 := List.count_pos_iff.mpr h0
  unfold places at h1
  omega

theorem Once.notMem_b2_of_t2 (h : Once s) (hx : x ∈ keys s.t2) : x ∉ s.b2 := fun h0 => by
  have h1 := h x
  have h2 := List.count_pos_iff.mpr hx
  have h3 := List.count_pos_iff.mpr h0
  unfold places at h1
  omega

theorem Once.notMem_t2_of_t1 (h : Once s) (hx : x ∈ keys s.t1) : x ∉ keys s.t2 := fun h0 => by
  have h1 := h x
  have h2 := List.count_pos_iff.mpr hx
  have h3 := List.count_pos_iff.mpr h0
  unfold places at h1
  omega

theorem Once.eq_of_mem_t1 (h : Once s) (hv : (x, value) ∈ s.t1) (hw : (x, w) ∈ s.t1) :
    value = w := by
  have hnodup : (keys s.t1).Nodup := List.nodup_iff_count_le_one.mpr fun y => by
    have := h y
    unfold places at this
    omega
  exact congrArg Prod.snd (List.inj_on_of_nodup_map hnodup hv hw rfl)

theorem Once.eq_of_mem_t2 (h : Once s) (hv : (x, value) ∈ s.t2) (hw : (x, w) ∈ s.t2) :
    value = w := by
  have hnodup : (keys s.t2).Nodup := List.nodup_iff_count_le_one.mpr fun y => by
    have := h y
    unfold places at this
    omega
  exact congrArg Prod.snd (List.inj_on_of_nodup_map hnodup hv hw rfl)

/-- A key has one value. -/
theorem Once.value_unique (h : Once s) (hv : Resident s (x, value)) (hw : Resident s (x, w)) :
    value = w := by
  rcases hv with hv | hv <;> rcases hw with hw | hw
  · exact h.eq_of_mem_t1 hv hw
  · have hx : x ∈ keys s.t1 := key_mem_keys hv
    exact absurd (key_mem_keys hw) (h.notMem_t2_of_t1 hx)
  · have hx : x ∈ keys s.t1 := key_mem_keys hw
    exact absurd (key_mem_keys hv) (h.notMem_t2_of_t1 hx)
  · exact h.eq_of_mem_t2 hv hw

end Once

/-! ### Demotion, replacement and trimming -/

section Steps

variable {Q : κ × ν → ARCPolicy κ ν → Prop} {R : PyError → ARCPolicy κ ν → Prop} {e : κ × ν}
  {rest : List (κ × ν)}

omit [ToString κ] in
theorem wp_demoteT1 (h : Once s) (ht : s.t1 = e :: rest)
    (hQ : Q e { s with t1 := rest, b1 := s.b1 ++ [e.1] }) : wp demoteT1 Q R s := by
  have hnot : e.1 ∉ s.b1 := h.notMem_b1_of_t1 (by rw [ht]; exact List.mem_cons_self)
  simp only [demoteT1, onT1, popitem, wp_bind, wp_zoom, wp_current, wp_update,
    wp_pure, ht, addGhost, if_neg hnot]
  exact hQ

omit [ToString κ] in
theorem wp_demoteT2 (h : Once s) (ht : s.t2 = e :: rest)
    (hQ : Q e { s with t2 := rest, b2 := s.b2 ++ [e.1] }) : wp demoteT2 Q R s := by
  have hnot : e.1 ∉ s.b2 := h.notMem_b2_of_t2 (by rw [ht]; exact List.mem_cons_self)
  simp only [demoteT2, onT2, popitem, wp_bind, wp_zoom, wp_current, wp_update,
    wp_pure, ht, addGhost, if_neg hnot]
  exact hQ

/-- What a replacement can do: it demotes an entry, unless there is none. -/
inductive Replaced (s : ARCPolicy κ ν) : ARCPolicy κ ν → Prop where
  | fromT1 {e : κ × ν} {rest : List (κ × ν)} (ht : s.t1 = e :: rest) :
      Replaced s { s with t1 := rest, b1 := s.b1 ++ [e.1] }
  | fromT2 {e : κ × ν} {rest : List (κ × ν)} (ht : s.t2 = e :: rest) :
      Replaced s { s with t2 := rest, b2 := s.b2 ++ [e.1] }
  | nothing (h1 : s.t1 = []) (h2 : s.t2 = []) : Replaced s s

omit [ToString κ] in
theorem wp_replace (h : Once s) (key : κ) {R : PyError → ARCPolicy κ ν → Prop} :
    wp (replace key) (fun _ => Replaced s) R s := by
  have hfrom1 : s.t1 ≠ [] → wp demoteT1 (fun _ => Replaced s) R s := fun hne => by
    obtain ⟨e, rest, ht⟩ := List.exists_cons_of_ne_nil hne
    exact wp_demoteT1 h ht (.fromT1 ht)
  have hfrom2 : s.t2 ≠ [] → wp demoteT2 (fun _ => Replaced s) R s := fun hne => by
    obtain ⟨e, rest, ht⟩ := List.exists_cons_of_ne_nil hne
    exact wp_demoteT2 h ht (.fromT2 ht)
  simp only [replace, wp_bind, wp_current, wp_ite, wp_pure]
  refine ⟨fun h1 => hfrom1 h1.1, fun _ => ⟨hfrom2, fun h2 => ⟨hfrom1, fun h1 => ?_⟩⟩⟩
  rw [ne_eq, not_not] at h1 h2
  exact .nothing h1 h2

/-- What trimming does: old ghosts go, as long as there are too many. -/
structure Trimmed (s s' : ARCPolicy κ ν) : Prop where
  dropped : ∃ i j, s' = { s with b1 := s.b1.drop i, b2 := s.b2.drop j }
  ghosts : s'.b1.length + s'.b2.length ≤ s.capacity

omit [DecidableEq κ] [ToString κ] in
theorem wp_trimB1 {R : PyError → ARCPolicy κ ν → Prop} : ∀ (n : ℕ) (s : ARCPolicy κ ν),
    wp (trimB1 n) (fun _ s' => ∃ i, s' = { s with b1 := s.b1.drop i }) R s
  | 0, s => ⟨0, rfl⟩
  | n + 1, s => by
    simp only [trimB1, wp_bind, wp_current, wp_ite, wp_pure]
    refine ⟨fun hlt => ?_, fun _ => ⟨0, rfl⟩⟩
    cases hb : s.b1 with
    | nil =>
      rw [hb, List.length_nil] at hlt
      omega
    | cons x rest =>
      simp only [onB1, popitem, wp_zoom, wp_bind, wp_current, hb, wp_update, wp_pure]
      refine wp_mono (wp_trimB1 n _) ?_ fun _ _ h0 => h0
      rintro _ s' ⟨i, rfl⟩
      exact ⟨i + 1, rfl⟩

omit [DecidableEq κ] [ToString κ] in
theorem wp_trimB2 {R : PyError → ARCPolicy κ ν → Prop} : ∀ (n : ℕ) (s : ARCPolicy κ ν),
    wp (trimB2 n) (fun _ s' => ∃ j, s' = { s with b2 := s.b2.drop j }) R s
  | 0, s => ⟨0, rfl⟩
  | n + 1, s => by
    simp only [trimB2, wp_bind, wp_current, wp_ite, wp_pure]
    refine ⟨fun hlt => ?_, fun _ => ⟨0, rfl⟩⟩
    cases hb : s.b2 with
    | nil =>
      rw [hb, List.length_nil] at hlt
      omega
    | cons x rest =>
      simp only [onB2, popitem, wp_zoom, wp_bind, wp_current, hb, wp_update, wp_pure]
      refine wp_mono (wp_trimB2 n _) ?_ fun _ _ h0 => h0
      rintro _ s' ⟨j, rfl⟩
      exact ⟨j + 1, rfl⟩

omit [DecidableEq κ] [ToString κ] in
/-- The last loop ends with few enough ghosts: there is one to remove as long as there are too
many. -/
theorem wp_trimBoth {R : PyError → ARCPolicy κ ν → Prop} : ∀ (n : ℕ) (s : ARCPolicy κ ν),
    s.b1.length + s.b2.length ≤ n → wp (trimBoth n) (fun _ => Trimmed s) R s
  | 0, s, hn => ⟨⟨0, 0, rfl⟩, by omega⟩
  | n + 1, s, hn => by
    simp only [trimBoth, wp_bind, wp_current, wp_ite, wp_pure]
    refine ⟨fun hlt => ⟨fun hb => ?_, fun hb => ⟨fun hb2 => ?_, fun hb2 => ?_⟩⟩,
      fun hle => ⟨⟨0, 0, rfl⟩, by omega⟩⟩
    · obtain ⟨x, rest, hb1⟩ := List.exists_cons_of_ne_nil hb.2
      simp only [onB1, popitem, wp_zoom, wp_bind, wp_current, hb1, wp_update, wp_pure]
      rw [hb1, List.length_cons] at hn
      refine wp_mono (wp_trimBoth n _ (by simp only; omega)) ?_ fun _ _ h0 => h0
      rintro _ s' ⟨⟨i, j, rfl⟩, hg⟩
      exact ⟨⟨i + 1, j, by rw [hb1]; rfl⟩, hg⟩
    · obtain ⟨x, rest, hb2⟩ := List.exists_cons_of_ne_nil hb2
      simp only [onB2, popitem, wp_zoom, wp_bind, wp_current, hb2, wp_update, wp_pure]
      rw [hb2, List.length_cons] at hn
      refine wp_mono (wp_trimBoth n _ (by simp only; omega)) ?_ fun _ _ h0 => h0
      rintro _ s' ⟨⟨i, j, rfl⟩, hg⟩
      exact ⟨⟨i, j + 1, by rw [hb2]; rfl⟩, hg⟩
    · rw [ne_eq, not_not] at hb2
      rw [hb2, List.length_nil] at hlt hb
      have hne : s.b1 ≠ [] := fun h0 => by
        rw [h0, List.length_nil] at hlt
        omega
      exact absurd ⟨Nat.zero_le _, hne⟩ hb

omit [DecidableEq κ] [ToString κ] in
theorem wp_trimGhosts (s : ARCPolicy κ ν) {R : PyError → ARCPolicy κ ν → Prop} :
    wp trimGhosts (fun _ => Trimmed s) R s := by
  simp only [trimGhosts, wp_bind, wp_current]
  refine wp_mono (wp_trimB1 _ s) ?_ fun _ _ h0 => h0
  rintro _ s₁ ⟨i, rfl⟩
  refine wp_mono (wp_trimB2 _ _) ?_ fun _ _ h0 => h0
  rintro _ s₂ ⟨j, rfl⟩
  refine wp_mono (wp_trimBoth _ _ le_rfl) ?_ fun _ _ h0 => h0
  rintro _ s₃ ⟨⟨i', j', rfl⟩, hg⟩
  exact ⟨⟨i + i', j + j', by simp only [List.drop_drop]⟩, hg⟩

end Steps

/-! ### The operations -/

section Operations

variable {R : PyError → ARCPolicy κ ν → Prop}

theorem wp_popT1 (hx : key ∈ keys s.t1) {Q : ν → ARCPolicy κ ν → Prop}
    (hQ : ∀ v, (key, v) ∈ s.t1 → Q v { s with t1 := s.t1.eraseP (·.1 == key) }) :
    wp (onT1 (pop key)) Q R s := by
  obtain ⟨v, hv⟩ := exists_lookup hx
  simp only [onT1, pop, wp_zoom, wp_bind, wp_current, hv, wp_update, wp_pure]
  exact hQ v (Dict.mem_of_lookup hv)

theorem wp_popT2 (hx : key ∈ keys s.t2) {Q : ν → ARCPolicy κ ν → Prop}
    (hQ : ∀ v, (key, v) ∈ s.t2 → Q v { s with t2 := s.t2.eraseP (·.1 == key) }) :
    wp (onT2 (pop key)) Q R s := by
  obtain ⟨v, hv⟩ := exists_lookup hx
  simp only [onT2, pop, wp_zoom, wp_bind, wp_current, hv, wp_update, wp_pure]
  exact hQ v (Dict.mem_of_lookup hv)

/-- The state after an entry of `t1` has moved to `t2`. -/
def movedT1 (key : κ) (value : ν) (s : ARCPolicy κ ν) : ARCPolicy κ ν :=
  { s with t1 := s.t1.eraseP (·.1 == key), t2 := s.t2 ++ [(key, value)] }

/-- The state after an entry of `t2` has moved to the end. -/
def movedT2 (key : κ) (value : ν) (s : ARCPolicy κ ν) : ARCPolicy κ ν :=
  { s with t2 := s.t2.eraseP (·.1 == key) ++ [(key, value)] }

/-- The entries of `s'` are those of `s`, but for the key with its value. -/
def Sets (key : κ) (value : ν) (s s' : ARCPolicy κ ν) : Prop :=
  ∀ e, Resident s' e ↔ e = (key, value) ∨ (Resident s e ∧ e.1 ≠ key)

omit [ToString κ] in
theorem notMem_eraseP {d : List (κ × ν)} (h : (keys d).count key ≤ 1) :
    key ∉ keys (d.eraseP (·.1 == key)) := by
  rw [keys_eraseP, ← List.count_eq_zero, List.count_erase_self]
  omega

omit [ToString κ] in
theorem Once.count_t2_le (h : Once s) (x : κ) : (keys s.t2).count x ≤ 1 := by
  have := h x
  unfold places at this
  omega

omit [ToString κ] in
theorem mem_eraseP_iff {d : List (κ × ν)} (h : ∀ y, (keys d).count y ≤ 1) {e : κ × ν} :
    e ∈ d.eraseP (·.1 == key) ↔ e ∈ d ∧ e.1 ≠ key := by
  constructor
  · intro he
    refine ⟨List.mem_of_mem_eraseP he, fun h0 => ?_⟩
    have hmem := key_mem_keys he
    rw [keys_eraseP, h0] at hmem
    have hcount := List.count_pos_iff.mpr hmem
    rw [List.count_erase_self] at hcount
    have := h key
    omega
  · exact fun he => (List.mem_eraseP_of_neg (by simpa using he.2)).mpr he.1

omit [ToString κ] in
theorem movedT1_spec (h : Bounded s) (hx : key ∈ keys s.t1) (value : ν) :
    Bounded (movedT1 key value s) ∧ Sets key value s (movedT1 key value s) := by
  have hlen := length_eraseP hx
  constructor
  · refine ⟨h.pos, fun y => ?_, ?_, ?_, h.ghosts, h.target⟩
    · have honce := h.once y
      have hpos := List.count_pos_iff.mpr hx
      simp only [places, movedT1, keys_eraseP, keys, List.map_append, List.map_cons, List.map_nil,
        List.count_append, List.count_erase, List.count_cons, List.count_nil,
        beq_iff_eq] at honce hpos ⊢
      split_ifs with hy
      · subst hy
        omega
      · omega
    · have := h.resident
      simp only [movedT1, List.length_append, List.length_singleton]
      omega
    · have := h.recent
      simp only [movedT1]
      omega
  · intro e
    have honce : ∀ y, (keys s.t1).count y ≤ 1 := fun y => by
      have := h.once y; unfold places at this; omega
    have hnot := h.once.notMem_t2_of_t1 hx
    simp only [Resident, movedT1, mem_eraseP_iff honce, List.mem_append, List.mem_singleton]
    constructor
    · rintro (he | he | he)
      · exact Or.inr ⟨Or.inl he.1, he.2⟩
      · exact Or.inr ⟨Or.inr he, fun h0 => hnot (h0 ▸ key_mem_keys he)⟩
      · exact Or.inl he
    · rintro (he | ⟨he | he, hne⟩)
      · exact Or.inr (Or.inr he)
      · exact Or.inl ⟨he, hne⟩
      · exact Or.inr (Or.inl he)

omit [ToString κ] in
theorem movedT2_spec (h : Bounded s) (hx : key ∈ keys s.t2) (value : ν) :
    Bounded (movedT2 key value s) ∧ Sets key value s (movedT2 key value s) := by
  have hlen := length_eraseP hx
  constructor
  · refine ⟨h.pos, fun y => ?_, ?_, h.recent, h.ghosts, h.target⟩
    · have honce := h.once y
      have hpos := List.count_pos_iff.mpr hx
      simp only [places, movedT2, keys_eraseP, keys, List.map_append, List.map_cons, List.map_nil,
        List.count_append, List.count_erase, List.count_cons, List.count_nil,
        beq_iff_eq] at honce hpos ⊢
      split_ifs with hy
      · subst hy
        omega
      · omega
    · have := h.resident
      simp only [movedT2, List.length_append, List.length_singleton]
      omega
  · intro e
    have honce : ∀ y, (keys s.t2).count y ≤ 1 := fun y => by
      have := h.once y; unfold places at this; omega
    have hnot : key ∉ keys s.t1 := fun h0 => h.once.notMem_t2_of_t1 h0 hx
    simp only [Resident, movedT2, mem_eraseP_iff honce, List.mem_append, List.mem_singleton]
    constructor
    · rintro (he | he | he)
      · exact Or.inr ⟨Or.inl he, fun h0 => hnot (h0 ▸ key_mem_keys he)⟩
      · exact Or.inr ⟨Or.inr he.1, he.2⟩
      · exact Or.inl he
    · rintro (he | ⟨he | he, hne⟩)
      · exact Or.inr (Or.inr he)
      · exact Or.inl he
      · exact Or.inr (Or.inl ⟨he, hne⟩)

omit [ToString κ] in
theorem Replaced.places (h : Replaced s s') (x : κ) : s'.places x = s.places x := by
  cases h with
  | fromT1 ht =>
    simp only [ARCPolicy.places, ht, keys, List.map_cons, List.count_append, List.count_cons,
      List.count_nil]
    omega
  | fromT2 ht =>
    simp only [ARCPolicy.places, ht, keys, List.map_cons, List.count_append, List.count_cons,
      List.count_nil]
    omega
  | nothing => rfl

omit [DecidableEq κ] [ToString κ] in
theorem Replaced.resident (h : Replaced s s') {e : κ × ν} (he : Resident s' e) : Resident s e := by
  cases h with
  | fromT1 ht =>
    rcases he with he | he
    · exact Or.inl (by rw [ht]; exact List.mem_cons_of_mem _ he)
    · exact Or.inr he
  | fromT2 ht =>
    rcases he with he | he
    · exact Or.inl he
    · exact Or.inr (by rw [ht]; exact List.mem_cons_of_mem _ he)
  | nothing => exact he

/-- The sizes after a replacement: one entry less, if there is one, and one ghost more. -/
structure Sizes (s s' : ARCPolicy κ ν) : Prop where
  capacity : s'.capacity = s.capacity
  target : s'.p = s.p
  entries : s'.len + 1 = s.len ∨ (s.len = 0 ∧ s'.len = 0)
  recent : s'.t1.length + s'.b1.length = s.t1.length + s.b1.length
  b1 : s.b1.Sublist s'.b1
  b2 : s.b2.Sublist s'.b2

omit [DecidableEq κ] [ToString κ] in
theorem Replaced.sizes (h : Replaced s s') : Sizes s s' := by
  cases h with
  | fromT1 ht =>
    refine ⟨rfl, rfl, Or.inl ?_, ?_, List.sublist_append_left _ _, List.Sublist.refl _⟩
    · simp only [len, ht, List.length_cons]
      omega
    · simp only [ht, List.length_cons, List.length_append, List.length_nil]
      omega
  | fromT2 ht =>
    refine ⟨rfl, rfl, Or.inl ?_, rfl, List.Sublist.refl _, List.sublist_append_left _ _⟩
    simp only [len, ht, List.length_cons]
    omega
  | nothing h1 h2 =>
    exact ⟨rfl, rfl, Or.inr (by simp [len, h1, h2]), rfl, List.Sublist.refl _, List.Sublist.refl _⟩

/-- Trimming keeps what is bounded but for the ghosts. -/
structure Trimmable (s : ARCPolicy κ ν) : Prop where
  pos : 0 < s.capacity
  once : Once s
  resident : s.t1.length + s.t2.length ≤ s.capacity
  recent : s.t1.length + s.b1.length ≤ s.capacity
  target : s.p ≤ s.capacity

omit [ToString κ] in
theorem Trimmable.bounded (h : Trimmable s) (ht : Trimmed s s') : Bounded s' := by
  obtain ⟨⟨i, j, rfl⟩, hg⟩ := ht
  refine ⟨h.pos, fun x => ?_, h.resident, ?_, hg, h.target⟩
  · have honce := h.once x
    have h1 := (List.drop_sublist i s.b1).count_le x
    have h2 := (List.drop_sublist j s.b2).count_le x
    simp only [places] at honce ⊢
    omega
  · have hrecent := h.recent
    simp only [List.length_drop]
    omega

/-- What `put` does: the key is there with its value, and no other entry is new. -/
structure Stored (key : κ) (value : ν) (s s' : ARCPolicy κ ν) : Prop where
  bounded : Bounded s'
  capacity : s'.capacity = s.capacity
  stored : Resident s' (key, value)
  others : ∀ e, Resident s' e → e = (key, value) ∨ (Resident s e ∧ e.1 ≠ key)

omit [ToString κ] in
theorem stored_of_sets (hb : Bounded s') (hc : s'.capacity = s.capacity) (h : Sets key value s s') :
    Stored key value s s' :=
  ⟨hb, hc, (h _).mpr (Or.inl rfl), fun e he => (h e).mp he⟩

omit [DecidableEq κ] [ToString κ] in
theorem Trimmed.resident (h : Trimmed s s') {e : κ × ν} : Resident s' e ↔ Resident s e := by
  obtain ⟨⟨i, j, rfl⟩, -⟩ := h
  exact Iff.rfl

omit [DecidableEq κ] [ToString κ] in
theorem Trimmed.capacity (h : Trimmed s s') : s'.capacity = s.capacity := by
  obtain ⟨⟨i, j, rfl⟩, -⟩ := h
  rfl

/-- A key that is nowhere can be added where there is room. -/
structure Roomy (key : κ) (s : ARCPolicy κ ν) : Prop where
  pos : 0 < s.capacity
  once : Once s
  absent : s.places key = 0
  room : s.len < s.capacity
  recent : s.t1.length + s.b1.length ≤ s.capacity
  target : s.p ≤ s.capacity

omit [ToString κ] in
theorem Roomy.notMem (h : Roomy key s) : key ∉ keys s.t1 ∧ key ∉ keys s.t2 := by
  have habsent := h.absent
  unfold places at habsent
  constructor <;> rw [← List.count_eq_zero] <;> omega

omit [ToString κ] in
theorem Roomy.inT2 (h : Roomy key s) (value : ν) :
    Trimmable { s with t2 := s.t2 ++ [(key, value)] } := by
  refine ⟨h.pos, fun x => ?_, ?_, h.recent, h.target⟩
  · have honce := h.once x
    have habsent := h.absent
    simp only [places, keys, List.map_append, List.map_cons, List.map_nil, List.count_append,
      List.count_cons, List.count_nil, beq_iff_eq] at honce habsent ⊢
    split_ifs with hx
    · subst hx
      omega
    · omega
  · have hroom := h.room
    simp only [len, List.length_append, List.length_singleton] at hroom ⊢
    omega

omit [ToString κ] in
theorem Roomy.inT1 (h : Roomy key s) (hrecent : s.t1.length + s.b1.length < s.capacity)
    (value : ν) :
    Trimmable { s with t1 := s.t1 ++ [(key, value)] } := by
  refine ⟨h.pos, fun x => ?_, ?_, ?_, h.target⟩
  · have honce := h.once x
    have habsent := h.absent
    simp only [places, keys, List.map_append, List.map_cons, List.map_nil, List.count_append,
      List.count_cons, List.count_nil, beq_iff_eq] at honce habsent ⊢
    split_ifs with hx
    · subst hx
      omega
    · omega
  · have hroom := h.room
    simp only [len, List.length_append, List.length_singleton] at hroom ⊢
    omega
  · simp only [List.length_append, List.length_singleton]
    omega

omit [ToString κ] in
theorem Roomy.ne_key (h : Roomy key s) {e : κ × ν} (he : Resident s e) : e.1 ≠ key := by
  rintro rfl
  rcases he with he | he
  · exact h.notMem.1 (key_mem_keys he)
  · exact h.notMem.2 (key_mem_keys he)

omit [ToString κ] in
theorem Roomy.stored {s₀ s₁ : ARCPolicy κ ν} (h : Roomy key s₁) (hb : Bounded s')
    (hcap : s'.capacity = s₀.capacity) (hsub : ∀ e, Resident s₁ e → Resident s₀ e)
    (hiff : ∀ e, Resident s' e ↔ Resident s₁ e ∨ e = (key, value)) : Stored key value s₀ s' := by
  refine ⟨hb, hcap, (hiff _).mpr (Or.inr rfl), fun e he => ?_⟩
  rcases (hiff e).mp he with he | he
  · exact Or.inr ⟨hsub e he, h.ne_key he⟩
  · exact Or.inl he

omit [ToString κ] in
/-- Adding to `t2` and trimming. -/
theorem wp_addT2 {s₀ : ARCPolicy κ ν} (h : Roomy key s) (hcap : s.capacity = s₀.capacity)
    (hsub : ∀ e, Resident s e → Resident s₀ e) (value : ν) :
    wp trimGhosts (fun _ => Stored key value s₀) R (putT2 key value s) := by
  rw [putT2, Dict.put_of_not_mem h.notMem.2]
  refine wp_mono (wp_trimGhosts _) ?_ fun _ _ h0 => h0
  intro _ s₂ h₂
  refine h.stored ((h.inT2 value).bounded h₂) (h₂.capacity.trans hcap) hsub fun e => ?_
  rw [h₂.resident]
  simp only [Resident, List.mem_append, List.mem_singleton, or_assoc]

omit [ToString κ] in
/-- Adding to `t1` and trimming. -/
theorem wp_addT1 {s₀ : ARCPolicy κ ν} (h : Roomy key s)
    (hrecent : s.t1.length + s.b1.length < s.capacity) (hcap : s.capacity = s₀.capacity)
    (hsub : ∀ e, Resident s e → Resident s₀ e) (value : ν) :
    wp trimGhosts (fun _ => Stored key value s₀) R { s with t1 := Dict.put key value s.t1 } := by
  rw [Dict.put_of_not_mem h.notMem.1]
  refine wp_mono (wp_trimGhosts _) ?_ fun _ _ h0 => h0
  intro _ s₂ h₂
  refine h.stored ((h.inT1 hrecent value).bounded h₂) (h₂.capacity.trans hcap) hsub fun e => ?_
  rw [h₂.resident]
  simp only [Resident, List.mem_append, List.mem_singleton, or_assoc,
    or_comm (a := e = (key, value))]

omit [ToString κ] in
/-- After a replacement there is room. -/
theorem Replaced.room (h : Replaced s s') (hb : Bounded s) : s'.len < s'.capacity := by
  obtain ⟨hcap, -, hentries, -, -, -⟩ := h.sizes
  have hresident := hb.resident
  have hpos := hb.pos
  unfold len at hentries ⊢
  omega

omit [ToString κ] in
theorem Once.eraseB1 (h : Once s) (hx : key ∈ s.b1) : Once { s with b1 := s.b1.erase key } ∧
    ({ s with b1 := s.b1.erase key } : ARCPolicy κ ν).places key = 0 := by
  have hpos := List.count_pos_iff.mpr hx
  constructor
  · intro y
    have honce := h y
    have hle := (List.erase_sublist (l := s.b1) (a := key)).count_le y
    simp only [places] at honce ⊢
    omega
  · have honce := h key
    simp only [places, List.count_erase_self] at honce ⊢
    omega

omit [ToString κ] in
theorem Once.eraseB2 (h : Once s) (hx : key ∈ s.b2) : Once { s with b2 := s.b2.erase key } ∧
    ({ s with b2 := s.b2.erase key } : ARCPolicy κ ν).places key = 0 := by
  have hpos := List.count_pos_iff.mpr hx
  constructor
  · intro y
    have honce := h y
    have hle := (List.erase_sublist (l := s.b2) (a := key)).count_le y
    simp only [places] at honce ⊢
    omega
  · have honce := h key
    simp only [places, List.count_erase_self] at honce ⊢
    omega

omit [ToString κ] in
theorem Replaced.once (h : Replaced s s') (honce : Once s) : Once s' := fun x => by
  rw [h.places]
  exact honce x

/-- A ghost of `b1` comes back: an entry makes room, if there is one. -/
theorem wp_reviveB1 (h : Bounded s) (hx : key ∈ s.b1) (value : ν) : wp (do
    replace key
    onB1 (popGhost key)
    update (putT2 key value)
    trimGhosts) (fun _ => Stored key value s) R s := by
  rw [wp_bind]
  refine wp_mono (wp_replace h.once key) ?_ fun _ _ h0 => h0
  intro _ s₁ h₁
  obtain ⟨hcap, htarget, -, hrecent, hb1, -⟩ := h₁.sizes
  have hx₁ : key ∈ s₁.b1 := hb1.subset hx
  have hlen := List.length_erase_of_mem hx₁
  obtain ⟨honce, habsent⟩ := (h₁.once h.once).eraseB1 hx₁
  simp only [onB1, popGhost, wp_zoom, wp_bind, wp_current, hx₁, if_true, wp_update]
  refine wp_addT2 ⟨hcap ▸ h.pos, honce, habsent, h₁.room h, ?_,
    htarget.trans_le (hcap ▸ h.target)⟩ hcap (fun e he => h₁.resident he) value
  have := h.recent
  simp only
  omega

/-- A ghost of `b2` comes back: an entry makes room, if there is one. -/
theorem wp_reviveB2 (h : Bounded s) (hx : key ∈ s.b2) (value : ν) : wp (do
    replace key
    onB2 (popGhost key)
    update (putT2 key value)
    trimGhosts) (fun _ => Stored key value s) R s := by
  rw [wp_bind]
  refine wp_mono (wp_replace h.once key) ?_ fun _ _ h0 => h0
  intro _ s₁ h₁
  obtain ⟨hcap, htarget, -, hrecent, -, hb2⟩ := h₁.sizes
  have hx₁ : key ∈ s₁.b2 := hb2.subset hx
  obtain ⟨honce, habsent⟩ := (h₁.once h.once).eraseB2 hx₁
  simp only [onB2, popGhost, wp_zoom, wp_bind, wp_current, hx₁, if_true, wp_update]
  refine wp_addT2 ⟨hcap ▸ h.pos, honce, habsent, h₁.room h, ?_,
    htarget.trans_le (hcap ▸ h.target)⟩ hcap (fun e he => h₁.resident he) value
  have := h.recent
  simp only
  omega

omit [ToString κ] in
theorem Bounded.popB1 (h : Bounded s) {rest : List κ} (hb : s.b1 = x :: rest) :
    Bounded { s with b1 := rest } ∧ ∀ y, ({ s with b1 := rest } : ARCPolicy κ ν).places y ≤
      s.places y := by
  have hplaces : ∀ y, ({ s with b1 := rest } : ARCPolicy κ ν).places y ≤ s.places y := by
    intro y
    simp only [places, hb, List.count_cons]
    omega
  have hrecent := h.recent
  have hghosts := h.ghosts
  rw [hb, List.length_cons] at hrecent hghosts
  refine ⟨⟨h.pos, fun y => (hplaces y).trans (h.once y), h.resident, ?_, ?_, h.target⟩, hplaces⟩
  · simp only
    omega
  · simp only
    omega

omit [ToString κ] in
theorem Bounded.popB2 (h : Bounded s) {rest : List κ} (hb : s.b2 = x :: rest) :
    Bounded { s with b2 := rest } ∧ ∀ y, ({ s with b2 := rest } : ARCPolicy κ ν).places y ≤
      s.places y := by
  have hplaces : ∀ y, ({ s with b2 := rest } : ARCPolicy κ ν).places y ≤ s.places y := by
    intro y
    simp only [places, hb, List.count_cons]
    omega
  have hghosts := h.ghosts
  rw [hb, List.length_cons] at hghosts
  refine ⟨⟨h.pos, fun y => (hplaces y).trans (h.once y), h.resident, h.recent, ?_, h.target⟩,
    hplaces⟩
  simp only
  omega

omit [ToString κ] in
/-- **A new key**: the directory of `t1` and `b1` has room for it when it is added. -/
theorem wp_putNew (h : Bounded s) (habsent : s.places key = 0) (value : ν) :
    wp (putNew key value) (fun _ => Stored key value s) R s := by
  have hresident := h.resident
  have hrecent := h.recent
  have hpos := h.pos
  -- What is left to do once there is room, after a replacement or without one.
  have hadd : ∀ s₁ : ARCPolicy κ ν, s₁.capacity = s.capacity → s₁.p = s.p →
      (∀ x, s₁.places x ≤ s.places x) → (∀ e, Resident s₁ e → Resident s e) → s₁.len < s.capacity →
      s₁.t1.length + s₁.b1.length < s.capacity →
      wp trimGhosts (fun _ => Stored key value s) R { s₁ with t1 := Dict.put key value s₁.t1 } := by
    intro s₁ hcap htarget hplaces hsub hroom hlt
    rw [← hcap] at hroom hlt
    exact wp_addT1 ⟨hcap ▸ hpos, fun x => (hplaces x).trans (h.once x),
      Nat.le_zero.mp ((hplaces key).trans habsent.le), hroom, hlt.le,
      htarget.trans_le (hcap ▸ h.target)⟩ hlt hcap
      hsub value
  have hreplace : ∀ s₀ : ARCPolicy κ ν, Bounded s₀ → s₀.capacity = s.capacity → s₀.p = s.p →
      (∀ x, s₀.places x ≤ s.places x) → (∀ e, Resident s₀ e → Resident s e) →
      s₀.t1.length + s₀.b1.length < s.capacity → wp (replace key) (fun _ s₁ =>
        wp trimGhosts (fun _ => Stored key value s) R
            { s₁ with t1 := Dict.put key value s₁.t1 }) R s₀ := by
    intro s₀ h₀ hcap₀ htarget₀ hplaces hsub hlt
    refine wp_mono (wp_replace h₀.once key) ?_ fun _ _ h0 => h0
    intro _ s₁ h₁
    obtain ⟨hcap, htarget, -, hrecent₁, -, -⟩ := h₁.sizes
    have hroom := h₁.room h₀
    rw [hcap, hcap₀] at hroom
    exact hadd s₁ (hcap.trans hcap₀) (htarget.trans htarget₀)
      (fun y => (h₁.places y).trans_le (hplaces y)) (fun e he => hsub e (h₁.resident he)) hroom
      (hrecent₁.trans_lt hlt)
  simp only [putNew, wp_bind, wp_current, wp_ite, wp_update]
  refine ⟨fun hfull => ⟨fun hlt => ?_, fun hge => ?_⟩,
    fun hnot => ⟨fun hmany => ⟨fun htwice => ?_, fun _ => ?_⟩, fun hfew => ?_⟩⟩
  · -- The oldest ghost of `b1` goes.
    have hne : s.b1 ≠ [] := fun h0 => by
      rw [h0, List.length_nil] at hfull
      omega
    obtain ⟨x, rest, hb⟩ := List.exists_cons_of_ne_nil hne
    obtain ⟨h₀, hplaces⟩ := h.popB1 hb
    rw [hb, List.length_cons] at hfull
    simp only [onB1, popitem, wp_zoom, wp_bind, wp_current, hb, wp_update, wp_pure]
    exact hreplace _ h₀ rfl rfl hplaces (fun _ he => he) (by simp only; omega)
  · -- `t1` is full, and the other entries are none: the oldest one goes for good.
    have hne : s.t1 ≠ [] := fun h0 => by
      rw [h0, List.length_nil] at hge
      omega
    obtain ⟨e, rest, ht⟩ := List.exists_cons_of_ne_nil hne
    rw [ht, List.length_cons] at hresident hrecent
    simp only [onT1, popitem, wp_zoom, wp_bind, wp_current, ht, wp_update, wp_pure]
    refine hadd { s with t1 := rest } rfl rfl (fun y => ?_) (fun e' he' => ?_) ?_ ?_
    · simp only [places, ht, keys, List.map_cons, List.count_cons]
      omega
    · exact he'.imp_left fun h0 => by rw [ht]; exact List.mem_cons_of_mem _ h0
    · simp only [len]
      omega
    · simp only
      omega
  · obtain ⟨x, rest, hb⟩ := List.exists_cons_of_ne_nil htwice.2
    obtain ⟨h₀, hplaces⟩ := h.popB2 hb
    simp only [onB2, popitem, wp_zoom, wp_bind, wp_current, hb, wp_update, wp_pure]
    exact hreplace _ h₀ rfl rfl hplaces (fun _ he => he) hmany.1
  · exact hreplace s h rfl rfl (fun _ => le_rfl) (fun _ he => he) hmany.1
  · have hlt : s.t1.length + s.b1.length < s.capacity := lt_of_le_of_ne hrecent hnot
    refine hadd s rfl rfl (fun _ => le_rfl) (fun _ he => he) ?_ hlt
    rw [not_and, not_le] at hfew
    have := hfew hlt
    omega

/-- **`put`** stores the key and keeps the bounds. -/
theorem wp_put (h : Bounded s) (key : κ) (value : ν) :
    wp (put key value) (fun _ => Stored key value s) R s := by
  simp only [put, wp_bind, wp_current, wp_ite]
  refine ⟨fun hx => ?_,
    fun h1 => ⟨fun hx => ?_, fun h2 => ⟨fun hx => ?_, fun h3 => ⟨fun hx => ?_, fun h4 => ?_⟩⟩⟩⟩
  · refine wp_popT1 hx fun v _ => ?_
    obtain ⟨hb, hsets⟩ := movedT1_spec h hx value
    rw [wp_update, putT2, Dict.put_of_not_mem (h.once.notMem_t2_of_t1 hx)]
    exact stored_of_sets hb rfl hsets
  · refine wp_popT2 hx fun v _ => ?_
    obtain ⟨hb, hsets⟩ := movedT2_spec h hx value
    have hnot : key ∉ keys (s.t2.eraseP (·.1 == key)) := notMem_eraseP (h.once.count_t2_le key)
    rw [wp_update, putT2, Dict.put_of_not_mem hnot]
    exact stored_of_sets hb rfl hsets
  · have hb :
        Bounded { s with p := min s.capacity (s.p + max 1 (s.b2.length / max 1 s.b1.length)) } :=
      ⟨h.pos, h.once, h.resident, h.recent, h.ghosts, min_le_left _ _⟩
    have hrevive : wp _ (fun _ => Stored key value s) R _ := wp_mono (wp_reviveB1 hb hx value)
      (fun _ _ h0 => ⟨h0.bounded, h0.capacity, h0.stored, h0.others⟩) fun _ _ h0 => h0
    simpa only [wp_bind, wp_update] using hrevive
  · have hb : Bounded { s with p := s.p - max 1 (s.b1.length / max 1 s.b2.length) } :=
      ⟨h.pos, h.once, h.resident, h.recent, h.ghosts, (Nat.sub_le _ _).trans h.target⟩
    have hrevive : wp _ (fun _ => Stored key value s) R _ := wp_mono (wp_reviveB2 hb hx value)
      (fun _ _ h0 => ⟨h0.bounded, h0.capacity, h0.stored, h0.others⟩) fun _ _ h0 => h0
    simpa only [wp_bind, wp_update] using hrevive
  · refine wp_putNew h ?_ value
    have hc1 : (keys s.t1).count key = 0 := List.count_eq_zero.mpr h1
    have hc2 : (keys s.t2).count key = 0 := List.count_eq_zero.mpr h2
    have hc3 := List.count_eq_zero.mpr h3
    have hc4 := List.count_eq_zero.mpr h4
    unfold places
    omega

/-- **`get`** gives the value of an entry, and the entries stay. -/
theorem wp_get (h : Bounded s) (key : κ) :
    wp (get key) (fun r s' => Bounded s' ∧ s'.capacity = s.capacity ∧
      (∀ e, Resident s' e ↔ Resident s e) ∧
      ∀ v, r = some v ↔ Resident s (key, v)) R s := by
  have hsame : ∀ {v : ν} {s' : ARCPolicy κ ν}, Resident s (key, v) → Sets key v s s' →
      (∀ e, Resident s' e ↔ Resident s e) ∧ ∀ w, some v = some w ↔ Resident s (key, w) := by
    intro v s' hv hsets
    refine ⟨fun e => ?_, fun w => ⟨fun hw => Option.some.inj hw ▸ hv, fun hw => congrArg some ?_⟩⟩
    · rw [hsets]
      constructor
      · rintro (rfl | he)
        · exact hv
        · exact he.1
      · intro he
        by_cases hk : e.1 = key
        · left
          exact Prod.ext hk (h.once.value_unique (x := key) (hk ▸ he) hv)
        · exact Or.inr ⟨he, hk⟩
    · exact h.once.value_unique hv hw
  simp only [get, wp_bind, wp_current, wp_ite, wp_pure, wp_update]
  refine ⟨fun hx => wp_popT1 hx fun v hv => ?_,
    fun h1 => ⟨fun hx => wp_popT2 hx fun v hv => ?_, fun h2 => ?_⟩⟩
  · obtain ⟨hb, hsets⟩ := movedT1_spec h hx v
    rw [putT2, Dict.put_of_not_mem (h.once.notMem_t2_of_t1 hx)]
    exact ⟨hb, rfl, hsame (Or.inl hv) hsets⟩
  · obtain ⟨hb, hsets⟩ := movedT2_spec h hx v
    rw [putT2, Dict.put_of_not_mem (notMem_eraseP (h.once.count_t2_le key))]
    exact ⟨hb, rfl, hsame (Or.inr hv) hsets⟩
  · refine ⟨h, trivial, fun _ => trivial,
      fun v => ⟨fun hr => absurd hr.symm (Option.some_ne_none v), fun hv => ?_⟩⟩
    rcases hv with hv | hv
    · exact absurd (key_mem_keys hv) h1
    · exact absurd (key_mem_keys hv) h2

omit [ToString κ] in
/-- The first entry of a dictionary leaves it. -/
theorem mem_tail_iff {e e' : κ × ν} {d rest : List (κ × ν)} (h : ∀ y, (keys d).count y ≤ 1)
    (hd : d = e :: rest) : e' ∈ rest ↔ e' ∈ d ∧ e'.1 ≠ e.1 := by
  have hnot : e.1 ∉ keys rest := by
    have hcount : (keys rest).count e.1 + 1 ≤ 1 := by
      have := h e.1
      rwa [hd, keys, List.map_cons, List.count_cons_self] at this
    rw [← List.count_eq_zero]
    omega
  rw [hd, List.mem_cons]
  constructor
  · exact fun he => ⟨Or.inr he, fun h0 => hnot (h0 ▸ key_mem_keys he)⟩
  · rintro ⟨rfl | he, hne⟩
    · exact absurd rfl hne
    · exact he

omit [ToString κ] in
theorem Replaced.trimmable (h : Replaced s s') (hb : Bounded s) : Trimmable s' := by
  have hroom := h.room hb
  obtain ⟨hcap, htarget, -, hrecent, -, -⟩ := h.sizes
  refine ⟨hcap ▸ hb.pos, h.once hb.once, ?_, ?_, ?_⟩
  · unfold len at hroom
    omega
  · rw [hrecent, hcap]
    exact hb.recent
  · rw [htarget, hcap]
    exact hb.target

omit [ToString κ] in
/-- **`evict`** removes one entry, if there is one. -/
theorem wp_evict (h : Bounded s) :
    wp evict (fun r s' => Bounded s' ∧ s'.capacity = s.capacity ∧
      ((r = none ∧ s' = s ∧ s.len = 0) ∨ ∃ e, r = some e ∧ Resident s e ∧ s'.len + 1 = s.len ∧
        ∀ e', Resident s' e' ↔ Resident s e' ∧ e'.1 ≠ e.1)) R s := by
  simp only [evict, wp_bind, wp_current, wp_ite, wp_pure]
  refine ⟨fun hne => ?_, fun h1 => ⟨fun hne => ?_, fun h2 => ?_⟩⟩
  · obtain ⟨e, rest, ht⟩ := List.exists_cons_of_ne_nil hne
    refine wp_demoteT1 h.once ht (wp_mono (wp_trimGhosts _) ?_ fun _ _ h0 => h0)
    intro _ s₂ h₂
    have hmem : e.1 ∈ keys s.t1 := by rw [ht]; exact List.mem_cons_self
    refine ⟨((Replaced.fromT1 ht).trimmable h).bounded h₂, h₂.capacity,
      Or.inr ⟨e, rfl, ?_, ?_, fun e' => ?_⟩⟩
    · exact Or.inl (by rw [ht]; exact List.mem_cons_self)
    · obtain ⟨⟨i, j, rfl⟩, -⟩ := h₂
      simp only [len, ht, List.length_cons]
      omega
    · rw [h₂.resident]
      simp only [Resident,
        mem_tail_iff (fun y => by have := h.once y; unfold places at this; omega) ht]
      constructor
      · rintro (he | he)
        · exact ⟨Or.inl he.1, he.2⟩
        · exact ⟨Or.inr he, fun h0 => h.once.notMem_t2_of_t1 hmem (h0 ▸ key_mem_keys he)⟩
      · rintro ⟨he | he, hk⟩
        · exact Or.inl ⟨he, hk⟩
        · exact Or.inr he
  · obtain ⟨e, rest, ht⟩ := List.exists_cons_of_ne_nil hne
    rw [ne_eq, not_not] at h1
    refine wp_demoteT2 h.once ht (wp_mono (wp_trimGhosts _) ?_ fun _ _ h0 => h0)
    intro _ s₂ h₂
    refine ⟨((Replaced.fromT2 ht).trimmable h).bounded h₂, h₂.capacity,
      Or.inr ⟨e, rfl, ?_, ?_, fun e' => ?_⟩⟩
    · exact Or.inr (by rw [ht]; exact List.mem_cons_self)
    · obtain ⟨⟨i, j, rfl⟩, -⟩ := h₂
      simp only [len, ht, List.length_cons]
      omega
    · rw [h₂.resident]
      simp only [Resident, mem_tail_iff (h.once.count_t2_le) ht, h1, List.not_mem_nil, false_or]
  · rw [ne_eq, not_not] at h1 h2
    exact ⟨h, trivial, Or.inl ⟨trivial, trivial, by simp [len, h1, h2]⟩⟩

end Operations

/-! ### Runs -/

/-- A call of a method. -/
inductive Op (κ ν : Type) where
  | get (key : κ)
  | put (key : κ) (value : ν)
  | evict

/-- The state that a call leaves, whether it returns or raises. -/
def step (s : ARCPolicy κ ν) : Op κ ν → ARCPolicy κ ν
  | .get key => (get key).state s
  | .put key value => (put key value).state s
  | .evict => evict.state s

/-- The call returns. -/
def returns (s : ARCPolicy κ ν) : Op κ ν → Bool
  | .get key => ((get key).run s).2.isOk
  | .put key value => ((put key value).run s).2.isOk
  | .evict => (evict.run s).2.isOk

/-- The value that was last put for a key. -/
def lastPut (ops : List (Op κ ν)) (key : κ) : Option ν :=
  ops.foldl (fun last op => match op with
    | .put k v => if k = key then some v else last
    | _ => last) none

/-- What holds in every state: the bounds, no call raises, and `get` gives what was last put. -/
structure WellRun (capacity : ℤ) (ops : List (Op κ ν)) (s : ARCPolicy κ ν) : Prop where
  capacity : (s.capacity : ℤ) = capacity
  bounded : Bounded s
  returns : ∀ op : Op κ ν, returns s op = true
  last : ∀ key value, ((get key).run s).2 = .ok (some value) → lastPut ops key = some value
  fresh : ∀ key value, ((get key).run ((put key value).state s)).2 = .ok (some value)

theorem Bounded.step (h : Bounded s) (op : Op κ ν) : Bounded (step s op) ∧
    (step s op).capacity = s.capacity ∧ returns s op = true ∧
    ∀ e, Resident (step s op) e → Resident s e ∨ ∃ key value, op = .put key value ∧
      e = (key, value) := by
  cases op with
  | get key =>
    obtain ⟨s', r, hrun, hb, hcap, hsame, -⟩ := exists_of_wp (wp_get (R := fun _ _ => False) h key)
    simp only [ARCPolicy.step, Prog.state, ARCPolicy.returns, hrun]
    exact ⟨hb, hcap, rfl, fun e he => Or.inl ((hsame e).mp he)⟩
  | put key value =>
    obtain ⟨s', r, hrun, hstored⟩ := exists_of_wp (wp_put (R := fun _ _ => False) h key value)
    simp only [ARCPolicy.step, Prog.state, ARCPolicy.returns, hrun]
    refine ⟨hstored.bounded, hstored.capacity, rfl, fun e he => ?_⟩
    rcases hstored.others e he with rfl | he
    · exact Or.inr ⟨key, value, rfl, rfl⟩
    · exact Or.inl he.1
  | evict =>
    obtain ⟨s', r, hrun, hb, hcap, hcase⟩ := exists_of_wp (wp_evict (R := fun _ _ => False) h)
    simp only [ARCPolicy.step, Prog.state, ARCPolicy.returns, hrun]
    refine ⟨hb, hcap, rfl, fun e he => Or.inl ?_⟩
    rcases hcase with ⟨-, rfl, -⟩ | ⟨e', -, -, -, hiff⟩
    · exact he
    · exact ((hiff e).mp he).1

omit [ToString κ] in
theorem lastPut_append (ops : List (Op κ ν)) (op : Op κ ν) (key : κ) : lastPut (ops ++ [op]) key =
    match op with
    | .put k v => if k = key then some v else lastPut ops key
    | _ => lastPut ops key := by
  unfold lastPut
  rw [List.foldl_append]
  rfl

/-- What was not put since is still known. -/
theorem resident_run {s₀ : ARCPolicy κ ν} (h₀ : Bounded s₀) (hempty : s₀.len = 0)
    (ops : List (Op κ ν)) :
    Bounded (exec step s₀ ops) ∧ (exec step s₀ ops).capacity = s₀.capacity ∧
      ∀ key value, Resident (exec step s₀ ops) (key, value) → lastPut ops key = some value := by
  induction ops using List.reverseRecOn with
  | nil =>
    refine ⟨h₀, rfl, fun key value he => ?_⟩
    have hnil : s₀.t1 = [] ∧ s₀.t2 = [] := by
      unfold len at hempty
      exact ⟨List.length_eq_zero_iff.mp (by omega), List.length_eq_zero_iff.mp (by omega)⟩
    rcases he with he | he
    · rw [exec_nil, hnil.1] at he
      cases he
    · rw [exec_nil, hnil.2] at he
      cases he
  | append_singleton ops op ih =>
    obtain ⟨hb, hcap, hlast⟩ := ih
    obtain ⟨hb', hcap', -, hnew⟩ := hb.step op
    rw [exec_append, exec_cons, exec_nil]
    refine ⟨hb', hcap'.trans hcap, fun key value he => ?_⟩
    rw [lastPut_append]
    cases op with
    | get k =>
      rcases hnew _ he with he | ⟨_, _, hop, -⟩
      · exact hlast key value he
      · cases hop
    | evict =>
      rcases hnew _ he with he | ⟨_, _, hop, -⟩
      · exact hlast key value he
      · cases hop
    | put k v =>
      obtain ⟨s', _, hrun, hstored⟩ := exists_of_wp (wp_put (R := fun _ _ => False) hb k v)
      have hs' : step (exec step s₀ ops) (.put k v) = s' := by
        simp only [step, Prog.state, hrun]
      rw [hs'] at he
      rcases hstored.others _ he with heq | ⟨he, hne⟩
      · obtain ⟨rfl, rfl⟩ := Prod.mk.inj heq
        exact if_pos rfl
      · exact (if_neg (Ne.symm hne)).trans (hlast key value he)

/-- **Adaptive replacement** in every run: the key sets of the four lists are disjoint and keep to
their bounds, no call raises, and `get` gives nothing or what was last put, which right after a
`put` is its value. -/
theorem arc_run (capacity : ℤ) (hpos : 1 ≤ capacity) (ops : List (Op κ ν)) :
    ∃ s₀ : ARCPolicy κ ν, ARCPolicy.new capacity = .ok s₀ ∧
      WellRun capacity ops (exec step s₀ ops) := by
  have h₀ : Bounded (⟨capacity.toNat, 0, [], [], [], []⟩ : ARCPolicy κ ν) :=
    ⟨by simp only; omega, fun x => by simp [places], by simp, by simp, by simp, Nat.zero_le _⟩
  refine ⟨⟨capacity.toNat, 0, [], [], [], []⟩, if_neg (by omega), ?_⟩
  obtain ⟨hb, hcap, hlast⟩ := resident_run h₀ rfl ops
  refine ⟨?_, hb, fun op => (hb.step op).2.2.1, fun key value hget => ?_, fun key value => ?_⟩
  · rw [hcap]
    simp only
    omega
  · obtain ⟨s', r, hrun, -, -, -, hr⟩ := exists_of_wp (wp_get (R := fun _ _ => False) hb key)
    rw [hrun] at hget
    exact hlast key value ((hr value).mp (Except.ok.inj hget))
  · obtain ⟨s', _, hrun, hstored⟩ := exists_of_wp (wp_put (R := fun _ _ => False) hb key value)
    obtain ⟨s'', r, hrun', -, -, -, hr⟩ := exists_of_wp
      (wp_get (R := fun _ _ => False) hstored.bounded key)
    rw [Prog.state, hrun]
    simp only
    rw [hrun']
    exact congrArg Except.ok ((hr value).mpr hstored.stored)

/-- A run in which the ghost of a demoted key comes back. -/
theorem arc_run_ghost : ∃ s₀ : ARCPolicy ℕ ℕ, ARCPolicy.new 2 = .ok s₀ ∧
    WellRun 2 [.put 1 10, .put 2 20, .get 1, .put 3 30, .put 2 21]
      (exec step s₀ [.put 1 10, .put 2 20, .get 1, .put 3 30, .put 2 21]) :=
  arc_run 2 (by decide) _

/-- `put` of the key demotes no entry: it is an entry itself, there is none, or the directory has
room for a key that is not a ghost. -/
def Fits (s : ARCPolicy κ ν) (key : κ) : Prop :=
  key ∈ keys s.t1 ∨ key ∈ keys s.t2 ∨ s.len = 0 ∨
    (key ∉ s.b1 ∧ key ∉ s.b2 ∧ s.t1.length + s.b1.length < s.capacity ∧
      s.len + s.b1.length + s.b2.length < s.capacity)

instance (s : ARCPolicy κ ν) (key : κ) : Decidable (Fits s key) :=
  inferInstanceAs (Decidable (key ∈ keys s.t1 ∨ key ∈ keys s.t2 ∨ s.len = 0 ∨
    (key ∉ s.b1 ∧ key ∉ s.b2 ∧ s.t1.length + s.b1.length < s.capacity ∧
      s.len + s.b1.length + s.b2.length < s.capacity)))

omit [DecidableEq κ] [ToString κ] in
theorem not_resident_of_len (h : s.len = 0) (e : κ × ν) : ¬ Resident s e := by
  unfold len at h
  have h1 : s.t1 = [] := List.length_eq_zero_iff.mp (by omega)
  have h2 : s.t2 = [] := List.length_eq_zero_iff.mp (by omega)
  simp [Resident, h1, h2]

/-- A `put` of an entry leaves the other ones. -/
theorem wp_put_entry (h : Bounded s) {key : κ} (hx : key ∈ keys s.t1 ∨ key ∈ keys s.t2) (value : ν)
    {R : PyError → ARCPolicy κ ν → Prop} : wp (put key value) (fun _ => Sets key value s) R s := by
  rcases hx with hx | hx
  · simp only [put, wp_bind, wp_current, wp_ite, hx, not_true, forall_const, false_imp_iff,
      and_true, wp_update]
    refine wp_popT1 hx fun v _ => ?_
    rw [putT2, Dict.put_of_not_mem (h.once.notMem_t2_of_t1 hx)]
    exact (movedT1_spec h hx value).2
  · have hnot : key ∉ keys s.t1 := fun h0 => h.once.notMem_t2_of_t1 h0 hx
    simp only [put, wp_bind, wp_current, wp_ite, hx, hnot, not_false_eq_true,
      not_true, forall_const, false_imp_iff, and_true, true_and, wp_update]
    refine wp_popT2 hx fun v _ => ?_
    rw [putT2, Dict.put_of_not_mem (notMem_eraseP (h.once.count_t2_le key))]
    exact (movedT2_spec h hx value).2

/-- **A `put` that fits** leaves the other entries. -/
theorem wp_put_fits (h : Bounded s) {key : κ} (hfits : Fits s key) (value : ν)
    {R : PyError → ARCPolicy κ ν → Prop} : wp (put key value) (fun _ => Sets key value s) R s := by
  rcases hfits with hx | hx | hempty | ⟨hb1, hb2, hrecent, hroom⟩
  · exact wp_put_entry h (Or.inl hx) value
  · exact wp_put_entry h (Or.inr hx) value
  · refine wp_mono (wp_put h key value) (fun _ s' hstored e => ?_) fun _ _ h0 => h0
    constructor
    · exact hstored.others e
    · rintro (rfl | he)
      · exact hstored.stored
      · exact absurd he.1 (not_resident_of_len hempty e)
  · by_cases h1 : key ∈ keys s.t1
    · exact wp_put_entry h (Or.inl h1) value
    · by_cases h2 : key ∈ keys s.t2
      · exact wp_put_entry h (Or.inr h2) value
      · have hne : ¬ s.t1.length + s.b1.length = s.capacity := by omega
        have hfew : ¬ (s.t1.length + s.b1.length < s.capacity ∧
          s.capacity ≤ s.len + s.b1.length + s.b2.length) := by omega
        simp only [put, putNew, wp_bind, wp_current, wp_ite, h1, h2, hb1, hb2, hne, hfew,
          not_false_eq_true, forall_const, false_imp_iff, true_and, wp_update,
          Dict.put_of_not_mem h1]
        refine wp_mono (wp_trimGhosts _) ?_ fun _ _ h0 => h0
        intro _ s' ht e
        rw [ht.resident]
        simp only [Resident, List.mem_append, List.mem_singleton]
        constructor
        · rintro ((he | he) | he)
          · exact Or.inr ⟨Or.inl he, fun h0 => h1 (h0 ▸ key_mem_keys he)⟩
          · exact Or.inl he
          · exact Or.inr ⟨Or.inr he, fun h0 => h2 (h0 ▸ key_mem_keys he)⟩
        · rintro (he | ⟨he | he, -⟩)
          · exact Or.inl (Or.inr he)
          · exact Or.inl (Or.inl he)
          · exact Or.inr he

end ARCPolicy

/-! ### Least recently used entries -/

namespace LRUPolicy

variable {s s' : LRUPolicy κ ν} {R : PyError → LRUPolicy κ ν → Prop}

/-- Keys are there once, and there are not too many of them. -/
structure Bounded (s : LRUPolicy κ ν) : Prop where
  pos : 0 < s.capacity
  once : ∀ x, (keys s.data).count x ≤ 1
  size : s.data.length ≤ s.capacity

omit [ToString κ]

/-- The key is there with its value, at the end, and the other entries stay. -/
theorem setLast_spec (h : Bounded s) {key : κ} (hx : key ∈ keys s.data) (value : ν) :
    Bounded (setLast key value s) ∧
      ∀ e, e ∈ (setLast key value s).data ↔ e = (key, value) ∨ (e ∈ s.data ∧ e.1 ≠ key) := by
  have hlen := length_eraseP hx
  refine ⟨⟨h.pos, fun y => ?_, ?_⟩, fun e => ?_⟩
  · have honce := h.once y
    have hpos := List.count_pos_iff.mpr hx
    simp only [setLast, keys_eraseP, keys, List.map_append, List.map_cons, List.map_nil,
      List.count_append, List.count_erase, List.count_cons, List.count_nil,
      beq_iff_eq] at honce hpos ⊢
    split_ifs with hy
    · subst hy
      omega
    · omega
  · have := h.size
    simp only [setLast, List.length_append, List.length_singleton]
    omega
  · simp only [setLast, List.mem_append, List.mem_singleton, ARCPolicy.mem_eraseP_iff h.once]
    exact or_comm

theorem wp_get (h : Bounded s) (key : κ) :
    wp (get key) (fun r s' => Bounded s' ∧ s'.capacity = s.capacity ∧
      (∀ e, e ∈ s'.data ↔ e ∈ s.data) ∧
      ∀ v, r = some v ↔ (key, v) ∈ s.data) R s := by
  simp only [get, wp_bind, wp_current]
  cases hv : s.data.lookup key with
  | none =>
    refine ⟨h, rfl, fun _ => Iff.rfl,
      fun v => ⟨fun hr => absurd hr.symm (Option.some_ne_none v), fun hmem => ?_⟩⟩
    exact absurd (key_mem_keys hmem) (Dict.lookup_eq_none.mp hv)
  | some v =>
    have hmem := Dict.mem_of_lookup hv
    obtain ⟨hb, hiff⟩ := setLast_spec h (key_mem_keys hmem) v
    have huniq : ∀ w, (key, w) ∈ s.data → w = v := fun w hw =>
      congrArg Prod.snd
        (List.inj_on_of_nodup_map (List.nodup_iff_count_le_one.mpr h.once) hw hmem rfl)
    simp only [wp_bind, wp_update, wp_pure]
    refine ⟨hb, rfl, fun e => ?_, fun w => ⟨fun hw => Option.some.inj hw ▸ hmem, fun hw => ?_⟩⟩
    · rw [hiff]
      constructor
      · rintro (rfl | he)
        · exact hmem
        · exact he.1
      · intro he
        by_cases hk : e.1 = key
        · exact Or.inl (Prod.ext hk (huniq e.2 (hk ▸ he)))
        · exact Or.inr ⟨he, hk⟩
    · rw [huniq w hw]

/-- **A `put`** of an entry, or where there is room. -/
theorem wp_put (h : Bounded s) {key : κ} (hfits : key ∈ keys s.data ∨ s.len < s.capacity)
    (value : ν) :
    wp (put key value) (fun _ s' => Bounded s' ∧ s'.capacity = s.capacity ∧
      ∀ e, e ∈ s'.data ↔ e = (key, value) ∨ (e ∈ s.data ∧ e.1 ≠ key)) R s := by
  simp only [put, wp_bind, wp_current, wp_ite, wp_update]
  refine ⟨fun hx => ?_, fun hx => ⟨fun hfull => ?_, fun _ => ?_⟩⟩
  · obtain ⟨hb, hiff⟩ := setLast_spec h hx value
    exact ⟨hb, rfl, hiff⟩
  · rcases hfits with h0 | h0
    · exact absurd h0 hx
    · omega
  · have hroom := hfits.resolve_left hx
    have hcount : (keys s.data).count key = 0 := List.count_eq_zero.mpr hx
    simp only [Dict.put_of_not_mem hx]
    refine ⟨⟨h.pos, fun y => ?_, ?_⟩, trivial, fun e => ?_⟩
    · have honce := h.once y
      simp only [keys, List.map_append, List.map_cons, List.map_nil, List.count_append,
        List.count_cons, List.count_nil, beq_iff_eq] at honce hcount ⊢
      split_ifs with hy
      · subst hy
        omega
      · omega
    · simp only [len, List.length_append, List.length_singleton] at hroom ⊢
      omega
    · simp only [List.mem_append, List.mem_singleton]
      constructor
      · rintro (he | he)
        · exact Or.inr ⟨he, fun h0 => hx (h0 ▸ key_mem_keys he)⟩
        · exact Or.inl he
      · rintro (he | he)
        · exact Or.inr he
        · exact Or.inl he.1

theorem wp_evict (h : Bounded s) :
    wp evict (fun r s' => Bounded s' ∧ s'.capacity = s.capacity ∧
      ((r = none ∧ s' = s ∧ s.len = 0) ∨ ∃ e, r = some e ∧ e ∈ s.data ∧ s'.len + 1 = s.len ∧
        ∀ e', e' ∈ s'.data ↔ e' ∈ s.data ∧ e'.1 ≠ e.1)) R s := by
  simp only [evict, wp_bind, wp_current]
  cases hd : s.data with
  | nil => exact ⟨h, rfl, Or.inl ⟨rfl, rfl, by simp [len, hd]⟩⟩
  | cons e rest =>
    simp only [onData, popitem, wp_bind, wp_zoom, wp_current, hd, wp_update, wp_pure]
    refine ⟨⟨h.pos, fun y => ?_, ?_⟩, trivial,
      Or.inr ⟨e, rfl, List.mem_cons_self, ?_, fun e' => ?_⟩⟩
    · have honce := h.once y
      simp only [hd, keys, List.map_cons, List.count_cons] at honce ⊢
      omega
    · have := h.size
      simp only [hd, List.length_cons] at this ⊢
      omega
    · simp [len, hd]
    · rw [ARCPolicy.mem_tail_iff h.once hd, hd]

end LRUPolicy

end MoeInfinity.Memory.OffloadingPolicy
