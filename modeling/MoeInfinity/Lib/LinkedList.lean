import Mathlib.Data.List.Infix
import Mathlib.Data.List.Nodup
import Mathlib.Logic.Function.Basic

/-! # Doubly linked lists

The nodes of the lists are the elements of a type; a node has a pointer to the one before it and to
the one after it, and the list one to its first and to its last node. `Linked l xs` says that `l` is
the list of the nodes `xs`; appending a node and taking one out of the middle change the list
accordingly. -/

namespace MoeInfinity.Lib.LinkedList

variable {α : Type}

/-- The pointers of the nodes and of the list. -/
structure Links (α : Type) where
  prev : α → Option α
  next : α → Option α
  head : Option α
  tail : Option α

/-- The list visits the nodes `xs`, and the other nodes have no pointers. -/
structure Linked (l : Links α) (xs : List α) : Prop where
  nodup : xs.Nodup
  head : l.head = xs.head?
  tail : l.tail = xs.getLast?
  node : ∀ ys a zs, xs = ys ++ a :: zs → l.prev a = ys.getLast? ∧ l.next a = zs.head?
  out : ∀ a, a ∉ xs → l.prev a = none ∧ l.next a = none

variable {l : Links α} {xs : List α} {a b : α}

theorem linked_nil : Linked (⟨fun _ => none, fun _ => none, none, none⟩ : Links α) [] :=
  ⟨List.nodup_nil, rfl, rfl, fun ys a zs h => absurd h.symm (by simp), fun _ _ => ⟨rfl, rfl⟩⟩

/-- What stands before a node and what stands after it are different nodes. -/
theorem ne_of_split {ys zs : List α} (h : (ys ++ a :: zs).Nodup) :
    a ∉ ys ∧ a ∉ zs ∧ ∀ b ∈ ys, ∀ c ∈ zs, b ≠ c := by
  obtain ⟨-, hrest, hdisjoint⟩ := List.nodup_append.mp h
  exact ⟨fun h0 => hdisjoint a h0 a List.mem_cons_self rfl, (List.nodup_cons.mp hrest).1,
    fun b hb c hc => hdisjoint b hb c (List.mem_cons_of_mem a hc)⟩

/-- **The pointers are inverse to each other.** -/
theorem Linked.next_eq_some (h : Linked l xs) : l.next a = some b ↔ l.prev b = some a := by
  constructor
  · intro hnext
    have ha : a ∈ xs := by
      by_contra h0
      rw [(h.out a h0).2] at hnext
      cases hnext
    obtain ⟨ys, zs, rfl⟩ := List.append_of_mem ha
    rw [(h.node ys a zs rfl).2] at hnext
    obtain ⟨zs', rfl⟩ : ∃ zs', zs = b :: zs' := ⟨zs.tail, List.eq_cons_of_mem_head? hnext⟩
    rw [(h.node (ys ++ [a]) b zs' (by simp)).1]
    simp
  · intro hprev
    have hb : b ∈ xs := by
      by_contra h0
      rw [(h.out b h0).1] at hprev
      cases hprev
    obtain ⟨ys, zs, rfl⟩ := List.append_of_mem hb
    rw [(h.node ys b zs rfl).1] at hprev
    obtain ⟨ys', rfl⟩ : ∃ ys', ys = ys' ++ [a] := List.getLast?_eq_some_iff.mp hprev
    rw [(h.node ys' a (b :: zs) (by simp)).2]
    simp

variable [DecidableEq α]

/-! ### Appending a node -/

/-- The node `a` comes after the last one. -/
def append (a : α) (l : Links α) : Links α where
  prev := Function.update l.prev a l.tail
  next := match l.tail with
    | none => Function.update l.next a none
    | some t => Function.update (Function.update l.next a none) t (some a)
  head := match l.tail with
    | none => some a
    | some _ => l.head
  tail := some a

theorem Linked.append (h : Linked l xs) (ha : a ∉ xs) : Linked (append a l) (xs ++ [a]) := by
  have hnext : ∀ b, b ≠ a → l.tail ≠ some b → (LinkedList.append a l).next b = l.next b := by
    intro b hb ht
    unfold LinkedList.append
    cases htail : l.tail with
    | none => simp [hb]
    | some t =>
      have hbt : b ≠ t := fun h0 => ht (by rw [htail, h0])
      simp [hb, hbt]
  have hlast : ∀ t, l.tail = some t → (LinkedList.append a l).next t = some a := by
    intro t ht
    simp [LinkedList.append, ht]
  have hself : (LinkedList.append a l).next a = none := by
    unfold LinkedList.append
    cases htail : l.tail with
    | none => simp
    | some t =>
      have hat : a ≠ t := by
        rintro rfl
        rw [h.tail] at htail
        exact ha (List.mem_of_getLast? htail)
      simp [hat]
  refine ⟨?_, ?_, ?_, fun ys b zs hsplit => ?_, fun b hb => ?_⟩
  · exact List.nodup_append'.mpr ⟨h.nodup, List.nodup_singleton a, by simpa using ha⟩
  · unfold LinkedList.append
    cases htail : l.tail with
    | none =>
      have hnil : xs = [] := List.getLast?_eq_none_iff.mp (h.tail ▸ htail)
      simp [hnil]
    | some t =>
      have hne : xs ≠ [] := by
        rintro rfl
        rw [h.tail] at htail
        cases htail
      simp only
      rw [h.head, List.head?_append_of_ne_nil _ hne]
  · simp [LinkedList.append]
  · rcases List.eq_nil_or_concat' zs with rfl | ⟨zs', c, rfl⟩
    · -- the new node
      obtain ⟨rfl, hab⟩ := List.append_inj' hsplit rfl
      obtain rfl : a = b := by simpa using hab
      exact ⟨by simp [LinkedList.append, h.tail], by rw [hself]; rfl⟩
    · -- a node of the old list
      rw [← List.cons_append, ← List.append_assoc] at hsplit
      obtain ⟨hxs, hca⟩ := List.append_inj' hsplit rfl
      obtain rfl : a = c := by simpa using hca
      have hb : b ∈ xs := by
        rw [hxs]
        simp
      have hne : b ≠ a := fun h0 => ha (h0 ▸ hb)
      obtain ⟨hprev, hnext'⟩ := h.node ys b zs' hxs
      refine ⟨by simp [LinkedList.append, hne, hprev], ?_⟩
      by_cases ht : l.tail = some b
      · have hnil : zs' = [] := by
          by_contra h0
          obtain ⟨-, hnot, -⟩ := ne_of_split (hxs ▸ h.nodup)
          rw [h.tail, hxs, List.getLast?_append_of_ne_nil _ (List.cons_ne_nil b zs')] at ht
          rw [List.getLast?_cons_of_ne_nil h0] at ht
          exact hnot (List.mem_of_getLast? ht)
        rw [hlast b ht, hnil]
        rfl
      · have hnn : zs' ≠ [] := by
          rintro rfl
          rw [h.tail, hxs] at ht
          simp at ht
        rw [hnext b hne ht, hnext', List.head?_append_of_ne_nil _ hnn]
  · rw [List.mem_append, List.mem_singleton, not_or] at hb
    have ht : l.tail ≠ some b := by
      intro h0
      rw [h.tail] at h0
      exact hb.1 (List.mem_of_getLast? h0)
    exact ⟨by simp [LinkedList.append, hb.2,
      (h.out b hb.1).1], by rw [hnext b hb.2 ht]; exact (h.out b hb.1).2⟩

/-! ### Taking a node out -/

/-- The neighbours of the node `a` point past it. -/
def remove (a : α) (l : Links α) : Links α where
  prev := match l.next a with
    | none => Function.update l.prev a none
    | some n => Function.update (Function.update l.prev n (l.prev a)) a none
  next := match l.prev a with
    | none => Function.update l.next a none
    | some m => Function.update (Function.update l.next m (l.next a)) a none
  head := match l.prev a with
    | none => l.next a
    | some _ => l.head
  tail := match l.next a with
    | none => l.prev a
    | some _ => l.tail

/-- The list read from its end. -/
def flip (l : Links α) : Links α := ⟨l.next, l.prev, l.tail, l.head⟩

omit [DecidableEq α] in
theorem Linked.flip (h : Linked l xs) : Linked (flip l) xs.reverse := by
  refine ⟨List.nodup_reverse.mpr h.nodup, ?_, ?_, fun ys b zs hsplit => ?_, fun b hb => ?_⟩
  · rw [List.head?_reverse]
    exact h.tail
  · rw [List.getLast?_reverse]
    exact h.head
  · have hxs : xs = zs.reverse ++ b :: ys.reverse := by
      have := congrArg List.reverse hsplit
      simpa using this
    obtain ⟨hprev, hnext⟩ := h.node _ b _ hxs
    constructor
    · rw [← List.head?_reverse]
      exact hnext
    · rw [← List.getLast?_reverse]
      exact hprev
  · obtain ⟨hprev, hnext⟩ := h.out b (by simpa using hb)
    exact ⟨hnext, hprev⟩

theorem flip_remove (a : α) (l : Links α) : flip (remove a l) = remove a (flip l) := rfl

theorem next_remove_of_ne (hb : b ≠ a) (hprev : l.prev a ≠ some b) :
    (remove a l).next b = l.next b := by
  unfold remove
  cases hm : l.prev a with
  | none => simp [hb]
  | some m =>
    have hbm : b ≠ m := fun h0 => hprev (by rw [hm, h0])
    simp [hb, hbm]

theorem next_remove_self (a : α) (l : Links α) : (remove a l).next a = none := by
  unfold remove
  cases l.prev a with
  | none => simp
  | some m => simp

theorem next_remove_prev (hne : b ≠ a) (hprev : l.prev a = some b) :
    (remove a l).next b = l.next a := by
  simp [remove, hprev, hne]

/-- The forward half of taking a node out. -/
theorem Linked.remove_forward {ys zs : List α} (h : Linked l (ys ++ a :: zs)) :
    (LinkedList.remove a l).head = (ys ++ zs).head? ∧
      (∀ us b vs, ys ++ zs = us ++ b :: vs → (LinkedList.remove a l).next b = vs.head?) ∧
      ∀ b, b ∉ ys ++ zs → (LinkedList.remove a l).next b = none := by
  obtain ⟨hprev, hnext⟩ := h.node ys a zs rfl
  obtain ⟨hays, hazs, hne⟩ := ne_of_split h.nodup
  refine ⟨?_, fun us b vs hsplit => ?_, fun b hb => ?_⟩
  · unfold LinkedList.remove
    cases hm : l.prev a with
    | none =>
      obtain rfl : ys = [] := List.getLast?_eq_none_iff.mp (hprev ▸ hm)
      exact hnext
    | some m =>
      have hys : ys ≠ [] := by
        rintro rfl
        rw [hprev] at hm
        cases hm
      simp only
      rw [h.head, List.head?_append_of_ne_nil _ hys, List.head?_append_of_ne_nil _ hys]
  · have hafter : ∀ as, zs = as ++ b :: vs → (LinkedList.remove a l).next b = vs.head? := by
      rintro as rfl
      have hba : b ≠ a := fun h0 => hazs (by simp [h0])
      have hbm : l.prev a ≠ some b := by
        intro h0
        rw [hprev] at h0
        exact hne b (List.mem_of_getLast? h0) b (by simp) rfl
      rw [next_remove_of_ne hba hbm]
      exact (h.node (ys ++ a :: as) b vs (by simp)).2
    rcases List.append_eq_append_iff.mp hsplit with ⟨as, -, hzs⟩ | ⟨bs, hys, hbs⟩
    · exact hafter as hzs
    · cases bs with
      | nil => exact hafter [] hbs.symm
      | cons c bs =>
        obtain ⟨rfl, rfl⟩ := List.cons.inj hbs
        subst hys
        have hba : b ≠ a := fun h0 => hays (by simp [h0])
        by_cases hnil : bs = []
        · subst hnil
          rw [next_remove_prev hba (by rw [hprev]; simp), hnext]
          rfl
        · have hbm : l.prev a ≠ some b := by
            intro h0
            rw [hprev, List.getLast?_append_of_ne_nil _ (List.cons_ne_nil b bs),
              List.getLast?_cons_of_ne_nil hnil] at h0
            have hnd : (us ++ b :: (bs ++ a :: zs)).Nodup := by simpa using h.nodup
            exact (ne_of_split hnd).2.1 (List.mem_append_left _ (List.mem_of_getLast? h0))
          rw [next_remove_of_ne hba hbm, (h.node us b (bs ++ a :: zs) (by simp)).2,
            List.head?_append_of_ne_nil _ hnil]
          exact (List.head?_append_of_ne_nil _ hnil).symm
  · by_cases hba : b = a
    · rw [hba, next_remove_self]
    · rw [List.mem_append, not_or] at hb
      have hbm : l.prev a ≠ some b := by
        intro h0
        rw [hprev] at h0
        exact hb.1 (List.mem_of_getLast? h0)
      rw [next_remove_of_ne hba hbm]
      refine (h.out b ?_).2
      simp [hb, hba]

/-- **Taking a node out** of the list. -/
theorem Linked.remove {ys zs : List α} (h : Linked l (ys ++ a :: zs)) :
    Linked (LinkedList.remove a l) (ys ++ zs) := by
  have hflip : Linked (LinkedList.flip l) (zs.reverse ++ a :: ys.reverse) := by simpa using h.flip
  obtain ⟨hhead, hnext, hout⟩ := h.remove_forward
  obtain ⟨htail, hprev, hout'⟩ := hflip.remove_forward
  rw [← flip_remove] at htail hprev hout'
  refine ⟨?_, hhead, ?_, fun us b vs hsplit => ⟨?_, hnext us b vs hsplit⟩,
    fun b hb => ⟨?_, hout b hb⟩⟩
  · exact h.nodup.sublist (List.Sublist.append_left (List.sublist_cons_self a zs) ys)
  · rw [← List.head?_reverse, List.reverse_append]
    exact htail
  · rw [← List.head?_reverse]
    refine hprev vs.reverse b us.reverse ?_
    rw [← List.reverse_append, hsplit]
    simp
  · exact hout' b (by simpa [or_comm] using hb)

omit [DecidableEq α] in
/-- The first node has no node before it. -/
theorem Linked.prev_head (h : Linked l (a :: xs)) : l.prev a = none := (h.node [] a xs rfl).1

/-- The nodes reached from `start` by `n` pointers at most. -/
def follow (step : α → Option α) : ℕ → Option α → List α
  | 0, _ => []
  | _ + 1, none => []
  | n + 1, some a => a :: follow step n (step a)

omit [DecidableEq α] in
theorem Linked.follow_next : ∀ (zs ys : List α), Linked l (ys ++ zs) →
    follow l.next zs.length zs.head? = zs
  | [], _, _ => rfl
  | a :: zs, ys, h => by
    have hrest : Linked l ((ys ++ [a]) ++ zs) := by simpa using h
    rw [List.length_cons, List.head?_cons, follow, (h.node ys a zs rfl).2,
      Linked.follow_next zs _ hrest]

omit [DecidableEq α] in
/-- **From head to tail**: following the pointers one visits the nodes of the list. -/
theorem Linked.follow_head (h : Linked l xs) : follow l.next xs.length l.head = xs := by
  rw [h.head]
  exact Linked.follow_next xs [] h

end MoeInfinity.Lib.LinkedList
