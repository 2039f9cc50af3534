import Mathlib.Data.List.Infix

/-! # Backtracking patterns

A pattern lists the ways in which it matches a prefix of its input, in the order in which a
backtracking matcher tries them: each with a result and with the rest of the input. The first way is
the match (`First`); a pattern without a way fails (`Fails`). `search` looks for the first position
with a match. -/

namespace MoeInfinity.Lib.Backtrack

/-! ### Words in words -/

section Words

variable {w a b ds : List Char} {c : Char}

/-- A word in `a ++ b` lies in `a`, or ends inside `b`. -/
theorem infix_append_iff : w <:+: a ++ b ↔ w <:+: a ∨ ∃ u, u ≠ [] ∧ u <+: b ∧ w <:+ a ++ u := by
  induction b using List.reverseRecOn with
  | nil =>
    rw [List.append_nil]
    constructor
    · exact Or.inl
    · rintro (h | ⟨u, hu, hpre, -⟩)
      · exact h
      · exact absurd (List.prefix_nil.mp hpre) hu
  | append_singleton b c ih =>
    rw [← List.append_assoc, List.infix_concat_iff, ih]
    constructor
    · rintro (h | h | ⟨u, hu, hpre, h⟩)
      · exact Or.inr ⟨b ++ [c], by simp, List.prefix_rfl, by rwa [← List.append_assoc]⟩
      · exact Or.inl h
      · exact Or.inr ⟨u, hu, hpre.trans (List.prefix_append b [c]), h⟩
    · rintro (h | ⟨u, hu, hpre, h⟩)
      · exact Or.inr (Or.inl h)
      · rcases List.prefix_concat_iff.mp hpre with rfl | hpre
        · exact Or.inl (by rwa [List.append_assoc])
        · exact Or.inr (Or.inr ⟨u, hu, hpre, h⟩)

/-- A word without the separator lies on one side of it. -/
theorem infix_append_cons (hc : c ∉ w) (h : w <:+: a ++ c :: b) : w <:+: a ∨ w <:+: b := by
  obtain ⟨s, t, hst⟩ := h
  rcases List.append_eq_append_iff.mp (List.append_assoc s w t ▸ hst)
    with ⟨a', rfl, ha'⟩ | ⟨c', rfl, hc'⟩
  · rcases List.append_eq_append_iff.mp ha' with ⟨u, rfl, hu⟩ | ⟨u, rfl, hu⟩
    · exact Or.inl ⟨s, u, by simp⟩
    · cases u with
      | nil => exact Or.inl ⟨s, [], by simp⟩
      | cons d u =>
        have hd : c = d := by
          have := congrArg List.head? hu
          simpa using this
        exact absurd (hd ▸ List.mem_append_right a' List.mem_cons_self) hc
  · cases c' with
    | nil =>
      refine Or.inl ?_
      cases w with
      | nil => exact List.nil_infix
      | cons d w =>
        have hd : c = d := by simpa using congrArg List.head? hc'
        exact absurd (hd ▸ List.mem_cons_self) hc
    | cons d c' =>
      have hb : b = c' ++ (w ++ t) := by
        have := congrArg List.tail hc'
        simpa using this
      exact Or.inr ⟨c', t, by rw [hb, List.append_assoc]⟩

/-- A word has none of the characters between `a` and `b`. -/
theorem infix_append_of_disjoint (hds : ∀ c ∈ ds, c ∉ w) (h : w <:+: a ++ (ds ++ b))
    (hne : ds ≠ []) :
    w <:+: a ∨ w <:+: b := by
  induction ds generalizing a with
  | nil => exact absurd rfl hne
  | cons c ds ih =>
    rcases infix_append_cons (hds c List.mem_cons_self) h with h | h
    · exact Or.inl h
    · cases ds with
      | nil => exact Or.inr h
      | cons d ds =>
        have hrest := ih (a := []) (fun c hc => hds c (List.mem_cons_of_mem _ hc)) h
          (List.cons_ne_nil d ds)
        rcases hrest with h | h
        · exact Or.inl (h.trans (List.nil_infix))
        · exact Or.inr h

end Words

structure Pattern (α : Type) where
  run : List Char → List (α × List Char)

namespace Pattern

variable {α β : Type}

protected def pure (a : α) : Pattern α := ⟨fun s => [(a, s)]⟩

protected def bind (p : Pattern α) (f : α → Pattern β) : Pattern β :=
  ⟨fun s => (p.run s).flatMap fun x => (f x.1).run x.2⟩

instance : Monad Pattern where
  pure := Pattern.pure
  bind := Pattern.bind

/-- Both alternatives, the ways of the left one first. -/
def or (p q : Pattern α) : Pattern α := ⟨fun s => p.run s ++ q.run s⟩

/-- One character of a class. -/
def char (p : Char → Bool) : Pattern Char :=
  ⟨fun
    | [] => []
    | c :: s => if p c then [(c, s)] else []⟩

def litRun : List Char → List Char → List (Unit × List Char)
  | [], s => [((), s)]
  | _ :: _, [] => []
  | c :: w, d :: s => if c = d then litRun w s else []

/-- A literal. -/
def lit (w : String) : Pattern Unit := ⟨litRun w.toList⟩

def manyRun (p : Char → Bool) : List Char → List (List Char × List Char)
  | [] => [([], [])]
  | c :: s =>
    if p c then (manyRun p s).map (fun x => (c :: x.1, x.2)) ++ [([], c :: s)] else [([], c :: s)]

/-- Any number of characters of a class, as many as possible first. -/
def many (p : Char → Bool) : Pattern (List Char) := ⟨manyRun p⟩

def many1 (p : Char → Bool) : Pattern (List Char) := do
  let c ← char p
  let w ← many p
  return c :: w

/-- A number in decimal digits. -/
def number : Pattern ℕ := do
  let w ← many1 Char.isDigit
  return Nat.ofDigitChars 10 w 0

/-- The match at the start of the input. -/
def matchStart (p : Pattern α) (s : List Char) : Option α := (p.run s).head?.map Prod.fst

/-- The match at the first position that has one. -/
def search (p : Pattern α) : List Char → Option α
  | [] => p.matchStart []
  | c :: s =>
    match p.matchStart (c :: s) with
    | some a => some a
    | none => search p s

/-! ### The first way -/

/-- The first way in which the pattern matches. -/
def First (p : Pattern α) (s : List Char) (a : α) (rest : List Char) : Prop :=
  (p.run s).head? = some (a, rest)

def Fails (p : Pattern α) (s : List Char) : Prop := p.run s = []

section First

variable {p q : Pattern α} {f : α → Pattern β} {a : α} {b : β} {s t u w : List Char} {c : Char}

theorem first_pure (a : α) (s : List Char) : First (pure a) s a s := rfl

theorem run_bind (p : Pattern α) (f : α → Pattern β) (s : List Char) :
    (p >>= f).run s = (p.run s).flatMap fun x => (f x.1).run x.2 := rfl

theorem First.bind (hp : First p s a t) (hf : First (f a) t b u) : First (p >>= f) s b u := by
  unfold First at hp hf ⊢
  rw [run_bind]
  obtain ⟨ways, hways⟩ := List.head?_eq_some_iff.mp hp
  rw [hways, List.flatMap_cons, List.head?_append, hf]
  rfl

/-- Only the ways of the first part that the rest can follow count. -/
theorem fails_bind (h : ∀ x ∈ p.run s, Fails (f x.1) x.2) : Fails (p >>= f) s := by
  unfold Fails
  rw [run_bind, List.flatMap_eq_nil_iff]
  exact h

theorem fails_bind_left (h : Fails p s) : Fails (p >>= f) s :=
  fails_bind fun x hx => by
    rw [h] at hx
    exact absurd hx List.not_mem_nil

theorem First.or_left (h : First p s a t) : First (p.or q) s a t := by
  unfold First at h ⊢
  show ((p.run s) ++ (q.run s)).head? = _
  rw [List.head?_append, h]
  rfl

theorem first_or_right (hp : Fails p s) (hq : First q s a t) : First (p.or q) s a t := by
  unfold First at hq ⊢
  show ((p.run s) ++ (q.run s)).head? = _
  rw [hp, List.nil_append]
  exact hq

theorem fails_or (hp : Fails p s) (hq : Fails q s) : Fails (p.or q) s := by
  show p.run s ++ q.run s = []
  rw [hp, hq]
  rfl

theorem First.matchStart (h : First p s a t) : p.matchStart s = some a := by
  unfold Pattern.matchStart
  rw [h]
  rfl

theorem Fails.matchStart (h : Fails p s) : p.matchStart s = none := by
  unfold Pattern.matchStart
  rw [h]
  rfl

/-! ### Literals and classes -/

theorem litRun_append (w s : List Char) : litRun w (w ++ s) = [((), s)] := by
  induction w with
  | nil => rfl
  | cons c w ih => simpa [litRun] using ih

theorem litRun_eq_nil : litRun w s = [] ↔ ¬ w <+: s := by
  induction w generalizing s with
  | nil => simp [litRun]
  | cons c w ih =>
    cases s with
    | nil => simp [litRun]
    | cons d s =>
      rw [litRun, List.cons_prefix_cons]
      split_ifs with h
      · rw [ih]
        simp [h]
      · simp [h]

theorem first_lit (w : String) (s : List Char) : First (lit w) (w.toList ++ s) () s := by
  show (litRun w.toList (w.toList ++ s)).head? = some ((), s)
  rw [litRun_append]
  rfl

theorem fails_lit {w : String} : Fails (lit w) s ↔ ¬ w.toList <+: s := litRun_eq_nil

/-- The words differ at a position that both of them have. -/
def Clash (w v : List Char) : Prop := w.take v.length ≠ v.take w.length

instance (w v : List Char) : Decidable (Clash w v) := inferInstanceAs (Decidable (¬ _ = _))

theorem not_prefix_of_clash (h : Clash w t) : ¬ w <+: t ++ s := by
  rintro ⟨r, hr⟩
  refine h ?_
  rcases Nat.le_total w.length t.length with hle | hle
  · have htake := congrArg (List.take w.length) hr
    rw [List.take_append_of_le_length (Nat.le_refl _), List.take_append_of_le_length hle,
      List.take_length] at htake
    rw [List.take_of_length_le hle]
    exact htake
  · have htake := congrArg (List.take t.length) hr
    rw [List.take_append_of_le_length hle, List.take_append_of_le_length (Nat.le_refl _),
      List.take_length] at htake
    rw [htake, List.take_of_length_le hle]

theorem fails_lit_of_clash {w : String} (h : Clash w.toList t) (s : List Char) :
    Fails (lit w) (t ++ s) :=
  fails_lit.mpr (not_prefix_of_clash h)

variable {cls : Char → Bool}

theorem first_char (h : cls c) (s : List Char) : First (char cls) (c :: s) c s := by
  unfold First char
  simp [h]

/-- As many characters as there are, if the next one is not of the class. -/
theorem first_many (hw : ∀ c ∈ w, cls c) (hs : ∀ c t, s = c :: t → ¬ cls c) :
    First (many cls) (w ++ s) w s := by
  unfold First many
  induction w with
  | nil =>
    cases s with
    | nil => rfl
    | cons c s => simp [manyRun, hs c s rfl]
  | cons c w ih =>
    have hrest := ih fun d hd => hw d (List.mem_cons_of_mem c hd)
    simp only at hrest ⊢
    rw [List.cons_append, manyRun, if_pos (hw c List.mem_cons_self), List.head?_append,
      List.head?_map, hrest]
    rfl

theorem first_many1 (hne : w ≠ []) (hw : ∀ c ∈ w, cls c) (hs : ∀ c t, s = c :: t → ¬ cls c) :
    First (many1 cls) (w ++ s) w s := by
  obtain ⟨c, w, rfl⟩ := List.exists_cons_of_ne_nil hne
  exact (first_char (hw c List.mem_cons_self) _).bind
    ((first_many (fun d hd => hw d (List.mem_cons_of_mem c hd)) hs).bind (first_pure _ _))

/-- A number is read back from its digits. -/
theorem first_number (n : ℕ) (hs : ∀ c t, s = c :: t → ¬ c.isDigit) :
    First number (Nat.toDigits 10 n ++ s) n s := by
  have hdigits : First (many1 Char.isDigit) (Nat.toDigits 10 n ++ s) (Nat.toDigits 10 n) s :=
    first_many1 Nat.toDigits_ne_nil
      (fun c hc => Nat.isDigit_of_mem_toDigits (by decide) (by decide) hc) hs
  refine hdigits.bind ?_
  rw [Nat.ofDigitChars_ten_toDigits]
  exact first_pure n s

/-! ### Going back -/

/-- The characters that `many` matches are of the class, and they are followed by the rest. -/
theorem mem_manyRun {x : List Char × List Char} (h : x ∈ (many cls).run s) :
    s = x.1 ++ x.2 ∧ ∀ c ∈ x.1, cls c := by
  have hrun : (many cls).run s = manyRun cls s := rfl
  rw [hrun] at h
  clear hrun
  induction s generalizing x with
  | nil =>
    rw [manyRun, List.mem_singleton] at h
    subst h
    exact ⟨rfl, fun c hc => absurd hc List.not_mem_nil⟩
  | cons c s ih =>
    rw [manyRun] at h
    split_ifs at h with hc
    · rcases List.mem_append.mp h with h | h
      · obtain ⟨y, hy, rfl⟩ := List.mem_map.mp h
        obtain ⟨hs, hall⟩ := ih hy
        refine ⟨by rw [hs]; rfl, fun d hd => ?_⟩
        rcases List.mem_cons.mp hd with rfl | hd
        · exact hc
        · exact hall d hd
      · rw [List.mem_singleton] at h
        subst h
        exact ⟨rfl, fun c hc => absurd hc List.not_mem_nil⟩
    · rw [List.mem_singleton] at h
      subst h
      exact ⟨rfl, fun c hc => absurd hc List.not_mem_nil⟩

/-- **Going back**: `many` gives back what the rest of the pattern needs, and no more. -/
theorem first_many_bind {f : List Char → Pattern β} (hw : ∀ c ∈ w, cls c) (hf : First (f w) s b t)
    (hlater : ∀ u v, s = u ++ v → u ≠ [] → Fails (f (w ++ u)) v) :
    First (many cls >>= f) (w ++ s) b t := by
  induction w generalizing f with
  | nil =>
    unfold First at hf ⊢
    rw [run_bind]
    show ((manyRun cls s).flatMap fun x => (f x.1).run x.2).head? = some (b, t)
    cases s with
    | nil => simpa [manyRun] using hf
    | cons c s =>
      rw [manyRun]
      split_ifs with hc
      · rw [List.flatMap_append]
        have hnone : ((manyRun cls s).map fun x => (c :: x.1, x.2)).flatMap
            (fun x => (f x.1).run x.2) = [] := by
          rw [List.flatMap_eq_nil_iff]
          intro x hx
          obtain ⟨y, hy, rfl⟩ := List.mem_map.mp hx
          have hs := (mem_manyRun hy).1
          exact hlater (c :: y.1) y.2 (by rw [hs]; rfl) (List.cons_ne_nil _ _)
        rw [hnone, List.nil_append]
        simpa using hf
      · simpa using hf
  | cons c w ih =>
    have hrest := ih (f := fun u => f (c :: u))
      (fun d hd => hw d (List.mem_cons_of_mem c hd)) hf hlater
    unfold First at hrest ⊢
    rw [run_bind] at hrest ⊢
    show ((manyRun cls (c :: (w ++ s))).flatMap fun x => (f x.1).run x.2).head? = some (b, t)
    rw [manyRun, if_pos (hw c List.mem_cons_self), List.flatMap_append, List.head?_append,
      List.flatMap_map]
    have hrun : (manyRun cls (w ++ s)).flatMap (fun x => (f (c :: x.1)).run x.2) =
        ((many cls).run (w ++ s)).flatMap fun x => (f (c :: x.1)).run x.2 := rfl
    rw [hrun, hrest]
    rfl

/-! ### What a match consists of -/

theorem mem_pure {x : α × List Char} : x ∈ (pure a : Pattern α).run s ↔ x = (a, s) :=
  List.mem_singleton

theorem mem_bind {x : β × List Char} :
    x ∈ (p >>= f).run s ↔ ∃ y ∈ p.run s, x ∈ (f y.1).run y.2 := List.mem_flatMap

theorem mem_lit {w : String} {x : Unit × List Char} (h : x ∈ (lit w).run s) :
    s = w.toList ++ x.2 := by
  have hrun : (lit w).run s = litRun w.toList s := rfl
  rw [hrun] at h
  by_cases hw : w.toList <+: s
  · obtain ⟨t, rfl⟩ := hw
    rw [litRun_append, List.mem_singleton] at h
    rw [h]
  · rw [litRun_eq_nil.mpr hw] at h
    exact absurd h List.not_mem_nil

theorem mem_many1 {x : List Char × List Char} (h : x ∈ (many1 cls).run s) :
    s = x.1 ++ x.2 ∧ x.1 ≠ [] ∧ ∀ c ∈ x.1, cls c := by
  obtain ⟨⟨c, t⟩, hc, h⟩ := mem_bind.mp h
  obtain ⟨y, hy, h⟩ := mem_bind.mp h
  obtain ⟨ht, hall⟩ := mem_manyRun hy
  rw [mem_pure.mp h]
  cases s with
  | nil => exact absurd hc List.not_mem_nil
  | cons d s =>
    have hrun : (char cls).run (d :: s) = if cls d then [(d, s)] else [] := rfl
    rw [hrun] at hc
    split_ifs at hc with hd
    · obtain ⟨rfl, rfl⟩ := Prod.mk.inj (List.mem_singleton.mp hc)
      refine ⟨congrArg (c :: ·) ht, List.cons_ne_nil _ _, fun e he => ?_⟩
      rcases List.mem_cons.mp he with rfl | he
      · exact hd
      · exact hall e he
    · exact absurd hc List.not_mem_nil

theorem mem_number {x : ℕ × List Char} (h : x ∈ number.run s) :
    ∃ w, s = w ++ x.2 ∧ w ≠ [] ∧ ∀ c ∈ w, c.isDigit := by
  obtain ⟨⟨w, t⟩, hw, h⟩ := mem_bind.mp h
  rw [mem_pure.mp h]
  exact ⟨w, mem_many1 hw⟩

theorem matchStart_eq_some (h : p.matchStart s = some a) : ∃ t, (a, t) ∈ p.run s := by
  obtain ⟨x, hx, rfl⟩ := Option.map_eq_some_iff.mp h
  exact ⟨x.2, List.mem_of_mem_head? hx⟩

/-- A pattern leaves an end of what it reads. -/
def Shortens (p : Pattern α) : Prop := ∀ s, ∀ x ∈ p.run s, x.2 <:+ s

theorem shortens_lit (w : String) : Shortens (lit w) := fun _ _ hx => ⟨_, (mem_lit hx).symm⟩

theorem shortens_many (cls : Char → Bool) : Shortens (many cls) :=
  fun _ _ hx => ⟨_, (mem_manyRun hx).1.symm⟩

theorem shortens_many1 (cls : Char → Bool) : Shortens (many1 cls) :=
  fun _ _ hx => ⟨_, (mem_many1 hx).1.symm⟩

theorem shortens_number : Shortens number := fun _ _ hx => by
  obtain ⟨w, hw, -, -⟩ := mem_number hx
  exact ⟨w, hw.symm⟩

/-- The word is in whatever the pattern matches. -/
def Finds (w : List Char) (p : Pattern α) : Prop := ∀ s, ∀ x ∈ p.run s, w <:+: s

theorem finds_lit (u : String) : Finds u.toList (lit u) := fun _ _ hx => ⟨[], _, (mem_lit hx).symm⟩

theorem Finds.bind_left (hp : Finds w p) : Finds w (p >>= f) := fun s _ hx => by
  obtain ⟨y, hy, -⟩ := mem_bind.mp hx
  exact hp s y hy

theorem Finds.bind (hp : Shortens p) (hf : ∀ a, Finds w (f a)) :
    Finds w (p >>= f) := fun s x hx => by
  obtain ⟨y, hy, hx⟩ := mem_bind.mp hx
  exact (hf y.1 y.2 x hx).trans (hp s y hy).isInfix

/-! ### Searching -/

theorem search_of_first (h : First p s a t) : p.search s = some a := by
  cases s with
  | nil => exact h.matchStart
  | cons c s => rw [search, h.matchStart]

/-- A start without a match is skipped. -/
theorem search_append (h : ∀ v ∈ w.tails, v ≠ [] → Fails p (v ++ s)) :
    p.search (w ++ s) = p.search s := by
  induction w with
  | nil => rfl
  | cons c w ih =>
    have hhead : Fails p (c :: (w ++ s)) :=
      h (c :: w) ((List.mem_tails _ _).mpr (List.suffix_refl _)) (List.cons_ne_nil c w)
    rw [List.cons_append, search, hhead.matchStart]
    refine ih fun v hv hne => h v ((List.mem_tails _ _).mpr ?_) hne
    exact ((List.mem_tails _ _).mp hv).trans (List.suffix_cons c w)

/-- Nowhere a match. -/
theorem search_eq_none (h : ∀ t, t <:+ s → Fails p t) : p.search s = none := by
  induction s with
  | nil => exact (h [] (List.suffix_refl [])).matchStart
  | cons c s ih =>
    rw [search, (h (c :: s) (List.suffix_refl _)).matchStart]
    exact ih fun t ht => h t (ht.trans (List.suffix_cons c s))

/-- Without the word there is no match. -/
theorem Finds.search (hp : Finds w p) (h : ¬ w <:+: s) : p.search s = none :=
  search_eq_none fun t ht => List.eq_nil_iff_forall_not_mem.mpr fun x hx =>
    h ((hp t x hx).trans ht.isInfix)

end First

end Pattern

end MoeInfinity.Lib.Backtrack
