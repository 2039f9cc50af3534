import Mathlib.Data.Int.Notation
import Mathlib.Data.List.Basic
import Mathlib.Data.List.Induction
import Mathlib.Tactic.Basic

/-! # JSON texts

The reader works character by character on a state that holds the containers around the current
place, so that what it does with a text that was cut off and continued follows from its runs on the
parts. The grammar is the usual one with the constants `NaN`, `Infinity` and `-Infinity`; between
two tokens any blanks may stand.

* `loads_dumps`: a text that `dumps` has written is read back.
* `Inside σ`: the reader is inside a container. It stays inside as long as the text does not close
  the outermost one (`Inside.run`), and a closed text can only go on with blanks.

An escaped surrogate, which `dumps` does not write, is read as the replacement character. -/

namespace MoeInfinity.Lib.JsonText

/-! ### Values -/

/-- Where the reader stands in a number. -/
inductive NumState where
  | sign | zero | int | point | frac | exp | expSign | expInt
deriving DecidableEq, Repr

/-- The place after one more character of the number. -/
def NumState.next : NumState → Char → Option NumState
  | .sign, c => if c = '0' then some .zero else if c.isDigit then some .int else none
  | .zero, c => if c = '.' then some .point else if c = 'e' ∨ c = 'E' then some .exp else none
  | .int, c =>
    if c.isDigit then some .int else if c = '.' then some .point
    else if c = 'e' ∨ c = 'E' then some .exp else none
  | .point, c => if c.isDigit then some .frac else none
  | .frac, c => if c.isDigit then some .frac else if c = 'e' ∨ c = 'E' then some .exp else none
  | .exp, c =>
    if c = '+' ∨ c = '-' then some .expSign else if c.isDigit then some .expInt else none
  | .expSign, c => if c.isDigit then some .expInt else none
  | .expInt, c => if c.isDigit then some .expInt else none

/-- The place after the text of a number. -/
def numRun : List Char → Option NumState
  | [] => none
  | c :: cs =>
    if c = '-' then cs.foldlM NumState.next .sign else (c :: cs).foldlM NumState.next .sign

/-- The text of a number. -/
def IsNumber (t : List Char) : Prop :=
  numRun t = some .zero ∨ numRun t = some .int ∨ numRun t = some .frac ∨ numRun t = some .expInt

instance (t : List Char) : Decidable (IsNumber t) := inferInstanceAs (Decidable (_ ∨ _ ∨ _ ∨ _))

inductive Constant where
  | null | true | false | nan | infinity | negInfinity
deriving DecidableEq, Repr

def Constant.text : Constant → List Char
  | .null => ['n', 'u', 'l', 'l']
  | .true => ['t', 'r', 'u', 'e']
  | .false => ['f', 'a', 'l', 's', 'e']
  | .nan => ['N', 'a', 'N']
  | .infinity => ['I', 'n', 'f', 'i', 'n', 'i', 't', 'y']
  | .negInfinity => ['-', 'I', 'n', 'f', 'i', 'n', 'i', 't', 'y']

/-- A value; a number is known by its text. -/
inductive Json where
  | const (k : Constant)
  | num (t : {t : List Char // IsNumber t})
  | str (s : List Char)
  | arr (items : List Json)
  | obj (members : List (List Char × Json))

/-! ### Writing -/

/-- The hexadecimal digit of a number below 16. -/
def hexDigit (n : ℕ) : Char := if n < 10 then Char.ofNat (48 + n) else Char.ofNat (87 + n)

/-- A character inside a string: quotes, backslashes and control characters are escaped. -/
def escapeChar (c : Char) : List Char :=
  if c = '"' then ['\\', '"']
  else if c = '\\' then ['\\', '\\']
  else if c = '\n' then ['\\', 'n']
  else if c = '\r' then ['\\', 'r']
  else if c = '\t' then ['\\', 't']
  else if c = '\x0c' then ['\\', 'f']
  else if c = '\x08' then ['\\', 'b']
  else if c.toNat < 32 then ['\\', 'u', '0', '0', hexDigit (c.toNat / 16), hexDigit (c.toNat % 16)]
  else [c]

def quote (s : List Char) : List Char := '"' :: (s.flatMap escapeChar ++ ['"'])

mutual

/-- `json.dumps(value, ensure_ascii=False)`. -/
def dumps : Json → List Char
  | .const k => k.text
  | .num t => t.1
  | .str s => quote s
  | .arr items => '[' :: (dumpsItems items ++ [']'])
  | .obj members => '{' :: (dumpsMembers members ++ ['}'])

def dumpsItems : List Json → List Char
  | [] => []
  | [v] => dumps v
  | v :: w :: rest => dumps v ++ (',' :: ' ' :: dumpsItems (w :: rest))

def dumpsMembers : List (List Char × Json) → List Char
  | [] => []
  | [(key, v)] => quote key ++ (':' :: ' ' :: dumps v)
  | (key, v) :: m :: rest =>
    quote key ++ (':' :: ' ' :: (dumps v ++ (',' :: ' ' :: dumpsMembers (m :: rest))))

end

/-! ### Reading -/

/-- A container that is not closed: what it holds so far, and in an object the key of the value that
is being read. -/
inductive Frame where
  | arr (items : List Json)
  | obj (members : List (List Char × Json)) (key : List Char)

/-- Inside a string: between two characters, after a backslash, or in an escape with `digits`
hexadecimal digits to come. -/
inductive Lex where
  | plain
  | escape
  | hex (digits : ℕ) (code : ℕ)

/-- Where the reader stands. A string is a value, or a key of an object with the given members. -/
inductive State where
  | value (stack : List Frame)
  | items (stack : List Frame)
  | key (members : List (List Char × Json)) (first : Bool) (stack : List Frame)
  | colon (members : List (List Char × Json)) (key : List Char) (stack : List Frame)
  | str (members : Option (List (List Char × Json))) (lex : Lex) (text : List Char)
      (stack : List Frame)
  | num (text : List Char) (stack : List Frame)
  | const (k : Constant) (letters : ℕ) (stack : List Frame)
  | after (v : Json) (stack : List Frame)

def isBlank (c : Char) : Bool := c = ' ' || c = '\t' || c = '\n' || c = '\r'

def hexVal (c : Char) : Option ℕ :=
  if c.isDigit then some (c.toNat - 48)
  else if 'a' ≤ c ∧ c ≤ 'f' then some (c.toNat - 87)
  else if 'A' ≤ c ∧ c ≤ 'F' then some (c.toNat - 55)
  else none

/-- The character of an escape `\uXXXX`. -/
def charOf (code : ℕ) : Char := if code.isValidChar then Char.ofNat code else '\uFFFD'

/-- The character after a backslash, other than `u`. -/
def escapedChar (c : Char) : Option Char :=
  if c = '"' ∨ c = '\\' ∨ c = '/' then some c
  else if c = 'b' then some '\x08'
  else if c = 'f' then some '\x0c'
  else if c = 'n' then some '\n'
  else if c = 'r' then some '\r'
  else if c = 't' then some '\t'
  else none

/-- The first character of a value. -/
def startValue (stack : List Frame) (c : Char) : Option State :=
  if c = '{' then some (.key [] true stack)
  else if c = '[' then some (.items stack)
  else if c = '"' then some (.str none .plain [] stack)
  else if c = 'n' then some (.const .null 1 stack)
  else if c = 't' then some (.const .true 1 stack)
  else if c = 'f' then some (.const .false 1 stack)
  else if c = 'N' then some (.const .nan 1 stack)
  else if c = 'I' then some (.const .infinity 1 stack)
  else if c = '-' ∨ c.isDigit then some (.num [c] stack)
  else none

/-- A character after a value. -/
def afterValue (v : Json) (stack : List Frame) (c : Char) : Option State :=
  if isBlank c then some (.after v stack)
  else match stack with
    | [] => none
    | .arr items :: rest =>
      if c = ',' then some (.value (.arr (items ++ [v]) :: rest))
      else if c = ']' then some (.after (.arr (items ++ [v])) rest)
      else none
    | .obj members key :: rest =>
      if c = ',' then some (.key (members ++ [(key, v)]) false rest)
      else if c = '}' then some (.after (.obj (members ++ [(key, v)])) rest)
      else none

/-- The end of a string. -/
def closeString (members : Option (List (List Char × Json))) (text : List Char)
    (stack : List Frame) :
    State :=
  match members with
  | none => .after (.str text) stack
  | some ms => .colon ms text stack

/-- A character of a string. -/
def stepString (members : Option (List (List Char × Json))) (text : List Char)
    (stack : List Frame) :
    Lex → Char → Option State
  | .plain, c =>
    if c = '"' then some (closeString members text stack)
    else if c = '\\' then some (.str members .escape text stack)
    else if c.toNat < 32 then none
    else some (.str members .plain (text ++ [c]) stack)
  | .escape, c =>
    if c = 'u' then some (.str members (.hex 4 0) text stack)
    else (escapedChar c).map fun d => .str members .plain (text ++ [d]) stack
  | .hex digits code, c =>
    (hexVal c).map fun d =>
      if digits ≤ 1 then .str members .plain (text ++ [charOf (16 * code + d)]) stack
      else .str members (.hex (digits - 1) (16 * code + d)) text stack

/-- One character. -/
def step : State → Char → Option State
  | .value stack, c => if isBlank c then some (.value stack) else startValue stack c
  | .items stack, c =>
    if isBlank c then some (.items stack)
    else if c = ']' then some (.after (.arr []) stack)
    else startValue (.arr [] :: stack) c
  | .key members first stack, c =>
    if isBlank c then some (.key members first stack)
    else if c = '"' then some (.str (some members) .plain [] stack)
    else if first ∧ c = '}' then some (.after (.obj members) stack)
    else none
  | .colon members key stack, c =>
    if isBlank c then some (.colon members key stack)
    else if c = ':' then some (.value (.obj members key :: stack))
    else none
  | .str members lex text stack, c => stepString members text stack lex c
  | .num text stack, c =>
    if (numRun (text ++ [c])).isSome then some (.num (text ++ [c]) stack)
    else if text = ['-'] ∧ c = 'I' then some (.const .negInfinity 2 stack)
    else if h : IsNumber text then afterValue (.num ⟨text, h⟩) stack c
    else none
  | .const k letters stack, c =>
    match k.text[letters]? with
    | some d => if c = d then some (.const k (letters + 1) stack) else none
    | none => afterValue (.const k) stack c
  | .after v stack, c => afterValue v stack c

/-- The value of a text that ends here. -/
def finish : State → Option Json
  | .after v [] => some v
  | .num text [] => if h : IsNumber text then some (.num ⟨text, h⟩) else none
  | .const k letters [] => if letters = k.text.length then some (.const k) else none
  | _ => none

/-- The state after a text. -/
def run (s : State) (cs : List Char) : Option State := cs.foldlM step s

/-- `json.loads`; nothing for a text that raises. -/
def loads (cs : List Char) : Option Json := do
  let s ← run (.value []) cs
  finish s

/-! ### Runs -/

@[simp] theorem run_nil (s : State) : run s [] = some s := rfl

theorem run_cons (s : State) (c : Char) (cs : List Char) :
    run s (c :: cs) = (step s c).bind fun t => run t cs := rfl

theorem run_append (s : State) (cs ds : List Char) :
    run s (cs ++ ds) = (run s cs).bind fun t => run t ds := by
  unfold run
  rw [List.foldlM_append]
  rfl

theorem run_of_step {s t : State} {c : Char} (h : step s c = some t) (cs : List Char) :
    run s (c :: cs) = run t cs := by
  rw [run_cons, h]
  rfl

/-- A text that goes on behind a part that was read. -/
theorem run_of_run {s t : State} {cs : List Char} (h : run s cs = some t) (ds : List Char) :
    run s (cs ++ ds) = run t ds := by
  rw [run_append, h]
  rfl

/-! ### Strings -/

theorem hexVal_hexDigit : ∀ n < 16, hexVal (hexDigit n) = some n := by decide

theorem charOf_toNat (c : Char) : charOf c.toNat = c := by
  have h : c.toNat.isValidChar := c.valid
  rw [charOf, if_pos h, Char.ofNat_toNat]

section Strings

variable (members : Option (List (List Char × Json))) (stack : List Frame)

theorem run_escapeChar (text : List Char) (c : Char) :
    run (.str members .plain text stack) (escapeChar c) =
      some (.str members .plain (text ++ [c]) stack) := by
  unfold escapeChar
  split_ifs with h1 h2 h3 h4 h5 h6 h7 h8
  · subst h1; rfl
  · subst h2; rfl
  · subst h3; rfl
  · subst h4; rfl
  · subst h5; rfl
  · subst h6; rfl
  · subst h7; rfl
  · -- a control character goes through its four hexadecimal digits
    have hd1 := hexVal_hexDigit (c.toNat / 16) (by omega)
    have hd2 := hexVal_hexDigit (c.toNat % 16) (by omega)
    have h0 : hexVal '0' = some 0 := by decide
    rw [run_of_step (t := .str members .escape text stack) rfl,
      run_of_step (t := .str members (.hex 4 0) text stack) rfl,
      run_of_step (t := .str members (.hex 3 0) text stack) rfl,
      run_of_step (t := .str members (.hex 2 0) text stack) rfl,
      run_of_step (t := .str members (.hex 1 (c.toNat / 16)) text stack) (by
        simp [step, stepString, hd1]),
      run_of_step (t := .str members .plain (text ++ [c]) stack) (by
        simp only [step, stepString, hd2, Option.map_some, Nat.le_refl, if_true]
        rw [show 16 * (c.toNat / 16) + c.toNat % 16 = c.toNat by omega, charOf_toNat])]
    rfl
  · rw [run_of_step (t := .str members .plain (text ++ [c]) stack) (by
      simp only [step, stepString, if_neg h1, if_neg h2, if_neg h8])]
    rfl

theorem run_escaped (text s : List Char) :
    run (.str members .plain text stack) (s.flatMap escapeChar ++ ['"']) =
      some (closeString members (text ++ s) stack) := by
  induction s generalizing text with
  | nil =>
    rw [List.append_nil]
    rfl
  | cons c s ih =>
    rw [List.flatMap_cons, List.append_assoc, run_of_run (run_escapeChar members stack text c), ih,
      List.append_assoc]
    rfl

end Strings

/-! ### Numbers -/

theorem numRun_concat {t : List Char} (h : t ≠ []) (c : Char) :
    numRun (t ++ [c]) = (numRun t).bind fun st => st.next c := by
  obtain ⟨a, t, rfl⟩ := List.exists_cons_of_ne_nil h
  simp only [List.cons_append, numRun]
  split
  · rw [List.foldlM_append]
    simp
  · rw [← List.cons_append, List.foldlM_append]
    simp

/-- A part of the text of a number. -/
theorem numRun_isSome_of_append {t cs : List Char} (h : t ≠ []) (hs : (numRun (t ++ cs)).isSome) :
    (numRun t).isSome := by
  induction cs using List.reverseRecOn with
  | nil => simpa using hs
  | append_singleton cs c ih =>
    refine ih ?_
    rw [← List.append_assoc, numRun_concat (by simp [h])] at hs
    cases hr : numRun (t ++ cs) with
    | none => rw [hr] at hs; cases hs
    | some st => rfl

theorem IsNumber.isSome {t : List Char} (h : IsNumber t) : (numRun t).isSome := by
  rcases h with h | h | h | h <;> rw [h] <;> rfl

theorem IsNumber.ne_nil {t : List Char} (h : IsNumber t) : t ≠ [] := by
  rintro rfl
  exact absurd h (by decide)

theorem run_num (stack : List Frame) {t cs : List Char} (h : t ≠ [])
    (hs : (numRun (t ++ cs)).isSome) :
    run (.num t stack) cs = some (.num (t ++ cs) stack) := by
  induction cs generalizing t with
  | nil => rw [List.append_nil]; rfl
  | cons c cs ih =>
    have happ : t ++ c :: cs = t ++ [c] ++ cs := by simp
    rw [happ] at hs ⊢
    have hc := numRun_isSome_of_append (by simp) hs
    rw [run_of_step (t := .num (t ++ [c]) stack) (by rw [step, if_pos hc]), ih (by simp) hs]

/-- A number starts with a sign or a digit. -/
theorem head_of_numRun {c : Char} {cs : List Char} (h : (numRun (c :: cs)).isSome) :
    c = '-' ∨ c.isDigit = true := by
  have h1 := numRun_isSome_of_append (t := [c]) (by simp) h
  by_cases hc : c = '-'
  · exact Or.inl hc
  · right
    by_contra hd
    have h0 : c ≠ '0' := fun h0 => hd (by rw [h0]; decide)
    simp [numRun, hc, NumState.next, h0, hd] at h1

theorem startValue_num (stack : List Frame) {c : Char} (h : c = '-' ∨ c.isDigit = true) :
    startValue stack c = some (.num [c] stack) := by
  have hne : ∀ d : Char, d ≠ '-' → d.isDigit = false → c ≠ d := by
    rintro d hd hd' rfl
    rcases h with h | h
    · exact hd h
    · rw [hd'] at h; cases h
  unfold startValue
  rw [if_neg (hne _ (by decide) (by decide)), if_neg (hne _ (by decide) (by decide)),
    if_neg (hne _ (by decide) (by decide)), if_neg (hne _ (by decide) (by decide)),
    if_neg (hne _ (by decide) (by decide)), if_neg (hne _ (by decide) (by decide)),
    if_neg (hne _ (by decide) (by decide)), if_neg (hne _ (by decide) (by decide)), if_pos h]

theorem isBlank_num {c : Char} (h : c = '-' ∨ c.isDigit = true) : isBlank c = false := by
  have hne : ∀ d : Char, d ≠ '-' → d.isDigit = false → c ≠ d := by
    rintro d hd hd' rfl
    rcases h with h | h
    · exact hd h
    · rw [hd'] at h; cases h
  simp [isBlank, hne ' ' (by decide) (by decide), hne '\t' (by decide) (by decide),
    hne '\n' (by decide) (by decide), hne '\r' (by decide) (by decide)]

/-! ### The end of a value -/

/-- The state at the end of the text of a value. -/
inductive Ends (v : Json) (stack : List Frame) : State → Prop where
  | after : Ends v stack (.after v stack)
  | num (t : {t : List Char // IsNumber t}) (h : v = .num t) : Ends v stack (.num t.1 stack)
  | const (k : Constant) (h : v = .const k) : Ends v stack (.const k k.text.length stack)

/-- The characters that follow a value in a container. -/
def Delimiter (c : Char) : Prop := c = ',' ∨ c = ']' ∨ c = '}' ∨ isBlank c = true

theorem Delimiter.next_eq_none {c : Char} (h : Delimiter c) (st : NumState) : st.next c = none := by
  have hc : c = ',' ∨ c = ']' ∨ c = '}' ∨ c = ' ' ∨ c = '\t' ∨ c = '\n' ∨ c = '\r' := by
    simpa [Delimiter, isBlank, or_assoc] using h
  rcases hc with rfl | rfl | rfl | rfl | rfl | rfl | rfl <;> cases st <;> decide

theorem Ends.step_eq {v : Json} {stack : List Frame} {s : State} (h : Ends v stack s) {c : Char}
    (hc : Delimiter c) : step s c = afterValue v stack c := by
  cases h with
  | after => rfl
  | num t h =>
    subst h
    obtain ⟨t, ht⟩ := t
    have hnone : numRun (t ++ [c]) = none := by
      rw [numRun_concat ht.ne_nil]
      cases numRun t with
      | none => rfl
      | some st => exact hc.next_eq_none st
    have hsign : t ≠ ['-'] := by
      rintro rfl
      exact absurd ht (by decide)
    simp [step, hnone, hsign, ht]
  | const k h =>
    subst h
    simp [step]

theorem Ends.finish_eq {v : Json} {s : State} (h : Ends v [] s) : finish s = some v := by
  cases h with
  | after => rfl
  | num t h => subst h; simp [finish, t.2]
  | const k h => subst h; simp [finish]

theorem Ends.run_eq {v : Json} {stack : List Frame} {s : State} (h : Ends v stack s) {c : Char}
    (hc : Delimiter c) (cs : List Char) :
    run s (c :: cs) = (afterValue v stack c).bind fun t => run t cs := by
  rw [run_cons, h.step_eq hc]

/-! ### What is written is read back -/

/-- The first character of a value. -/
theorem dumps_head (v : Json) : ∃ c cs, dumps v = c :: cs ∧ isBlank c = false ∧ c ≠ ']' := by
  cases v with
  | const k => cases k <;> exact ⟨_, _, rfl, rfl, by decide⟩
  | num t =>
    obtain ⟨t, ht⟩ := t
    obtain ⟨c, cs, rfl⟩ := List.exists_cons_of_ne_nil ht.ne_nil
    have hc := head_of_numRun ht.isSome
    refine ⟨c, cs, rfl, isBlank_num hc, ?_⟩
    rintro rfl
    exact absurd hc (by decide)
  | str s => exact ⟨_, _, rfl, rfl, by decide⟩
  | arr items => exact ⟨_, _, rfl, rfl, by decide⟩
  | obj members => exact ⟨_, _, rfl, rfl, by decide⟩

theorem run_const (k : Constant) (stack : List Frame) :
    run (.value stack) k.text = some (.const k k.text.length stack) := by
  cases k <;> rfl

theorem run_quote_value (s : List Char) (stack : List Frame) :
    run (.value stack) (quote s) = some (.after (.str s) stack) := by
  rw [quote, run_of_step (t := .str none .plain [] stack) rfl, run_escaped]
  rfl

theorem run_quote_key (key : List Char) (members : List (List Char × Json)) (first : Bool)
    (stack : List Frame) :
    run (.key members first stack) (quote key ++ [':', ' ']) =
      some (.value (.obj members key :: stack)) := by
  rw [quote, List.cons_append, run_of_step (t := .str (some members) .plain [] stack) (by
    cases first <;> rfl), run_of_run (run_escaped (some members) stack [] key)]
  rfl

mutual

/-- **The text of a value** leads from the place before the value to its end. -/
theorem run_dumps (v : Json) (stack : List Frame) :
    ∃ s, run (.value stack) (dumps v) = some s ∧ Ends v stack s := by
  match v with
  | .const k => exact ⟨_, by rw [dumps]; exact run_const k stack, .const k rfl⟩
  | .num t =>
    obtain ⟨t, ht⟩ := t
    refine ⟨.num t stack, ?_, .num ⟨t, ht⟩ rfl⟩
    rw [dumps]
    obtain ⟨c, cs, rfl⟩ := List.exists_cons_of_ne_nil ht.ne_nil
    have hc := head_of_numRun ht.isSome
    rw [run_of_step (t := .num [c] stack) (by
      simp [step, isBlank_num hc, startValue_num stack hc])]
    exact run_num stack (by simp) (by simpa using ht.isSome)
  | .str s => exact ⟨_, by rw [dumps]; exact run_quote_value s stack, .after⟩
  | .arr [] => exact ⟨_, rfl, .after⟩
  | .arr (v :: rest) =>
    refine ⟨_, ?_, .after⟩
    obtain ⟨c, cs, hcs, hblank, hclose⟩ := dumps_head v
    have hrun := run_items v rest [] stack
    have hhead : ∃ ds, dumpsItems (v :: rest) ++ [']'] = c :: ds := by
      cases rest with
      | nil => exact ⟨cs ++ [']'], by simp [dumpsItems, hcs]⟩
      | cons w rest => exact ⟨_, by rw [dumpsItems, hcs]; rfl⟩
    obtain ⟨ds, hds⟩ := hhead
    rw [dumps, run_of_step (t := .items stack) rfl]
    rw [hds] at hrun ⊢
    rw [run_cons] at hrun ⊢
    simpa [step, hblank, hclose] using hrun
  | .obj [] => exact ⟨_, rfl, .after⟩
  | .obj (m :: rest) =>
    refine ⟨_, ?_, .after⟩
    rw [dumps, run_of_step (t := .key [] true stack) rfl]
    exact run_members m rest [] true stack
termination_by sizeOf v

theorem run_items (v : Json) (rest : List Json) (before : List Json) (stack : List Frame) :
    run (.value (.arr before :: stack)) (dumpsItems (v :: rest) ++ [']']) =
      some (.after (.arr (before ++ v :: rest)) stack) := by
  obtain ⟨s, hs, hends⟩ := run_dumps v (.arr before :: stack)
  match rest with
  | [] =>
    rw [dumpsItems, run_of_run hs, hends.run_eq (Or.inr (Or.inl rfl))]
    rfl
  | w :: rest =>
    rw [dumpsItems, List.append_assoc, run_of_run hs, List.cons_append,
      hends.run_eq (Or.inl rfl)]
    have hrest := run_items w rest (before ++ [v]) stack
    rw [List.append_assoc] at hrest
    exact hrest
termination_by sizeOf (v :: rest)

theorem run_members (m : List Char × Json) (rest : List (List Char × Json))
    (before : List (List Char × Json)) (first : Bool) (stack : List Frame) :
    run (.key before first stack) (dumpsMembers (m :: rest) ++ ['}']) =
      some (.after (.obj (before ++ m :: rest)) stack) := by
  match m with
  | (key, v) =>
    obtain ⟨s, hs, hends⟩ := run_dumps v (.obj before key :: stack)
    have hkey := run_quote_key key before first stack
    match rest with
    | [] =>
      have happ : dumpsMembers [(key, v)] ++ ['}'] = (quote key ++ [':', ' ']) ++
          (dumps v ++ ['}']) := by
        simp [dumpsMembers]
      rw [happ, run_of_run hkey, run_of_run hs, hends.run_eq (Or.inr (Or.inr (Or.inl rfl)))]
      rfl
    | m' :: rest =>
      have happ : dumpsMembers ((key, v) :: m' :: rest) ++ ['}'] = (quote key ++ [':', ' ']) ++
          (dumps v ++ (',' :: ' ' :: (dumpsMembers (m' :: rest) ++ ['}']))) := by
        simp [dumpsMembers]
      rw [happ, run_of_run hkey, run_of_run hs, hends.run_eq (Or.inl rfl)]
      have hrest := run_members m' rest (before ++ [(key, v)]) false stack
      rw [List.append_assoc] at hrest
      exact hrest
termination_by sizeOf (m :: rest)

end

/-- **What is written is read back.** -/
theorem loads_dumps (v : Json) : loads (dumps v) = some v := by
  obtain ⟨s, hs, hends⟩ := run_dumps v []
  rw [loads, hs]
  exact hends.finish_eq

/-! ### Characters of a written text -/

theorem NumState.printable {st : NumState} {c : Char} (h : (st.next c).isSome) : 32 ≤ c.toNat := by
  by_contra hlt
  have hnot : ∀ d : Char, 32 ≤ d.toNat → c ≠ d := by
    rintro d hd rfl
    exact hlt hd
  have hdigit : c.isDigit = false := by
    rw [← Bool.not_eq_true, Char.isDigit, Bool.and_eq_true, not_and_or]
    left
    rw [decide_eq_true_eq, ge_iff_le, UInt32.le_iff_toNat_le]
    exact fun h48 => hlt (Nat.le_trans (by decide) h48)
  have h1 := hnot '0' (by decide)
  have h2 := hnot '.' (by decide)
  have h3 := hnot 'e' (by decide)
  have h4 := hnot 'E' (by decide)
  have h5 := hnot '+' (by decide)
  have h6 := hnot '-' (by decide)
  cases st <;> simp [NumState.next, h1, h2, h3, h4, h5, h6, hdigit] at h

theorem IsNumber.printable {t : List Char} (h : IsNumber t) : ∀ c ∈ t, 32 ≤ c.toNat := by
  intro c hc
  obtain ⟨t₁, t₂, rfl⟩ := List.append_of_mem hc
  by_cases hnil : t₁ = []
  · subst hnil
    rcases head_of_numRun h.isSome with rfl | hd
    · decide
    · have h48 : '0' ≤ c := by
        rw [Char.isDigit, Bool.and_eq_true, decide_eq_true_eq] at hd
        exact hd.1
      exact Nat.le_trans (by decide) (UInt32.le_iff_toNat_le.mp h48)
  · have hsome : (numRun (t₁ ++ [c])).isSome :=
      numRun_isSome_of_append (by simp) (by simpa using h.isSome)
    rw [numRun_concat hnil] at hsome
    cases hr : numRun t₁ with
    | none => rw [hr] at hsome; cases hsome
    | some st => rw [hr] at hsome; exact NumState.printable hsome

theorem hexDigit_printable : ∀ n < 16, 32 ≤ (hexDigit n).toNat := by decide

theorem escapeChar_printable (c : Char) : ∀ d ∈ escapeChar c, 32 ≤ d.toNat := by
  unfold escapeChar
  split_ifs with h1 h2 h3 h4 h5 h6 h7 h8
  · exact List.forall_iff_forall_mem.mp (by decide)
  · exact List.forall_iff_forall_mem.mp (by decide)
  · exact List.forall_iff_forall_mem.mp (by decide)
  · exact List.forall_iff_forall_mem.mp (by decide)
  · exact List.forall_iff_forall_mem.mp (by decide)
  · exact List.forall_iff_forall_mem.mp (by decide)
  · exact List.forall_iff_forall_mem.mp (by decide)
  · have hd1 := hexDigit_printable (c.toNat / 16) (by omega)
    have hd2 := hexDigit_printable (c.toNat % 16) (by omega)
    simp only [List.mem_cons, List.not_mem_nil, or_false, forall_eq_or_imp, forall_eq]
    exact ⟨by decide, by decide, by decide, by decide, hd1, hd2⟩
  · intro d hd
    rw [List.mem_singleton.mp hd]
    omega

theorem quote_printable (s : List Char) : ∀ c ∈ quote s, 32 ≤ c.toNat := by
  intro c hc
  simp only [quote, List.mem_cons, List.mem_append, List.mem_flatMap, List.not_mem_nil, or_false]
    at hc
  rcases hc with rfl | ⟨d, -, hd⟩ | rfl
  · decide
  · exact escapeChar_printable d c hd
  · decide

mutual

/-- No control character is written. -/
theorem dumps_printable (v : Json) : ∀ c ∈ dumps v, 32 ≤ c.toNat := by
  match v with
  | .const k => cases k <;> exact List.forall_iff_forall_mem.mp (by decide)
  | .num t => exact t.2.printable
  | .str s => exact quote_printable s
  | .arr items =>
    intro c hc
    simp only [dumps, List.mem_cons, List.mem_append, List.not_mem_nil, or_false] at hc
    rcases hc with rfl | hc | rfl
    · decide
    · exact dumpsItems_printable items c hc
    · decide
  | .obj members =>
    intro c hc
    simp only [dumps, List.mem_cons, List.mem_append, List.not_mem_nil, or_false] at hc
    rcases hc with rfl | hc | rfl
    · decide
    · exact dumpsMembers_printable members c hc
    · decide
termination_by sizeOf v

theorem dumpsItems_printable (items : List Json) : ∀ c ∈ dumpsItems items, 32 ≤ c.toNat := by
  match items with
  | [] => exact fun c hc => absurd hc List.not_mem_nil
  | [v] => exact dumps_printable v
  | v :: w :: rest =>
    intro c hc
    simp only [dumpsItems, List.mem_append, List.mem_cons] at hc
    rcases hc with hc | rfl | rfl | hc
    · exact dumps_printable v c hc
    · decide
    · decide
    · exact dumpsItems_printable (w :: rest) c hc
termination_by sizeOf items

theorem dumpsMembers_printable (members : List (List Char × Json)) :
    ∀ c ∈ dumpsMembers members, 32 ≤ c.toNat := by
  match members with
  | [] => exact fun c hc => absurd hc List.not_mem_nil
  | [(key, v)] =>
    intro c hc
    simp only [dumpsMembers, List.mem_append, List.mem_cons] at hc
    rcases hc with hc | rfl | rfl | hc
    · exact quote_printable key c hc
    · decide
    · decide
    · exact dumps_printable v c hc
  | (key, v) :: m :: rest =>
    intro c hc
    simp only [dumpsMembers, List.mem_append, List.mem_cons] at hc
    rcases hc with hc | rfl | rfl | hc | rfl | rfl | hc
    · exact quote_printable key c hc
    · decide
    · decide
    · exact dumps_printable v c hc
    · decide
    · decide
    · exact dumpsMembers_printable (m :: rest) c hc
termination_by sizeOf members

end

/-! ### Texts that were cut off -/

/-- The reader is inside a container. -/
def Inside : State → Prop
  | .value stack => stack ≠ []
  | .items _ => True
  | .key _ _ _ => True
  | .colon _ _ _ => True
  | .str members _ _ stack => members.isSome = true ∨ stack ≠ []
  | .num _ stack => stack ≠ []
  | .const _ _ stack => stack ≠ []
  | .after _ stack => stack ≠ []

/-- A text that ends inside a container has no value. -/
theorem Inside.finish_eq {s : State} (h : Inside s) : finish s = none := by
  cases s with
  | value stack => rfl
  | items stack => rfl
  | key members first stack => rfl
  | colon members key stack => rfl
  | str members lex text stack => rfl
  | num text stack => cases stack with
    | nil => exact absurd rfl h
    | cons f stack => rfl
  | const k letters stack => cases stack with
    | nil => exact absurd rfl h
    | cons f stack => rfl
  | after v stack => cases stack with
    | nil => exact absurd rfl h
    | cons f stack => rfl

theorem startValue_inside {stack : List Frame} {c : Char} {t : State} (h : stack ≠ [])
    (ht : startValue stack c = some t) : Inside t := by
  unfold startValue at ht
  split_ifs at ht <;> cases ht <;> first | exact h | exact trivial | exact Or.inr h

theorem afterValue_inside {v : Json} {stack : List Frame} {c : Char} {t : State} (h : stack ≠ [])
    (ht : afterValue v stack c = some t) : Inside t ∨ ∃ w, t = .after w [] := by
  have hclose : ∀ (w : Json) (rest : List Frame), Inside (.after w rest) ∨
      ∃ w', State.after w rest = .after w' [] := by
    intro w rest
    cases rest with
    | nil => exact Or.inr ⟨w, rfl⟩
    | cons f rest => exact Or.inl (List.cons_ne_nil f rest)
  unfold afterValue at ht
  split at ht
  · cases ht
    exact Or.inl h
  · rcases stack with _ | ⟨f, rest⟩
    · exact absurd rfl h
    · cases f with
      | arr items =>
        simp only at ht
        split_ifs at ht <;> cases ht
        · exact Or.inl (List.cons_ne_nil _ _)
        · exact hclose _ _
      | obj members key =>
        simp only at ht
        split_ifs at ht <;> cases ht
        · exact Or.inl trivial
        · exact hclose _ _

theorem closeString_inside {members : Option (List (List Char × Json))} {stack : List Frame}
    (h : members.isSome = true ∨ stack ≠ []) (text : List Char) :
    Inside (closeString members text stack) := by
  cases members with
  | none => exact h.resolve_left (by simp)
  | some ms => exact trivial

/-- **Inside a container**, one character leads inside again or closes the outermost one. -/
theorem Inside.of_step {s t : State} {c : Char} (h : Inside s) (ht : step s c = some t) :
    Inside t ∨ ∃ w, t = .after w [] := by
  cases s with
  | value stack =>
    simp only [step] at ht
    split at ht
    · cases ht; exact Or.inl h
    · exact Or.inl (startValue_inside h ht)
  | items stack =>
    simp only [step] at ht
    split_ifs at ht
    · cases ht; exact Or.inl trivial
    · cases ht
      cases stack with
      | nil => exact Or.inr ⟨_, rfl⟩
      | cons f rest => exact Or.inl (List.cons_ne_nil f rest)
    · exact Or.inl (startValue_inside (List.cons_ne_nil _ _) ht)
  | key members first stack =>
    simp only [step] at ht
    split_ifs at ht <;> cases ht
    · exact Or.inl trivial
    · exact Or.inl (Or.inl rfl)
    · cases stack with
      | nil => exact Or.inr ⟨_, rfl⟩
      | cons f rest => exact Or.inl (List.cons_ne_nil f rest)
  | colon members key stack =>
    simp only [step] at ht
    split_ifs at ht <;> cases ht
    · exact Or.inl trivial
    · exact Or.inl (List.cons_ne_nil _ _)
  | str members lex text stack =>
    left
    cases lex with
    | plain =>
      simp only [step, stepString] at ht
      split_ifs at ht <;> cases ht
      · exact closeString_inside h text
      · exact h
      · exact h
    | escape =>
      simp only [step, stepString] at ht
      split_ifs at ht
      · cases ht; exact h
      · obtain ⟨d, -, rfl⟩ := Option.map_eq_some_iff.mp ht
        exact h
    | hex digits code =>
      obtain ⟨d, -, rfl⟩ := Option.map_eq_some_iff.mp ht
      split
      · exact h
      · exact h
  | num text stack =>
    simp only [step] at ht
    split_ifs at ht
    · cases ht; exact Or.inl h
    · cases ht; exact Or.inl h
    · exact afterValue_inside h ht
  | const k letters stack =>
    simp only [step] at ht
    split at ht
    · split_ifs at ht
      cases ht
      exact Or.inl h
    · exact afterValue_inside h ht
  | after v stack => exact afterValue_inside h ht

/-- After a closed text only blanks may follow. -/
theorem run_closed {v : Json} {cs : List Char} {t : State} (h : run (.after v []) cs = some t) :
    t = .after v [] ∧ ∀ c ∈ cs, isBlank c = true := by
  induction cs with
  | nil => exact ⟨(Option.some.inj h).symm, nofun⟩
  | cons c cs ih =>
    by_cases hc : isBlank c = true
    · rw [run_of_step (t := .after v []) (by simp [step, afterValue, hc])] at h
      obtain ⟨h1, h2⟩ := ih h
      exact ⟨h1, List.forall_mem_cons.mpr ⟨hc, h2⟩⟩
    · rw [run_cons, show step (.after v []) c = none by simp [step, afterValue, hc]] at h
      cases h

theorem Inside.of_run {s t : State} {cs : List Char} (h : Inside s) (ht : run s cs = some t) :
    Inside t ∨ ∃ w, t = .after w [] := by
  induction cs generalizing s with
  | nil => cases ht; exact Or.inl h
  | cons c cs ih =>
    rw [run_cons] at ht
    obtain ⟨u, hu, ht⟩ := Option.bind_eq_some_iff.mp ht
    rcases h.of_step hu with hin | ⟨w, rfl⟩
    · exact ih hin ht
    · exact Or.inr ⟨w, (run_closed ht).1⟩

/-- An object whose first key starts with a letter. -/
def Lettered (v : Json) : Prop :=
  ∃ c key w rest, v = .obj ((c :: key, w) :: rest) ∧ c.isAlpha = true

theorem Lettered.dumps_eq {v : Json} (h : Lettered v) :
    ∃ c cs, dumps v = '{' :: '"' :: c :: cs ∧ c.isAlpha = true := by
  obtain ⟨c, key, w, rest, rfl, hc⟩ := h
  have hne : ∀ d : Char, d.isAlpha = false → c ≠ d := by
    rintro d hd rfl
    rw [hc] at hd
    cases hd
  have hle : ¬ c.toNat < 32 := by
    intro hlt
    have : ∀ n < 32, (Char.ofNat n).isAlpha = false := by decide
    have := this c.toNat hlt
    rw [Char.ofNat_toNat, hc] at this
    cases this
  have hesc : escapeChar c = [c] := by
    unfold escapeChar
    rw [if_neg (hne _ (by decide)), if_neg (hne _ (by decide)), if_neg (hne _ (by decide)),
      if_neg (hne _ (by decide)), if_neg (hne _ (by decide)), if_neg (hne _ (by decide)),
      if_neg (hne _ (by decide)), if_neg hle]
  have hquote : quote (c :: key) = '"' :: c :: (key.flatMap escapeChar ++ ['"']) := by
    simp [quote, hesc]
  cases rest with
  | nil => exact ⟨c, _, by rw [dumps, dumpsMembers, hquote]; rfl, hc⟩
  | cons m rest => exact ⟨c, _, by rw [dumps, dumpsMembers, hquote]; rfl, hc⟩

theorem Lettered.getLast_dumps {v : Json} (h : Lettered v) : (dumps v).getLast? = some '}' := by
  obtain ⟨c, key, w, rest, rfl, -⟩ := h
  rw [dumps, ← List.cons_append]
  exact List.getLast?_concat

theorem Lettered.run_dumps {v : Json} (h : Lettered v) (stack : List Frame) :
    run (.value stack) (dumps v) = some (.after v stack) := by
  obtain ⟨s, hs, hends⟩ := JsonText.run_dumps v stack
  obtain ⟨c, key, w, rest, rfl, -⟩ := h
  cases hends with
  | after => exact hs
  | num t ht => cases ht
  | const k hk => cases hk

/-- **A text cut off** in the middle ends inside the object. -/
theorem inside_of_cut {v : Json} (h : Lettered v) {p : List Char} (hp : p <+: dumps v)
    (hnil : p ≠ []) (hne : p ≠ dumps v) : ∃ s, run (.value []) p = some s ∧ Inside s := by
  obtain ⟨r, hr⟩ := hp
  have hrun := h.run_dumps []
  rw [← hr, run_append] at hrun
  obtain ⟨s, hs, hrest⟩ := Option.bind_eq_some_iff.mp hrun
  refine ⟨s, hs, ?_⟩
  obtain ⟨c, p', rfl⟩ := List.exists_cons_of_ne_nil hnil
  obtain ⟨d, ds, hd, -⟩ := h.dumps_eq
  have hc : c = '{' := by
    rw [hd, List.cons_append] at hr
    exact (List.cons.inj hr).1
  subst hc
  rw [run_of_step (t := .key [] true []) rfl] at hs
  have hin : Inside (.key [] true []) := trivial
  rcases hin.of_run hs with hin | ⟨w, rfl⟩
  · exact hin
  · -- the rest would be blank, but a closing brace is missing
    have hblank := (run_closed hrest).2
    have hlast := h.getLast_dumps
    have hrne : r ≠ [] := by
      rintro rfl
      exact hne (by rw [← hr, List.append_nil])
    have hmem : '}' ∈ r := by
      obtain ⟨r', x, rfl⟩ := List.eq_nil_or_concat r |>.resolve_left hrne
      rw [← hr, List.concat_eq_append, ← List.append_assoc, List.getLast?_concat, Option.some.injEq]
        at hlast
      rw [hlast]
      simp
    exact absurd (hblank '}' hmem) (by decide)

theorem hexVal_brace : hexVal '{' = none := by decide

/-- Inside a container, an opening brace starts a value or belongs to a string. -/
theorem Inside.step_brace {s t : State} (h : Inside s) (ht : step s '{' = some t) :
    (∃ stack, stack ≠ [] ∧ step s '{' = step (.value stack) '{') ∨
      ∃ members text stack, s = .str members .plain text stack := by
  cases s with
  | value stack => exact Or.inl ⟨stack, h, rfl⟩
  | items stack => exact Or.inl ⟨.arr [] :: stack, List.cons_ne_nil _ _, rfl⟩
  | key members first stack => cases first <;> cases ht
  | colon members key stack => cases ht
  | str members lex text stack =>
    cases lex with
    | plain => exact Or.inr ⟨members, text, stack, rfl⟩
    | escape => cases ht
    | hex digits code =>
      simp only [step, stepString, hexVal_brace] at ht
      cases ht
  | num text stack =>
    simp only [step] at ht
    have hnone : ∀ st : NumState, st.next '{' = none := by
      intro st
      cases st <;> rfl
    split_ifs at ht with h1 h2 h3
    · by_cases hnil : text = []
      · subst hnil
        exact absurd h1 (by decide)
      · rw [numRun_concat hnil] at h1
        cases hr : numRun text with
        | none => rw [hr] at h1; cases h1
        | some st => rw [hr] at h1; simp [hnone] at h1
    · exact absurd h2.2 (by decide)
    · cases stack with
      | nil => cases ht
      | cons f stack => cases f <;> cases ht
  | const k letters stack =>
    simp only [step] at ht
    split at ht
    · next d hd =>
      have hmem := List.mem_of_getElem? hd
      split_ifs at ht with hcd
      subst hcd
      exact absurd hmem (by cases k <;> decide)
    · cases stack with
      | nil => cases ht
      | cons f stack => cases f <;> cases ht
  | after v stack =>
    cases stack with
    | nil => cases ht
    | cons f stack => cases f <;> cases ht

/-- After a string inside a container no letter may follow. -/
theorem step_closeString {members : Option (List (List Char × Json))} {stack : List Frame}
    (text : List Char) {c : Char} (hc : c.isAlpha = true) :
    step (closeString members text stack) c = none := by
  have hne : ∀ d : Char, d.isAlpha = false → c ≠ d := by
    rintro d hd rfl
    rw [hc] at hd
    cases hd
  have hblank : isBlank c = false := by
    simp [isBlank, hne ' ' (by decide), hne '\t' (by decide), hne '\n' (by decide),
      hne '\r' (by decide)]
  cases members with
  | none =>
    cases stack with
    | nil => simp [closeString, step, afterValue, hblank]
    | cons f stack =>
      cases f <;> simp [closeString, step, afterValue, hblank, hne ',' (by decide),
        hne ']' (by decide), hne '}' (by decide)]
  | some ms => simp [closeString, step, hblank, hne ':' (by decide)]

/-- **A text that was cut off and goes on** with a part of another object is inside a container at
the end of this part, too. -/
theorem Inside.run_part {s t : State} (h : Inside s) {v : Json} (hv : Lettered v) {p : List Char}
    (hp : p <+: dumps v) (ht : run s p = some t) : Inside t := by
  rcases p with _ | ⟨b, p⟩
  · cases ht; exact h
  obtain ⟨c, cs, hd, hc⟩ := hv.dumps_eq
  have hb : b = '{' := by
    rw [hd] at hp
    exact (List.cons_prefix_cons.mp hp).1
  subst hb
  rw [run_cons] at ht
  obtain ⟨u, hu, ht⟩ := Option.bind_eq_some_iff.mp ht
  rcases h.step_brace hu with ⟨stack, hstack, heq⟩ | ⟨members, text, stack, rfl⟩
  · -- the part is read as a value inside the container
    obtain ⟨r, hr⟩ := hp
    have hrun := hv.run_dumps stack
    rw [← hr, List.cons_append, run_cons, ← heq, hu] at hrun
    have hrun : run u (p ++ r) = some (.after v stack) := hrun
    rw [run_of_run ht] at hrun
    have hin : Inside (.value stack) := hstack
    rw [heq] at hu
    rcases hin.of_run (show run (.value stack) ('{' :: p) = some t by rw [run_cons, hu]; exact ht)
      with hin | ⟨w, rfl⟩
    · exact hin
    · have := (run_closed hrun).1
      cases this
      exact absurd rfl hstack
  · -- the part is read inside a string, which its second character closes
    cases hu
    rw [hd] at hp
    have hp₁ := (List.cons_prefix_cons.mp hp).2
    rcases p with _ | ⟨q, p⟩
    · cases ht; exact h
    obtain ⟨rfl, hp₂⟩ := List.cons_prefix_cons.mp hp₁
    rw [run_of_step (t := closeString members (text ++ ['{']) stack) rfl] at ht
    rcases p with _ | ⟨l, p⟩
    · cases ht
      exact closeString_inside h _
    obtain ⟨rfl, -⟩ := List.cons_prefix_cons.mp hp₂
    rw [run_cons, step_closeString _ hc] at ht
    cases ht

/-- A text that consists of first parts of objects. -/
inductive Parts : List Char → Prop where
  | nil : Parts []
  | append {v : Json} {p cs : List Char} (hv : Lettered v) (hp : p <+: dumps v) (h : Parts cs) :
      Parts (p ++ cs)

theorem Parts.of_prefix {cs ds : List Char} (h : Parts cs) (hd : ds <+: cs) : Parts ds := by
  induction h generalizing ds with
  | nil => rw [List.prefix_nil.mp hd]; exact .nil
  | @append v p cs hv hp h ih =>
    by_cases hle : ds.length ≤ p.length
    · have hds : ds <+: p := List.prefix_of_prefix_length_le hd (List.prefix_append _ _) hle
      have := Parts.append hv (hds.trans hp) .nil
      rwa [List.append_nil] at this
    · obtain ⟨es, rfl⟩ := List.prefix_of_prefix_length_le (List.prefix_append _ _) hd (by omega)
      exact .append hv hp (ih ((List.prefix_append_right_inj _).mp hd))

theorem Parts.inside {s t : State} (h : Inside s) {cs : List Char} (hcs : Parts cs)
    (ht : run s cs = some t) : Inside t := by
  induction hcs generalizing s with
  | nil => cases ht; exact h
  | append hv hp _ ih =>
    rw [run_append] at ht
    obtain ⟨u, hu, ht⟩ := Option.bind_eq_some_iff.mp ht
    exact ih (h.run_part hv hp hu) ht

/-- A text without a value. -/
theorem loads_eq_none {cs : List Char} (h : ∀ s, run (.value []) cs = some s → Inside s) :
    loads cs = none := by
  rw [loads]
  cases hr : run (.value []) cs with
  | none => rfl
  | some s => exact (h s hr).finish_eq

/-- **A text cut off and continued** has no value. -/
theorem loads_cut {v : Json} (hv : Lettered v) {p cs : List Char} (hp : p <+: dumps v)
    (hnil : p ≠ []) (hne : p ≠ dumps v) (hcs : Parts cs) : loads (p ++ cs) = none := by
  refine loads_eq_none fun s hs => ?_
  obtain ⟨t, ht, hin⟩ := inside_of_cut hv hp hnil hne
  rw [run_of_run ht] at hs
  exact hcs.inside hin hs

/-- **Two objects** without a line break between them, or an object and a part of another one, have
no value. -/
theorem loads_continued {v : Json} (hv : Lettered v) {c : Char} {cs : List Char}
    (hc : isBlank c = false) : loads (dumps v ++ c :: cs) = none := by
  have hstep : step (.after v []) c = none := by simp [step, afterValue, hc]
  rw [loads, run_of_run (hv.run_dumps []), run_cons, hstep]
  rfl

/-! ### Integers -/

theorem numRun_digit : ∀ n < 10,
    numRun [Nat.digitChar n] = some (if n = 0 then NumState.zero else NumState.int) := by decide

theorem isDigit_digitChar : ∀ n < 10, (Nat.digitChar n).isDigit = true := by decide

theorem numRun_toDigits (n : ℕ) :
    numRun (Nat.toDigits 10 n) = some (if n = 0 then .zero else .int) := by
  induction n using Nat.strongRecOn with
  | ind n ih =>
    by_cases h : n < 10
    · rw [Nat.toDigits_of_lt_base h]
      exact numRun_digit n h
    · have hd := isDigit_digitChar (n % 10) (by omega)
      rw [Nat.toDigits_of_base_le (by decide) (by omega), numRun_concat Nat.toDigits_ne_nil,
        ih (n / 10) (by omega), if_neg (by omega), if_neg (by omega)]
      simp [NumState.next, hd]

theorem numRun_neg {c : Char} (h : c ≠ '-') (cs : List Char) :
    numRun ('-' :: c :: cs) = numRun (c :: cs) := by
  rw [numRun, numRun, if_pos rfl, if_neg h]

/-- The decimal text of an integer. -/
def intText (z : ℤ) : List Char :=
  if z < 0 then '-' :: Nat.toDigits 10 z.natAbs else Nat.toDigits 10 z.natAbs

theorem isNumber_intText (z : ℤ) : IsNumber (intText z) := by
  have hnat : ∀ n, IsNumber (Nat.toDigits 10 n) := by
    intro n
    unfold IsNumber
    rw [numRun_toDigits]
    split <;> simp
  unfold intText
  split
  · obtain ⟨c, cs, hcs⟩ := List.exists_cons_of_ne_nil
      (Nat.toDigits_ne_nil (n := z.natAbs) (b := 10))
    have hc : c.isDigit = true :=
      Nat.isDigit_of_mem_toDigits (b := 10) (n := z.natAbs) (by decide) (by decide) (by
        rw [hcs]
        exact List.mem_cons_self)
    have hne : c ≠ '-' := by
      rintro rfl
      exact absurd hc (by decide)
    have h := hnat z.natAbs
    rw [hcs] at h ⊢
    unfold IsNumber
    rw [numRun_neg hne]
    exact h
  · exact hnat _

end MoeInfinity.Lib.JsonText
