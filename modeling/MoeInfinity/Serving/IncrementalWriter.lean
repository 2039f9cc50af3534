import Mathlib.Data.Finset.Insert
import Mathlib.Data.List.DropRight
import MoeInfinity.Lib.JsonText
import MoeInfinity.Lib.Utf8

/-! # The incremental writer (`serving/incremental_writer.py`)

`save` appends one JSON line to the file and waits until it is on the disk. A crash in the middle of
a `save` leaves the first bytes of its line; the next process opens the file in append mode and goes
on behind them.

* `Event`, `file`: a history of the file over all processes, and its bytes.
* `loadCompleted` decodes the file, cuts it at the line breaks and reads every line that is not
  blank.
* `Harmless` describes the histories after which it returns all saved ids: every crash left nothing
  or the whole line, and only the last bytes of the history may be a line without its line break.

A torn line ends inside a JSON object, and what is appended to it does not close this object
(`JsonText.loads_cut`); an object followed by another one on the same line is refused as well
(`JsonText.loads_continued`). If a character was cut in two, the file cannot be decoded (`Utf8`). -/

namespace MoeInfinity.Serving.IncrementalWriter

open MoeInfinity.Lib MoeInfinity.Lib.JsonText

/-! ### Saving -/

/-- The arguments of a `save` that can be written, and the time; the metadata has its keys as
texts. -/
structure Record where
  seqId : String
  outputTokens : List ℤ
  metadata : List (List Char × Json)
  timestamp : {t : List Char // IsNumber t}

def seqIdKey : List Char := ['s', 'e', 'q', '_', 'i', 'd']

def outputTokensKey : List Char :=
  ['o', 'u', 't', 'p', 'u', 't', '_', 't', 'o', 'k', 'e', 'n', 's']

def metadataKey : List Char := ['m', 'e', 't', 'a', 'd', 'a', 't', 'a']

def timestampKey : List Char := ['t', 'i', 'm', 'e', 's', 't', 'a', 'm', 'p']

/-- The `record` of `save`. -/
def Record.json (r : Record) : Json := .obj [
  (seqIdKey, .str r.seqId.toList),
  (outputTokensKey, .arr (r.outputTokens.map fun z => .num ⟨intText z, isNumber_intText z⟩)),
  (metadataKey, .obj r.metadata),
  (timestampKey, .num r.timestamp)]

/-- What `save` writes. -/
def Record.line (r : Record) : List Char := dumps r.json ++ ['\n']

/-- A completed `save`, or a crash in the middle of one after the given number of bytes and the
reopening of the file. -/
inductive Event where
  | save (r : Record)
  | crash (r : Record) (written : ℕ)

def Event.bytes : Event → List UInt8
  | .save r => Utf8.encode r.line
  | .crash r written => (Utf8.encode r.line).take written

/-- The bytes of the file after a history. -/
def file (events : List Event) : List UInt8 := events.flatMap Event.bytes

/-! ### Loading -/

inductive LoadError where
  | unicodeDecodeError
  | jsonDecodeError
  | attributeError
deriving DecidableEq, Repr

/-- The white space of `str.strip`. -/
def isSpace (c : Char) : Bool :=
  (9 ≤ c.toNat && c.toNat ≤ 13) || (28 ≤ c.toNat && c.toNat ≤ 32) || c.toNat =
    0x85 || c.toNat = 0xa0 || c.toNat =
      0x1680 || (0x2000 ≤ c.toNat && c.toNat ≤ 0x200a) || c.toNat = 0x2028 ||
    c.toNat = 0x2029 || c.toNat = 0x202f || c.toNat = 0x205f || c.toNat = 0x3000

/-- `raw.strip()`. -/
def strip (cs : List Char) : List Char := (cs.dropWhile isSpace).rdropWhile isSpace

/-- A file that is read as text has all its line breaks as `\n`. -/
def newlines : List Char → List Char
  | '\r' :: '\n' :: cs => '\n' :: newlines cs
  | '\r' :: cs => '\n' :: newlines cs
  | c :: cs => c :: newlines cs
  | [] => []

/-- The lines of a text file, without their line breaks. -/
def lines (text : List Char) : List (List Char) := (newlines text).splitOn '\n'

/-- `obj.get(key)`: of equal keys the last one counts. -/
def get (members : List (List Char × Json)) (key : List Char) : Option Json :=
  (members.reverse.find? fun m => m.1 = key).map (·.2)

/-- `completed.add(seq_id)`, if it is a text. -/
def addSeqId (completed : Finset String) : Option Json → Finset String
  | some (.str s) => insert (String.ofList s) completed
  | _ => completed

/-- The loop of `load_completed` over the lines. -/
def loadLines : List (List Char) → Finset String → Except LoadError (Finset String)
  | [], completed => .ok completed
  | raw :: rest, completed =>
    if strip raw = [] then loadLines rest completed
    else
      match loads (strip raw) with
      | none => .error .jsonDecodeError
      | some (.obj members) => loadLines rest (addSeqId completed (get members seqIdKey))
      | some _ => .error .attributeError

/-- `load_completed`, on the bytes of the file. -/
def loadCompleted (bytes : List UInt8) : Except LoadError (Finset String) :=
  match Utf8.decode bytes with
  | none => .error .unicodeDecodeError
  | some text => loadLines (lines text) ∅

/-- After the history, `load_completed` returns and finds the id of every completed `save`. -/
def LoadsCompleted (events : List Event) : Prop :=
  ∃ completed, loadCompleted (file events) = .ok completed ∧
    ∀ r, .save r ∈ events → r.seqId ∈ completed

/-- Every crash left nothing or the whole line; a line without its line break is the last thing in
the file. -/
def Harmless : List Event → Prop
  | [] => True
  | .save _ :: rest => Harmless rest
  | .crash r written :: rest => Harmless rest ∧
      (written = 0 ∨ (Utf8.encode r.line).length ≤ written ∨
        written + 1 = (Utf8.encode r.line).length ∧ file rest = [])

/-! ### Lines -/

theorem isSpace_brace : isSpace '{' = false := by decide

theorem newlines_eq {cs : List Char} (h : '\r' ∉ cs) : newlines cs = cs := by
  induction cs with
  | nil => rfl
  | cons c cs ih =>
    have hc : c ≠ '\r' := fun hc => h (by simp [hc])
    have hcs : '\r' ∉ cs := fun hcs => h (List.mem_cons_of_mem c hcs)
    rw [newlines.eq_def]
    split
    · next heq => exact absurd (List.cons.inj heq).1 hc
    · next heq => exact absurd (List.cons.inj heq).1 hc
    · next heq =>
      obtain ⟨rfl, rfl⟩ := List.cons.inj heq
      rw [ih hcs]
    · next heq => cases heq

/-- The first line of a text. -/
def firstLine (cs : List Char) : List Char := cs.takeWhile (· ≠ '\n')

theorem firstLine_mem_splitOn (cs : List Char) : firstLine cs ∈ cs.splitOn '\n' := by
  have h : ∃ rest, cs.splitOn '\n' = firstLine cs :: rest := by
    induction cs with
    | nil => exact ⟨[], rfl⟩
    | cons c cs ih =>
      obtain ⟨rest, hrest⟩ := ih
      rw [List.splitOn_cons_eq_if_modifyHead, hrest]
      by_cases hc : c = '\n'
      · subst hc
        exact ⟨firstLine cs :: rest, by simp [firstLine]⟩
      · exact ⟨rest, by simp [firstLine, hc]⟩
  obtain ⟨rest, hrest⟩ := h
  rw [hrest]
  exact List.mem_cons_self

theorem firstLine_append {p : List Char} (h : '\n' ∉ p) (cs : List Char) :
    firstLine (p ++ cs) = p ++ firstLine cs := by
  unfold firstLine
  rw [List.takeWhile_append_of_pos]
  intro c hc
  have : c ≠ '\n' := fun h0 => h (h0 ▸ hc)
  simpa using this

/-- Stripping a line that starts with a brace only takes white space off its end. -/
theorem strip_brace (cs : List Char) :
    ∃ sp, '{' :: cs = strip ('{' :: cs) ++ sp ∧ (∀ c ∈ sp, isSpace c = true) ∧
      strip ('{' :: cs) ≠ [] := by
  have hdrop : ('{' :: cs).dropWhile isSpace = '{' :: cs := by simp [isSpace_brace]
  refine ⟨('{' :: cs).rtakeWhile isSpace, ?_, ?_, ?_⟩
  · rw [strip, hdrop, List.rdropWhile_append_rtakeWhile]
  · exact fun c hc => List.mem_rtakeWhile_imp hc
  · rw [strip, hdrop, ne_eq, List.rdropWhile_eq_nil_iff]
    intro h
    have := h '{' List.mem_cons_self
    rw [isSpace_brace] at this
    cases this

/-! ### A record and its line -/

theorem Record.lettered (r : Record) : Lettered r.json := ⟨_, _, _, _, rfl, by decide⟩

theorem printable (v : Json) : '\n' ∉ dumps v ∧ '\r' ∉ dumps v := by
  constructor
  · intro h
    exact absurd (dumps_printable v _ h) (by decide)
  · intro h
    exact absurd (dumps_printable v _ h) (by decide)

theorem Record.no_return (r : Record) : '\r' ∉ r.line := by
  have h := (printable r.json).2
  simp [Record.line, h]

theorem strip_dumps {v : Json} (h : Lettered v) : strip (dumps v) = dumps v := by
  obtain ⟨c, cs, hcs, -⟩ := h.dumps_eq
  obtain ⟨sp, hsp, hspace, -⟩ := strip_brace ('"' :: c :: cs)
  rw [← hcs] at hsp
  -- nothing is taken off, because the last character is the closing brace
  rcases List.eq_nil_or_concat sp with rfl | ⟨sp', x, rfl⟩
  · rw [List.append_nil] at hsp
    exact hsp.symm
  · have hlast := h.getLast_dumps
    rw [hsp, List.concat_eq_append, ← List.append_assoc, List.getLast?_concat, Option.some.injEq]
      at hlast
    have := hspace x (by simp)
    rw [hlast] at this
    exact absurd this (by decide)

theorem Record.get_json (r : Record) :
    ∃ members, r.json = .obj members ∧ get members seqIdKey = some (.str r.seqId.toList) := by
  refine ⟨_, rfl, ?_⟩
  simp [get, seqIdKey, outputTokensKey, metadataKey, timestampKey]

/-- A whole line is read. -/
theorem loadLines_dumps (r : Record) (rest : List (List Char)) (completed : Finset String) :
    loadLines (dumps r.json :: rest) completed = loadLines rest (insert r.seqId completed) := by
  obtain ⟨members, hm, hget⟩ := r.get_json
  have hne : dumps r.json ≠ [] := by
    obtain ⟨c, cs, hcs, -⟩ := r.lettered.dumps_eq
    simp [hcs]
  rw [loadLines, strip_dumps r.lettered, if_neg hne, loads_dumps, hm]
  simp [hget, addSeqId]

/-! ### Harmless histories -/

theorem encode_line (r : Record) : Utf8.encode r.line = Utf8.encode (dumps r.json) ++ [10] := by
  rw [Record.line, Utf8.encode_append]
  rfl

theorem splitOn_line (r : Record) (cs : List Char) :
    (r.line ++ cs).splitOn '\n' = dumps r.json :: cs.splitOn '\n' := by
  rw [Record.line, List.append_assoc]
  exact List.splitOn_append_cons_self_of_not_mem (printable r.json).1 cs

/-- A history whose text is read, starting from any ids. -/
def Readable (events : List Event) (cs : List Char) : Prop :=
  '\r' ∉ cs ∧ ∀ completed, ∃ completed', loadLines (cs.splitOn '\n') completed = .ok completed' ∧
    completed ⊆ completed' ∧ ∀ r, .save r ∈ events → r.seqId ∈ completed'

theorem Readable.line {events : List Event} {cs : List Char} (h : Readable events cs) (r : Record)
    {e : Event} (he : ∀ r', e = .save r' → r' = r) : Readable (e :: events) (r.line ++ cs) := by
  obtain ⟨hno, hloads⟩ := h
  refine ⟨?_, fun completed => ?_⟩
  · rw [List.mem_append, not_or]
    exact ⟨r.no_return, hno⟩
  · obtain ⟨completed', hok, hsub, hsaved⟩ := hloads (insert r.seqId completed)
    refine ⟨completed', ?_, (Finset.subset_insert _ _).trans hsub, fun r' hr' => ?_⟩
    · rw [splitOn_line, loadLines_dumps, hok]
    · rcases List.mem_cons.mp hr' with hr' | hr'
      · rw [he r' hr'.symm]
        exact hsub (Finset.mem_insert_self _ _)
      · exact hsaved r' hr'

theorem Readable.skip {events : List Event} {cs : List Char} (h : Readable events cs) {r : Record}
    {written : ℕ} : Readable (.crash r written :: events) cs := by
  obtain ⟨hno, hloads⟩ := h
  refine ⟨hno, fun completed => ?_⟩
  obtain ⟨completed', hok, hsub, hsaved⟩ := hloads completed
  exact ⟨completed', hok, hsub, fun r' hr' => hsaved r' (by simpa using hr')⟩

/-- A line without its line break at the end of the file is read as well. -/
theorem Readable.last {events : List Event} (h : Readable events []) (r : Record) {written : ℕ} :
    Readable (.crash r written :: events) (dumps r.json) := by
  refine ⟨(printable r.json).2, fun completed => ?_⟩
  obtain ⟨completed', hok, hsub, hsaved⟩ := h.2 (insert r.seqId completed)
  refine ⟨completed', ?_, (Finset.subset_insert _ _).trans hsub,
    fun r' hr' => hsaved r' (by simpa using hr')⟩
  rw [List.splitOn_eq_singleton (printable r.json).1, loadLines_dumps]
  exact hok

theorem file_cons (e : Event) (rest : List Event) : file (e :: rest) = e.bytes ++ file rest := rfl

theorem Harmless.readable {events : List Event} (h : Harmless events) :
    ∃ cs, file events = Utf8.encode cs ∧ Readable events cs := by
  induction events with
  | nil =>
    refine ⟨[], rfl, List.not_mem_nil, fun completed => ⟨completed, rfl, Finset.Subset.refl _, ?_⟩⟩
    intro r hr
    cases hr
  | cons e rest ih =>
    cases e with
    | save r =>
      obtain ⟨cs, hfile, hread⟩ := ih h
      refine ⟨r.line ++ cs, ?_, hread.line r fun r' hr' => (Event.save.inj hr').symm⟩
      rw [file_cons, hfile, Utf8.encode_append]
      rfl
    | crash r written =>
      obtain ⟨hrest, hcut⟩ := h
      obtain ⟨cs, hfile, hread⟩ := ih hrest
      rcases hcut with rfl | hle | ⟨hlen, hnil⟩
      · exact ⟨cs, by rw [file_cons, hfile]; rfl, hread.skip⟩
      · refine ⟨r.line ++ cs, ?_, hread.line r nofun⟩
        rw [file_cons, hfile, Utf8.encode_append, Event.bytes, List.take_of_length_le hle]
      · have hcs : cs = [] := by
          rw [hnil] at hfile
          exact Utf8.encode_inj hfile.symm
        subst hcs
        refine ⟨dumps r.json, ?_, hread.last r⟩
        rw [encode_line, List.length_append, List.length_singleton, Nat.add_right_cancel_iff]
          at hlen
        rw [file_cons, hnil, Event.bytes, List.append_nil, encode_line, hlen, List.take_left']
        rfl

/-! ### Histories that are read -/

theorem ok_of_loadLines {raws : List (List Char)} {completed completed' : Finset String}
    (h : loadLines raws completed = .ok completed') :
    ∀ raw ∈ raws, strip raw = [] ∨ loads (strip raw) ≠ none := by
  induction raws generalizing completed with
  | nil => exact nofun
  | cons raw rest ih =>
    rw [loadLines] at h
    split at h
    · next hstrip => exact List.forall_mem_cons.mpr ⟨Or.inl hstrip, ih h⟩
    · split at h
      · cases h
      · next hloads =>
        refine List.forall_mem_cons.mpr ⟨Or.inr ?_, ih h⟩
        rw [hloads]
        exact Option.some_ne_none _
      · cases h

theorem bytes_prefix (e : Event) : ∃ r : Record, e.bytes <+: Utf8.encode r.line := by
  cases e with
  | save r => exact ⟨r, List.prefix_rfl⟩
  | crash r written => exact ⟨r, List.take_prefix _ _⟩

theorem Record.line_eq (r : Record) : ∃ cs, r.line = '{' :: cs := by
  obtain ⟨c, cs, hcs, -⟩ := r.lettered.dumps_eq
  exact ⟨_, by rw [Record.line, hcs]; rfl⟩

theorem head_bytes {e : Event} {b : UInt8} (h : b ∈ e.bytes.head?) : b.IsUTF8FirstByte := by
  obtain ⟨r, hr⟩ := bytes_prefix e
  obtain ⟨cs, hcs⟩ := r.line_eq
  obtain ⟨rest, hrest⟩ := hr
  obtain ⟨bs, hbs⟩ := List.head?_eq_some_iff.mp h
  have hb : b = 123 := by
    rw [hbs, hcs] at hrest
    exact (List.cons.inj hrest).1
  subst hb
  decide

theorem head_file {events : List Event} : ∀ b ∈ (file events).head?, b.IsUTF8FirstByte := by
  induction events with
  | nil => exact nofun
  | cons e rest ih =>
    intro b hb
    rw [file_cons, List.head?_append] at hb
    cases he : e.bytes.head? with
    | none =>
      rw [he] at hb
      exact ih b hb
    | some b' =>
      rw [he] at hb
      cases hb
      exact head_bytes he

/-- If the file can be decoded, the bytes of every event are a part of its line. -/
theorem decode_cons {r : Record} {e : Event} {rest : List Event} {cs : List Char}
    (he : e.bytes <+: Utf8.encode r.line) (h : Utf8.decode (file (e :: rest)) = some cs) :
    ∃ p cs', p <+: r.line ∧ e.bytes = Utf8.encode p ∧ Utf8.decode (file rest) = some cs' ∧
      cs = p ++ cs' :=
  Utf8.exists_of_decode_append he head_file h

/-- What the text of a history starts with, and its first line. -/
theorem text_eq {events : List Event} {cs : List Char} (h : Utf8.decode (file events) = some cs) :
    '\r' ∉ cs ∧ (∀ c ∈ cs.head?, c = '{') ∧ Parts (firstLine cs) := by
  induction events generalizing cs with
  | nil =>
    have hcs : cs = [] := (Option.some.inj h).symm
    subst hcs
    exact ⟨List.not_mem_nil, nofun, .nil⟩
  | cons e rest ih =>
    obtain ⟨r, hr⟩ := bytes_prefix e
    obtain ⟨p, cs', hp, -, hdec, rfl⟩ := decode_cons hr h
    obtain ⟨hno, hhead, hparts⟩ := ih hdec
    refine ⟨?_, ?_, ?_⟩
    · rw [List.mem_append, not_or]
      exact ⟨fun hmem => r.no_return (hp.subset hmem), hno⟩
    · cases p with
      | nil => exact hhead
      | cons c p =>
        obtain ⟨ds, hds⟩ := r.line_eq
        rw [hds] at hp
        have := (List.cons_prefix_cons.mp hp).1
        simpa using this
    · rcases List.prefix_concat_iff.mp hp with hp | hp
      · rw [hp, List.append_assoc, firstLine_append (printable r.json).1]
        exact .append r.lettered List.prefix_rfl .nil
      · have hnl : '\n' ∉ p := fun hmem => (printable r.json).1 (hp.subset hmem)
        rw [firstLine_append hnl]
        exact .append r.lettered hp hparts

/-- A line that goes on behind a part of an object which is not the whole object cannot be read. -/
theorem not_loads_torn {r : Record} {p cs : List Char} (hp : p <+: dumps r.json) (hnil : p ≠ [])
    (hne : p ≠ dumps r.json) (hcs : Parts cs) :
    strip (p ++ cs) ≠ [] ∧ loads (strip (p ++ cs)) = none := by
  obtain ⟨c, p, rfl⟩ := List.exists_cons_of_ne_nil hnil
  obtain ⟨d, ds, hd, -⟩ := r.lettered.dumps_eq
  have hc : c = '{' := by
    rw [hd] at hp
    exact (List.cons_prefix_cons.mp hp).1
  subst hc
  obtain ⟨sp, hsp, -, hstrip⟩ := strip_brace (p ++ cs)
  rw [← List.cons_append] at hsp hstrip
  refine ⟨hstrip, ?_⟩
  have hpre : strip ('{' :: p ++ cs) <+: '{' :: p ++ cs := ⟨sp, hsp.symm⟩
  by_cases hle : (strip ('{' :: p ++ cs)).length ≤ ('{' :: p).length
  · -- only a part of `p` is left
    have hshort := List.prefix_of_prefix_length_le hpre (List.prefix_append _ _) hle
    have hlt : ('{' :: p).length < (dumps r.json).length :=
      Nat.lt_of_le_of_ne hp.length_le fun h => hne (hp.eq_of_length h)
    have := loads_cut r.lettered (hshort.trans hp) hstrip (fun h => by rw [h] at hle; omega) .nil
    rwa [List.append_nil] at this
  · obtain ⟨es, hes⟩ := List.prefix_of_prefix_length_le (List.prefix_append _ _) hpre (by omega)
    rw [← hes] at hpre ⊢
    exact loads_cut r.lettered hp hnil hne
      (hcs.of_prefix ((List.prefix_append_right_inj _).mp hpre))

/-- Neither can a line with an object and something behind it. -/
theorem not_loads_joined {r : Record} (cs : List Char) :
    strip (dumps r.json ++ '{' :: cs) ≠ [] ∧ loads (strip (dumps r.json ++ '{' :: cs)) = none := by
  obtain ⟨d, ds, hd, -⟩ := r.lettered.dumps_eq
  obtain ⟨sp, hsp, hspace, hstrip⟩ := strip_brace ('"' :: d :: ds ++ '{' :: cs)
  rw [← List.cons_append, ← hd] at hsp hstrip
  refine ⟨hstrip, ?_⟩
  have hpre : strip (dumps r.json ++ '{' :: cs) <+: dumps r.json ++ '{' :: cs := ⟨sp, hsp.symm⟩
  -- the second brace is no white space
  have hlong : (dumps r.json).length < (strip (dumps r.json ++ '{' :: cs)).length := by
    by_contra hle
    obtain ⟨x, hx⟩ := List.prefix_of_prefix_length_le hpre (List.prefix_append _ _) (by omega)
    have hbrace : '{' ∈ sp := by
      have hcancel : x ++ '{' :: cs = sp := by
        have h : strip (dumps r.json ++ '{' :: cs) ++ (x ++ '{' :: cs) =
            strip (dumps r.json ++ '{' :: cs) ++ sp := by rw [← List.append_assoc, hx, ← hsp]
        exact List.append_cancel_left h
      rw [← hcancel]
      simp
    have := hspace _ hbrace
    rw [isSpace_brace] at this
    cases this
  obtain ⟨es, hes⟩ := List.prefix_of_prefix_length_le (List.prefix_append _ _) hpre (by omega)
  rw [← hes] at hpre hlong ⊢
  have hes' := (List.prefix_append_right_inj _).mp hpre
  cases es with
  | nil =>
    rw [List.append_nil] at hlong
    omega
  | cons e es =>
    have he := (List.cons_prefix_cons.mp hes').1
    subst he
    exact loads_continued r.lettered (by decide)

theorem harmless_of_loads {events : List Event} {cs : List Char}
    (h : Utf8.decode (file events) = some cs)
    (hraw : ∀ raw ∈ cs.splitOn '\n', strip raw = [] ∨ loads (strip raw) ≠ none) :
    Harmless events := by
  induction events generalizing cs with
  | nil => trivial
  | cons e rest ih =>
    cases e with
    | save r =>
      obtain ⟨p, cs', hp, hbytes, hdec, rfl⟩ := decode_cons (r := r) List.prefix_rfl h
      have hline : r.line = p := Utf8.encode_inj hbytes
      rw [← hline, splitOn_line] at hraw
      exact ih hdec (List.forall_mem_cons.mp hraw).2
    | crash r written =>
      have hcut : (Event.crash r written).bytes <+: Utf8.encode r.line := List.take_prefix _ _
      obtain ⟨p, cs', hp, hbytes, hdec, rfl⟩ := decode_cons hcut h
      obtain ⟨-, hhead, hparts⟩ := text_eq hdec
      have hlen : min written (Utf8.encode r.line).length = (Utf8.encode p).length := by
        rw [← hbytes, Event.bytes, List.length_take]
      rcases List.prefix_concat_iff.mp hp with hp | hp
      · -- the whole line
        have hline : p = r.line := hp
        subst hline
        rw [splitOn_line] at hraw
        exact ⟨ih hdec (List.forall_mem_cons.mp hraw).2, Or.inr (Or.inl (by omega))⟩
      · have hpos : (Utf8.encode r.line).length = (Utf8.encode (dumps r.json)).length + 1 := by
          rw [encode_line, List.length_append, List.length_singleton]
        by_cases hnil : p = []
        · subst hnil
          rw [Utf8.encode_nil, List.length_nil] at hlen
          exact ⟨ih hdec hraw, Or.inl (by omega)⟩
        have hfirst := hraw _ (firstLine_mem_splitOn _)
        have hnl : '\n' ∉ p := fun hmem => (printable r.json).1 (hp.subset hmem)
        rw [firstLine_append hnl] at hfirst
        by_cases hne : p = dumps r.json
        · cases cs' with
          | nil =>
            rw [hne] at hlen
            refine ⟨ih hdec fun raw hmem => Or.inl ?_, Or.inr (Or.inr ⟨by omega, ?_⟩)⟩
            · rw [List.splitOn_nil, List.mem_singleton] at hmem
              rw [hmem]
              rfl
            · exact (Utf8.encode_of_decode hdec).symm
          | cons c cs' =>
            have hc : c = '{' := hhead c rfl
            subst hc
            have hbrace : firstLine ('{' :: cs') = '{' :: firstLine cs' := by simp [firstLine]
            rw [hne, hbrace] at hfirst
            have hbad := not_loads_joined (r := r) (firstLine cs')
            exact absurd hfirst (not_or.mpr ⟨hbad.1, not_not_intro hbad.2⟩)
        · have hbad := not_loads_torn hp hnil hne hparts
          exact absurd hfirst (not_or.mpr ⟨hbad.1, not_not_intro hbad.2⟩)

theorem Harmless.loadsCompleted {events : List Event} (h : Harmless events) :
    LoadsCompleted events := by
  obtain ⟨cs, hfile, hno, hloads⟩ := h.readable
  obtain ⟨completed, hok, -, hsaved⟩ := hloads ∅
  refine ⟨completed, ?_, hsaved⟩
  rw [loadCompleted, hfile, Utf8.decode_encode]
  show loadLines (lines cs) ∅ = _
  rw [lines, newlines_eq hno, hok]

theorem LoadsCompleted.harmless {events : List Event} (h : LoadsCompleted events) :
    Harmless events := by
  obtain ⟨completed, hok, -⟩ := h
  rw [loadCompleted] at hok
  split at hok
  · cases hok
  · next text hdec =>
    rw [lines, newlines_eq (text_eq hdec).1] at hok
    exact harmless_of_loads hdec (ok_of_loadLines hok)

/-- **The saved ids are found again** after exactly the harmless histories. -/
theorem loadsCompleted_iff (events : List Event) : LoadsCompleted events ↔ Harmless events :=
  ⟨LoadsCompleted.harmless, Harmless.loadsCompleted⟩

def sampleRecord : Record := ⟨"a", [7], [], ⟨['0'], by decide⟩⟩

/-- A crash after one byte of a line: the next `save` goes on behind this byte. -/
theorem tornLine_lost : ¬ LoadsCompleted [.crash sampleRecord 1, .save sampleRecord] := by
  intro h
  obtain ⟨-, hcut⟩ := h.harmless
  have hlong : 3 ≤ (Utf8.encode sampleRecord.line).length := by
    obtain ⟨c, cs, hcs, -⟩ := sampleRecord.lettered.dumps_eq
    have hlen : 3 ≤ sampleRecord.line.length := by simp [Record.line, hcs]
    exact hlen.trans (Utf8.length_le_encode _)
  omega

end MoeInfinity.Serving.IncrementalWriter
