import Mathlib.Data.List.Basic

/-! # Cut texts

A text is written as the bytes of its characters. A list of bytes that is cut off inside a character
and goes on with the first byte of another one cannot be decoded; so if a text that was cut and
continued can be decoded, it was cut between two characters (`exists_of_decode_append`). -/

namespace MoeInfinity.Lib.Utf8

def encode (cs : List Char) : List UInt8 := cs.flatMap String.utf8EncodeChar

/-- The strict decoder: nothing for bytes that are not the encoding of a text. -/
def decode (bs : List UInt8) : Option (List Char) := bs.toByteArray.utf8Decode?.map (·.toList)

@[simp] theorem encode_nil : encode [] = [] := rfl

theorem encode_append (cs ds : List Char) : encode (cs ++ ds) = encode cs ++ encode ds :=
  List.flatMap_append

theorem encode_cons (c : Char) (cs : List Char) :
    encode (c :: cs) = String.utf8EncodeChar c ++ encode cs := rfl

theorem toByteArray_encode (cs : List Char) : (encode cs).toByteArray = cs.utf8Encode := rfl

@[simp] theorem decode_encode (cs : List Char) : decode (encode cs) = some cs := by
  simp [decode, toByteArray_encode]

theorem encode_inj {cs ds : List Char} (h : encode cs = encode ds) : cs = ds := by
  have hdec := congrArg decode h
  simpa using hdec

theorem toByteArray_inj {bs bs' : List UInt8} (h : bs.toByteArray = bs'.toByteArray) :
    bs = bs' := by
  have := congrArg (fun b : ByteArray => b.data.toList) h
  simpa using this

theorem encode_of_decode {bs : List UInt8} {cs : List Char} (h : decode bs = some cs) :
    encode cs = bs := by
  obtain ⟨a, ha, rfl⟩ := Option.map_eq_some_iff.mp h
  refine toByteArray_inj ?_
  rw [toByteArray_encode]
  have hsome : bs.toByteArray.utf8Decode?.isSome := by rw [ha]; rfl
  have hget := ByteArray.utf8Encode_get_utf8Decode? (b := bs.toByteArray) (h := hsome)
  simpa [ha] using hget

theorem prefix_of_encode {cs ds : List Char} {bs : List UInt8} (h : encode cs ++ bs = encode ds) :
    cs <+: ds := by
  refine List.isPrefix_of_utf8Encode_append_eq_utf8Encode bs.toByteArray ?_
  rw [← toByteArray_encode, ← toByteArray_encode, ← h, List.toByteArray_append]

theorem utf8EncodeChar_ne_nil (c : Char) : String.utf8EncodeChar c ≠ [] :=
  String.utf8EncodeChar_ne_nil

theorem length_le_encode (cs : List Char) : cs.length ≤ (encode cs).length := by
  induction cs with
  | nil => simp
  | cons c cs ih =>
    have hc := List.length_pos_of_ne_nil (utf8EncodeChar_ne_nil c)
    rw [encode_cons, List.length_append, List.length_cons]
    omega

/-- A cut text is a text and the first bytes of the next character. -/
theorem exists_of_prefix {ds : List Char} {bs : List UInt8} (h : bs <+: encode ds) :
    ∃ ds₀ t, ds₀ <+: ds ∧ bs = encode ds₀ ++ t ∧
      (t = [] ∨ ∃ c, t ≠ [] ∧ t <+: String.utf8EncodeChar c ∧
        t.length < (String.utf8EncodeChar c).length) := by
  induction ds generalizing bs with
  | nil =>
    have : bs = [] := List.prefix_nil.mp h
    exact ⟨[], [], List.prefix_rfl, by simp [this], Or.inl rfl⟩
  | cons d ds ih =>
    by_cases hle : (String.utf8EncodeChar d).length ≤ bs.length
    · obtain ⟨bs', rfl⟩ := List.prefix_of_prefix_length_le (List.prefix_append _ _) h hle
      have h' : bs' <+: encode ds := (List.prefix_append_right_inj _).mp h
      obtain ⟨ds₀, t, h1, rfl, h3⟩ := ih h'
      exact ⟨d :: ds₀, t, List.cons_prefix_cons.mpr ⟨rfl, h1⟩, by simp [encode_cons], h3⟩
    · have hlt : bs.length < (String.utf8EncodeChar d).length := by omega
      have hpre : bs <+: String.utf8EncodeChar d :=
        List.prefix_of_prefix_length_le h (List.prefix_append _ _) (by omega)
      refine ⟨[], bs, List.nil_prefix, rfl, ?_⟩
      by_cases hnil : bs = []
      · exact Or.inl hnil
      · exact Or.inr ⟨d, hnil, hpre, hlt⟩

/-- The first bytes of a character, followed by nothing or by a byte that starts a character, do not
start a text. -/
theorem not_encode_of_cut {c : Char} {t bs : List UInt8} {cs : List Char} (hne : t ≠ [])
    (ht : t <+: String.utf8EncodeChar c) (hlt : t.length < (String.utf8EncodeChar c).length)
    (hbs : ∀ b ∈ bs.head?, b.IsUTF8FirstByte) : t ++ bs ≠ encode cs := by
  intro h
  cases cs with
  | nil => exact hne (List.append_eq_nil_iff.mp h).1
  | cons d cs =>
    rw [encode_cons] at h
    by_cases hle : (String.utf8EncodeChar d).length ≤ t.length
    · -- the whole character `d` would be a proper part of `c`
      have hd : String.utf8EncodeChar d <+: t :=
        List.prefix_of_prefix_length_le (h ▸ List.prefix_append _ _) (List.prefix_append t bs) hle
      obtain ⟨b, hb⟩ := hd.trans ht
      have hone : encode [d] ++ b = encode [c] := by simpa [encode] using hb
      have hdc : d = c := by simpa using prefix_of_encode hone
      subst hdc
      omega
    · -- the byte after `t` lies inside the character `d` and starts a character
      have hidx : t.length < (String.utf8EncodeChar d).length := by omega
      have hget : (t ++ bs)[t.length]? = some (String.utf8EncodeChar d)[t.length] := by
        rw [h, List.getElem?_append_left hidx, List.getElem?_eq_getElem hidx]
      rw [List.getElem?_append_right (Nat.le_refl _), Nat.sub_self, ← List.head?_eq_getElem?]
        at hget
      have hfirst := hbs _ hget
      rw [UInt8.isUTF8FirstByte_getElem_utf8EncodeChar] at hfirst
      exact hne (List.length_eq_zero_iff.mp hfirst)

/-- **A text that was cut and continued** and can be decoded was cut between two characters. -/
theorem exists_of_decode_append {ds cs : List Char} {bs bs' : List UInt8} (hbs : bs <+: encode ds)
    (hbs' : ∀ b ∈ bs'.head?, b.IsUTF8FirstByte) (h : decode (bs ++ bs') = some cs) :
    ∃ ds₀ cs', ds₀ <+: ds ∧ bs = encode ds₀ ∧ decode bs' = some cs' ∧ cs = ds₀ ++ cs' := by
  obtain ⟨ds₀, t, h1, rfl, h3⟩ := exists_of_prefix hbs
  have henc := encode_of_decode h
  rw [List.append_assoc] at henc
  obtain ⟨cs', rfl⟩ := prefix_of_encode henc.symm
  rw [encode_append, List.append_cancel_left_eq] at henc
  rcases h3 with rfl | ⟨c, hne, ht, hlt⟩
  · refine ⟨ds₀, cs', h1, by simp, ?_, rfl⟩
    rw [List.nil_append] at henc
    rw [← henc, decode_encode]
  · exact absurd henc.symm (not_encode_of_cut hne ht hlt hbs')

end MoeInfinity.Lib.Utf8
