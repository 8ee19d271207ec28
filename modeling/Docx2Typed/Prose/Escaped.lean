import Docx2Typed.Prose.Text

/-!
# Escaped text read back

The decoder reads the characters of a text from the bytes `xml_escape` spells it with, and no tag
starts in these: `decodedText_xmlEscape`, `lt_notMem_utf8_xmlEscape`.
-/

namespace Docx2Typed

open Library.Utf8 (encode)
open List

/-- No tag starts in an escaped text. -/
theorem lt_notMem_utf8_xmlEscape (text : Text) : byte '<' ∉ utf8 (xmlEscape text) := by
  intro h
  obtain ⟨c, hc, hsame⟩ := Library.Utf8.exists_of_mem_encode h (by decide)
  obtain ⟨d, -, hmem⟩ := mem_flatMap.mp hc
  have : c = '<' := Char.toNat_inj.mp hsame
  exact lt_notMem_escapeChar d (this ▸ hmem)

/-- The bytes of a character start with one that tells their number. -/
theorem utf8Len_encodeChar {c : Char} {first : UInt8} {rest : Bytes}
    (h : String.utf8EncodeChar c = first :: rest) :
    utf8Len first = c.utf8Size ∧ (first = byte '&' → c = '&') ∧ (first = byte '<' → c = '<') := by
  obtain ⟨first', rest', hbytes, -, hfirst⟩ := Library.Utf8.encodeChar_bytes c
  obtain ⟨rfl, rfl⟩ := List.cons.inj (h.symm.trans hbytes)
  have hamp : first = byte '&' → first.toNat = 38 := fun h => h ▸ rfl
  have hlt : first = byte '<' → first.toNat = 60 := fun h => h ▸ rfl
  have hascii : ∀ {d : Char}, first.toNat = c.toNat → first.toNat = d.toNat → c = d :=
    fun hc hd => Char.toNat_inj.mp (hc.symm.trans hd)
  rw [utf8Len]
  simp only [UInt8.le_iff_toNat_le]
  have h7 : (0x7F : UInt8).toNat = 0x7F := rfl
  have hC : (0xC0 : UInt8).toNat = 0xC0 := rfl
  have hD : (0xDF : UInt8).toNat = 0xDF := rfl
  have hE : (0xE0 : UInt8).toNat = 0xE0 := rfl
  have hF : (0xEF : UInt8).toNat = 0xEF := rfl
  rcases hfirst with ⟨hsize, hsame, hle⟩ | ⟨hsize, hlow, hhigh⟩ | ⟨hsize, hlow, hhigh⟩ |
    ⟨hsize, hlow⟩
  · refine ⟨by rw [if_pos (by omega), hsize], fun h => ?_, fun h => ?_⟩
    · exact hascii hsame (hamp h)
    · exact hascii hsame (hlt h)
  · refine ⟨by rw [if_neg (by omega), if_pos (by omega), hsize], fun h => ?_, fun h => ?_⟩
    · have := hamp h
      omega
    · have := hlt h
      omega
  · refine ⟨by rw [if_neg (by omega), if_neg (by omega), if_pos (by omega), hsize],
      fun h => ?_, fun h => ?_⟩
    · have := hamp h
      omega
    · have := hlt h
      omega
  · refine ⟨by rw [if_neg (by omega), if_neg (by omega), if_neg (by omega), hsize],
      fun h => ?_, fun h => ?_⟩
    · have := hamp h
      omega
    · have := hlt h
      omega

/-- A reference is one round of the decoder, if `decode_entity` reads it. -/
theorem decodeNext_reference {entity : Text} {body : Bytes} (offset : Nat) (rest : Bytes)
    (hbytes : encode entity = byte '&' :: (body ++ [byte ';'])) (hbody : byte ';' ∉ body) :
    decodeNext offset (encode entity ++ rest) =
      match decodeEntity entity with
      | none => refuse s!"prose-xml-invalid: unrecognized entity {String.ofList entity}"
      | some char =>
        .ok ([⟨char, offset, offset + (encode entity).length⟩], (encode entity).length) := by
  have hlength : (encode entity).length = body.length + 1 + 1 := by simp [hbytes]
  have hbodyNone : body.findIdx? (· == byte ';') = none := by
    rw [findIdx?_eq_none_iff]
    intro b hb
    simpa using fun heq : b = byte ';' => hbody (heq ▸ hb)
  have hindex : (encode entity ++ rest).findIdx? (· == byte ';') = some (body.length + 1) := by
    have hne : (byte '&' == byte ';') = false := by decide
    rw [hbytes, cons_append, findIdx?_cons, hne, append_assoc,
      findIdx?_append, hbodyNone]
    simp [findIdx?_cons]
  have htake : (encode entity ++ rest).take (body.length + 1 + 1) = encode entity := by
    rw [← hlength, take_left]
  have hread : fromUtf8 (encode entity) = some entity :=
    Library.Utf8.decode_eq_some_iff.mpr rfl
  have hcons : encode entity ++ rest = byte '&' :: (body ++ [byte ';'] ++ rest) := by
    rw [hbytes, cons_append]
  rw [hcons, decodeNext, ← hcons]
  simp only [if_true, hindex, htake, hread, hlength]
  cases decodeEntity entity <;> rfl

/-- A named reference is one round of the decoder. -/
theorem decodeNext_entity {entity : Text} {char : Char} {body : Bytes} (offset : Nat) (rest : Bytes)
    (hbytes : encode entity = byte '&' :: (body ++ [byte ';'])) (hbody : byte ';' ∉ body)
    (hdecode : decodeEntity entity = some char) :
    decodeNext offset (encode entity ++ rest) =
      .ok ([⟨char, offset, offset + (encode entity).length⟩], (encode entity).length) := by
  rw [decodeNext_reference offset rest hbytes hbody, hdecode]

/-- A character that stands for itself is one round of the decoder. -/
theorem decodeNext_literal {c : Char} (hamp : c ≠ '&') (hlt : c ≠ '<') (offset : Nat)
    (rest : Bytes) : decodeNext offset (String.utf8EncodeChar c ++ rest) =
      .ok ([⟨c, offset, offset + c.utf8Size⟩], c.utf8Size) := by
  have hlength := Library.Utf8.length_encodeChar c
  obtain ⟨first, tail, hbytes, -⟩ := Library.Utf8.encodeChar_bytes c
  obtain ⟨hlen, hnotAmp, hnotLt⟩ := utf8Len_encodeChar hbytes
  have htake : (String.utf8EncodeChar c ++ rest).take (utf8Len first) =
      String.utf8EncodeChar c := by
    rw [hlen, ← hlength, take_left]
  have hdecode : fromUtf8 (String.utf8EncodeChar c) = some [c] := by
    refine Library.Utf8.decode_eq_some_iff.mpr ?_
    rw [Library.Utf8.encode_cons, Library.Utf8.encode_nil, append_nil]
  have henough : ¬ (String.utf8EncodeChar c ++ rest).length < utf8Len first := by
    rw [length_append, hlen, hlength]
    omega
  have hcons : String.utf8EncodeChar c ++ rest = first :: (tail ++ rest) := by
    rw [hbytes, cons_append]
  rw [hcons, decodeNext, ← hcons]
  simp only
  rw [if_neg fun h => hamp (hnotAmp h), if_neg fun h => hlt (hnotLt h.1), if_neg henough, htake,
    hdecode, hlen]
  rfl

/-- The bytes that spell one escaped character are one round of the decoder. -/
theorem decodeNext_escapeChar (c : Char) (offset : Nat) (rest : Bytes) :
    ∃ chars, decodeNext offset (encode (escapeChar c) ++ rest) =
        .ok (chars, (encode (escapeChar c)).length) ∧ chars.map (·.char) = [c] := by
  rcases escapeChar_cases c with ⟨rfl, h⟩ | ⟨rfl, h⟩ | ⟨rfl, h⟩ | ⟨hamp, hlt, -, h⟩
  · rw [h]
    exact ⟨_, decodeNext_entity offset rest
      (by decide : _ = byte '&' :: (bytes "amp" ++ [byte ';'])) (by decide) (by decide), rfl⟩
  · rw [h]
    exact ⟨_, decodeNext_entity offset rest
      (by decide : _ = byte '&' :: (bytes "lt" ++ [byte ';'])) (by decide) (by decide), rfl⟩
  · rw [h]
    exact ⟨_, decodeNext_entity offset rest
      (by decide : _ = byte '&' :: (bytes "gt" ++ [byte ';'])) (by decide) (by decide), rfl⟩
  · rw [h, Library.Utf8.encode_cons, Library.Utf8.encode_nil, append_nil,
      Library.Utf8.length_encodeChar]
    exact ⟨_, decodeNext_literal hamp hlt offset rest, rfl⟩

theorem encode_escapeChar_ne_nil (c : Char) : encode (escapeChar c) ≠ [] := by
  rcases escapeChar_cases c with ⟨-, h⟩ | ⟨-, h⟩ | ⟨-, h⟩ | ⟨-, -, -, h⟩
  · rw [h]
    decide
  · rw [h]
    decide
  · rw [h]
    decide
  · rw [h, Library.Utf8.encode_cons, Library.Utf8.encode_nil, append_nil]
    exact Library.Utf8.encodeChar_ne_nil c

theorem decodeFrom_xmlEscape : ∀ {fuel : Nat} (offset : Nat) {text : Text},
    (encode (xmlEscape text)).length ≤ fuel → ∃ chars,
      decodeFrom fuel offset (encode (xmlEscape text)) = .ok chars ∧ chars.map (·.char) = text
  | fuel, offset, [], _ => by
    cases fuel <;> exact ⟨[], rfl, rfl⟩
  | fuel, offset, c :: text, h => by
    rw [xmlEscape_cons, Library.Utf8.encode_append] at h ⊢
    have hpos := length_pos_iff.mpr (encode_escapeChar_ne_nil c)
    rw [length_append] at h
    obtain ⟨fuel, rfl⟩ : ∃ rest, fuel = rest + 1 := ⟨fuel - 1, by omega⟩
    obtain ⟨chars, hnext, hchar⟩ := decodeNext_escapeChar c offset (encode (xmlEscape text))
    obtain ⟨more, hmore, htext⟩ := decodeFrom_xmlEscape
      (offset + (encode (escapeChar c)).length) (by omega : (encode (xmlEscape text)).length ≤ fuel)
    refine ⟨chars ++ more, ?_, by rw [map_append, hchar, htext, singleton_append]⟩
    obtain ⟨first, tail, hcons⟩ := exists_cons_of_ne_nil
      (append_ne_nil_of_left_ne_nil (encode_escapeChar_ne_nil c) (encode (xmlEscape text)))
    rw [hcons, decodeFrom, ← hcons, bind_ok hnext]
    simp only
    rw [drop_left, bind_ok hmore]
    rfl

theorem decodedText_xmlEscape (text : Text) : decodedText (utf8 (xmlEscape text)) = text := by
  obtain ⟨chars, hchars, htext⟩ :=
    decodeFrom_xmlEscape 0 (Nat.le_refl (encode (xmlEscape text)).length)
  have hdecoded : decodeTextSegments (utf8 (xmlEscape text)) = .ok chars := hchars
  rw [decodedText, hdecoded]
  exact htext

end Docx2Typed
