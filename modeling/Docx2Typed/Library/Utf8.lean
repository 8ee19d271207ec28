import Mathlib.Data.List.Basic

/-!
# UTF-8 over byte lists

Encoding and strict decoding of texts as lists of bytes, over the standard library's encoder and
decoder of one character.  `decode_eq_some_iff` says that the two are inverse: a byte list decodes
to a text exactly when it is the encoding of that text.

`decodeLossy` is the decoder that never fails: each maximal prefix of a character that cannot be
completed becomes one U+FFFD.
-/

namespace Docx2Typed.Library.Utf8

open List

def encode (text : List Char) : List UInt8 := text.flatMap String.utf8EncodeChar

theorem encode_nil : encode [] = [] := rfl

theorem encode_cons (c : Char) (text : List Char) :
    encode (c :: text) = String.utf8EncodeChar c ++ encode text := rfl

@[simp] theorem encode_append (s t : List Char) : encode (s ++ t) = encode s ++ encode t :=
  flatMap_append

/-- The character a byte list starts with; a character takes at most four bytes. -/
def decodeChar (l : List UInt8) : Option Char := (l.take 4).toByteArray.utf8DecodeChar? 0

theorem length_encodeChar (c : Char) : (String.utf8EncodeChar c).length = c.utf8Size :=
  String.length_utf8EncodeChar c

theorem encodeChar_ne_nil (c : Char) : String.utf8EncodeChar c ≠ [] := by
  intro h
  have hlen := length_encodeChar c
  rw [h] at hlen
  exact absurd c.utf8Size_pos (by simp at hlen; omega)

theorem decodeChar_encodeChar_append (c : Char) (l : List UInt8) :
    decodeChar (String.utf8EncodeChar c ++ l) = some c := by
  have hle : (String.utf8EncodeChar c).length ≤ 4 := by
    rw [length_encodeChar]
    exact c.utf8Size_le_four
  rw [decodeChar, take_append, take_of_length_le hle, toByteArray_append]
  exact ByteArray.utf8DecodeChar?_utf8EncodeChar_append

theorem exists_of_decodeChar {l : List UInt8} {c : Char} (h : decodeChar l = some c) :
    ∃ rest, l = String.utf8EncodeChar c ++ rest := by
  have hbytes := String.toByteArray_utf8EncodeChar_of_utf8DecodeChar?_eq_some h
  have hlist := congrArg (fun b : ByteArray => b.data.toList) hbytes
  simp only [ByteArray.data_extract, data_toByteArray, Array.toList_extract] at hlist
  refine ⟨l.drop c.utf8Size, ?_⟩
  rw [hlist]
  simp only [extract_eq_take_drop, drop_zero, Nat.sub_zero, take_take]
  rw [Nat.min_eq_left c.utf8Size_le_four, take_append_drop]

/-- The bytes of a character: one below 128 is the character, and the first tells their number. -/
theorem encodeChar_bytes (c : Char) : ∃ first rest, String.utf8EncodeChar c = first :: rest ∧
    (∀ b ∈ rest, 128 ≤ b.toNat) ∧
    (c.utf8Size = 1 ∧ first.toNat = c.toNat ∧ first.toNat < 128 ∨
      c.utf8Size = 2 ∧ 0xC0 ≤ first.toNat ∧ first.toNat ≤ 0xDF ∨
      c.utf8Size = 3 ∧ 0xE0 ≤ first.toNat ∧ first.toNat ≤ 0xEF ∨
      c.utf8Size = 4 ∧ 0xF0 ≤ first.toNat) := by
  have hsize := length_encodeChar c
  have hval : c.val.toNat = c.toNat := rfl
  have hlater : ∀ m : Nat, 128 ≤ (UInt8.ofNat (m % 0x40 + 0x80)).toNat := fun m => by
    rw [UInt8.toNat_ofNat']
    omega
  unfold String.utf8EncodeChar at hsize ⊢
  simp only [hval] at hsize ⊢
  split_ifs at hsize ⊢ with hone htwo hthree
  · refine ⟨_, _, rfl, by simp, .inl ⟨hsize.symm, ?_⟩⟩
    rw [UInt8.toNat_ofNat']
    omega
  · refine ⟨_, _, rfl, by simpa using hlater c.toNat, .inr (.inl ⟨hsize.symm, ?_⟩)⟩
    rw [UInt8.toNat_ofNat']
    omega
  · refine ⟨_, _, rfl, by simpa using ⟨hlater _, hlater _⟩, .inr (.inr (.inl ⟨hsize.symm, ?_⟩))⟩
    rw [UInt8.toNat_ofNat']
    omega
  · refine ⟨_, _, rfl, by simpa using ⟨hlater _, hlater _, hlater _⟩,
      .inr (.inr (.inr ⟨hsize.symm, ?_⟩))⟩
    rw [UInt8.toNat_ofNat']
    omega

/-- An encoded text holds the bytes below 128 that it has as characters. -/
theorem exists_of_mem_encode {text : List Char} {b : UInt8} (h : b ∈ encode text)
    (hb : b.toNat < 128) : ∃ c ∈ text, c.toNat = b.toNat := by
  obtain ⟨c, hc, hmem⟩ := mem_flatMap.mp h
  obtain ⟨first, rest, hbytes, hrest, hfirst⟩ := encodeChar_bytes c
  rw [hbytes] at hmem
  rcases mem_cons.mp hmem with rfl | hmem
  · refine ⟨c, hc, ?_⟩
    rcases hfirst with ⟨-, hsame, -⟩ | ⟨-, hlow, -⟩ | ⟨-, hlow, -⟩ | ⟨-, hlow⟩
    · exact hsame.symm
    · omega
    · omega
    · omega
  · have := hrest b hmem
    omega

/-- Strict decoding; every character takes a byte, so the length is fuel enough. -/
def decodeFuel : Nat → List UInt8 → Option (List Char)
  | _, [] => some []
  | 0, _ :: _ => none
  | fuel + 1, b :: l => do
    let c ← decodeChar (b :: l)
    let text ← decodeFuel fuel ((b :: l).drop c.utf8Size)
    pure (c :: text)

def decode (l : List UInt8) : Option (List Char) := decodeFuel l.length l

theorem decodeFuel_encode : ∀ {fuel : Nat} {text : List Char}, (encode text).length ≤ fuel →
    decodeFuel fuel (encode text) = some text
  | fuel, [], _ => by
    rw [encode_nil]
    cases fuel <;> rfl
  | 0, c :: text, h => by
    rw [encode_cons, length_append, length_encodeChar] at h
    have := c.utf8Size_pos
    omega
  | fuel + 1, c :: text, h => by
    have hdecode := decodeChar_encodeChar_append c (encode text)
    have hlen := length_encodeChar c
    have hpos := c.utf8Size_pos
    rw [encode_cons, length_append] at h
    rw [encode_cons]
    cases hbytes : String.utf8EncodeChar c with
    | nil => exact absurd hbytes (encodeChar_ne_nil c)
    | cons b bs =>
      rw [hbytes] at hdecode hlen h
      rw [cons_append, decodeFuel, ← cons_append, hdecode]
      simp only [Option.bind_eq_bind, Option.bind_some]
      rw [← hlen, drop_left, decodeFuel_encode (by simp at h; omega)]
      rfl

theorem eq_encode_of_decodeFuel : ∀ {fuel : Nat} {l : List UInt8} {text : List Char},
    decodeFuel fuel l = some text → l = encode text
  | fuel, [], text, h => by
    have htext : text = [] := by
      cases fuel <;> exact (Option.some.inj h).symm
    rw [htext, encode_nil]
  | 0, b :: l, text, h => by simp [decodeFuel] at h
  | fuel + 1, b :: l, text, h => by
    rw [decodeFuel] at h
    obtain ⟨c, hc, h⟩ := Option.bind_eq_some_iff.mp h
    obtain ⟨rest', hrest', h⟩ := Option.bind_eq_some_iff.mp h
    obtain rfl := Option.some.inj h
    obtain ⟨rest, hrest⟩ := exists_of_decodeChar hc
    rw [hrest, ← length_encodeChar, drop_left] at hrest'
    rw [hrest, encode_cons, eq_encode_of_decodeFuel hrest']

theorem decode_eq_some_iff {l : List UInt8} {text : List Char} :
    decode l = some text ↔ l = encode text :=
  ⟨eq_encode_of_decodeFuel, by
    rintro rfl
    exact decodeFuel_encode (Nat.le_refl _)⟩

theorem encode_injective : Function.Injective encode := by
  intro s t h
  have hs := decode_eq_some_iff.mpr (rfl : encode s = encode s)
  rw [h, decode_eq_some_iff.mpr rfl] at hs
  exact (Option.some.inj hs).symm

/-! ## Lossy decoding -/

/-- Whether the byte continues a character. -/
def isContinuation (b : UInt8) : Bool := 0x80 ≤ b && b ≤ 0xBF

/-- Whether `second` may follow `first` in a character of three or four bytes. -/
def startsLong (first second : UInt8) : Bool :=
  (first == 0xE0 && 0xA0 ≤ second && second ≤ 0xBF) ||
  (0xE1 ≤ first && first ≤ 0xEC && isContinuation second) ||
  (first == 0xED && 0x80 ≤ second && second ≤ 0x9F) ||
  (0xEE ≤ first && first ≤ 0xEF && isContinuation second) ||
  (first == 0xF0 && 0x90 ≤ second && second ≤ 0xBF) ||
  (0xF1 ≤ first && first ≤ 0xF3 && isContinuation second) ||
  (first == 0xF4 && 0x80 ≤ second && second ≤ 0x8F)

/-- How many bytes the ill-formed sequence at the head takes: the longest prefix of a character. -/
def brokenLength : List UInt8 → Nat
  | first :: second :: third :: _ =>
    if !startsLong first second then 1
    else if 0xF0 ≤ first && isContinuation third then 3 else 2
  | [first, second] => if startsLong first second then 2 else 1
  | _ => 1

def decodeLossyFuel : Nat → List UInt8 → List Char
  | _, [] => []
  | 0, _ :: _ => []
  | fuel + 1, b :: l =>
    match decodeChar (b :: l) with
    | some c => c :: decodeLossyFuel fuel ((b :: l).drop c.utf8Size)
    | none => Char.ofNat 0xFFFD :: decodeLossyFuel fuel ((b :: l).drop (brokenLength (b :: l)))

def decodeLossy (l : List UInt8) : List Char := decodeLossyFuel l.length l

/-- Where nothing is broken the two decoders agree. -/
theorem decodeLossyFuel_of_decodeFuel : ∀ {fuel : Nat} {l : List UInt8} {text : List Char},
    decodeFuel fuel l = some text → decodeLossyFuel fuel l = text
  | fuel, [], _, h => by cases fuel <;> exact Option.some.inj h
  | 0, _ :: _, _, h => by simp [decodeFuel] at h
  | fuel + 1, b :: l, _, h => by
    obtain ⟨c, hchar, h⟩ := Option.bind_eq_some_iff.mp h
    obtain ⟨rest, hrest, h⟩ := Option.bind_eq_some_iff.mp h
    rw [decodeLossyFuel, hchar]
    dsimp only
    rw [decodeLossyFuel_of_decodeFuel hrest]
    exact Option.some.inj h

/-- The lossy decoder reads an encoded text. -/
theorem decodeLossy_encode (text : List Char) : decodeLossy (encode text) = text :=
  decodeLossyFuel_of_decodeFuel (decodeFuel_encode (Nat.le_refl _))

end Docx2Typed.Library.Utf8
