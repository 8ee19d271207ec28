import Docx2Typed.Basic
import Docx2Typed.Library.Search

/-!
# Text of a `w:t`

Escaping for the body of a text element, and the decoder that maps every decoded character back
to the bytes that spell it (`xml_escape`, `decode_text_segments`, `find_old_byte_range`).

The decoder reads character references, CDATA sections and plain UTF-8.  It knows no other
markup: a comment inside a text element is read as the characters it is written with.
-/

namespace Docx2Typed

open Library (findSub)
open List

/-- `from_utf8`. -/
abbrev fromUtf8 (raw : Bytes) : Option Text := Library.Utf8.decode raw

def escapeChar : Char → Text
  | '&' => "&amp;".toList
  | '<' => "&lt;".toList
  | '>' => "&gt;".toList
  | c => [c]

/-- `xml_escape`: for element text, where quotes stay literal. -/
def xmlEscape (text : Text) : Text := text.flatMap escapeChar

theorem escapeChar_cases (c : Char) :
    (c = '&' ∧ escapeChar c = "&amp;".toList) ∨ (c = '<' ∧ escapeChar c = "&lt;".toList) ∨
      (c = '>' ∧ escapeChar c = "&gt;".toList) ∨
      (c ≠ '&' ∧ c ≠ '<' ∧ c ≠ '>' ∧ escapeChar c = [c]) := by
  unfold escapeChar
  split
  · exact .inl ⟨rfl, rfl⟩
  · exact .inr (.inl ⟨rfl, rfl⟩)
  · exact .inr (.inr (.inl ⟨rfl, rfl⟩))
  · exact .inr (.inr (.inr ⟨‹_›, ‹_›, ‹_›, rfl⟩))

theorem xmlEscape_cons (c : Char) (text : Text) :
    xmlEscape (c :: text) = escapeChar c ++ xmlEscape text := rfl

theorem lt_notMem_escapeChar (c : Char) : '<' ∉ escapeChar c := by
  rcases escapeChar_cases c with ⟨rfl, h⟩ | ⟨rfl, h⟩ | ⟨rfl, h⟩ | ⟨-, hlt, -, h⟩
  · rw [h]
    decide
  · rw [h]
    decide
  · rw [h]
    decide
  · rw [h, mem_singleton]
    exact fun heq => hlt heq.symm

/-- One decoded character and the bytes that spell it. -/
structure DecodedChar where
  char : Char
  start : Nat
  stop : Nat
  deriving DecidableEq, Repr

/-! ## Character references -/

def digitValue (radix : Nat) (c : Char) : Option Nat :=
  let value :=
    if '0' ≤ c ∧ c ≤ '9' then c.toNat - '0'.toNat
    else if 'a' ≤ c ∧ c ≤ 'z' then c.toNat - 'a'.toNat + 10
    else if 'A' ≤ c ∧ c ≤ 'Z' then c.toNat - 'A'.toNat + 10
    else radix
  if value < radix then some value else none

/-- `u32::from_str_radix`: an optional `+`, at least one digit, no overflow. -/
def parseU32 (radix : Nat) (text : Text) : Option Nat :=
  let digits := match text with
    | '+' :: rest => rest
    | _ => text
  if digits = [] then none
  else
    digits.foldl (fun value c => do
      let value ← value
      let digit ← digitValue radix c
      if value * radix + digit < 2 ^ 32 then some (value * radix + digit) else none) (some 0)

/-- `char::from_u32`. -/
def charFromU32 (value : Nat) : Option Char :=
  if value.isValidChar then some (Char.ofNat value) else none

def stripSuffix (suffix text : Text) : Option Text :=
  if suffix <:+ text then some (text.take (text.length - suffix.length)) else none

def stripPrefix (start text : Text) : Option Text :=
  if start <+: text then some (text.drop start.length) else none

theorem stripPrefix_append (start text : Text) : stripPrefix start (start ++ text) = some text := by
  rw [stripPrefix, if_pos (List.prefix_append _ _), drop_left]

/-- `&#x..;`.  The `?` of the source leaves the function, so a text that is no hexadecimal
reference is never tried as a decimal one. -/
def decodeHexEntity (entity : Text) : Option (Option Char) := do
  let digits ← stripPrefix "&#x".toList entity <|> stripPrefix "&#X".toList entity
  let code ← stripSuffix [';'] digits
  let value ← parseU32 16 code
  pure (charFromU32 value)

def decodeDecimalEntity (entity : Text) : Option Char := do
  let digits ← stripPrefix "&#".toList entity
  let code ← stripSuffix [';'] digits
  let value ← parseU32 10 code
  charFromU32 value

def decodeEntity (entity : Text) : Option Char :=
  if entity = "&amp;".toList then some '&'
  else if entity = "&lt;".toList then some '<'
  else if entity = "&gt;".toList then some '>'
  else if entity = "&quot;".toList then some '"'
  else if entity = "&apos;".toList then some '\''
  else (decodeHexEntity entity).bind fun char => char <|> decodeDecimalEntity entity

/-! ## Decoding -/

def utf8Len (first : UInt8) : Nat :=
  if first ≤ 0x7F then 1
  else if 0xC0 ≤ first ∧ first ≤ 0xDF then 2
  else if 0xE0 ≤ first ∧ first ≤ 0xEF then 3
  else 4

/-- The characters of a text that is spelled literally from `offset` on. -/
def placeChars (offset : Nat) : Text → List DecodedChar
  | [] => []
  | c :: text => ⟨c, offset, offset + c.utf8Size⟩ :: placeChars (offset + c.utf8Size) text

/-- One round of the decoder, at `offset`: the characters it reads, and how many bytes. -/
def decodeNext (offset : Nat) (raw : Bytes) : Outcome (List DecodedChar × Nat) :=
  match raw with
  | [] => pure ([], 0)
  | first :: _ =>
    if first = byte '&' then
      match raw.findIdx? (· == byte ';') with
      | none => refuse "prose-xml-invalid: unterminated entity in text"
      | some semi =>
        match fromUtf8 (raw.take (semi + 1)) with
        | none => refuse "prose-xml-invalid: entity is not ASCII"
        | some entity =>
          match decodeEntity entity with
          | none => refuse s!"prose-xml-invalid: unrecognized entity {String.ofList entity}"
          | some char => pure ([⟨char, offset, offset + (semi + 1)⟩], semi + 1)
    else if first = byte '<' ∧ bytes "<![CDATA[" <+: raw then
      match findSub (bytes "]]>") (raw.drop 9) with
      | none => refuse "prose-xml-invalid: unterminated CDATA in text"
      | some stop =>
        match fromUtf8 ((raw.drop 9).take stop) with
        | none => refuse "prose-xml-invalid: CDATA is not UTF-8"
        | some text => pure (placeChars (offset + 9) text, 9 + stop + 3)
    else
      let len := utf8Len first
      if raw.length < len then refuse "prose-xml-invalid: truncated UTF-8 in text"
      else
        match fromUtf8 (raw.take len) with
        | none => refuse "prose-xml-invalid: bad UTF-8 in text"
        | some text => do
          let char ← expect text.head?
          pure ([⟨char, offset, offset + len⟩], len)

/-- The decoder from `offset` on; every round takes a byte, so the length is fuel enough. -/
def decodeFrom : Nat → Nat → Bytes → Outcome (List DecodedChar)
  | _, _, [] => pure []
  | 0, _, _ :: _ => pure []
  | fuel + 1, offset, first :: raw => do
    let (chars, n) ← decodeNext offset (first :: raw)
    let rest ← decodeFrom fuel (offset + n) ((first :: raw).drop n)
    pure (chars ++ rest)

/-- `decode_text_segments`. -/
def decodeTextSegments (raw : Bytes) : Outcome (List DecodedChar) := decodeFrom raw.length 0 raw

/-- The decoded text; undecodable text reads as empty (`unwrap_or_default`). -/
def decodedText (raw : Bytes) : Text :=
  match decodeTextSegments raw with
  | .ok chars => chars.map (·.char)
  | .error _ => []

/-! ## Finding the bytes of a text -/

/-- The bytes `[start, stop)` of a part. -/
def slice (raw : Bytes) (start stop : Nat) : Bytes := (raw.take stop).drop start

theorem slice_drop (raw : Bytes) (k start stop : Nat) :
    slice (raw.drop k) start stop = slice raw (k + start) (k + stop) := by
  rw [slice, slice, take_drop, drop_drop]

theorem slice_slice (raw : Bytes) (start stop a b : Nat) (h : start + b ≤ stop) :
    slice (slice raw start stop) a b = slice raw (start + a) (start + b) := by
  rw [slice, slice, slice, take_drop, take_take, drop_drop, Nat.min_eq_left h]

theorem slice_append_left (u v : Bytes) {i j : Nat} (hj : j ≤ u.length) :
    slice (u ++ v) i j = slice u i j := by
  rw [slice, slice, take_append_of_le_length hj]

theorem slice_append_right (u v : Bytes) (i j : Nat) :
    slice (u ++ v) (u.length + i) (u.length + j) = slice v i j := by
  rw [← slice_drop, drop_left]

/-- `&raw[start..stop]`. -/
def sliceOf (raw : Bytes) (start stop : Nat) : Outcome Bytes :=
  if start ≤ stop ∧ stop ≤ raw.length then pure (slice raw start stop) else .error .panic

theorem sliceOf_eq_ok {raw part : Bytes} {start stop : Nat} (h : sliceOf raw start stop = .ok part) :
    start ≤ stop ∧ stop ≤ raw.length ∧ slice raw start stop = part := by
  rw [sliceOf] at h
  split at h
  next hin => exact ⟨hin.1, hin.2, Except.ok.inj h⟩
  next => cases h

/-- `find_old_byte_range`: the bytes of the only occurrence of `old`.  A second occurrence is one
that starts after the end of the first (`match_indices` does not look for overlapping ones). -/
def findOldByteRange (raw : Bytes) (textStart textEnd : Nat) (old : Text) :
    Outcome (Option (Nat × Nat)) :=
  if old = [] then pure none
  else do
    let body ← sliceOf raw textStart textEnd
    let chars ← decodeTextSegments body
    let decoded := chars.map (·.char)
    match findSub old decoded with
    | none => pure none
    | some index =>
      if (findSub old (decoded.drop (index + old.length))).isSome then
        refuse "prose-edit-ambiguous: old text occurs more than once in the leaf"
      else do
        let first ← expect chars[index]?
        let last ← expect chars[index + old.length - 1]?
        pure (some (first.start + textStart, last.stop + textStart))

end Docx2Typed
