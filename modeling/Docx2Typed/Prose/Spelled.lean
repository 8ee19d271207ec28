import Docx2Typed.Prose.Decoding
import Docx2Typed.Prose.Escaped

/-!
# Every spelling of a text

A text element may spell a character literally, as one of the five predefined entities, as a
decimal or hexadecimal character reference, or in a CDATA section.  `decodesTo_iff`: the decoder
reads all of these back, with the bytes of every character, except that it refuses a decimal
reference: the `?` that leaves the hexadecimal branch leaves `decode_entity` with it.
-/

namespace Docx2Typed

open Library (findSub findSub_eq_some_iff)
open List
open Library.Utf8 (encode)

/-! ## Spellings -/

/-- The five entities that need no declaration. -/
inductive PredefinedEntity where
  | amp | lt | gt | quot | apos
  deriving DecidableEq, Repr

def PredefinedEntity.name : PredefinedEntity → Text
  | .amp => "amp".toList
  | .lt => "lt".toList
  | .gt => "gt".toList
  | .quot => "quot".toList
  | .apos => "apos".toList

def PredefinedEntity.char : PredefinedEntity → Char
  | .amp => '&'
  | .lt => '<'
  | .gt => '>'
  | .quot => '"'
  | .apos => '\''

/-- The number that digits spell. -/
def digitsValue (radix : Nat) (digits : Text) : Nat :=
  digits.foldl (fun value d => value * radix + (digitValue radix d).getD 0) 0

/-- The digits of a reference to a character, with any number of zeros in front. -/
structure CharDigits (radix : Nat) where
  char : Char
  digits : Text
  nonempty : digits ≠ []
  are_digits : ∀ d ∈ digits, (digitValue radix d).isSome
  value : digitsValue radix digits = char.toNat

/-- One way to spell characters in element text. -/
inductive Spelling where
  | literal (char : Char) (plain : char ≠ '&' ∧ char ≠ '<')
  | entity (named : PredefinedEntity)
  | decimal (reference : CharDigits 10)
  | hexadecimal (reference : CharDigits 16)
  | cdata (text : Text) (inside : ¬ bytes "]]>" <:+: utf8 text)

/-- What is written. -/
def Spelling.written : Spelling → Text
  | .literal char _ => [char]
  | .entity named => '&' :: (named.name ++ [';'])
  | .decimal reference => '&' :: ('#' :: reference.digits ++ [';'])
  | .hexadecimal reference => '&' :: ('#' :: 'x' :: reference.digits ++ [';'])
  | .cdata text _ => "<![CDATA[".toList ++ (text ++ "]]>".toList)

/-- The characters it stands for. -/
def Spelling.text : Spelling → Text
  | .literal char _ => [char]
  | .entity named => [named.char]
  | .decimal reference => [reference.char]
  | .hexadecimal reference => [reference.char]
  | .cdata text _ => text

/-- The bytes that spell each of them. -/
def Spelling.shares (spelling : Spelling) : List Bytes :=
  match spelling with
  | .cdata text _ => text.map String.utf8EncodeChar
  | _ => [utf8 spelling.written]

def Spelling.isDecimal : Spelling → Bool
  | .decimal _ => true
  | _ => false

/-- The decoder reads these characters, and knows the bytes of each. -/
def DecodesTo (raw : Bytes) (text : Text) (shares : List Bytes) : Prop :=
  ∃ chars, decodeTextSegments raw = .ok chars ∧ chars.map (·.char) = text ∧
    Spelled 0 raw.length chars ∧ chars.map (fun c => slice raw c.start c.stop) = shares

/-! ## Digits -/

variable {radix : Nat}

/-- A digit is an ASCII letter or a figure. -/
theorem digitValue_ascii {d : Char} (h : (digitValue radix d).isSome) :
    ('0' ≤ d ∧ d ≤ '9') ∨ ('a' ≤ d ∧ d ≤ 'z') ∨ ('A' ≤ d ∧ d ≤ 'Z') := by
  rw [digitValue] at h
  by_contra hno
  rw [not_or, not_or] at hno
  simp [hno.1, hno.2.1, hno.2.2] at h

theorem digitValue_ne {d c : Char} (h : (digitValue radix d).isSome)
    (hc : digitValue radix c = none) : d ≠ c := by
  rintro rfl
  rw [hc] at h
  exact absurd h (by decide)

/-- Digits in front make the number no smaller. -/
theorem le_foldl_digits (radix : Nat) (hradix : 0 < radix) : ∀ (digits : Text) (start : Nat),
    start ≤ digits.foldl (fun value d => value * radix + (digitValue radix d).getD 0) start
  | [], start => Nat.le_refl _
  | d :: digits, start => by
    rw [foldl_cons]
    calc start ≤ start * radix := Nat.le_mul_of_pos_right start hradix
      _ ≤ start * radix + (digitValue radix d).getD 0 := Nat.le_add_right _ _
      _ ≤ _ := le_foldl_digits radix hradix digits _

theorem foldl_digits (hradix : 0 < radix) : ∀ {digits : Text} {start : Nat},
    (∀ d ∈ digits, (digitValue radix d).isSome) →
      digits.foldl (fun value d => value * radix + (digitValue radix d).getD 0) start < 2 ^ 32 →
        digits.foldl (fun value d => do
          let value ← value
          let digit ← digitValue radix d
          if value * radix + digit < 2 ^ 32 then some (value * radix + digit) else none)
          (some start) =
        some (digits.foldl (fun value d => value * radix + (digitValue radix d).getD 0) start)
  | [], _, _, _ => rfl
  | d :: digits, start, hdigits, hlt => by
    obtain ⟨digit, hdigit⟩ := Option.isSome_iff_exists.mp (hdigits d mem_cons_self)
    rw [foldl_cons] at hlt
    have hhere : start * radix + digit < 2 ^ 32 := by
      have := le_foldl_digits radix hradix digits (start * radix + (digitValue radix d).getD 0)
      rw [hdigit, Option.getD_some] at this hlt
      omega
    rw [foldl_cons, foldl_cons]
    have hstep : (do
        let value ← some start
        let digit ← digitValue radix d
        if value * radix + digit < 2 ^ 32 then some (value * radix + digit) else none) =
        some (start * radix + (digitValue radix d).getD 0) := by
      simp only [hdigit, Option.bind_eq_bind, Option.bind_some, Option.getD_some, if_pos hhere]
    rw [hstep]
    exact foldl_digits hradix (fun d hd => hdigits d (mem_cons_of_mem _ hd)) hlt

theorem CharDigits.parseU32 (reference : CharDigits radix) (hradix : 0 < radix)
    (hplus : digitValue radix '+' = none) :
    parseU32 radix reference.digits = some reference.char.toNat := by
  have hvalid : reference.char.toNat < 2 ^ 32 := reference.char.val.toNat_lt
  rw [← reference.value] at hvalid ⊢
  have hread := foldl_digits hradix reference.are_digits hvalid
  cases hdigits : reference.digits with
  | nil => exact absurd hdigits reference.nonempty
  | cons d digits =>
    have hd : d ≠ '+' := digitValue_ne
      (reference.are_digits d (hdigits ▸ mem_cons_self)) hplus
    rw [hdigits] at hread
    unfold Docx2Typed.parseU32
    split
    next rest heq => exact absurd (List.cons.inj heq).1 hd
    next => rw [if_neg (cons_ne_nil _ _), hread]; rfl

theorem charFromU32_toNat (c : Char) : charFromU32 c.toNat = some c := by
  rw [charFromU32, if_pos (show c.toNat.isValidChar from c.valid)]
  exact congrArg some (Char.ofNat_toNat c)

/-- No digit ends the reference. -/
theorem CharDigits.semicolon (reference : CharDigits radix) (mark : Text) (hmark : ';' ∉ mark) :
    byte ';' ∉ encode (mark ++ reference.digits) := by
  intro h
  obtain ⟨c, hc, hsame⟩ := Library.Utf8.exists_of_mem_encode h (by decide)
  obtain rfl : c = ';' := Char.toNat_inj.mp hsame
  rcases mem_append.mp hc with hc | hc
  · exact hmark hc
  · rcases digitValue_ascii (reference.are_digits _ hc) with ⟨-, h⟩ | ⟨h, -⟩ | ⟨h, -⟩
    · exact absurd h (by decide)
    · exact absurd h (by decide)
    · exact absurd h (by decide)

/-! ## References -/

theorem stripSuffix_append (text suffix : Text) : stripSuffix suffix (text ++ suffix) = some text := by
  rw [stripSuffix, if_pos (suffix_append _ _), length_append, Nat.add_sub_cancel,
    take_left]

/-- A reference by number is none of the five. -/
theorem decodeEntity_number (body : Text) : decodeEntity ('&' :: '#' :: body) =
    (decodeHexEntity ('&' :: '#' :: body)).bind fun char =>
      char <|> decodeDecimalEntity ('&' :: '#' :: body) := by
  have hamp : '&' :: '#' :: body ≠ "&amp;".toList := by simp
  have hlt : '&' :: '#' :: body ≠ "&lt;".toList := by simp
  have hgt : '&' :: '#' :: body ≠ "&gt;".toList := by simp
  have hquot : '&' :: '#' :: body ≠ "&quot;".toList := by simp
  have hapos : '&' :: '#' :: body ≠ "&apos;".toList := by simp
  rw [decodeEntity, if_neg hamp, if_neg hlt, if_neg hgt, if_neg hquot, if_neg hapos]

theorem decodeEntity_hexadecimal (reference : CharDigits 16) :
    decodeEntity ('&' :: ('#' :: 'x' :: reference.digits ++ [';'])) = some reference.char := by
  have hparse := reference.parseU32 (by decide) (by decide)
  have hread : decodeHexEntity ('&' :: '#' :: ('x' :: reference.digits ++ [';'])) =
      some (some reference.char) := by
    have hstrip : stripPrefix "&#x".toList ('&' :: '#' :: ('x' :: reference.digits ++ [';'])) =
        some (reference.digits ++ [';']) := stripPrefix_append "&#x".toList _
    rw [decodeHexEntity, hstrip]
    simp only [Option.bind_eq_bind, Option.orElse_eq_orElse, Option.orElse_some, Option.bind_some,
      stripSuffix_append, hparse, charFromU32_toNat]
    rfl
  rw [cons_append, decodeEntity_number, hread]
  rfl

/-- A decimal reference is no hexadecimal one, and is not tried as a decimal one. -/
theorem decodeEntity_decimal (reference : CharDigits 10) :
    decodeEntity ('&' :: ('#' :: reference.digits ++ [';'])) = none := by
  have hread : decodeHexEntity ('&' :: '#' :: (reference.digits ++ [';'])) = none := by
    cases hdigits : reference.digits with
    | nil => exact absurd hdigits reference.nonempty
    | cons d digits =>
      have hd := reference.are_digits d (hdigits ▸ mem_cons_self)
      have hx : d ≠ 'x' := digitValue_ne hd (by decide)
      have hX : d ≠ 'X' := digitValue_ne hd (by decide)
      simp [decodeHexEntity, stripPrefix, Ne.symm hx, Ne.symm hX]
  rw [cons_append, decodeEntity_number, hread]
  rfl

/-! ## One round -/

/-- Where the decoder finds the characters of a spelling that starts at `offset`. -/
def Spelling.place (offset : Nat) : Spelling → List DecodedChar
  | .literal char _ => [⟨char, offset, offset + char.utf8Size⟩]
  | .cdata text _ => placeChars (offset + 9) text
  | spelling => spelling.text.map fun char => ⟨char, offset, offset + (utf8 spelling.written).length⟩

theorem encode_reference (body : Text) :
    encode ('&' :: (body ++ [';'])) = byte '&' :: (encode body ++ [byte ';']) := by
  rw [Library.Utf8.encode_cons, Library.Utf8.encode_append]
  rfl

/-- The first `]]>` behind a text without one is the one that closes it. -/
theorem findSub_cdataEnd {body rest : Bytes} (h : ¬ bytes "]]>" <:+: body) :
    findSub (bytes "]]>") (body ++ bytes "]]>" ++ rest) = some body.length := by
  refine findSub_eq_some_iff.mpr ⟨⟨rest, ?_⟩, ?_, fun j hj hstarts => ?_⟩
  · rw [append_assoc, drop_left]
  · rw [append_assoc, length_append]
    omega
  · -- the `>` of an earlier one lies in the body, or on a `]`
    have hclose : bytes "]]>" = [byte ']', byte ']', byte '>'] := by decide
    have hthird : (body ++ bytes "]]>" ++ rest)[j + 2]? = some (byte '>') := by
      obtain ⟨more, hmore⟩ := hstarts
      have hget := congrArg (·[2]?) hmore
      simpa [hclose, getElem?_drop] using hget.symm
    by_cases hin : j + 3 ≤ body.length
    · rw [append_assoc, Library.prefix_drop_append_iff (by simpa [hclose] using hin)] at hstarts
      exact h (hstarts.isInfix.trans (drop_suffix j body).isInfix)
    · rw [append_assoc, getElem?_append_right (by omega), hclose] at hthird
      have hcases : j + 2 - body.length = 0 ∨ j + 2 - body.length = 1 := by omega
      rcases hcases with h0 | h1
      · rw [h0] at hthird
        exact absurd hthird (by simp; decide)
      · rw [h1] at hthird
        exact absurd hthird (by simp; decide)

theorem encode_cdata (text : Text) : encode ("<![CDATA[".toList ++ (text ++ "]]>".toList)) =
    bytes "<![CDATA[" ++ (utf8 text ++ bytes "]]>") :=
  (Library.Utf8.encode_append _ _).trans
    (congrArg (bytes "<![CDATA[" ++ ·) (Library.Utf8.encode_append _ _))

theorem decodeNext_cdata {text : Text} (inside : ¬ bytes "]]>" <:+: utf8 text) (offset : Nat)
    (rest : Bytes) :
    decodeNext offset (encode ("<![CDATA[".toList ++ (text ++ "]]>".toList)) ++ rest) =
      .ok (placeChars (offset + 9) text,
        (encode ("<![CDATA[".toList ++ (text ++ "]]>".toList))).length) := by
  have hlength : (bytes "<![CDATA[").length = 9 := by decide
  have hclose : (bytes "]]>").length = 3 := by decide
  have hhead : bytes "<![CDATA[" = byte '<' :: bytes "![CDATA[" := by decide
  have hdrop : (bytes "<![CDATA[" ++ (utf8 text ++ bytes "]]>" ++ rest)).drop 9 =
      utf8 text ++ bytes "]]>" ++ rest := by
    rw [← hlength, drop_left]
  have htake : (utf8 text ++ bytes "]]>" ++ rest).take (utf8 text).length = utf8 text := by
    rw [append_assoc, take_left]
  have hread : fromUtf8 (utf8 text) = some text := Library.Utf8.decode_eq_some_iff.mpr rfl
  have hcons : bytes "<![CDATA[" ++ (utf8 text ++ bytes "]]>" ++ rest) =
      byte '<' :: (bytes "![CDATA[" ++ (utf8 text ++ bytes "]]>" ++ rest)) := by
    rw [hhead, cons_append]
  have htaken : (bytes "<![CDATA[" ++ (utf8 text ++ bytes "]]>")).length =
      9 + (utf8 text).length + 3 := by
    rw [length_append, length_append, hlength, hclose, Nat.add_assoc]
  rw [encode_cdata, htaken, append_assoc, hcons, decodeNext, ← hcons]
  rw [if_neg (by decide), if_pos ⟨rfl, List.prefix_append _ _⟩, hdrop, findSub_cdataEnd inside]
  simp only [htake, hread]
  rfl

/-- A spelling other than a decimal reference is one round of the decoder. -/
theorem decodeNext_spelling {spelling : Spelling} (h : spelling.isDecimal = false) (offset : Nat)
    (rest : Bytes) : decodeNext offset (utf8 spelling.written ++ rest) =
      .ok (spelling.place offset, (utf8 spelling.written).length) := by
  cases spelling with
  | literal char plain =>
    have hbytes : utf8 (Spelling.literal char plain).written = String.utf8EncodeChar char :=
      append_nil _
    rw [hbytes, Library.Utf8.length_encodeChar]
    exact decodeNext_literal plain.1 plain.2 offset rest
  | entity named =>
    exact decodeNext_entity offset rest (encode_reference named.name)
      (by cases named <;> decide) (by cases named <;> decide)
  | decimal reference => exact absurd (show true = false from h) (by decide)
  | hexadecimal reference =>
    exact decodeNext_entity offset rest (encode_reference _)
      (reference.semicolon ['#', 'x'] (by decide)) (decodeEntity_hexadecimal reference)
  | cdata text inside => exact decodeNext_cdata inside offset rest

/-- A decimal reference is refused. -/
theorem decodeNext_decimal (reference : CharDigits 10) (offset : Nat) (rest : Bytes) :
    ∃ message, decodeNext offset (utf8 (Spelling.decimal reference).written ++ rest) =
      refuse message := by
  have hsemi := reference.semicolon ['#'] (by decide)
  have hround := decodeNext_reference offset rest (encode_reference ('#' :: reference.digits)) hsemi
  rw [decodeEntity_decimal reference] at hround
  exact ⟨_, hround⟩

/-! ## All of them -/

/-- What a list of spellings writes. -/
def writtenSpellings (spellings : List Spelling) : Text := spellings.flatMap (·.written)

def placeSpellings (offset : Nat) : List Spelling → List DecodedChar
  | [] => []
  | spelling :: rest =>
    spelling.place offset ++ placeSpellings (offset + (utf8 spelling.written).length) rest

theorem utf8_writtenSpellings_cons (spelling : Spelling) (rest : List Spelling) :
    utf8 (writtenSpellings (spelling :: rest)) =
      utf8 spelling.written ++ utf8 (writtenSpellings rest) :=
  Library.Utf8.encode_append _ _

theorem Spelling.written_ne_nil (spelling : Spelling) : utf8 spelling.written ≠ [] := by
  have h : spelling.written ≠ [] := by
    cases spelling with
    | cdata text inside => exact append_ne_nil_of_left_ne_nil (by decide) _
    | literal char plain => exact cons_ne_nil _ _
    | entity named => exact cons_ne_nil _ _
    | decimal reference => exact cons_ne_nil _ _
    | hexadecimal reference => exact cons_ne_nil _ _
  obtain ⟨c, text, hcons⟩ := exists_cons_of_ne_nil h
  rw [hcons, utf8, Library.Utf8.encode_cons]
  exact append_ne_nil_of_left_ne_nil (Library.Utf8.encodeChar_ne_nil c) _

/-- The decoder from `offset` on: round by round, up to the first decimal reference. -/
theorem decodeFrom_spellings : ∀ {fuel : Nat} (offset : Nat) {spellings : List Spelling},
    (utf8 (writtenSpellings spellings)).length ≤ fuel →
      if spellings.all fun spelling => !spelling.isDecimal then
        decodeFrom fuel offset (utf8 (writtenSpellings spellings)) =
          .ok (placeSpellings offset spellings)
      else ∃ message, decodeFrom fuel offset (utf8 (writtenSpellings spellings)) = refuse message
  | fuel, offset, [], _ => decodeFrom_nil fuel offset
  | fuel, offset, spelling :: spellings, h => by
    rw [utf8_writtenSpellings_cons] at h ⊢
    have hpos := length_pos_iff.mpr spelling.written_ne_nil
    rw [length_append] at h
    obtain ⟨fuel, rfl⟩ : ∃ rest, fuel = rest + 1 := ⟨fuel - 1, by omega⟩
    obtain ⟨first, tail, hcons⟩ := exists_cons_of_ne_nil
      (append_ne_nil_of_left_ne_nil spelling.written_ne_nil (utf8 (writtenSpellings spellings)))
    rw [all_cons]
    cases hdecimal : spelling.isDecimal with
    | false =>
      have hrest := decodeFrom_spellings (offset + (utf8 spelling.written).length)
        (by omega : (utf8 (writtenSpellings spellings)).length ≤ fuel)
      have hround : decodeFrom (fuel + 1) offset
            (utf8 spelling.written ++ utf8 (writtenSpellings spellings)) =
          (do
            let rest ← decodeFrom fuel (offset + (utf8 spelling.written).length)
              (utf8 (writtenSpellings spellings))
            pure (spelling.place offset ++ rest)) := by
        rw [hcons, decodeFrom, ← hcons, bind_ok (decodeNext_spelling hdecimal offset _)]
        simp only
        rw [drop_left]
      rw [hround, Bool.not_false, Bool.true_and]
      split at hrest
      next hall =>
        rw [if_pos hall, bind_ok hrest]
        rfl
      next hall =>
        obtain ⟨message, hrest⟩ := hrest
        rw [if_neg hall, hrest]
        exact ⟨message, rfl⟩
    | true =>
      rw [Bool.not_true, Bool.false_and, if_neg Bool.false_ne_true]
      cases spelling with
      | decimal reference =>
        obtain ⟨message, hrefused⟩ := decodeNext_decimal reference offset
          (utf8 (writtenSpellings spellings))
        refine ⟨message, ?_⟩
        rw [hcons, decodeFrom, ← hcons, hrefused]
        rfl
      | literal char plain => exact absurd hdecimal Bool.false_ne_true
      | entity named => exact absurd hdecimal Bool.false_ne_true
      | hexadecimal reference => exact absurd hdecimal Bool.false_ne_true
      | cdata text inside => exact absurd hdecimal Bool.false_ne_true

/-! ## The bytes of every character -/

theorem map_char_placeChars : ∀ (offset : Nat) (text : Text),
    (placeChars offset text).map (·.char) = text
  | _, [] => rfl
  | offset, c :: text => congrArg (c :: ·) (map_char_placeChars (offset + c.utf8Size) text)

theorem map_char_place (spelling : Spelling) (offset : Nat) :
    (spelling.place offset).map (·.char) = spelling.text := by
  cases spelling with
  | cdata text inside => exact map_char_placeChars _ text
  | literal char plain => rfl
  | entity named => rfl
  | decimal reference => rfl
  | hexadecimal reference => rfl

/-- The share that stands behind `before`. -/
theorem slice_middle (before share after : Bytes) :
    slice (before ++ (share ++ after)) before.length (before.length + share.length) = share := by
  rw [slice, ← append_assoc, ← length_append, take_left, drop_left]

theorem slices_placeChars : ∀ (before : Bytes) (text : Text) (after : Bytes),
    (placeChars before.length text).map
        (fun c => slice (before ++ (utf8 text ++ after)) c.start c.stop) =
      text.map String.utf8EncodeChar
  | _, [], _ => rfl
  | before, c :: text, after => by
    have hsize := Library.Utf8.length_encodeChar c
    have hsplit : before ++ (utf8 (c :: text) ++ after) =
        before ++ (String.utf8EncodeChar c ++ (utf8 text ++ after)) := by
      rw [utf8, Library.Utf8.encode_cons, append_assoc]
    rw [placeChars, map_cons, map_cons, hsplit]
    congr 1
    · have h := slice_middle before (String.utf8EncodeChar c) (utf8 text ++ after)
      rwa [hsize] at h
    · have h := slices_placeChars (before ++ String.utf8EncodeChar c) text after
      rwa [length_append, hsize, append_assoc] at h

theorem slices_place (spelling : Spelling) (before after : Bytes) :
    (spelling.place before.length).map
        (fun c => slice (before ++ (utf8 spelling.written ++ after)) c.start c.stop) =
      spelling.shares := by
  cases spelling with
  | cdata text inside =>
    have hwritten : utf8 (Spelling.cdata text inside).written =
        bytes "<![CDATA[" ++ (utf8 text ++ bytes "]]>") := encode_cdata text
    have hlength : (before ++ bytes "<![CDATA[").length = before.length + 9 := by
      rw [length_append, show (bytes "<![CDATA[").length = 9 by decide]
    have h := slices_placeChars (before ++ bytes "<![CDATA[") text (bytes "]]>" ++ after)
    rw [hlength] at h
    rw [hwritten]
    simp only [append_assoc] at h ⊢
    exact h
  | literal char plain =>
    have h := slice_middle before (String.utf8EncodeChar char) after
    rw [Library.Utf8.length_encodeChar] at h
    have hbytes : utf8 (Spelling.literal char plain).written = String.utf8EncodeChar char :=
      append_nil _
    simp only [Spelling.place, Spelling.shares, map_cons, map_nil, hbytes, h]
  | entity named => exact congrArg ([·]) (slice_middle before _ after)
  | decimal reference => exact congrArg ([·]) (slice_middle before _ after)
  | hexadecimal reference => exact congrArg ([·]) (slice_middle before _ after)

theorem map_char_placeSpellings : ∀ (offset : Nat) (spellings : List Spelling),
    (placeSpellings offset spellings).map (·.char) = spellings.flatMap (·.text)
  | _, [] => rfl
  | offset, spelling :: rest => by
    rw [placeSpellings, map_append, map_char_place, map_char_placeSpellings _ rest,
      flatMap_cons]

theorem slices_placeSpellings : ∀ (before : Bytes) (spellings : List Spelling),
    (placeSpellings before.length spellings).map
        (fun c => slice (before ++ utf8 (writtenSpellings spellings)) c.start c.stop) =
      spellings.flatMap (·.shares)
  | _, [] => rfl
  | before, spelling :: rest => by
    have h := slices_placeSpellings (before ++ utf8 spelling.written) rest
    rw [length_append, append_assoc] at h
    rw [placeSpellings, map_append, utf8_writtenSpellings_cons, slices_place, h,
      flatMap_cons]

/-! ## What is read back -/

theorem decodesTo_spellings_iff (spellings : List Spelling) :
    DecodesTo (utf8 (writtenSpellings spellings)) (spellings.flatMap (·.text))
        (spellings.flatMap (·.shares)) ↔
      ∀ spelling ∈ spellings, spelling.isDecimal = false := by
  have hrun := decodeFrom_spellings 0 (Nat.le_refl (utf8 (writtenSpellings spellings)).length)
  have hall : (spellings.all fun spelling => !spelling.isDecimal) = true ↔
      ∀ spelling ∈ spellings, spelling.isDecimal = false := by
    simp
  rw [← hall]
  constructor
  · rintro ⟨chars, hchars, -⟩
    by_contra hdecimal
    rw [if_neg hdecimal] at hrun
    obtain ⟨message, hrefused⟩ := hrun
    rw [decodeTextSegments, hrefused] at hchars
    exact refuse_ne_ok hchars
  · intro hnone
    rw [if_pos hnone] at hrun
    exact ⟨_, hrun, map_char_placeSpellings 0 spellings, decodeTextSegments_spelled hrun,
      slices_placeSpellings [] spellings⟩

/-- How `xml_escape` spells a character. -/
def escapeSpelling (c : Char) : Spelling :=
  if c = '&' then .entity .amp
  else if c = '<' then .entity .lt
  else if c = '>' then .entity .gt
  else if h : c ≠ '&' ∧ c ≠ '<' then .literal c h
  else .entity .amp

theorem escapeSpelling_spec (c : Char) : (escapeSpelling c).written = escapeChar c ∧
    (escapeSpelling c).text = [c] ∧ (escapeSpelling c).shares = [utf8 (escapeChar c)] ∧
      (escapeSpelling c).isDecimal = false := by
  rcases escapeChar_cases c with ⟨rfl, h⟩ | ⟨rfl, h⟩ | ⟨rfl, h⟩ | ⟨hamp, hlt, hgt, h⟩
  · exact ⟨rfl, rfl, rfl, rfl⟩
  · exact ⟨rfl, rfl, rfl, rfl⟩
  · exact ⟨rfl, rfl, rfl, rfl⟩
  · rw [escapeSpelling, if_neg hamp, if_neg hlt, if_neg hgt, dif_pos ⟨hamp, hlt⟩, h]
    exact ⟨rfl, rfl, rfl, rfl⟩

theorem decodesTo_xmlEscape (text : Text) :
    DecodesTo (utf8 (xmlEscape text)) text (text.map fun c => utf8 (escapeChar c)) := by
  have hwritten : writtenSpellings (text.map escapeSpelling) = xmlEscape text := by
    rw [writtenSpellings, flatMap_map, xmlEscape]
    exact flatMap_congr fun c _ => (escapeSpelling_spec c).1
  have htext : (text.map escapeSpelling).flatMap (·.text) = text := by
    rw [flatMap_map, flatMap_congr fun c _ => (escapeSpelling_spec c).2.1]
    exact flatMap_singleton' text
  have hshares : (text.map escapeSpelling).flatMap (·.shares) =
      text.map fun c => utf8 (escapeChar c) := by
    rw [flatMap_map, flatMap_congr fun c _ => (escapeSpelling_spec c).2.2.1]
    exact flatMap_pure_eq_map _ text
  have h := (decodesTo_spellings_iff (text.map escapeSpelling)).mpr fun spelling hmem => by
    obtain ⟨c, -, rfl⟩ := mem_map.mp hmem
    exact (escapeSpelling_spec c).2.2.2
  rwa [hwritten, htext, hshares] at h

/-- The decoder reads a text back, with the bytes of every character, from exactly the spellings
that hold no decimal reference; those of `xml_escape` hold none. -/
theorem decodesTo_iff (spellings : List Spelling) (text : Text) :
    (DecodesTo (utf8 (writtenSpellings spellings)) (spellings.flatMap (·.text))
        (spellings.flatMap (·.shares)) ↔
      ∀ spelling ∈ spellings, spelling.isDecimal = false) ∧
    DecodesTo (utf8 (xmlEscape text)) text (text.map fun c => utf8 (escapeChar c)) :=
  ⟨decodesTo_spellings_iff spellings, decodesTo_xmlEscape text⟩

/-- `A` as `&#65;`. -/
def decimalA : CharDigits 10 where
  char := 'A'
  digits := "65".toList
  nonempty := by decide +kernel
  are_digits := by
    -- `decide` on the statement itself may try every character
    exact List.all_eq_true.mp
      (show ("65".toList.all fun d => (digitValue 10 d).isSome) = true by decide +kernel)
  value := by decide +kernel

/-- `&#65;` spells an `A` and is refused. -/
theorem not_decodesTo_decimal : (Spelling.decimal decimalA).written = "&#65;".toList ∧
    decodeTextSegments (bytes "&#65;") =
      refuse "prose-xml-invalid: unrecognized entity &#65;" ∧
    ¬ DecodesTo (bytes "&#65;") ['A'] [bytes "&#65;"] := by
  have hrefused : decodeTextSegments (bytes "&#65;") =
      refuse "prose-xml-invalid: unrecognized entity &#65;" := by
    decide +kernel
  refine ⟨rfl, hrefused, ?_⟩
  rintro ⟨chars, hchars, -⟩
  rw [hrefused] at hchars
  exact refuse_ne_ok hchars

end Docx2Typed
