import Docx2Typed.Format.Xml
import Docx2Typed.Library.InStep
import Docx2Typed.Verify.Slices

/-!
# Three tag scanners

Core, the verifier and the format engine scan a part each with a scanner of its own.  The first
two cut the same tokens; the third ends a tag at its first `>` and looks for the end of a comment
from its first byte on.  `alikeTags_iff`: the three return the same tags iff the tokens of Core are
of a kind all three read alike.
-/

namespace Docx2Typed.Format

open Library List

/-! ## The same tags -/

def Tag.toVerify (tag : Tag) : Verify.Tag :=
  ⟨tag.name, tag.closing, tag.selfClosing, tag.start, tag.stop⟩

/-- The verifier and the format engine return the tags of Core: the same names, byte ranges and
flags, in the same order. -/
def SameTags (xml : Bytes) : Prop :=
  Verify.scanTags xml = (Docx2Typed.scanTags xml).map Verify.Tag.ofCore ∧
    (scanTags xml).map Tag.toVerify = (Docx2Typed.scanTags xml).map Verify.Tag.ofCore

instance (xml : Bytes) : Decidable (SameTags xml) := inferInstanceAs (Decidable (_ ∧ _))

/-- The name that stands right behind `<` or `</`. -/
def nameOf (token : Bytes) : Bytes := (tagBody (token.drop 1)).takeWhile isNameByte

/-- A tag that no scanner can misread: no space before its name, no `>` in a value, and the local
name is not empty and ends where white space or a slash follows. -/
structure PlainName (token : Bytes) : Prop where
  unspaced : nameOf token ≠ []
  unbroken : byte '>' ∉ token.dropLast
  named : localName (asciiString (nameOf token)) ≠ ""
  ends : tagName (tagBody (token.drop 1).dropLast) = localName (asciiString (nameOf token))

/-- How much of a token of Core the format engine takes for one. -/
def takenOf (token : Bytes) : ℕ := (tokenWidth token).getD 0

/-- What is no tag for Core, is none for the others, and holds no `<` behind the end that the
format engine finds. -/
structure Passed (token : Bytes) : Prop where
  verifier : Verify.readTag token 0 0 = none
  format : readTag (token.take (takenOf token)) (0, 0) = none
  rest : byte '<' ∉ token.drop (takenOf token)

def AlikeToken (token : Bytes) : Prop :=
  if (parseTag token 0 0).isSome then PlainName token else Passed token

instance (token : Bytes) : Decidable (PlainName token) :=
  decidable_of_iff (nameOf token ≠ [] ∧ byte '>' ∉ token.dropLast ∧
      localName (asciiString (nameOf token)) ≠ "" ∧
      tagName (tagBody (token.drop 1).dropLast) = localName (asciiString (nameOf token)))
    ⟨fun h => ⟨h.1, h.2.1, h.2.2.1, h.2.2.2⟩, fun h => ⟨h.1, h.2, h.3, h.4⟩⟩

instance (token : Bytes) : Decidable (Passed token) :=
  decidable_of_iff (Verify.readTag token 0 0 = none ∧
      readTag (token.take (takenOf token)) (0, 0) = none ∧ byte '<' ∉ token.drop (takenOf token))
    ⟨fun h => ⟨h.1, h.2.1, h.2.2⟩, fun h => ⟨h.1, h.2, h.3⟩⟩

instance (token : Bytes) : Decidable (AlikeToken token) :=
  inferInstanceAs
    (Decidable (if (parseTag token 0 0).isSome then PlainName token else Passed token))

/-- What Core leaves unread behind its last token: it starts at a `<` whose token does not end. -/
def unended (xml : Bytes) : Bytes := scanRest (byte '<') tokenLength xml.length xml

/-- Every token is read alike, and what has no end for Core has none for the format engine. -/
def AlikeTags (xml : Bytes) : Prop :=
  (∀ token ∈ Verify.tokens xml, AlikeToken token) ∧ tokenWidth (unended xml) = none

instance (xml : Bytes) : Decidable (AlikeTags xml) :=
  inferInstanceAs (Decidable ((∀ token ∈ Verify.tokens xml, _) ∧ _))

/-- A token that is no tag for Core nor for the format engine, which ends it early and meets another
`<` in it: in markup that is well formed only a comment that begins with `>` or `->`. -/
def Stray (token : Bytes) : Prop :=
  parseTag token 0 0 = none ∧ readTag (token.take (takenOf token)) (0, 0) = none ∧
    byte '<' ∈ token.drop (takenOf token)

instance (token : Bytes) : Decidable (Stray token) := inferInstanceAs (Decidable (_ ∧ _ ∧ _))

/-- No token leads the format engine astray. -/
def Straight (xml : Bytes) : Prop :=
  (∀ token ∈ Verify.tokens xml, ¬ Stray token) ∧ (tokenWidth (unended xml) ≠ none →
    readTag ((unended xml).take (takenOf (unended xml))) (0, 0) ≠ none)

instance (xml : Bytes) : Decidable (Straight xml) :=
  inferInstanceAs (Decidable ((∀ token ∈ Verify.tokens xml, _) ∧ (_ → _)))

/-! ## The scanners as readers of labels -/

/-- Local name and flags of a tag. -/
abbrev Label := String × Bool × Bool

def tagRead (read : Label × ℕ × ℕ) : Verify.Tag :=
  ⟨read.1.1, read.1.2.1, read.1.2.2, read.2.1, read.2.2⟩

theorem tagRead_injective : Function.Injective tagRead := by
  intro a b h
  simp only [tagRead, Verify.Tag.mk.injEq] at h
  obtain ⟨hname, hclosing, hself, hstart, hstop⟩ := h
  exact Prod.ext (Prod.ext hname (Prod.ext hclosing hself)) (Prod.ext hstart hstop)

def coreLabel (token : Bytes) : Option Label :=
  (parseTag token 0 0).map fun tag => (tag.name, tag.closing, tag.selfClosing)

def verifierLabel (token : Bytes) : Option Label :=
  (Verify.readTag token 0 0).map fun tag => (tag.name, tag.closing, tag.selfClosing)

def formatLabel (token : Bytes) : Option Label :=
  (readTag token (0, 0)).map fun tag => (tag.name, tag.closing, tag.selfClosing)

theorem parseTag_tagRead (token : Bytes) (start stop : ℕ) :
    (parseTag token start stop).map Verify.Tag.ofCore =
      (readToken coreLabel token start stop).map tagRead := by
  simp only [parseTag, readToken, coreLabel]
  split_ifs <;> rfl

theorem readTag_tagRead (token : Bytes) (start stop : ℕ) :
    Verify.readTag token start stop = (readToken verifierLabel token start stop).map tagRead := by
  simp only [Verify.readTag, readToken, verifierLabel]
  split_ifs <;> rfl

theorem formatTag_tagRead (token : Bytes) (span : ℕ × ℕ) :
    (readTag token span).map Tag.toVerify =
      (readToken formatLabel token span.1 span.2).map tagRead := by
  simp only [readTag, readToken, formatLabel]
  split_ifs <;> rfl

theorem coreTags_tagRead : ∀ (fuel offset : ℕ) (xml : Bytes),
    (Docx2Typed.scanTagsFrom fuel offset xml).map Verify.Tag.ofCore =
      (readScan (byte '<') tokenLength coreLabel fuel offset xml).map tagRead
  | 0, _, _ => rfl
  | fuel + 1, offset, xml => by
    rw [Docx2Typed.scanTagsFrom, readScan]
    by_cases hne : xml.dropWhile (· != byte '<') = []
    · simp only [hne, if_true, map_nil]
    · simp only [if_neg hne]
      cases tokenLength (xml.dropWhile (· != byte '<')) with
      | none => rfl
      | some n =>
        simp only [map_append]
        rw [coreTags_tagRead fuel, ← Option.toList_map, ← Option.toList_map, parseTag_tagRead]

theorem verifierTags_tagRead : ∀ (fuel offset : ℕ) (xml : Bytes),
    Verify.scanTagsFrom fuel offset xml =
      (readScan (byte '<') tokenLength verifierLabel fuel offset xml).map tagRead
  | 0, _, _ => rfl
  | fuel + 1, offset, xml => by
    rw [Verify.scanTagsFrom, readScan]
    by_cases hne : xml.dropWhile (· != byte '<') = []
    · simp only [hne, if_true, map_nil]
    · simp only [if_neg hne]
      cases tokenLength (xml.dropWhile (· != byte '<')) with
      | none => rfl
      | some n =>
        simp only [map_append]
        rw [verifierTags_tagRead fuel, ← Option.toList_map, readTag_tagRead]

theorem formatTags_tagRead (xml : Bytes) : (scanTags xml).map Tag.toVerify =
    (readScan (byte '<') tokenWidth formatLabel xml.length 0 xml).map tagRead := by
  rw [readScan_eq_scan measures_tokenWidth 0 le_rfl, scanTags, map_filterMap,
    map_filterMap]
  exact filterMap_congr fun span _ => formatTag_tagRead _ _

theorem tokensFrom_eq_scanTokens : ∀ (fuel : ℕ) (xml : Bytes),
    Verify.tokensFrom fuel xml = scanTokens (byte '<') tokenLength fuel xml
  | 0, _ => rfl
  | fuel + 1, xml => by
    rw [Verify.tokensFrom, scanTokens]
    by_cases hne : xml.dropWhile (· != byte '<') = []
    · simp only [hne, if_true]
    · simp only [if_neg hne]
      cases tokenLength (xml.dropWhile (· != byte '<')) with
      | none => rfl
      | some n =>
        simp only
        rw [tokensFrom_eq_scanTokens fuel]

/-- What the same tags are, in labels. -/
theorem sameTags_iff_labels (xml : Bytes) : SameTags xml ↔
    readScan (byte '<') tokenLength coreLabel xml.length 0 xml =
        readScan (byte '<') tokenLength verifierLabel xml.length 0 xml ∧
      readScan (byte '<') tokenLength coreLabel xml.length 0 xml =
        readScan (byte '<') tokenWidth formatLabel xml.length 0 xml := by
  have hinj := map_injective_iff.mpr tagRead_injective
  rw [SameTags, Verify.scanTags, Docx2Typed.scanTags, coreTags_tagRead, verifierTags_tagRead,
    formatTags_tagRead, hinj.eq_iff, hinj.eq_iff, eq_comm,
    @eq_comm _ (readScan (byte '<') tokenWidth _ _ _ _)]

/-! ## Where the tokens end -/

theorem endsWithin_tokenLength : EndsWithin (byte '<') tokenLength tokenLength :=
  fun {_ n} h => ⟨n, h, tokenLength_take h, le_rfl⟩

/-- A block that stands somewhere is found there or before. -/
theorem exists_findSub_le {needle rest : Bytes} {k : ℕ} (h : needle <+: rest.drop k) :
    ∃ i ≤ k, findSub needle rest = some i := by
  cases hfind : findSub needle rest with
  | none =>
    exact absurd (h.isInfix.trans (drop_suffix k rest).isInfix)
      (findSub_eq_none_iff.mp hfind)
  | some i =>
    refine ⟨i, ?_, rfl⟩
    by_contra hlt
    exact (findSub_eq_some_iff.mp hfind).2.2 k (by omega) h

/-- A tag of Core ends with `>`. -/
theorem take_scanAngleToken {quote : Option UInt8} {l : Bytes} {n : ℕ}
    (h : scanAngleToken quote l = some n) : ∃ i, n = i + 1 ∧ [byte '>'] <+: l.drop i := by
  induction l generalizing quote n with
  | nil => simp [scanAngleToken] at h
  | cons b rest ih =>
    have hlater : ∀ {quote'}, (scanAngleToken quote' rest).map (· + 1) = some n →
        ∃ i, n = i + 1 ∧ [byte '>'] <+: (b :: rest).drop i := by
      intro quote' hmap
      obtain ⟨k, hk, rfl⟩ := Option.map_eq_some_iff.mp hmap
      obtain ⟨i, rfl, hi⟩ := ih hk
      exact ⟨i + 1, rfl, hi⟩
    cases quote with
    | some q =>
      rw [scanAngleToken] at h
      exact hlater h
    | none =>
      rw [scanAngleToken] at h
      split_ifs at h with hquote hclose
      · exact hlater h
      · exact ⟨0, (Option.some.inj h).symm, by simp [hclose]⟩
      · exact hlater h

/-- The format engine ends a token of Core within it. -/
theorem endsWithin_tokenWidth : EndsWithin (byte '<') tokenLength tokenWidth := by
  intro xs n h
  suffices hwidth : ∃ m, tokenWidth (byte '<' :: xs) = some m ∧ m ≤ n by
    obtain ⟨m, hm, hle⟩ := hwidth
    exact ⟨m, hm, measures_tokenWidth.take hm hle, hle⟩
  -- the block that ends the token for Core ends it for the format engine, unless one stands before
  have hblock : ∀ {needle : Bytes} {k i : ℕ}, findSub needle ((byte '<' :: xs).drop k) = some i →
      ∃ j ≤ k + i, findSub needle (byte '<' :: xs) = some j := by
    intro needle k i hi
    obtain ⟨⟨s, hs⟩, -, -⟩ := findSub_eq_some_iff.mp hi
    rw [drop_drop] at hs
    exact exists_findSub_le ⟨s, hs.symm⟩
  rw [tokenLength] at h
  rw [tokenWidth]
  split_ifs at h ⊢ with hcomment hcdata hinstruction
  · obtain ⟨i, hi, rfl⟩ := Option.map_eq_some_iff.mp h
    obtain ⟨j, hj, hfind⟩ := hblock hi
    exact ⟨j + 3, by rw [hfind]; rfl, by omega⟩
  · obtain ⟨i, hi, rfl⟩ := Option.map_eq_some_iff.mp h
    obtain ⟨j, hj, hfind⟩ := hblock hi
    exact ⟨j + 3, by rw [hfind]; rfl, by omega⟩
  · obtain ⟨i, hi, rfl⟩ := Option.map_eq_some_iff.mp h
    obtain ⟨j, hj, hfind⟩ := hblock hi
    exact ⟨j + 2, by rw [hfind]; rfl, by omega⟩
  · obtain ⟨i, hi, rfl⟩ := Option.map_eq_some_iff.mp h
    obtain ⟨k, rfl, hk⟩ := take_scanAngleToken hi
    rw [drop_drop] at hk
    obtain ⟨j, hj, hfind⟩ := exists_findSub_le hk
    exact ⟨j + 1, by rw [hfind]; rfl, by omega⟩

/-! ## Names -/

/-- A name byte is none of the bytes the scanners stop at. -/
theorem isNameByte_ne {b : UInt8} (h : isNameByte b = true) : isTagSpace b = false ∧
    isAsciiWhitespace b = false ∧ b ≠ byte '/' ∧ b ≠ byte '!' ∧ b ≠ byte '?' ∧ b ≠ byte '>' ∧
      b ≠ byte '<' := by
  revert b
  decide +kernel

section Names

variable {inner rest : Bytes} {b c : UInt8}

/-- The token of a tag, from what stands between its brackets. -/
def bracketed (inner : Bytes) : Bytes := byte '<' :: (inner ++ [byte '>'])

theorem drop_bracketed (inner : Bytes) : (bracketed inner).drop 1 = inner ++ [byte '>'] := rfl

theorem dropLast_drop_bracketed (inner : Bytes) : ((bracketed inner).drop 1).dropLast = inner :=
  dropLast_concat

theorem no_block_of_name (inner : Bytes) (hb : isNameByte b = true ∨ b = byte '/') :
    ¬ bytes "<!--" <+: bracketed (b :: inner) ∧ ¬ bytes "<?" <+: bracketed (b :: inner) ∧
      ¬ bytes "<!" <+: bracketed (b :: inner) ∧ ¬ bytes "<![CDATA[" <+: bracketed (b :: inner) := by
  have hne : b ≠ byte '!' ∧ b ≠ byte '?' := by
    rcases hb with hb | rfl
    · exact ⟨(isNameByte_ne hb).2.2.2.1, (isNameByte_ne hb).2.2.2.2.1⟩
    · decide
  refine ⟨?_, ?_, ?_, ?_⟩ <;> rw [bracketed, cons_append] <;> intro h <;>
    have h2 := (cons_prefix_cons.mp (cons_prefix_cons.mp h).2).1
  exacts [hne.1 h2.symm, hne.2 h2.symm, hne.1 h2.symm, hne.1 h2.symm]

theorem bytes_suffix_iff (hinner : inner ≠ []) :
    decide (bytes "/>" <:+ bracketed inner) = (inner.getLast? == some (byte '/')) := by
  obtain ⟨front, last, rfl⟩ := eq_nil_or_concat inner |>.resolve_left hinner
  have hsplit : bracketed (front.concat last) = (byte '<' :: front) ++ [last, byte '>'] := by
    simp [bracketed]
  rw [hsplit, Bool.eq_iff_iff, decide_eq_true_iff, beq_iff_eq, concat_eq_append,
    getLast?_concat, Option.some.injEq]
  constructor
  · intro h
    have hsuffix := suffix_append (byte '<' :: front) [last, byte '>']
    have heq := (suffix_of_suffix_length_le h hsuffix le_rfl).eq_of_length rfl
    exact (List.cons.inj heq).1.symm
  · rintro rfl
    exact suffix_append _ _

/-- What the three read where a name stands right behind `<`. -/
theorem labels_of_open (inner : Bytes) (hb : isNameByte b = true) :
    coreLabel (bracketed (b :: inner)) = some (localName (asciiString
        (nameOf (bracketed (b :: inner)))), false, (b :: inner).getLast? == some (byte '/')) ∧
      verifierLabel (bracketed (b :: inner)) = coreLabel (bracketed (b :: inner)) ∧
      formatLabel (bracketed (b :: inner)) = if tagName (b :: inner) = "" then none else
        some (tagName (b :: inner), false, (b :: inner).getLast? == some (byte '/')) := by
  obtain ⟨hspace, hwhite, hslash, -⟩ := isNameByte_ne hb
  obtain ⟨hcomment, hinstruction, hdeclared, hcdata⟩ := no_block_of_name inner (.inl hb)
  have hhead : (b :: inner ++ [byte '>']).head? ≠ some (byte '/') := by simpa using hslash
  have hname : nameOf (bracketed (b :: inner)) =
      (b :: inner ++ [byte '>']).takeWhile isNameByte := by
    rw [nameOf, drop_bracketed, tagBody, if_neg hhead]
  have hne : (b :: inner ++ [byte '>']).takeWhile isNameByte ≠ [] := by
    simp [hb]
  have hspaces : (b :: inner ++ [byte '>']).dropWhile isTagSpace = b :: inner ++ [byte '>'] :=
    dropWhile_cons_of_neg (by simp [hspace])
  have hwhites : (b :: inner ++ [byte '>']).dropWhile isAsciiWhitespace =
      b :: inner ++ [byte '>'] :=
    dropWhile_cons_of_neg (by simp [hwhite])
  have hcore : coreLabel (bracketed (b :: inner)) = some (localName (asciiString
      (nameOf (bracketed (b :: inner)))), false, (b :: inner).getLast? == some (byte '/')) := by
    rw [coreLabel, parseTag, if_neg (by simp only [hcomment, hinstruction, hdeclared, or_self,
      not_false_eq_true]), drop_bracketed]
    simp only [hspaces, if_neg hhead, if_neg hne, Option.map_some, hname,
      bytes_suffix_iff (cons_ne_nil b inner)]
  refine ⟨hcore, ?_, ?_⟩
  · rw [hcore, verifierLabel, Verify.readTag, if_neg (by simp only [hcomment, hinstruction,
      hdeclared, or_self, not_false_eq_true]), drop_bracketed]
    simp only [hwhites, if_neg hhead, if_neg hne, Option.map_some, hname,
      bytes_suffix_iff (cons_ne_nil b inner)]
  · have hbody : tagBody (b :: inner) = b :: inner := if_neg (by simpa using hslash)
    have hclosing : ((b :: inner).head? == some (byte '/')) = false := by simpa using hslash
    rw [formatLabel, readTag, if_neg (by simp only [hcomment, hinstruction, hcdata, or_self,
      not_false_eq_true]), dropLast_drop_bracketed]
    simp only [hbody, hclosing]
    split_ifs <;> rfl

/-- What the three read where a name stands right behind `</`. -/
theorem labels_of_close (inner : Bytes) (hc : isNameByte c = true) :
    (coreLabel (bracketed (byte '/' :: c :: inner)) =
      if ((c :: inner ++ [byte '>']).dropWhile isNameByte).dropWhile isTagSpace ≠ [byte '>'] then
        none
      else
        some (localName (asciiString (nameOf (bracketed (byte '/' :: c :: inner)))), true, false)) ∧
      verifierLabel (bracketed (byte '/' :: c :: inner)) =
        some (localName (asciiString (nameOf (bracketed (byte '/' :: c :: inner)))), true, false) ∧
      formatLabel (bracketed (byte '/' :: c :: inner)) =
        if tagName (c :: inner) = "" then none else
          some (tagName (c :: inner), true, (c :: inner).getLast? == some (byte '/')) := by
  obtain ⟨hspace, hwhite, hslash, -⟩ := isNameByte_ne hc
  obtain ⟨hcomment, hinstruction, hdeclared, hcdata⟩ :=
    no_block_of_name (c :: inner) (.inr (rfl : byte '/' = byte '/'))
  have hname : nameOf (bracketed (byte '/' :: c :: inner)) =
      (c :: inner ++ [byte '>']).takeWhile isNameByte := by
    rw [nameOf, drop_bracketed, tagBody, if_pos (by rfl)]
    rfl
  have hne : (c :: inner ++ [byte '>']).takeWhile isNameByte ≠ [] := by
    simp [hc]
  have hbody : ∀ p : UInt8 → Bool, p (byte '/') = false →
      (byte '/' :: c :: inner ++ [byte '>']).dropWhile p = byte '/' :: (c :: inner ++ [byte '>']) :=
    fun p hp => dropWhile_cons_of_neg (by simp [hp])
  have hspaces : (c :: inner ++ [byte '>']).dropWhile isTagSpace = c :: inner ++ [byte '>'] :=
    dropWhile_cons_of_neg (by simp [hspace])
  have hwhites : (c :: inner ++ [byte '>']).dropWhile isAsciiWhitespace =
      c :: inner ++ [byte '>'] :=
    dropWhile_cons_of_neg (by simp [hwhite])
  refine ⟨?_, ?_, ?_⟩
  · rw [coreLabel, parseTag, if_neg (by simp only [hcomment, hinstruction, hdeclared, or_self,
      not_false_eq_true]), drop_bracketed, hbody isTagSpace (by decide)]
    simp only [head?_cons, if_true, drop_succ_cons, drop_zero, hspaces, if_neg hne,
      hname]
    split_ifs <;> rfl
  · rw [verifierLabel, Verify.readTag, if_neg (by simp only [hcomment, hinstruction, hdeclared,
      or_self, not_false_eq_true]), drop_bracketed, hbody isAsciiWhitespace (by decide)]
    simp only [head?_cons, if_true, drop_succ_cons, drop_zero, hwhites, if_neg hne,
      hname]
    rfl
  · have htagBody : tagBody (byte '/' :: c :: inner) = c :: inner := rfl
    rw [formatLabel, readTag, if_neg (by simp only [hcomment, hinstruction, hcdata, or_self,
      not_false_eq_true]), dropLast_drop_bracketed]
    simp only [htagBody, head?_cons, beq_self_eq_true]
    split_ifs <;> rfl

/-- A tag of Core begins with a name byte, or with one behind a slash, if the format engine reads
its name. -/
theorem exists_name (hcore : coreLabel (bracketed inner) ≠ none)
    (hname : tagName (tagBody inner) ≠ "") :
    (∃ b rest, inner = b :: rest ∧ isNameByte b = true) ∨
      ∃ c rest, inner = byte '/' :: c :: rest ∧ isNameByte c = true := by
  -- a name of the format engine neither begins with white space nor with a slash
  have hhead : ∀ {body : Bytes}, tagName body ≠ "" → ∃ b rest, body = b :: rest ∧
      isTagSpace b = false ∧ b ≠ byte '/' := by
    intro body hbody
    cases body with
    | nil => exact absurd rfl hbody
    | cons b rest =>
      by_cases hstop : (isAsciiWhitespace b || b == byte '/') = true
      · refine absurd ?_ hbody
        rw [tagName, takeWhile_cons_of_neg (by simp [hstop])]
        rfl
      · simp only [isAsciiWhitespace, Bool.or_eq_true, beq_iff_eq, not_or,
          Bool.not_eq_true] at hstop
        exact ⟨b, rest, rfl, hstop.1.1, hstop.2⟩
  have hspaces : ∀ {b : UInt8} {rest : Bytes}, isTagSpace b = false →
      (b :: rest).dropWhile isTagSpace = b :: rest :=
    fun hb => dropWhile_cons_of_neg (by simp [hb])
  have hread : parseTag (bracketed inner) 0 0 ≠ none := by
    intro hnone
    rw [coreLabel, hnone] at hcore
    exact hcore rfl
  rw [parseTag, drop_bracketed] at hread
  cases inner with
  | nil => exact absurd rfl hname
  | cons b rest =>
    by_cases hslash : b = byte '/'
    · subst hslash
      obtain ⟨c, rest, rfl, hc, -⟩ := hhead hname
      refine .inr ⟨c, rest, rfl, ?_⟩
      by_contra hnot
      refine hread ?_
      split_ifs with hblock
      · rfl
      · simp only [cons_append, hspaces (show isTagSpace (byte '/') = false by decide),
          head?_cons, if_true, drop_succ_cons, drop_zero, hspaces hc,
          takeWhile_cons_of_neg hnot]
    · have hbody : tagBody (b :: rest) = b :: rest := if_neg (by simpa using hslash)
      rw [hbody] at hname
      obtain ⟨b', rest', heq, hb, -⟩ := hhead hname
      obtain ⟨rfl, rfl⟩ := List.cons.inj heq
      refine .inl ⟨b, rest, rfl, ?_⟩
      by_contra hnot
      refine hread ?_
      split_ifs with hblock
      · rfl
      · simp only [cons_append, hspaces hb, head?_cons, Option.some.injEq, hslash,
          if_false, takeWhile_cons_of_neg hnot, if_true]

/-- Behind the name of a closing tag only spaces stand. -/
theorem getLast_of_spaces {body : Bytes} (hrest : ((body ++ [byte '>']).dropWhile
    isNameByte).dropWhile isTagSpace = [byte '>']) :
    (body.getLast? == some (byte '/')) = false := by
  set name := (body ++ [byte '>']).takeWhile isNameByte with hname
  set spaces := ((body ++ [byte '>']).dropWhile isNameByte).takeWhile isTagSpace with hspaces
  have hsplit : body ++ [byte '>'] = name ++ spaces ++ [byte '>'] := by
    calc body ++ [byte '>']
        = name ++ (body ++ [byte '>']).dropWhile isNameByte := takeWhile_append_dropWhile.symm
      _ = name ++ (spaces ++ ((body ++ [byte '>']).dropWhile isNameByte).dropWhile isTagSpace) :=
          congrArg (name ++ ·) takeWhile_append_dropWhile.symm
      _ = name ++ (spaces ++ [byte '>']) := by rw [hrest]
      _ = name ++ spaces ++ [byte '>'] := (append_assoc ..).symm
  rw [append_cancel_right hsplit, beq_eq_false_iff_ne]
  intro hlast
  rcases mem_append.mp (mem_of_getLast? hlast) with h | h
  · exact absurd (mem_takeWhile_imp h) (by decide)
  · exact absurd (mem_takeWhile_imp h) (by decide)

/-- What all three read alike. -/
theorem plainName_iff (hcore : coreLabel (bracketed inner) ≠ none) :
    PlainName (bracketed inner) ↔ coreLabel (bracketed inner) = verifierLabel (bracketed inner) ∧
      coreLabel (bracketed inner) = formatLabel (bracketed inner) ∧ byte '>' ∉ inner := by
  have hunbroken : byte '>' ∉ (bracketed inner).dropLast ↔ byte '>' ∉ inner := by
    have hdrop : (bracketed inner).dropLast = byte '<' :: inner := by
      rw [bracketed, ← cons_append, dropLast_concat]
    rw [hdrop, mem_cons, not_or]
    exact and_iff_right (by decide)
  have hname : ∀ {t}, formatLabel t = coreLabel t → coreLabel t ≠ none →
      tagName (tagBody (t.drop 1).dropLast) ≠ "" := by
    intro t heq hne hempty
    refine hne (heq ▸ ?_)
    rw [formatLabel, readTag]
    split_ifs <;> simp_all
  constructor
  · intro h
    have htag := h.named
    rw [← h.ends, dropLast_drop_bracketed] at htag
    have hends := h.ends
    rw [dropLast_drop_bracketed] at hends
    refine ⟨?_, ?_, hunbroken.mp h.unbroken⟩
    · rcases exists_name hcore htag with ⟨b, rest, rfl, hb⟩ | ⟨c, rest, rfl, hc⟩
      · exact (labels_of_open rest hb).2.1.symm
      · obtain ⟨hcore', hverifier, -⟩ := labels_of_close rest hc
        rw [hcore'] at hcore ⊢
        rw [hverifier, if_neg fun hne => hcore (if_pos hne)]
    · rcases exists_name hcore htag with ⟨b, rest, rfl, hb⟩ | ⟨c, rest, rfl, hc⟩
      · obtain ⟨hc, -, hf⟩ := labels_of_open rest hb
        have hslash := (isNameByte_ne hb).2.2.1
        have hbody : tagBody (b :: rest) = b :: rest := if_neg (by simpa using hslash)
        rw [hbody] at htag hends
        rw [hc, hf, if_neg htag, hends]
      · obtain ⟨hcore', -, hf⟩ := labels_of_close rest hc
        have hbody : tagBody (byte '/' :: c :: rest) = c :: rest := rfl
        rw [hbody] at htag hends
        rw [hcore'] at hcore ⊢
        have hrest : ¬ ((c :: rest ++ [byte '>']).dropWhile isNameByte).dropWhile isTagSpace ≠
            [byte '>'] := fun hne => hcore (if_pos hne)
        rw [if_neg hrest, hf, if_neg htag, hends]
        rw [getLast_of_spaces (not_not.mp hrest)]
  · rintro ⟨hverifier, hformat, hfree⟩
    have htag := hname hformat.symm hcore
    rw [dropLast_drop_bracketed] at htag
    rcases exists_name hcore htag with ⟨b, rest, rfl, hb⟩ | ⟨c, rest, rfl, hc⟩
    · obtain ⟨hc, -, hf⟩ := labels_of_open rest hb
      have hslash := (isNameByte_ne hb).2.2.1
      have hbody : tagBody (b :: rest) = b :: rest := if_neg (by simpa using hslash)
      rw [hbody] at htag
      rw [if_neg htag] at hf
      rw [hc, hf] at hformat
      simp only [Option.some.injEq, Prod.mk.injEq] at hformat
      have heq := hformat.1
      refine ⟨?_, hunbroken.mpr hfree, heq ▸ htag, ?_⟩
      · rw [nameOf, drop_bracketed, tagBody, if_neg (by simpa using hslash)]
        simp [hb]
      · rw [dropLast_drop_bracketed, hbody, heq]
    · obtain ⟨hcore', -, hf⟩ := labels_of_close rest hc
      have hbody : tagBody (byte '/' :: c :: rest) = c :: rest := rfl
      rw [hbody] at htag
      rw [if_neg htag] at hf
      rw [hcore'] at hcore hformat
      have hrest : ¬ ((c :: rest ++ [byte '>']).dropWhile isNameByte).dropWhile isTagSpace ≠
          [byte '>'] := fun hne => hcore (if_pos hne)
      rw [if_neg hrest, hf] at hformat
      simp only [Option.some.injEq, Prod.mk.injEq] at hformat
      have heq := hformat.1
      refine ⟨?_, hunbroken.mpr hfree, heq ▸ htag, ?_⟩
      · rw [nameOf, drop_bracketed, tagBody, if_pos (by rfl)]
        simp [hc]
      · rw [dropLast_drop_bracketed, hbody, heq]

end Names

/-! ## Tokens -/

theorem shape_of_mem : ∀ {fuel : ℕ} {xml token : Bytes},
    token ∈ scanTokens (byte '<') tokenLength fuel xml →
      ∃ rest, token = byte '<' :: rest ∧ tokenLength token = some token.length
  | 0, _, _, h => by simp [scanTokens] at h
  | fuel + 1, xml, token, h => by
    rw [scanTokens] at h
    rcases drop_nil_or_head (byte '<') xml with hnil | ⟨tail, htail⟩
    · simp [hnil] at h
    · simp only [htail, reduceCtorEq, if_false] at h
      cases hn : tokenLength (byte '<' :: tail) with
      | none => simp [hn] at h
      | some n =>
        simp only [hn, mem_cons] at h
        rcases h with rfl | h
        · obtain ⟨hpos, hle⟩ := tokenLength_pos (by simp) hn
          obtain ⟨k, rfl⟩ : ∃ k, n = k + 1 := ⟨n - 1, by omega⟩
          refine ⟨tail.take k, take_succ_cons, ?_⟩
          rw [tokenLength_take hn, length_take_of_le hle]
        · exact shape_of_mem h

section Token

variable {token : Bytes}

theorem isSome_iff_coreLabel : (parseTag token 0 0).isSome ↔ coreLabel token ≠ none := by
  rw [coreLabel, ne_eq, Option.map_eq_none_iff, Option.isSome_iff_ne_none]

/-- A token of Core that is a tag stands between brackets. -/
theorem eq_bracketed (hlength : tokenLength token = some token.length)
    (hhead : token.head? = some (byte '<')) (hcore : coreLabel token ≠ none) :
    (∃ inner, token = bracketed inner) ∧ ¬ bytes "<!--" <+: token ∧
      ¬ bytes "<![CDATA[" <+: token ∧ ¬ bytes "<?" <+: token := by
  have hblock : ¬ (bytes "<!--" <+: token ∨ bytes "<?" <+: token ∨ bytes "<!" <+: token) := by
    intro h
    refine hcore ?_
    rw [coreLabel, parseTag, if_pos h]
    rfl
  simp only [not_or] at hblock
  have hcdata : ¬ bytes "<![CDATA[" <+: token := fun h =>
    hblock.2.2 ((show bytes "<!" <+: bytes "<![CDATA[" by decide).trans h)
  refine ⟨?_, hblock.1, hcdata, hblock.2.1⟩
  rw [tokenLength, if_neg hblock.1, if_neg hcdata, if_neg hblock.2.1] at hlength
  obtain ⟨n, hn, hlen⟩ := Option.map_eq_some_iff.mp hlength
  obtain ⟨i, rfl, tail, htail⟩ := take_scanAngleToken hn
  obtain ⟨rest, rfl⟩ : ∃ rest, token = byte '<' :: rest := by
    cases token with
    | nil => simp at hhead
    | cons b rest => exact ⟨rest, by rw [Option.some.inj hhead]⟩
  simp only [length_cons, drop_succ_cons, drop_zero] at hlen htail
  have hlong := congrArg List.length htail
  simp only [length_append, length_cons, length_nil, length_drop] at hlong
  have hnil : tail = [] := length_eq_zero_iff.mp (by omega)
  refine ⟨rest.take i, ?_⟩
  rw [bracketed, cons_inj_right]
  conv_lhs => rw [← take_append_drop i rest]
  rw [← htail, hnil]
  rfl

theorem tokenWidth_bracketed {inner : Bytes} (hcomment : ¬ bytes "<!--" <+: bracketed inner)
    (hcdata : ¬ bytes "<![CDATA[" <+: bracketed inner)
    (hinstruction : ¬ bytes "<?" <+: bracketed inner) :
    tokenWidth (bracketed inner) = some (bracketed inner).length ↔ byte '>' ∉ inner := by
  have hsplit : bracketed inner = byte '<' :: inner ++ [byte '>'] := rfl
  have hlen : (bracketed inner).length = inner.length + 2 := by
    rw [hsplit, length_append, length_cons]
    rfl
  rw [tokenWidth, if_neg hcomment, if_neg hcdata, if_neg hinstruction, Option.map_eq_some_iff]
  constructor
  · rintro ⟨i, hi, hwidth⟩ hmem
    obtain ⟨before, after, rfl⟩ := append_of_mem hmem
    obtain ⟨-, -, hfirst⟩ := findSub_eq_some_iff.mp hi
    have hlen' : i = before.length + 1 + after.length + 1 := by
      rw [hlen, length_append, length_cons] at hwidth
      omega
    refine hfirst (before.length + 1) (by omega) ⟨after ++ [byte '>'], ?_⟩
    simp [bracketed]
  · intro hfree
    refine ⟨inner.length + 1, ?_, by rw [hlen]⟩
    have hplace : (bracketed inner).drop (inner.length + 1) = [byte '>'] := by
      rw [hsplit, cons_append, drop_succ_cons, drop_left]
    refine findSub_eq_some_iff.mpr ⟨⟨[], by rw [hplace]; rfl⟩, by omega, ?_⟩
    rintro j hj ⟨tail, htail⟩
    have hget : (byte '<' :: inner)[j]? = some (byte '>') := by
      have h0 := congrArg (·[0]?) htail
      simp only [getElem?_drop, Nat.add_zero, hsplit, cons_append, nil_append,
        getElem?_cons_zero] at h0
      rw [← cons_append, getElem?_append_left (by rw [length_cons]; omega)] at h0
      exact h0.symm
    rcases mem_cons.mp (mem_of_getElem? hget) with h | h
    · exact absurd h (by decide)
    · exact hfree h

theorem formatLabel_eq_none : formatLabel token = none ↔ readTag token (0, 0) = none := by
  rw [formatLabel, Option.map_eq_none_iff]

section

variable (hlength : tokenLength token = some token.length)

include hlength

/-- Where the format engine ends a token of Core. -/
theorem tokenWidth_eq (hhead : token.head? = some (byte '<')) :
    tokenWidth token = some (takenOf token) := by
  obtain ⟨rest, rfl⟩ : ∃ rest, token = byte '<' :: rest := by
    cases token with
    | nil => simp at hhead
    | cons b rest => exact ⟨rest, by rw [Option.some.inj hhead]⟩
  obtain ⟨m, hm, -, -⟩ := endsWithin_tokenWidth hlength
  rw [takenOf, hm]
  rfl

/-- The kinds of tokens all three read alike. -/
theorem alikeToken_iff (hhead : token.head? = some (byte '<')) : AlikeToken token ↔
      InStep (byte '<') tokenLength coreLabel verifierLabel token ∧
        InStep (byte '<') tokenWidth coreLabel formatLabel token := by
  have hwidth := tokenWidth_eq hlength hhead
  have hverifier : InStep (byte '<') tokenLength coreLabel verifierLabel token ↔
      coreLabel token = verifierLabel token := by
    rw [InStep]
    simp [hlength]
  have hformat : InStep (byte '<') tokenWidth coreLabel formatLabel token ↔
      coreLabel token = formatLabel (token.take (takenOf token)) ∧
        (coreLabel token ≠ none → takenOf token = token.length) ∧
          byte '<' ∉ token.drop (takenOf token) := by
    rw [InStep]
    simp [hwidth]
  rw [hverifier, hformat, AlikeToken]
  by_cases hcore : coreLabel token = none
  · rw [if_neg (by rw [isSome_iff_coreLabel]; exact not_not.mpr hcore), hcore]
    constructor
    · intro h
      exact ⟨by rw [verifierLabel, h.verifier]; rfl, (formatLabel_eq_none.mpr h.format).symm,
        fun hne => absurd rfl hne, h.rest⟩
    · rintro ⟨hverifier, hformat, -, hrest⟩
      exact ⟨Option.map_eq_none_iff.mp hverifier.symm, formatLabel_eq_none.mp hformat.symm, hrest⟩
  · rw [if_pos (isSome_iff_coreLabel.mpr hcore)]
    obtain ⟨⟨inner, rfl⟩, hcomment, hcdata, hinstruction⟩ := eq_bracketed hlength hhead hcore
    have hwhole : takenOf (bracketed inner) = (bracketed inner).length ↔ byte '>' ∉ inner := by
      rw [← tokenWidth_bracketed hcomment hcdata hinstruction, hwidth, Option.some.injEq]
    rw [plainName_iff hcore]
    constructor
    · rintro ⟨hv, hf, hfree⟩
      have hend := hwhole.mpr hfree
      refine ⟨hv, by rw [hend, take_length, hf], fun _ => hend, ?_⟩
      rw [hend, drop_length]
      exact not_mem_nil
    · rintro ⟨hv, hf, hend, -⟩
      refine ⟨hv, ?_, hwhole.mp (hend hcore)⟩
      rw [hf, hend hcore, take_length]

theorem stray_iff (hhead : token.head? = some (byte '<')) : Stray token ↔
      Astray (byte '<') tokenWidth coreLabel formatLabel token := by
  have hcore : coreLabel token = none ↔ parseTag token 0 0 = none := by
    rw [coreLabel, Option.map_eq_none_iff]
  rw [Stray, Astray, ← hcore, ← formatLabel_eq_none]
  simp [tokenWidth_eq hlength hhead]

end

end Token

/-- **The three scanners return the same tags of a part** if its tokens are read alike, and only
then where no token leads the format engine astray. -/
theorem alikeTags_iff (xml : Bytes) : (AlikeTags xml → SameTags xml) ∧
    (Straight xml → SameTags xml → AlikeTags xml) := by
  have htokens : Verify.tokens xml = scanTokens (byte '<') tokenLength xml.length xml :=
    tokensFrom_eq_scanTokens ..
  have hshape : ∀ token ∈ Verify.tokens xml, tokenLength token = some token.length ∧
      token.head? = some (byte '<') := by
    intro token htoken
    rw [htokens] at htoken
    obtain ⟨rest, rfl, hlength⟩ := shape_of_mem htoken
    exact ⟨hlength, rfl⟩
  have hnone : tokenLength (unended xml) = none := width_scanRest rfl _ _
  rw [sameTags_iff_labels]
  constructor
  · rintro ⟨halike, hend⟩
    have hstep := fun token htoken =>
      (alikeToken_iff (hshape token htoken).1 (hshape token htoken).2).mp (halike token htoken)
    rw [htokens] at hstep
    exact ⟨readScan_eq Verify.measures_tokenLength endsWithin_tokenLength 0 xml
        (fun token htoken => (hstep token htoken).1) hnone,
      readScan_eq Verify.measures_tokenLength endsWithin_tokenWidth 0 xml
        (fun token htoken => (hstep token htoken).2) hend⟩
  · rintro ⟨hstray, hlast⟩ ⟨hverifier, hformat⟩
    have hnever : ∀ token ∈ scanTokens (byte '<') tokenLength xml.length xml,
        ¬ Astray (byte '<') tokenLength coreLabel verifierLabel token := by
      rintro token htoken ⟨m, hm, -, -, hmem⟩
      rw [← htokens] at htoken
      obtain rfl := Option.some.inj (hm.symm.trans (hshape token htoken).1)
      rw [List.drop_length] at hmem
      exact List.not_mem_nil hmem
    have hstray' : ∀ token ∈ scanTokens (byte '<') tokenLength xml.length xml,
        ¬ Astray (byte '<') tokenWidth coreLabel formatLabel token := by
      intro token htoken
      rw [← htokens] at htoken
      exact fun h => hstray token htoken
        ((stray_iff (hshape token htoken).1 (hshape token htoken).2).mpr h)
    have hlast' : ∀ m, tokenWidth (unended xml) = some m →
        formatLabel ((unended xml).take m) ≠ none := by
      intro m hm hlabel
      refine hlast (by simp [hm]) ?_
      rw [takenOf, hm]
      exact formatLabel_eq_none.mp hlabel
    obtain ⟨hinVerifier, -⟩ := inStep_of_readScan_eq Verify.measures_tokenLength
      Verify.measures_tokenLength endsWithin_tokenLength rfl 0 xml hnever
      (fun m hm => absurd (hnone.symm.trans hm) (by simp)) hverifier
    obtain ⟨hinFormat, hend⟩ := inStep_of_readScan_eq Verify.measures_tokenLength
      measures_tokenWidth endsWithin_tokenWidth rfl 0 xml hstray' hlast' hformat
    refine ⟨fun token htoken => ?_, hend⟩
    refine (alikeToken_iff (hshape token htoken).1 (hshape token htoken).2).mpr ?_
    rw [htokens] at htoken
    exact ⟨hinVerifier token htoken, hinFormat token htoken⟩

example : AlikeTags (bytes "<?x y?><w:p a='1'><!-- < --><w:r/><![CDATA[<]]></w:p>") := by
  decide +kernel

/-- A `>` in a value ends the tag for the format engine only. -/
theorem not_sameTags_quoted : ¬ SameTags (bytes "<a b=\">\"/>") := by decide +kernel

end Docx2Typed.Format
