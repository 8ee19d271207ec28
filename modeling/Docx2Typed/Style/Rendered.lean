import Docx2Typed.Style.Rebuilt

/-!
# The tags the override lane writes

The end tag of a rebuilt fragment and the empty elements put into it are tags of the names they are
written with, and the attributes of such an element read back.
-/

namespace Docx2Typed

open Library List
open Library.Utf8 (decodeLossy)

/-! ## Names -/

def NameBytes (name : Bytes) : Prop := ∀ b ∈ name, isNameByte b = true

theorem NameBytes.append {a b : Bytes} (ha : NameBytes a) (hb : NameBytes b) : NameBytes (a ++ b) :=
  forall_mem_append.mpr ⟨ha, hb⟩

theorem encode_ascii : ∀ n : Fin 128,
    String.utf8EncodeChar (Char.ofNat n) = [UInt8.ofNat n] := by
  decide

variable {b : UInt8}

theorem isNameByte_lt (h : isNameByte b = true) : b.toNat < 128 := by
  simp only [isNameByte, isAsciiAlphabetic, isAsciiDigit, Bool.or_eq_true, Bool.and_eq_true,
    decide_eq_true_eq, beq_iff_eq, UInt8.le_iff_toNat_le] at h
  have hz : (byte 'z').toNat = 122 := by decide
  have hZ : (byte 'Z').toNat = 90 := by decide
  have h9 : (byte '9').toNat = 57 := by decide
  rcases h with ((((((h | h) | h) | h) | h) | h) | h)
  · omega
  · omega
  · omega
  all_goals
    rw [h]
    decide

variable {name : Bytes}

theorem utf8_asciiString (h : NameBytes name) : utf8 (asciiString name).toList = name := by
  rw [asciiString, String.toList_ofList]
  induction name with
  | nil => rfl
  | cons b name ih =>
    have hb : b.toNat < 128 := isNameByte_lt (h b mem_cons_self)
    have hencode := encode_ascii ⟨b.toNat, hb⟩
    simp only [UInt8.ofNat_toNat] at hencode
    have hrest := ih fun c hc => h c (mem_cons_of_mem b hc)
    show Library.Utf8.encode (Char.ofNat b.toNat :: name.map fun b => Char.ofNat b.toNat) =
      b :: name
    rw [Library.Utf8.encode_cons, hencode]
    exact congrArg (List.cons b) hrest

/-- The name of a tag, as the bytes it is written with. -/
theorem exists_nameBytes {token : Bytes} {start stop : Nat} {tag : Tag}
    (h : parseTag token start stop = some tag) :
    ∃ name, name ≠ [] ∧ NameBytes name ∧ tag.rawName = asciiString name := by
  have htake : ∀ l : Bytes, NameBytes (l.takeWhile isNameByte) := fun l b hb => by
    simpa using mem_takeWhile_imp hb
  dsimp only [parseTag] at h
  split_ifs at h with _ _ hempty _ hempty'
  · rw [← Option.some.inj h]
    exact ⟨_, hempty, htake _, rfl⟩
  · rw [← Option.some.inj h]
    exact ⟨_, hempty', htake _, rfl⟩

/-! ## Tokens -/

/-- Nothing in the bytes ends a tag or begins a quoted value. -/
def PlainInTag (l : Bytes) : Prop := ∀ b ∈ l, b ≠ byte '"' ∧ b ≠ byte '\x27' ∧ b ≠ byte '>'

theorem scanAngleToken_plain {l : Bytes} (h : PlainInTag l) (rest : Bytes) :
    scanAngleToken none (l ++ rest) = (scanAngleToken none rest).map (· + l.length) := by
  induction l with
  | nil => simp
  | cons b l ih =>
    obtain ⟨hdouble, hsingle, hend⟩ := h b mem_cons_self
    rw [cons_append, scanAngleToken, if_neg (by simp [hdouble, hsingle]), if_neg hend,
      ih fun c hc => h c (mem_cons_of_mem b hc), Option.map_map]
    rfl

theorem scanAngleToken_quoted {quote : UInt8} {l : Bytes} (h : quote ∉ l) (rest : Bytes) :
    scanAngleToken (some quote) (l ++ quote :: rest) =
      (scanAngleToken none rest).map (· + (l.length + 1)) := by
  induction l with
  | nil => simp [scanAngleToken]
  | cons b l ih =>
    rw [mem_cons, not_or] at h
    rw [cons_append, scanAngleToken, if_neg (Ne.symm h.1), ih h.2, Option.map_map]
    rfl

theorem second_ne {b c : UInt8} {l rest : Bytes} (h : c ≠ b) :
    ¬ (byte '<' :: c :: l) <+: byte '<' :: b :: rest := by
  intro hspecial
  rw [cons_prefix_cons, cons_prefix_cons] at hspecial
  exact h hspecial.2.1

theorem isToken_of_scan {rest : Bytes} (hfirst : b ≠ byte '!') (hsecond : b ≠ byte '?')
    (h : scanAngleToken none (b :: rest) = some (rest.length + 1)) :
    IsToken (byte '<' :: b :: rest) := by
  refine ⟨rfl, ?_⟩
  have hcomment : bytes "<!--" = byte '<' :: byte '!' :: [byte '-', byte '-'] := by decide
  have hcdata : bytes "<![CDATA[" = byte '<' :: byte '!' ::
      [byte '[', byte 'C', byte 'D', byte 'A', byte 'T', byte 'A', byte '['] := by decide
  have hinstruction : bytes "<?" = byte '<' :: byte '?' :: [] := by decide
  rw [tokenLength, hcomment, hcdata, hinstruction, if_neg (second_ne (Ne.symm hfirst)),
    if_neg (second_ne (Ne.symm hfirst)), if_neg (second_ne (Ne.symm hsecond))]
  rw [drop_succ_cons, drop_zero, h]
  rfl

theorem NameBytes.plain (h : NameBytes name) : PlainInTag name := by
  intro b hb
  have hname := h b hb
  refine ⟨?_, ?_, ?_⟩
  all_goals
    rintro rfl
    exact absurd hname (by decide)

theorem PlainInTag.append {a b : Bytes} (ha : PlainInTag a) (hb : PlainInTag b) :
    PlainInTag (a ++ b) := forall_mem_append.mpr ⟨ha, hb⟩

theorem takeWhile_name (h : NameBytes name) (hb : isNameByte b = false) (rest : Bytes) :
    (name ++ b :: rest).takeWhile isNameByte = name := by
  rw [takeWhile_append_of_pos h, takeWhile_cons_of_neg (by simp [hb]), append_nil]

theorem dropWhile_name (h : NameBytes name) (hb : isNameByte b = false) (rest : Bytes) :
    (name ++ b :: rest).dropWhile isNameByte = b :: rest := by
  rw [dropWhile_append_of_pos h, dropWhile_cons_of_neg (by simp [hb])]

/-- A name byte neither is white space nor selects another kind of token. -/
theorem isNameByte_ne (h : isNameByte b = true) :
    isTagSpace b = false ∧ b ≠ byte '!' ∧ b ≠ byte '?' ∧ b ≠ byte '/' := by
  refine ⟨?_, ?_, ?_, ?_⟩
  · rw [Bool.eq_false_iff]
    intro hspace
    simp only [isTagSpace, Bool.or_eq_true, beq_iff_eq] at hspace
    rcases hspace with ((rfl | rfl) | rfl) | rfl
    all_goals exact absurd h (by decide)
  all_goals
    rintro rfl
    exact absurd h (by decide)

theorem not_special {rest : Bytes} (hfirst : b ≠ byte '!') (hsecond : b ≠ byte '?') :
    ¬ (bytes "<!--" <+: byte '<' :: b :: rest ∨ bytes "<?" <+: byte '<' :: b :: rest ∨
      bytes "<!" <+: byte '<' :: b :: rest) := by
  rintro (hspecial | hspecial | hspecial)
  · exact second_ne (Ne.symm hfirst)
      (show byte '<' :: byte '!' :: [byte '-', byte '-'] <+: _ from hspecial)
  · exact second_ne (Ne.symm hsecond) (show byte '<' :: byte '?' :: [] <+: _ from hspecial)
  · exact second_ne (Ne.symm hfirst) (show byte '<' :: byte '!' :: [] <+: _ from hspecial)

/-- `</name>`. -/
def endTag (name : Bytes) : Bytes := byte '<' :: byte '/' :: (name ++ [byte '>'])

theorem isToken_endTag (h : NameBytes name) : IsToken (endTag name) := by
  refine isToken_of_scan (by decide) (by decide) ?_
  have hplain : PlainInTag (byte '/' :: name) := by
    refine forall_mem_cons.mpr ⟨by decide, h.plain⟩
  have hscan := scanAngleToken_plain hplain [byte '>']
  rw [cons_append] at hscan
  have hlast : scanAngleToken none [byte '>'] = some 1 := by decide
  rw [hscan, hlast]
  simp [Nat.add_comm]

theorem tokenTag_endTag (h : NameBytes name) (hne : name ≠ []) :
    tokenTag (endTag name) = some
      { name := localName (asciiString name), rawName := asciiString name, closing := true
        selfClosing := false, start := 0, stop := 0 } := by
  obtain ⟨b, rest, rfl⟩ := exists_cons_of_ne_nil hne
  obtain ⟨hspace, -, -, -⟩ := isNameByte_ne (h b mem_cons_self)
  have hcomment : ¬ (bytes "<!--" <+: endTag (b :: rest) ∨ bytes "<?" <+: endTag (b :: rest) ∨
      bytes "<!" <+: endTag (b :: rest)) := not_special (by decide) (by decide)
  have hbody : ((endTag (b :: rest)).drop 1).dropWhile isTagSpace =
      byte '/' :: ((b :: rest) ++ [byte '>']) := by
    rw [endTag, drop_succ_cons, drop_zero]
    exact dropWhile_cons_of_neg (by decide)
  have hafter : (((byte '/' :: ((b :: rest) ++ [byte '>'])).drop 1).dropWhile isTagSpace) =
      (b :: rest) ++ [byte '>'] := by
    rw [drop_succ_cons, drop_zero, cons_append]
    exact dropWhile_cons_of_neg (by simp [hspace])
  rw [tokenTag, parseTag, if_neg hcomment]
  dsimp only
  rw [hbody, if_pos (by rfl), hafter, takeWhile_name h (by decide), dropWhile_name h (by decide),
    if_neg (by simp), if_neg]
  decide

/-! ## Empty elements -/

/-- At most one attribute, with a value of name bytes. -/
inductive PlainAttributes : List (Bytes × Bytes) → Prop where
  | none : PlainAttributes []
  | one {key value : Bytes} (hkey : NameBytes key) (hne : key ≠ []) (hvalue : NameBytes value) :
      PlainAttributes [(key, value)]

def attributeBytes (attributes : List (Bytes × Bytes)) : Bytes :=
  attributes.flatMap fun entry =>
    byte ' ' :: (entry.1 ++ byte '=' :: byte '"' :: (entry.2 ++ [byte '"']))

/-- `<name key="value"/>`. -/
def emptyTag (name : Bytes) (attributes : List (Bytes × Bytes)) : Bytes :=
  byte '<' :: (name ++ (attributeBytes attributes ++ [byte '/', byte '>']))

variable {attributes : List (Bytes × Bytes)}

theorem scan_emptyTag (h : NameBytes name) (hattributes : PlainAttributes attributes) :
    scanAngleToken none (name ++ (attributeBytes attributes ++ [byte '/', byte '>'])) =
      some (name ++ (attributeBytes attributes ++ [byte '/', byte '>'])).length := by
  have hend : scanAngleToken none [byte '/', byte '>'] = some 2 := by decide
  rw [scanAngleToken_plain h.plain]
  cases hattributes with
  | none =>
    rw [show attributeBytes [] ++ [byte '/', byte '>'] = [byte '/', byte '>'] from rfl, hend]
    simp [Nat.add_comm]
  | @one key value hkey hne hvalue =>
    have hplain : PlainInTag (byte ' ' :: (key ++ [byte '='])) :=
      forall_mem_cons.mpr ⟨by decide, hkey.plain.append (by
        intro b hb
        obtain rfl := mem_singleton.mp hb
        decide)⟩
    have hquote : byte '"' ∉ value := fun hmem => (hvalue.plain _ hmem).1 rfl
    have hshape : attributeBytes [(key, value)] ++ [byte '/', byte '>'] =
        (byte ' ' :: (key ++ [byte '='])) ++
          (byte '"' :: (value ++ byte '"' :: [byte '/', byte '>'])) := by
      simp [attributeBytes]
    have hopen : scanAngleToken none (byte '"' :: (value ++ byte '"' :: [byte '/', byte '>'])) =
        (scanAngleToken (some (byte '"'))
          (value ++ byte '"' :: [byte '/', byte '>'])).map (· + 1) := by
      rw [scanAngleToken, if_pos (.inl rfl)]
    rw [hshape, scanAngleToken_plain hplain, hopen, scanAngleToken_quoted hquote, hend]
    simp only [Option.map_some, length_append, length_cons, length_nil]
    congr 1
    omega

theorem isToken_emptyTag (h : NameBytes name) (hne : name ≠ [])
    (hattributes : PlainAttributes attributes) : IsToken (emptyTag name attributes) := by
  have hscan := scan_emptyTag h hattributes
  obtain ⟨b, rest, rfl⟩ := exists_cons_of_ne_nil hne
  obtain ⟨-, hfirst, hsecond, -⟩ := isNameByte_ne (h b mem_cons_self)
  exact isToken_of_scan hfirst hsecond hscan

/-- Behind the name there is white space or the slash. -/
theorem exists_after_name (hattributes : PlainAttributes attributes) :
    ∃ b rest, attributeBytes attributes ++ [byte '/', byte '>'] = b :: rest ∧
      isNameByte b = false ∧ (isAsciiWhitespace b || b == byte '/' || b == byte '>') = true := by
  cases hattributes with
  | none => exact ⟨byte '/', [byte '>'], rfl, by decide, by decide⟩
  | one => exact ⟨byte ' ', _, rfl, by decide, by decide⟩

theorem tokenTag_emptyTag (h : NameBytes name) (hne : name ≠ [])
    (hattributes : PlainAttributes attributes) :
    tokenTag (emptyTag name attributes) = some
      { name := localName (asciiString name), rawName := asciiString name, closing := false
        selfClosing := true, start := 0, stop := 0 } := by
  obtain ⟨c, after, hafter, hc, -⟩ := exists_after_name hattributes
  obtain ⟨b, rest, rfl⟩ := exists_cons_of_ne_nil hne
  obtain ⟨hspace, hfirst, hsecond, hslash⟩ := isNameByte_ne (h b mem_cons_self)
  have hcomment : ¬ (bytes "<!--" <+: emptyTag (b :: rest) attributes ∨
      bytes "<?" <+: emptyTag (b :: rest) attributes ∨
      bytes "<!" <+: emptyTag (b :: rest) attributes) := not_special hfirst hsecond
  have hbody : ((emptyTag (b :: rest) attributes).drop 1).dropWhile isTagSpace =
      (b :: rest) ++ c :: after := by
    rw [emptyTag, hafter, drop_succ_cons, drop_zero, cons_append]
    exact dropWhile_cons_of_neg (by simp [hspace])
  have hself : bytes "/>" <:+ emptyTag (b :: rest) attributes :=
    ⟨byte '<' :: ((b :: rest) ++ attributeBytes attributes), by
      simp only [emptyTag, cons_append, append_assoc]
      rfl⟩
  rw [tokenTag, parseTag, if_neg hcomment]
  dsimp only
  rw [hbody, if_neg (by simpa using hslash), takeWhile_name h hc, if_neg (by simp)]
  simp [hself]

theorem isElement_emptyTag (h : NameBytes name) (hne : name ≠ [])
    (hattributes : PlainAttributes attributes) :
    IsElement (emptyTag name attributes) (localName (asciiString name)) true :=
  isElement_token (isToken_emptyTag h hne hattributes) (tokenTag_emptyTag h hne hattributes) rfl

theorem decodeLossy_name (h : NameBytes name) : decodeLossy name = (asciiString name).toList := by
  conv_lhs => rw [← utf8_asciiString h]
  exact Library.Utf8.decodeLossy_encode _

theorem not_whitespace_of_name (h : isNameByte b = true) : isAsciiWhitespace b = false := by
  have hfeed : b ≠ 12 := by
    rintro rfl
    exact absurd h (by decide)
  simp [isAsciiWhitespace, (isNameByte_ne h).1, hfeed]

theorem tagAttributePairsFrom_end (fuel : Nat) :
    tagAttributePairsFrom fuel [byte '/', byte '>'] = [] := by
  cases fuel with
  | zero => rfl
  | succ fuel => rfl

/-- One attribute, and what follows it. -/
theorem tagAttributePairsFrom_one {key value rest : Bytes} (hkey : NameBytes key) (hne : key ≠ [])
    (hvalue : NameBytes value) (fuel : Nat) :
    tagAttributePairsFrom (fuel + 1)
        (byte ' ' :: (key ++ byte '=' :: byte '"' :: (value ++ byte '"' :: rest))) =
      (localName (asciiString key), (asciiString value).toList) ::
        tagAttributePairsFrom fuel rest := by
  obtain ⟨b, key, rfl⟩ := exists_cons_of_ne_nil hne
  have hb := hkey b mem_cons_self
  have hspace : (byte ' ' ::
        ((b :: key) ++ byte '=' :: byte '"' :: (value ++ byte '"' :: rest))).dropWhile
      isAsciiWhitespace = (b :: key) ++ byte '=' :: byte '"' :: (value ++ byte '"' :: rest) := by
    rw [dropWhile_cons_of_pos (by decide), cons_append]
    exact dropWhile_cons_of_neg (by simp [not_whitespace_of_name hb])
  have hname : ∀ c ∈ b :: key, (c != byte '=' && !isAsciiWhitespace c) = true := by
    intro c hc
    have hequals : c ≠ byte '=' := by
      rintro rfl
      exact absurd (hkey _ hc) (by decide)
    simp [not_whitespace_of_name (hkey c hc), hequals]
  have hvalues : ∀ c ∈ value, (c != byte '"') = true := by
    intro c hc
    simpa using (hvalue.plain c hc).1
  rw [tagAttributePairsFrom]
  dsimp only
  rw [hspace, if_neg (by simp [(isNameByte_ne hb).2.2.2, (hkey.plain b mem_cons_self).2.2]),
    takeWhile_append_of_pos hname, dropWhile_append_of_pos hname,
    takeWhile_cons_of_neg (by decide), dropWhile_cons_of_neg (by decide),
    append_nil, dropWhile_cons_of_neg (by decide), if_neg (by simp), drop_succ_cons,
    drop_zero, dropWhile_cons_of_neg (by decide)]
  dsimp only
  rw [if_neg (by decide), takeWhile_append_of_pos hvalues,
    dropWhile_append_of_pos hvalues,
    takeWhile_cons_of_neg (by decide), dropWhile_cons_of_neg (by decide), append_nil,
    decodeLossy_name hkey, decodeLossy_name hvalue, String.ofList_toList, drop_succ_cons,
    drop_zero]

/-- The attributes of an empty element read back, by their local names. -/
theorem tagAttributePairs_emptyTag (h : NameBytes name) (hattributes : PlainAttributes attributes) :
    tagAttributePairs (emptyTag name attributes) = attributes.map fun entry =>
      (localName (asciiString entry.1), (asciiString entry.2).toList) := by
  have hname : ∀ b ∈ name, (!(isAsciiWhitespace b || b == byte '/' || b == byte '>')) = true := by
    intro b hb
    obtain ⟨-, -, -, hslash⟩ := isNameByte_ne (h b hb)
    have hend := (h.plain b hb).2.2
    simp [not_whitespace_of_name (h b hb), hslash, hend]
  rw [tagAttributePairs, emptyTag, drop_succ_cons, drop_zero,
    dropWhile_append_of_pos hname]
  cases hattributes with
  | none => rfl
  | @one key value hkey hne hvalue =>
    have hshape : attributeBytes [(key, value)] ++ [byte '/', byte '>'] =
        byte ' ' ::
          (key ++ byte '=' :: byte '"' :: (value ++ byte '"' :: [byte '/', byte '>'])) := by
      simp [attributeBytes]
    rw [hshape, dropWhile_cons_of_neg (by decide),
      if_neg (by simp only [head?_cons, Option.some.injEq]; decide), length_cons,
      tagAttributePairsFrom_one hkey hne hvalue, tagAttributePairsFrom_end]
    rfl

/-! ## What an override asks for -/

def propertyNames : List String := ["b", "i", "vertAlign"]

def propertyValues : List Text := ["0".toList, "superscript".toList, "subscript".toList]

/-- The requests that `readOverride` makes. -/
inductive Override.Sound : Override → Prop where
  | clear : Sound (.clear "vertAlign")
  | plain {name : String} (h : name ∈ propertyNames) : Sound (.place name [])
  | valued {name : String} {value : Text} (h : name ∈ propertyNames)
      (hvalue : value ∈ propertyValues) : Sound (.place name [("val", value)])

theorem sound_of_readOverride {texts : QuoteTexts} {key : String} {value : AttributeValue}
    {request : Override} (h : readOverride texts key value = .ok request) : request.Sound := by
  have htoggle : ∀ {key name : String}, name ∈ propertyNames →
      readToggle texts key name value = .ok request → request.Sound := by
    intro key name hname h
    cases value with
    | bool enabled =>
      rw [readToggle] at h
      obtain rfl := Except.ok.inj h
      cases enabled with
      | true => exact .plain hname
      | false => exact .valued hname (by decide)
    | null => exact absurd h refuse_ne_ok
    | string value => exact absurd h refuse_ne_ok
    | other => exact absurd h refuse_ne_ok
  rw [readOverride] at h
  split at h
  · cases value with
    | null =>
      obtain rfl := Except.ok.inj h
      exact .clear
    | string value =>
      rw [readVertAlign] at h
      split at h
      · obtain rfl := Except.ok.inj h
        exact .clear
      split at h
      next halign =>
        obtain rfl := Except.ok.inj h
        rcases halign with rfl | rfl
        · exact .valued (by decide) (by decide)
        · exact .valued (by decide) (by decide)
      next => exact absurd h refuse_ne_ok
    | bool value => exact absurd h refuse_ne_ok
    | other => exact absurd h refuse_ne_ok
  split at h
  · exact htoggle (by decide) h
  split at h
  · exact htoggle (by decide) h
  · exact absurd h refuse_ne_ok

theorem utf8_append (a b : Text) : utf8 (a ++ b) = utf8 a ++ utf8 b := flatMap_append

/-- A name without a colon behind one that ends in a colon. -/
theorem localName_qualified {q n : Text} (hq : q = [] ∨ q.getLast? = some ':') (hn : ':' ∉ n) :
    localName (String.ofList (q ++ n)) = String.ofList n := by
  have htake : ∀ c ∈ n.reverse, (c != ':') = true := by
    intro c hc
    rw [mem_reverse] at hc
    have hne : c ≠ ':' := by
      rintro rfl
      exact hn hc
    simpa using hne
  rw [localName, String.toList_ofList, reverse_append, takeWhile_append_of_pos htake]
  have hstop : q.reverse.takeWhile (· != ':') = [] := by
    rcases hq with rfl | hq
    · rfl
    · rw [← head?_reverse] at hq
      obtain ⟨rest, hrest⟩ : ∃ rest, q.reverse = ':' :: rest := by
        cases hreverse : q.reverse with
        | nil => simp [hreverse] at hq
        | cons c rest =>
          rw [hreverse, head?_cons] at hq
          exact ⟨rest, by rw [Option.some.inj hq]⟩
      rw [hrest, takeWhile_cons_of_neg (by simp)]
  rw [hstop, append_nil, reverse_reverse]

/-- The prefix a fragment writes consists of name bytes, and is empty or ends in a colon. -/
theorem RprFragment.qualifier_bytes {f : RprFragment} (hname : NameBytes name)
    (hraw : f.root.rawName = asciiString name) :
    ∃ q, NameBytes q ∧ f.qualifier = (asciiString q).toList ∧
      (f.qualifier = [] ∨ f.qualifier.getLast? = some ':') := by
  rw [RprFragment.qualifier, hraw]
  split
  next hcolon =>
    have hspecial : (asciiString name).toList.takeWhile (· != ':') ++ [':'] <+:
        (asciiString name).toList := by
      obtain ⟨rest, hrest⟩ : ∃ rest,
          (asciiString name).toList.dropWhile (· != ':') = ':' :: rest := by
        cases hdrop : (asciiString name).toList.dropWhile (· != ':') with
        | nil =>
          rw [dropWhile_eq_nil_iff] at hdrop
          exact absurd (hdrop _ hcolon) (by simp)
        | cons c rest =>
          have hhead := head_dropWhile_not (· != ':') (l := (asciiString name).toList)
            (by simp [hdrop])
          simp only [hdrop, head_cons] at hhead
          exact ⟨rest, by simpa using hhead⟩
      refine ⟨rest, ?_⟩
      rw [append_assoc, singleton_append, ← hrest, takeWhile_append_dropWhile]
    obtain ⟨n, hn⟩ : ∃ n, (asciiString name).toList.takeWhile (· != ':') ++ [':'] =
        (asciiString name).toList.take n := ⟨_, prefix_iff_eq_take.mp hspecial⟩
    refine ⟨name.take n, fun b hb => hname b (mem_of_mem_take hb), ?_, .inr (by simp)⟩
    rw [hn, asciiString, asciiString, String.toList_ofList, String.toList_ofList, map_take]
  next =>
    exact ⟨[], by simp [NameBytes], rfl, .inl rfl⟩

theorem propertyNames_bytes : ∀ name ∈ propertyNames,
    (utf8 name.toList).all isNameByte = true ∧ utf8 name.toList ≠ [] ∧ ':' ∉ name.toList ∧
      asciiString (utf8 name.toList) = name := by
  decide

theorem propertyValues_bytes : ∀ value ∈ propertyValues,
    (utf8 value).all isNameByte = true ∧ (asciiString (utf8 value)).toList = value ∧
      xmlAttr value = value := by
  decide

/-- The element put in is one of the name asked for, with the attributes asked for. -/
theorem reads_rendered {f : RprFragment} {raw : Bytes} (hraw : NameBytes raw)
    (hroot : f.root.rawName = asciiString raw) {name : String} {attributes : List (String × Text)}
    (h : (Override.place name attributes).Sound) :
    IsElement (renderEmptyElement f.qualifier name attributes) name true ∧
      tagAttributePairs (renderEmptyElement f.qualifier name attributes) = attributes := by
  obtain ⟨q, hq, hqualifier, hcolon⟩ := f.qualifier_bytes hraw hroot
  have hqbytes : utf8 f.qualifier = q := by
    rw [hqualifier]
    exact utf8_asciiString hq
  have hlocal : ∀ {n : Text} {bytes : Bytes}, ':' ∉ n → utf8 n = bytes → NameBytes bytes →
      localName (asciiString (q ++ bytes)) = String.ofList n := by
    intro n bytes hn hbytes hname
    have htext : (asciiString (q ++ bytes)) = String.ofList (f.qualifier ++ n) := by
      have hboth : (asciiString bytes).toList = n := by
        refine Library.Utf8.encode_injective ?_
        exact (utf8_asciiString hname).trans hbytes.symm
      rw [hqualifier, ← hboth, asciiString, asciiString, asciiString, String.toList_ofList,
        String.toList_ofList, map_append]
    rw [htext, localName_qualified hcolon hn]
  have hnameOf : name ∈ propertyNames := by
    cases h with
    | plain h => exact h
    | valued h _ => exact h
  obtain ⟨hall, hne, hnocolon, hascii⟩ := propertyNames_bytes name hnameOf
  have hname : NameBytes (utf8 name.toList) := all_eq_true.mp hall
  have hfull : NameBytes (q ++ utf8 name.toList) := hq.append hname
  have hfullne : q ++ utf8 name.toList ≠ [] := by simp [hne]
  have hlocalName : localName (asciiString (q ++ utf8 name.toList)) = name := by
    rw [hlocal hnocolon rfl hname, String.ofList_toList]
  cases h with
  | plain _ =>
    have hbytes : renderEmptyElement f.qualifier name [] = emptyTag (q ++ utf8 name.toList) [] := by
      rw [renderEmptyElement, flatMap_nil]
      simp only [utf8_append, hqbytes, emptyTag, attributeBytes, flatMap_nil,
        append_assoc, nil_append]
      rfl
    rw [hbytes]
    refine ⟨?_, tagAttributePairs_emptyTag hfull .none⟩
    have helement := isElement_emptyTag hfull hfullne .none
    rwa [hlocalName] at helement
  | @valued _ value _ hvalue =>
    obtain ⟨hvall, hvascii, hvattr⟩ := propertyValues_bytes value hvalue
    have hvbytes : NameBytes (utf8 value) := all_eq_true.mp hvall
    have hval : NameBytes (bytes "val") :=
      all_eq_true.mp (show (bytes "val").all isNameByte = true by decide)
    have hattributes : PlainAttributes [(q ++ bytes "val", utf8 value)] :=
      .one (hq.append hval) (append_ne_nil_of_right_ne_nil q (by decide)) hvbytes
    have hpunctuation : utf8 ['<'] = [byte '<'] ∧ utf8 [' '] = [byte ' '] ∧
        utf8 ['=', '"'] = [byte '=', byte '"'] ∧ utf8 ['"'] = [byte '"'] ∧
        utf8 ['/', '>'] = [byte '/', byte '>'] := by
      decide
    have hbytes : renderEmptyElement f.qualifier name [("val", value)] =
        emptyTag (q ++ utf8 name.toList) [(q ++ bytes "val", utf8 value)] := by
      obtain ⟨h₁, h₂, h₃, h₄, h₅⟩ := hpunctuation
      rw [renderEmptyElement, flatMap_singleton, hvattr]
      simp only [utf8_append, hqbytes, h₁, h₂, h₃, h₄, h₅]
      simp [emptyTag, attributeBytes, bytes]
    rw [hbytes]
    refine ⟨?_, ?_⟩
    · have helement := isElement_emptyTag hfull hfullne hattributes
      rwa [hlocalName] at helement
    · have hkey : localName (asciiString (q ++ bytes "val")) = "val" :=
        (hlocal (n := "val".toList) (by decide) rfl hval).trans String.ofList_toList
      rw [tagAttributePairs_emptyTag hfull hattributes, map_singleton, hkey, hvascii]

end Docx2Typed
