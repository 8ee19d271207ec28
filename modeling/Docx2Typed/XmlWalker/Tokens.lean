import Docx2Typed.Library.Skipping
import Docx2Typed.Prose.Text
import Docx2Typed.XmlWalker.Compose

/-!
# Tags as they are written

A pass that copies some of the tags of a part and leaves others out moves them all.  What stays is
the bytes a tag is written with, so here a part is read as the list of these.
-/

namespace Docx2Typed

open Library List

/-! ## A tag apart from its place -/

/-- Where a token stands does not change what tag it is. -/
theorem parseTag_at (token : Bytes) (start stop start' stop' : Nat) :
    parseTag token start' stop' =
      (parseTag token start stop).map fun tag => { tag with start := start', stop := stop' } := by
  dsimp only [parseTag]
  split_ifs
  · rfl
  · rfl
  · rfl
  · rfl
  · rfl
  · rfl

def Tag.moved (k : Nat) (tag : Tag) : Tag := { tag with start := k + tag.start, stop := k + tag.stop }

theorem parseTag_moved (token : Bytes) (k start stop : Nat) :
    parseTag token (k + start) (k + stop) = (parseTag token start stop).map (Tag.moved k) := by
  rw [parseTag_at token start stop]
  refine Option.map_congr fun tag htag => ?_
  obtain ⟨hstart, hstop⟩ := parseTag_position htag
  rw [Tag.moved, hstart, hstop]

theorem scanAt_moved (k offset : Nat) (xml : Bytes) :
    scanAt (k + offset) xml = (scanAt offset xml).map (Tag.moved k) := by
  induction hlen : xml.length using Nat.strong_induction_on generalizing xml offset with
  | _ n ih =>
    subst hlen
    rw [scanAt_eq, scanAt_eq offset]
    by_cases hrest : xml.dropWhile (· != byte '<') = []
    · rw [if_pos hrest, if_pos hrest, map_nil]
    rw [if_neg hrest, if_neg hrest]
    cases htoken : tokenLength (xml.dropWhile (· != byte '<')) with
    | none => rfl
    | some n =>
      have hpos := tokenLength_pos hrest htoken
      have hle := (dropWhile_suffix (l := xml) (· != byte '<')).length_le
      have hlt : ((xml.dropWhile (· != byte '<')).drop n).length < xml.length := by
        rw [length_drop]
        omega
      have hassoc : ∀ i : Nat, k + offset + i = k + (offset + i) := fun i => Nat.add_assoc ..
      simp only [map_append, hassoc, Nat.add_assoc k, parseTag_moved, ih _ hlt _ _ rfl]
      cases parseTag ((xml.dropWhile (· != byte '<')).take n)
          (offset + (xml.takeWhile (· != byte '<')).length)
          (offset + (xml.takeWhile (· != byte '<')).length + n) with
      | none => rfl
      | some tag => rfl

/-! ## The tokens of a part -/

/-- Every tag of a part as it is written (`Tag::bytes`). -/
def tagTokens (xml : Bytes) : List Bytes :=
  (scanTags xml).map fun tag => slice xml tag.start tag.stop

theorem map_slice_scanAt (a b : Bytes) :
    (scanAt a.length b).map (fun tag => slice (a ++ b) tag.start tag.stop) = tagTokens b := by
  rw [show a.length = a.length + 0 from rfl, scanAt_moved, map_map, tagTokens]
  refine map_congr_left fun tag _ => ?_
  exact slice_append_right a b tag.start tag.stop

/-- Complete pieces have their own tags. -/
theorem tagTokens_append {a : Bytes} (ha : Complete a) (b : Bytes) :
    tagTokens (a ++ b) = tagTokens a ++ tagTokens b := by
  rw [tagTokens, scanTags_eq_scanAt, ha b 0, map_append, Nat.zero_add, map_slice_scanAt]
  congr 1
  refine map_congr_left fun tag htag => ?_
  have hinside := (scanAt_ordered 0 a).2 tag htag
  exact slice_append_left a b (by omega)

theorem tagTokens_of_scanAt_nil {gap : Bytes} {offset : Nat} (h : scanAt offset gap = []) :
    tagTokens gap = [] := by
  have hmoved := scanAt_moved offset 0 gap
  rw [Nat.add_zero, h] at hmoved
  rw [tagTokens, scanTags_eq_scanAt, map_eq_nil_iff.mp hmoved.symm, map_nil]

/-- The tag a token is, taken to stand nowhere. -/
def tokenTag (token : Bytes) : Option Tag := parseTag token 0 0

variable {start stop : Nat} {tag : Tag} {token : Bytes}

theorem tokenTag_of_parseTag (h : parseTag token start stop = some tag) :
    tokenTag token = some { tag with start := 0, stop := 0 } := by
  rw [tokenTag, parseTag_at token start stop, h]
  rfl

theorem tagTokens_token (h : IsToken token) (htag : tokenTag token = some tag) :
    tagTokens token = [token] := by
  rw [tagTokens, scanTags_eq_scanAt, h.scanAt, parseTag_at token 0 0]
  rw [tokenTag] at htag
  rw [htag, Option.map_some, Option.toList_some, map_singleton, Nat.zero_add, slice,
    take_length, drop_zero]

/-! ## Brackets -/

/-- What a token does to the open elements; the names as they are written have to match. -/
def tokenBracket (token : Bytes) : Bracket String :=
  match tokenTag token with
  | none => .single
  | some tag =>
    if tag.closing then .closes tag.rawName
    else if tag.selfClosing then .single
    else .opens tag.rawName

/-- The local name of an element. -/
def tokenName (token : Bytes) : Option String := (tokenTag token).map (·.name)

/-- The names, as they are written, of the elements with one local name. -/
def hasLocalName (name rawName : String) : Bool := localName rawName = name

theorem parseTag_name (h : parseTag token start stop = some tag) :
    tag.name = localName tag.rawName := by
  dsimp only [parseTag] at h
  split_ifs at h
  · rw [← Option.some.inj h]
  · rw [← Option.some.inj h]

theorem opensNamed_tokenBracket (name : String) (h : parseTag token start stop = some tag) :
    opensNamed tokenBracket (hasLocalName name) token =
      decide (tag.name = name ∧ tag.closing = false ∧ tag.selfClosing = false) := by
  rw [opensNamed, tokenBracket, tokenTag_of_parseTag h, parseTag_name h]
  cases tag.closing with
  | true => simp
  | false =>
    cases tag.selfClosing with
    | true => simp
    | false => simp [hasLocalName]

theorem closesNamed_tokenBracket (name : String) (h : parseTag token start stop = some tag) :
    closesNamed tokenBracket (hasLocalName name) token =
      decide (tag.name = name ∧ tag.closing = true) := by
  rw [closesNamed, tokenBracket, tokenTag_of_parseTag h, parseTag_name h]
  cases tag.closing with
  | true => simp [hasLocalName]
  | false =>
    cases tag.selfClosing with
    | true => simp
    | false => simp

end Docx2Typed
