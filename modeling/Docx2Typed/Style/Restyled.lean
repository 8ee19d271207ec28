import Docx2Typed.Prose.Edits
import Docx2Typed.Style.Canonical
import Docx2Typed.XmlWalker.Tokens
import Docx2Typed.XmlWalker.Tree
import Mathlib.Data.List.DropRight

/-!
# Overriding run properties

`rpr_with_overrides` changes single properties of a `w:rPr`: `RprFragment::restyled` takes the
children with one local name out and puts an element in before the first child that comes later in
the schema.  A `&str` is taken here as its UTF-8 bytes; the slices are cut at tags, so they are
UTF-8 again.
-/

namespace Docx2Typed

open Library
open Library.Utf8 (decodeLossy)

/-! ## The order of properties -/

/-- `RPR_ORDER`. -/
def rprOrder : List String :=
  ["rStyle", "rFonts", "b", "bCs", "i", "iCs", "caps", "smallCaps", "strike", "dstrike", "outline",
    "shadow", "emboss", "imprint", "noProof", "snapToGrid", "vanish", "webHidden", "color",
    "spacing", "w", "kern", "position", "sz", "szCs", "highlight", "u", "effect", "bdr", "shd",
    "fitText", "vertAlign", "rtl", "cs", "em", "lang", "eastAsianLayout", "specVanish", "oMath",
    "rPrChange"]

/-- `rpr_schema_position`: unknown properties come last. -/
def rprSchemaPosition (name : String) : Nat := rprOrder.idxOf name

/-! ## Reading a fragment -/

def tagAttributePairsFrom : Nat → Bytes → List (String × Text)
  | 0, _ => []
  | fuel + 1, rest =>
    let rest := rest.dropWhile isAsciiWhitespace
    if rest = [] ∨ rest.head? = some (byte '/') ∨ rest.head? = some (byte '>') then []
    else
      let isName := fun b => b != byte '=' && !isAsciiWhitespace b
      let name := decodeLossy (rest.takeWhile isName)
      let afterName := (rest.dropWhile isName).dropWhile isAsciiWhitespace
      if afterName.head? ≠ some (byte '=') then []
      else
        match (afterName.drop 1).dropWhile isAsciiWhitespace with
        | [] => []
        | quote :: afterQuote =>
          if quote ≠ byte '"' ∧ quote ≠ byte '\'' then []
          else
            (localName (String.ofList name), decodeLossy (afterQuote.takeWhile (· != quote))) ::
              tagAttributePairsFrom fuel ((afterQuote.dropWhile (· != quote)).drop 1)

/-- `tag_attribute_pairs`: local names, in document order. -/
def tagAttributePairs (tag : Bytes) : List (String × Text) :=
  let rest := (tag.drop 1).dropWhile fun b =>
    !(isAsciiWhitespace b || b == byte '/' || b == byte '>')
  if rest.head? = some (byte '/') ∨ rest.head? = some (byte '>') then []
  else tagAttributePairsFrom rest.length rest

/-- The part of `RprFragment::parse` behind the default. -/
def RprFragment.ofBytes (raw : Bytes) : Outcome RprFragment := do
  let nodes ← buildTree (scanTags raw)
  let root ← rootNode nodes
  if root.name ≠ "rPr" then
    refuse "invalid-rpr: run properties must be a single <w:rPr> element"
  else
    pure
      { bytes := raw
        nodes
        root
        children := root.children.filterMap fun i => nodes[i]? }

def defaultRpr : Bytes :=
  utf8 ("<w:rPr xmlns:w=\"".toList ++ wordNamespace ++ "\"/>".toList)

def isBlankRpr (rpr : Bytes) : Bool := (decodeLossy rpr).all isUnicodeWhitespace

/-- `RprFragment::parse`, of a text given as its bytes. -/
def RprFragment.read (rpr : Bytes) : Outcome RprFragment :=
  RprFragment.ofBytes (if isBlankRpr rpr then defaultRpr else rpr)

theorem RprFragment.read_utf8 (rpr : Text) :
    RprFragment.read (utf8 rpr) = RprFragment.parse rpr := by
  rw [RprFragment.read, RprFragment.parse, isBlankRpr, Library.Utf8.decodeLossy_encode]
  cases rpr.all isUnicodeWhitespace with
  | true => rfl
  | false => rfl

namespace RprFragment

/-- The namespace prefix the fragment writes. -/
def qualifier (f : RprFragment) : Text :=
  if ':' ∈ f.root.rawName.toList then f.root.rawName.toList.takeWhile (· != ':') ++ [':'] else []

def trimmedBody (raw : Text) : Text :=
  ((((raw.rdropWhile isUnicodeWhitespace).rdropWhile (· == '>')).rdropWhile
    isUnicodeWhitespace).rdropWhile (· == '/')).rdropWhile isUnicodeWhitespace

/-- The opening tag in open form. -/
def openForm (f : RprFragment) : Bytes :=
  utf8 (trimmedBody (decodeLossy (slice f.bytes f.root.openStart f.root.openEnd)) ++ ['>'])

def closeForm (f : RprFragment) : Bytes :=
  utf8 (['<', '/'] ++ f.root.rawName.toList ++ ['>'])

def childrenRegion (f : RprFragment) : Nat × Nat :=
  ((f.children.head?.map (·.openStart)).getD f.root.openEnd,
    if f.root.selfClosing then f.root.openEnd else f.root.closeStart)

/-- The child carrying a local name, when the fragment has one. -/
def child (f : RprFragment) (name : String) : Option ElementNode :=
  f.children.find? (·.name = name)

/-- The attributes already in force; `none` for a child that holds elements. -/
def childAttributes (f : RprFragment) (name : String) : Option (List (String × Text)) := do
  let child ← f.child name
  if child.children ≠ [] then none
  else some (tagAttributePairs (slice f.bytes child.openStart child.stop))

structure Rebuild where
  out : Bytes
  cursor : Nat
  lastKeptEnd : Nat
  placed : Bool := false

/-- One child of `restyled`. -/
def rebuildStep (f : RprFragment) (name : String) (element : Option Bytes) (s : Rebuild)
    (child : ElementNode) : Rebuild :=
  if child.name = name then
    { s with out := s.out ++ slice f.bytes s.cursor child.openStart, cursor := child.stop }
  else
    let s :=
      match element with
      | some text =>
        if s.placed = false ∧ rprSchemaPosition name < rprSchemaPosition child.name then
          { s with
            out := s.out ++ slice f.bytes s.cursor child.openStart ++ text
            cursor := child.openStart
            placed := true }
        else s
      | none => s
    { s with
      out := s.out ++ slice f.bytes s.cursor child.stop
      cursor := child.stop
      lastKeptEnd := child.stop }

/-- What no child comes behind is put behind the last child kept. -/
def Rebuild.place (f : RprFragment) (element : Option Bytes) (s : Rebuild) : Rebuild :=
  match element with
  | some text =>
    if s.placed then s
    else
      let stop := max s.lastKeptEnd s.cursor
      { s with out := s.out ++ slice f.bytes s.cursor stop ++ text, cursor := stop }
  | none => s

/-- `RprFragment::restyled`. -/
def restyled (f : RprFragment) (name : String) (element : Option Bytes) : Bytes :=
  let region := f.childrenRegion
  let s := (f.children.foldl (f.rebuildStep name element)
    { out := f.openForm, cursor := region.1, lastKeptEnd := region.1 }).place f element
  s.out ++ slice f.bytes s.cursor region.2 ++ f.closeForm

end RprFragment

/-- `render_empty_element`. -/
def renderEmptyElement (qualifier : Text) (name : String) (attributes : List (String × Text)) :
    Bytes :=
  utf8 (['<'] ++ qualifier ++ name.toList ++
    (attributes.flatMap fun entry =>
      [' '] ++ qualifier ++ entry.1.toList ++ ['=', '"'] ++ xmlAttr entry.2 ++ ['"']) ++ ['/', '>'])

/-! ## Overrides -/

/-- A JSON value of a request. -/
inductive AttributeValue where
  | null
  | string (value : Text)
  | bool (value : Bool)
  | other
  deriving DecidableEq

/-- How `std::fmt` writes what a refusal quotes. -/
structure QuoteTexts where
  debugText : Text → String
  valueText : AttributeValue → String

/-- What one entry of a request asks for. -/
inductive Override where
  | clear (name : String)
  | place (name : String) (attributes : List (String × Text))
  deriving DecidableEq

def invalidAttribute {α : Type} (detail : String) : Outcome α :=
  refuse ("format-invalid-attribute: " ++ detail)

def readVertAlign (texts : QuoteTexts) : AttributeValue → Outcome Override
  | .null => pure (.clear "vertAlign")
  | .string value =>
    if value = [] ∨ value = "baseline".toList ∨ value = "none".toList then pure (.clear "vertAlign")
    else if value = "superscript".toList ∨ value = "subscript".toList then
      pure (.place "vertAlign" [("val", value)])
    else
      invalidAttribute s!"vertAlign must be superscript or subscript, got {texts.debugText value}"
  | value =>
    invalidAttribute s!"vertAlign must be superscript or subscript, got {texts.valueText value}"

/-- `bold` and `italic`. -/
def readToggle (texts : QuoteTexts) (key name : String) : AttributeValue → Outcome Override
  | .bool enabled => pure (.place name (if enabled then [] else [("val", ['0'])]))
  | value => invalidAttribute s!"{key} must be true or false, got {texts.valueText value}"

def readOverride (texts : QuoteTexts) (key : String) (value : AttributeValue) :
    Outcome Override :=
  if key = "vertAlign" then readVertAlign texts value
  else if key = "bold" then readToggle texts "bold" "b" value
  else if key = "italic" then readToggle texts "italic" "i" value
  else
    invalidAttribute ("unsupported attribute " ++ texts.debugText key.toList ++
      "; supported: vertAlign (superscript|subscript|baseline), bold, italic")

/-- The text one override makes of a fragment, when it changes it. -/
def RprFragment.override (f : RprFragment) : Override → Option Bytes
  | .clear name => if f.child name = none then none else some (f.restyled name none)
  | .place name attributes =>
    if f.childAttributes name = some attributes then none
    else some (f.restyled name (some (renderEmptyElement f.qualifier name attributes)))

def overrideStep (texts : QuoteTexts) (base : Bytes) (current : Option Bytes)
    (entry : String × AttributeValue) : Outcome (Option Bytes) := do
  let fragment ← RprFragment.read (current.getD base)
  let request ← readOverride texts entry.1 entry.2
  pure ((fragment.override request).or current)

/-- `rpr_with_overrides`. -/
def rprWithOverrides (texts : QuoteTexts) (base : Bytes)
    (attributes : List (String × AttributeValue)) : Outcome (Option Bytes) :=
  attributes.foldlM (overrideStep texts base) none

end Docx2Typed
