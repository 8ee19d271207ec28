import Mathlib.Data.List.Sort
import Docx2Typed.Package
import Docx2Typed.XmlWalker
import Docx2Typed.Prose.Text

/-!
# Style identity

A style is identified by the canonical form of its `w:rPr`: attributes and children sorted,
revision ids and the format history (`w:rPrChange`) dropped, explicit booleans normalised,
serialised as JSON and hashed (`canonical_rpr_json`, `style_id_for_rpr`).
-/

namespace Docx2Typed

open Library.Utf8 (decodeLossy)

/-- A canonical value: a text, or a tuple. -/
inductive Canon where
  | text (content : Text)
  | seq (items : List Canon)

/-! ## Serialisation -/

/-- The characters of one element of a Python string literal. -/
def pythonEscape (quote c : Char) : Text :=
  if c = '\\' then "\\\\".toList
  else if c = '\n' then "\\n".toList
  else if c = '\r' then "\\r".toList
  else if c = '\t' then "\\t".toList
  else if c = quote then ['\\', c]
  else [c]

mutual

/-- Python's `repr`, the sort key of rPr children. -/
def canonPythonRepr : Canon → Text
  | .text content =>
    let quote := if '\'' ∈ content ∧ '"' ∉ content then '"' else '\''
    [quote] ++ content.flatMap (pythonEscape quote) ++ [quote]
  | .seq [] => "()".toList
  | .seq [item] => ['('] ++ canonPythonRepr item ++ ",)".toList
  | .seq (item :: items) => ['('] ++ canonPythonRepr item ++ canonPythonReprs items ++ [')']

/-- The items of a tuple after the first. -/
def canonPythonReprs : List Canon → Text
  | [] => []
  | item :: items => ", ".toList ++ canonPythonRepr item ++ canonPythonReprs items

end

def hexDigit (n : Nat) : Char :=
  if n < 10 then Char.ofNat ('0'.toNat + n) else Char.ofNat ('a'.toNat + (n - 10))

/-- `serde_json`'s escape of one character. -/
def jsonEscape (c : Char) : Text :=
  if c = '"' then "\\\"".toList
  else if c = '\\' then "\\\\".toList
  else if c = '\n' then "\\n".toList
  else if c = '\r' then "\\r".toList
  else if c = '\t' then "\\t".toList
  else if c.toNat = 8 then "\\b".toList
  else if c.toNat = 12 then "\\f".toList
  else if c.toNat < 32 then "\\u00".toList ++ [hexDigit (c.toNat / 16), hexDigit (c.toNat % 16)]
  else [c]

mutual

/-- `canonical_json` of `canon_to_json`. -/
def canonicalJson : Canon → Text
  | .text content => ['"'] ++ content.flatMap jsonEscape ++ ['"']
  | .seq [] => "[]".toList
  | .seq (item :: items) => ['['] ++ canonicalJson item ++ canonicalJsons items ++ [']']

def canonicalJsons : List Canon → Text
  | [] => []
  | item :: items => [','] ++ canonicalJson item ++ canonicalJsons items

end

/-! ## Reading a fragment -/

def wordNamespace : Text :=
  "http://schemas.openxmlformats.org/wordprocessingml/2006/main".toList

/-- `char::is_whitespace`. -/
def isUnicodeWhitespace (c : Char) : Bool :=
  let n := c.toNat
  (9 ≤ n && n ≤ 13) || n == 0x20 || n == 0x85 || n == 0xA0 || n == 0x1680 ||
    (0x2000 ≤ n && n ≤ 0x200A) || n == 0x2028 || n == 0x2029 || n == 0x202F || n == 0x205F ||
    n == 0x3000

/-- One `<w:rPr>` fragment taken apart. -/
structure RprFragment where
  bytes : Bytes
  nodes : List ElementNode
  root : ElementNode
  children : List ElementNode

/-- The single root element of a parsed fragment. -/
def rootNode (nodes : List ElementNode) : Outcome ElementNode :=
  match nodes.filter (·.parent.isNone) with
  | [root] => pure root
  | _ => refuse "invalid-xml: the fragment must hold exactly one element"

/-- `RprFragment::parse`: an empty text is the empty default run properties. -/
def RprFragment.parse (rprXml : Text) : Outcome RprFragment := do
  let text :=
    if rprXml.all isUnicodeWhitespace then
      "<w:rPr xmlns:w=\"".toList ++ wordNamespace ++ "\"/>".toList
    else rprXml
  let raw := utf8 text
  let nodes ← buildTree (scanTags raw)
  let root ← rootNode nodes
  if root.name ≠ "rPr" then
    refuse "invalid-rpr: run properties must be a single <w:rPr> element"
  else
    pure
      { bytes := raw
        nodes
        root
        children := root.children.filterMap fun i => nodes[i]? }

/-- The literal tag name of one element. -/
def elementQname (raw : Bytes) (node : ElementNode) : Text :=
  decodeLossy (((slice raw node.openStart node.openEnd).drop 1).takeWhile fun b =>
    !(isAsciiWhitespace b || b == byte '>' || b == byte '/'))

/-- What follows the last `:`. -/
def localOf (qname : Text) : Text := (qname.reverse.takeWhile (· != ':')).reverse

/-- `xmlns` declarations never reach an element's attributes. -/
def isNamespaceDeclaration (name : Text) : Bool :=
  localOf name == "xmlns".toList || "xmlns:".toList.isPrefixOf name

/-- The attributes from one point of an opening tag on; each takes at least its `=`. -/
def attributePairsFrom : Nat → Bytes → List (Text × Text)
  | 0, _ => []
  | fuel + 1, rest =>
    let rest := rest.dropWhile isAsciiWhitespace
    if rest = [] ∨ rest.head? = some (byte '/') ∨ rest.head? = some (byte '>') then []
    else
      let isName := fun b => b != byte '=' && !isAsciiWhitespace b
      let name := decodeLossy (rest.takeWhile isName)
      let afterName := (rest.dropWhile isName).dropWhile isAsciiWhitespace
      if afterName.head? ≠ some (byte '=') then []
      else
        match (afterName.drop 1).dropWhile isAsciiWhitespace with
        | [] => []
        | quote :: afterQuote =>
          if quote ≠ byte '"' ∧ quote ≠ byte '\'' then []
          else
            let value := decodeLossy (afterQuote.takeWhile (· != quote))
            let pairs := attributePairsFrom fuel ((afterQuote.dropWhile (· != quote)).drop 1)
            if isNamespaceDeclaration name then pairs else (name, value) :: pairs

/-- `canonical_attribute_pairs`: full names, in document order. -/
def canonicalAttributePairs (tag : Bytes) : List (Text × Text) :=
  let rest := (tag.drop 1).dropWhile fun b =>
    !(isAsciiWhitespace b || b == byte '/' || b == byte '>')
  if rest = [] ∨ rest.head? = some (byte '/') ∨ rest.head? = some (byte '>') then []
  else attributePairsFrom rest.length rest

/-! ## The canonical form -/

/-- Elements whose `w:val` is a boolean. -/
def booleanRpr : List String :=
  ["b", "i", "strike", "outline", "shadow", "smallCaps", "caps", "vanish", "webHidden"]

def falseValues : List String := ["false", "0", "off", "none"]

def trueValues : List String := ["true", "1", "on"]

/-- `to_ascii_lowercase`. -/
def asciiLower (text : Text) : String :=
  String.ofList (text.map fun c => if 'A' ≤ c ∧ c ≤ 'Z' then Char.ofNat (c.toNat + 32) else c)

/-- Stable sort by a text key. -/
def sortByText {α : Type} (key : α → Text) (l : List α) : List α :=
  l.insertionSort fun a b => ¬ key b < key a

/-- Sort of attribute pairs: by name, then by value. -/
def sortPairs (pairs : List (Text × Text)) : List (Text × Text) :=
  sortByText (·.1) (sortByText (·.2) pairs)

def isRsid (name : Text) : Bool := "rsid".toList.isPrefixOf (localOf name)

/-- The attributes of an element inside an rPr; `none` when one of them switches it off. -/
def rprAttributes (localName : Text) : List (Text × Text) → Option (List (Text × Text))
  | [] => some []
  | (name, value) :: rest =>
    if isRsid name then rprAttributes localName rest
    else if String.ofList localName ∈ booleanRpr ∧ localOf name = "val".toList then
      if asciiLower value ∈ falseValues then none
      else if asciiLower value ∈ trueValues then rprAttributes localName rest
      else (rprAttributes localName rest).map ((name, value) :: ·)
    else (rprAttributes localName rest).map ((name, value) :: ·)

def canonElement (name : Text) (attributes : List (Text × Text)) (children : List Canon) : Canon :=
  .seq [.text name, .seq (attributes.map fun pair => .seq [.text pair.1, .text pair.2]),
    .text [], .seq children]

/-- `canonical_element`, for an element inside an rPr. -/
def canonicalElement (raw : Bytes) (nodes : List ElementNode) : Nat → ElementNode → Option Canon
  | 0, _ => none
  | fuel + 1, node =>
    let name := elementQname raw node
    match rprAttributes (localOf name)
        (canonicalAttributePairs (slice raw node.openStart node.stop)) with
    | none => none
    | some attributes =>
      let children := (node.children.filterMap fun i => nodes[i]?).filterMap
        (canonicalElement raw nodes fuel)
      some (canonElement name (sortPairs attributes) (sortByText canonPythonRepr children))

/-- `canonical_rpr_json`. -/
def canonicalRprJson (rprXml : Text) : Outcome Text := do
  let fragment ← RprFragment.parse rprXml
  let children := (fragment.children.filter (·.name ≠ "rPrChange")).filterMap
    (canonicalElement fragment.bytes fragment.nodes fragment.nodes.length)
  let attributes :=
    (canonicalAttributePairs
      (slice fragment.bytes fragment.root.openStart fragment.root.stop)).filter (!isRsid ·.1)
  pure (canonicalJson (canonElement (elementQname fragment.bytes fragment.root)
    (sortPairs attributes) (sortByText canonPythonRepr children)))

/-- `s_` and the first 16 hex digits of a content hash. -/
def contentStyleId (crates : Crates) (content : Bytes) : String :=
  "s_" ++ String.ofList ((crates.sha256Hex content).toList.take 16)

/-- `style_id_for_rpr`. -/
def styleIdForRpr (crates : Crates) (rprXml : Text) : Outcome String := do
  let canonical ← canonicalRprJson rprXml
  pure (contentStyleId crates (utf8 canonical))

/-- The style id of a run with no rPr. -/
def defaultStyleId (crates : Crates) : String :=
  match styleIdForRpr crates [] with
  | .ok styleId => styleId
  | .error _ => contentStyleId crates []

end Docx2Typed
