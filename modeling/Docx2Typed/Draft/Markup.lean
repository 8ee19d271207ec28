import Docx2Typed.Draft.Nodes
import Docx2Typed.Draft.Lines

/-!
# The typed spelling of a paragraph

`typed.md` spells a paragraph with elements (`<docx-opaque .../>`) where the draft spells it with
placeholders.  `typed_markup_from_draft` goes from the second to the first, and
`typed_body_visible_text` reads the final-view text off the first.
-/

namespace Docx2Typed

open Library (findSub)

/-! ## From the draft -/

/-- `KNOWN_INLINE`. -/
def knownInline : List Text :=
  ["t", "tab", "br", "cr", "noBreakHyphen", "softHyphen", "sym", "commentReference", "footnoteRef",
    "endnoteRef", "annotationRef", "separator", "continuationSeparator",
    "lastRenderedPageBreak"].map String.toList

def isAnchorTokenKind (kind : Text) : Bool :=
  (["bookmark-start", "bookmark-end", "comment-start", "comment-end"].map String.toList).contains kind

def isInlineTokenKind (kind : Text) : Bool :=
  knownInline.contains kind || kind == "rpr-change".toList || kind == "empty-run".toList

/-- `split_once(sep)`. -/
def splitOnce (sep : Char) (text : Text) : Option (Text × Text) :=
  if sep ∈ text then some (text.takeWhile (· ≠ sep), (text.dropWhile (· ≠ sep)).drop 1) else none

/-- The attributes copied as they are written, but for the keys the element states itself.  A
value that holds a space is cut there. -/
def copiedAttrs (skipped : List Text) (attrs : Text) : Text :=
  (attrs.splitOn ' ').flatMap fun pair =>
    match splitOnce '=' pair with
    | some (key, value) => if skipped.contains key then [] else [' '] ++ key ++ ['='] ++ value
    | none => []

def idAndKind (id kind : Text) : Text :=
  " id=\"".toList ++ id ++ "\" kind=\"".toList ++ kind ++ ['"']

/-- The kinds that the last arm of the source's `match` writes as an inline of no further
attribute. -/
def isBareInlineKind (kind : Text) : Bool :=
  (["tab", "br", "cr", "empty-run", "separator", "continuationSeparator", "noBreakHyphen",
    "softHyphen", "sym", "dayShort"].map String.toList).contains kind

/-- The element for one placeholder. -/
def elementOfToken (token : Text) : Text :=
  let (keyword, attrs) := (splitOnce ' ' token).getD (token, [])
  let kind := attrValue "kind=\"".toList attrs
  let id := attrValue "id=\"".toList attrs
  let style := attrValue "style=\"".toList attrs
  let styleAttr := if style = [] then [] else " style=\"".toList ++ style ++ ['"']
  let copied := copiedAttrs [idKey, kindKey] attrs
  if keyword = "range-end".toList then "</docx-range>".toList
  else if keyword = "range-start".toList then "<docx-range".toList ++ idAndKind id kind ++ ['>']
  else if keyword = "insert".toList ∨ keyword = "move-to".toList then
    let kindName := if keyword = "insert".toList then "insert".toList else "move_to".toList
    "<docx-revision".toList ++ idAndKind id kindName ++ copied ++ ['>']
  else if keyword = "/insert".toList ∨ keyword = "/move-to".toList then "</docx-revision>".toList
  else if keyword = "revision-gap".toList then
    "<docx-revision".toList ++ idAndKind id kind ++ copied ++ "></docx-revision>".toList
  else if isAnchorTokenKind kind then
    "<docx-anchor".toList ++ idAndKind id kind ++ copied ++ "/>".toList
  else if isInlineTokenKind kind then
    "<docx-inline".toList ++ idAndKind id kind ++ styleAttr ++
      copiedAttrs [idKey, kindKey, "style".toList] attrs ++ "/>".toList
  else if isBareInlineKind kind then
    "<docx-inline".toList ++ idAndKind id kind ++ styleAttr ++ "/>".toList
  else "<docx-opaque".toList ++ idAndKind id kind ++ copied ++ "/>".toList

/-- The loop of `typed_markup_from_draft`. -/
def typedMarkupFrom : Nat → Text → Text
  | _, [] => []
  | 0, _ :: _ => []
  | fuel + 1, c :: rest =>
    if c ≠ tokenStart then escapeChar c ++ typedMarkupFrom fuel rest
    else if tokenEnd ∉ rest then c :: typedMarkupFrom fuel rest
    else
      elementOfToken (rest.takeWhile (· ≠ tokenEnd)) ++
        typedMarkupFrom fuel ((rest.dropWhile (· ≠ tokenEnd)).drop 1)

def typedMarkupFromDraft (body : Text) : Text := typedMarkupFrom body.length body

/-! ## Its visible text -/

/-- `str::replace`, with as many turns as there is text. -/
def replaceFrom (old new : Text) : Nat → Text → Text
  | 0, text => text
  | fuel + 1, text =>
    match findSub old text with
    | some offset =>
      text.take offset ++ new ++ replaceFrom old new fuel (text.drop (offset + old.length))
    | none => text

def replaceText (old new text : Text) : Text := replaceFrom old new text.length text

/-- Whether an open element hides its text. -/
inductive Passing where
  | pass
  | skip
  deriving DecidableEq, Repr

def containsText (needle text : Text) : Bool := (findSub needle text).isSome

/-- The tags that are open after one more, and the text the tag itself stands for. -/
def readTag (stack : List Passing) (tag : Text) : List Passing × Text :=
  let lowered := tag.map Char.toLower
  let kindIs (kind : String) : Bool := containsText ("kind=\"".toList ++ kind.toList ++ ['"']) lowered
  if "</".toList <+: lowered then (stack.tail, [])
  else if "<span".toList <+: lowered ∨ "<docx-range".toList <+: lowered then (.pass :: stack, [])
  else if "<docx-revision".toList <+: lowered then
    ((if kindIs "insert" || kindIs "move_to" then .pass else .skip) :: stack, [])
  else if "<docx-anchor".toList <+: lowered then
    if "/>".toList <:+ lowered then (stack, []) else (.skip :: stack, [])
  else if "<docx-inline".toList <+: lowered then
    if kindIs "tab" then (stack, ['\t'])
    else if kindIs "br" || kindIs "cr" then (stack, ['\n'])
    else (stack, [])
  else if "<docx-opaque".toList <+: lowered then
    (stack, "[opaque:".toList ++ attrValue "kind=\"".toList lowered ++ [']'])
  else (stack, [])

/-- The inside of a vertical tag, whatever it holds: its text, and what follows. -/
def readVerticalInner : Nat → Text → Text × Text
  | 0, rest => ([], rest)
  | _ + 1, [] => ([], [])
  | depth + 1, '{' :: rest => readVerticalInner (depth + 2) rest
  | depth + 1, '}' :: rest => readVerticalInner depth rest
  | depth + 1, c :: rest =>
    let (inner, after) := readVerticalInner (depth + 1) rest
    (c :: inner, after)

/-- The loop of `typed_body_visible_text`. -/
def visibleTextFrom : Nat → List Passing → Text → Text
  | _, _, [] => []
  | 0, _, _ :: _ => []
  | fuel + 1, stack, c :: rest =>
    if c = '<' then
      if '>' ∉ rest then c :: visibleTextFrom fuel stack rest
      else
        let (stack', text) := readTag stack ('<' :: rest.takeWhile (· ≠ '>') ++ ['>'])
        text ++ visibleTextFrom fuel stack' ((rest.dropWhile (· ≠ '>')).drop 1)
    else if stack.contains .skip then visibleTextFrom fuel stack rest
    else if (c = '^' ∨ c = '_') ∧ rest.head? = some '{' then
      let (inner, after) := readVerticalInner 1 (rest.drop 1)
      inner ++ visibleTextFrom fuel stack after
    else c :: visibleTextFrom fuel stack rest

/-- `typed_body_visible_text`. -/
def typedBodyVisibleText (body : Text) : Text :=
  replaceText "&amp;".toList ['&'] (replaceText "&gt;".toList ['>']
    (replaceText "&lt;".toList ['<'] (visibleTextFrom body.length [] body)))

end Docx2Typed
