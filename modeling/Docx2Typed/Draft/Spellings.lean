import Docx2Typed.Draft.Attributes

/-!
# The two spellings of a paragraph

`node_markup` spells a paragraph for `typed.md`, `project_nodes` for the draft, and
`typed_markup_from_draft` turns the second into the first.  The spellings are compared by the text
that is read from them.
-/

namespace Docx2Typed

open Library (findSub)

/-! ## `node_markup` -/

/-- `escape_vertical_markers`. -/
def escapeVerticalMarkers : Text → Text
  | [] => []
  | c :: rest =>
    if isVerticalEscape c rest then ['\\', '\\'] ++ escapeVerticalMarkers rest
    else if opensVerticalTag c rest then ['\\', c] ++ escapeVerticalMarkers rest
    else c :: escapeVerticalMarkers rest

/-- `escape_vertical_tag_body`. -/
def escapeVerticalTagBody (text : Text) : Text :=
  text.flatMap fun c => if verticalEscapeChars.contains c then ['\\', c] else [c]

def verticalMarker (vertical : Text) : Char := if vertical = "superscript".toList then '^' else '_'

/-- The text of a `Text` node, with its vertical tag. -/
def textBody (content : Text) : Option Text → Text
  | some vertical => verticalMarker vertical :: '{' :: (escapeVerticalTagBody content ++ ['}'])
  | none => escapeVerticalMarkers content

mutual

/-- `node_markup`; `attrs_text` and `attr_value` write what `renderNodeAttrs` and
`projectionAttrValue` do. -/
def nodeMarkup (baseStyle : Text) : TypedNode → Text
  | .text styleId content vertical =>
    let escaped := xmlEscape (textBody content vertical)
    if styleId = baseStyle then escaped
    else "<span data-s=".toList ++ projectionAttrValue styleId ++ ['>'] ++ escaped ++ "</span>".toList
  | .anchor tokenId kind attrs =>
    "<docx-anchor ".toList ++ renderNodeAttrs (tokenAttrs tokenId kind attrs) ++ "/>".toList
  | .inline tokenId kind styleId attrs =>
    "<docx-inline ".toList ++
      renderNodeAttrs (tokenAttrs tokenId kind (attrs.insert "style".toList styleId)) ++ "/>".toList
  | .opaqueToken tokenId kind attrs =>
    "<docx-opaque ".toList ++ renderNodeAttrs (tokenAttrs tokenId kind attrs) ++ "/>".toList
  | .range tokenId kind attrs children =>
    "<docx-range ".toList ++ renderNodeAttrs (tokenAttrs tokenId kind attrs) ++ ['>'] ++
      paragraphMarkup baseStyle children ++ "</docx-range>".toList
  | .revision tokenId kind attrs children =>
    "<docx-revision ".toList ++ renderNodeAttrs (tokenAttrs tokenId kind attrs) ++ ['>'] ++
      paragraphMarkup baseStyle children ++ "</docx-revision>".toList

/-- `paragraph_markup`. -/
def paragraphMarkup (baseStyle : Text) : List TypedNode → Text
  | [] => []
  | node :: rest => nodeMarkup baseStyle node ++ paragraphMarkup baseStyle rest

end

/-! ## `visible_text` -/

/-- The character an inline stands for. -/
def inlineText (kind : Text) : Text :=
  if kind = "tab".toList then ['\t']
  else if kind = "br".toList ∨ kind = "cr".toList then ['\n']
  else []

def opaqueText (kind : Text) : Text := "[opaque:".toList ++ kind ++ [']']

mutual

def visibleNodeText : TypedNode → Text
  | .text _ content _ => content
  | .anchor .. => []
  | .inline _ kind _ _ => inlineText kind
  | .opaqueToken _ kind _ => opaqueText kind
  | .range _ _ _ children => visibleText children
  | .revision _ kind _ children => if isVisibleRevision kind then visibleText children else []

/-- `visible_text`. -/
def visibleText : List TypedNode → Text
  | [] => []
  | node :: rest => visibleNodeText node ++ visibleText rest

end

/-! ## Comparing -/

/-- The loop that takes the `[opaque:kind]` markers out. -/
def withoutMarkersFrom : Nat → Text → Text
  | 0, text => text
  | fuel + 1, text =>
    match findSub "[opaque:".toList text with
    | none => text
    | some start =>
      let rest := text.drop start
      if ']' ∈ rest then
        text.take start ++ withoutMarkersFrom fuel ((rest.dropWhile (· ≠ ']')).drop 1)
      else text.take start

/-- `words`. -/
def words (text : Text) : Text :=
  let text := withoutMarkersFrom (text.length + 1) text
  (replaceText "\\r".toList [] (replaceText "\\n".toList [] (replaceText "\\t".toList [] text))).filter
    fun c => !isUnicodeWhitespace c

/-- `readings_disagree`. -/
def readingsDisagree (rendered draftBody : Text) : Bool :=
  words (typedBodyVisibleText rendered) != words (typedBodyVisibleText (typedMarkupFromDraft draftBody))

/-- The id and kind of an element that stands for a token; other tags stand for none. -/
def tokenOfTag (tag : Text) : Option (Text × Text) :=
  if "<docx-".toList <+: tag then
    some (attrValue "id=\"".toList tag, attrValue "kind=\"".toList tag)
  else none

/-- The tokens of a paragraph's typed spelling. -/
def typedTokens (body : Text) : List (Text × Text) :=
  (tagsFrom body.length body).filterMap tokenOfTag

mutual

/-- The tokens the draft shows of one node. -/
def nodeDraftTokens : TypedNode → List (Text × Text)
  | .text .. => []
  | .anchor tokenId kind _ => [(tokenId, kind)]
  | .inline tokenId kind _ _ => [(tokenId, kind)]
  | .opaqueToken tokenId kind _ => [(tokenId, kind)]
  | .range tokenId kind _ children => (tokenId, kind) :: draftTokens children
  | .revision tokenId kind _ children =>
    if isVisibleRevision kind then (tokenId, kind) :: draftTokens children else [(tokenId, kind)]

/-- The tokens of a paragraph's draft. -/
def draftTokens : List TypedNode → List (Text × Text)
  | [] => []
  | node :: rest => nodeDraftTokens node ++ draftTokens rest

end

/-- The spellings of a paragraph read the same. -/
structure SpellingsAgree (isAlphanumeric : Char → Bool) (baseStyle : Text)
    (nodes : List TypedNode) : Prop where
  markup : (bodyBoundaries isAlphanumeric (projectNodes nodes)).map (·.1) =
    .ok (typedBodyVisibleText (paragraphMarkup baseStyle nodes))
  converted : (bodyBoundaries isAlphanumeric (projectNodes nodes)).map (·.1) =
    .ok (typedBodyVisibleText (typedMarkupFromDraft (projectNodes nodes)))
  tokens : typedTokens (typedMarkupFromDraft (projectNodes nodes)) = draftTokens nodes
  agree : readingsDisagree (paragraphMarkup baseStyle nodes) (projectNodes nodes) = false

/-- Both typed spellings read as the visible text, the draft as the prose in it. -/
structure SpellingsMatch (isAlphanumeric : Char → Bool) (baseStyle : Text)
    (nodes : List TypedNode) : Prop where
  draft : (bodyBoundaries isAlphanumeric (projectNodes nodes)).map (·.1) = .ok (finalText nodes)
  markup : typedBodyVisibleText (paragraphMarkup baseStyle nodes) = visibleText nodes
  converted : typedBodyVisibleText (typedMarkupFromDraft (projectNodes nodes)) = visibleText nodes
  tokens : typedTokens (typedMarkupFromDraft (projectNodes nodes)) = draftTokens nodes
  agree : readingsDisagree (paragraphMarkup baseStyle nodes) (projectNodes nodes) = false

/-! ## What a document gives -/

/-- The ids `Walker::add` gives. -/
def IsTokenId (id : Text) : Prop := ∃ n : Nat, id = 'N' :: n.repr.toList

mutual

/-- A node as the walk of a paragraph makes it. -/
def NodeOfDocument : TypedNode → Prop
  | .text .. => True
  | .anchor tokenId kind _ => IsTokenId tokenId ∧ isAnchorTokenKind kind = true
  | .inline tokenId kind styleId _ =>
    IsTokenId tokenId ∧ isInlineTokenKind kind = true ∧ styleId ≠ []
  | .opaqueToken tokenId kind _ =>
    IsTokenId tokenId ∧ (kind = "opaque".toList ∨ kind = "unsupported-run".toList)
  | .range tokenId kind _ children =>
    IsTokenId tokenId ∧ kind = "hyperlink".toList ∧ NodesOfDocument children
  | .revision tokenId kind _ children =>
    IsTokenId tokenId ∧
      kind ∈ ["insert", "delete", "move_from", "move_to"].map String.toList ∧
      NodesOfDocument children

def NodesOfDocument : List TypedNode → Prop
  | [] => True
  | node :: rest => NodeOfDocument node ∧ NodesOfDocument rest

end

/-! ## Where the spellings agree -/

/-- No name of an attribute closes a tag. -/
def NamesClosed (attrs : AttrMap) : Prop := ∀ entry ∈ attrs.entries, '>' ∉ entry.1

/-- The attributes of a token say a kind only if it is the token's. -/
def SaysOnly (attrs : AttrMap) (kind : Text) (values : List String) : Prop :=
  ∀ value ∈ values, SaysKind value (renderNodeAttrs attrs) → kind = value.toList

instance (attrs : AttrMap) (kind : Text) (values : List String) :
    Decidable (SaysOnly attrs kind values) := inferInstanceAs (Decidable (∀ value ∈ values, _))

mutual

/-- One node spells nothing that one reading takes for something else.  Of a text that the final
view does not show nothing is asked, but it holds no token that stands for one. -/
def NodeSpeltPlainly (shown : Bool) : TypedNode → Prop
  | .text _ content vertical => shown = true → '\\' ∉ content ∧
    (vertical.isSome = true → ∀ c ∈ content, c ∉ verticalEscapeChars)
  | .anchor _ _ attrs => NamesClosed attrs
  | .inline tokenId kind styleId attrs =>
    NamesClosed attrs ∧
      SaysOnly (inlineAttrs tokenId kind styleId attrs) kind ["tab", "br", "cr"] ∧
      (shown = false → inlineText kind = [])
  | .opaqueToken _ _ attrs => NamesClosed attrs ∧ shown = true
  | .range _ _ attrs children => NamesClosed attrs ∧ SpeltPlainly shown children
  | .revision tokenId kind attrs children =>
    NamesClosed attrs ∧
      SaysOnly (tokenAttrs tokenId kind attrs) kind ["insert", "move_to"] ∧
      SpeltPlainly (shown && isVisibleRevision kind) children

def SpeltPlainly (shown : Bool) : List TypedNode → Prop
  | [] => True
  | node :: rest => NodeSpeltPlainly shown node ∧ SpeltPlainly shown rest

end

end Docx2Typed
