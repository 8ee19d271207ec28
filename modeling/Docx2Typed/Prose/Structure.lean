import Docx2Typed.Draft.Structure
import Docx2Typed.Prose.Edits

/-!
# Structural edits of a document

`splice_structure`: deleted paragraphs are dropped, and every new one is put in front of the next
surviving paragraph its anchor leads to.  A new paragraph is the opening tag of the one it inherits
from, with what an allowlist lets through of that one's properties, around a run of its own.
-/

namespace Docx2Typed

open Library.Utf8 (decodeLossy)

/-! ## What is accepted -/

def containerParagraphError (paragraphId : Text) : String :=
  "table-structure-immutable: paragraphs cannot be added to or removed from tables, " ++
    "text boxes, or header/footer/note parts (" ++ String.ofList paragraphId ++
    "); container structure operations are out of scope"

def tagReason (name : String) : Option String :=
  if name = "sectPr" then some "section properties"
  else if name ∈ ["ins", "del", "moveFrom", "moveTo"] then some "tracked revisions"
  else if name ∈ ["bookmarkStart", "bookmarkEnd", "commentRangeStart", "commentRangeEnd"] then
    some "anchors"
  else if name = "tbl" then some "nested tables"
  else none

/-- Why a paragraph may not be deleted. -/
def structureReason (part : Bytes) (opaques : List OpaqueBlock) (paragraphId : String)
    (start stop : Nat) : Option String :=
  ((scanTags (slice part start stop)).findSome? fun tag => tagReason tag.name).or
    (if opaques.any fun block => block.paragraphId == paragraphId then some "structural content"
    else none)

/-- The first place of a paragraph id. -/
def rangeOf (located : List (String × Nat × Nat)) (paragraphId : Text) : Option (Nat × Nat) :=
  (located.find? fun entry => entry.1 == String.ofList paragraphId).map (·.2)

def validateNew (located : List (String × Nat × Nat)) (news : List NewParagraph)
    (paragraph : NewParagraph) : Outcome Unit :=
  if String.ofList paragraph.part ≠ "document" then
    refuse (containerParagraphError paragraph.paragraphId)
  else if rangeOf located paragraph.inherit = none then
    refuse ("invalid-structure: new paragraph requires an existing inherit paragraph: " ++
      String.ofList paragraph.paragraphId ++ " (inherits " ++
      String.ofList paragraph.inherit ++ ")")
  else if paragraph.inherit.head? ≠ some 'P' then refuse (containerParagraphError paragraph.inherit)
  else
    match paragraph.insertBefore with
    | none => .ok ()
    | some anchor =>
      if rangeOf located anchor = none ∧ ¬ news.any (·.paragraphId == anchor) then
        refuse ("invalid-structure: unknown insert_before paragraph: " ++ String.ofList anchor)
      else .ok ()

def validateDeleted (part : Bytes) (opaques : List OpaqueBlock)
    (located : List (String × Nat × Nat)) (paragraph : DeletedParagraph) : Outcome Unit :=
  if String.ofList paragraph.part ≠ "document" then
    refuse (containerParagraphError paragraph.paragraphId)
  else
    match rangeOf located paragraph.paragraphId with
    | none =>
      refuse ("invalid-structure: deleted paragraph not found: " ++
        String.ofList paragraph.paragraphId)
    | some (start, stop) =>
      if paragraph.paragraphId.head? ≠ some 'P' then
        refuse (containerParagraphError paragraph.paragraphId)
      else
        match structureReason part opaques (String.ofList paragraph.paragraphId) start stop with
        | some reason =>
          refuse ("invalid-structure: paragraph with protected structure cannot be deleted: " ++
            String.ofList paragraph.paragraphId ++ " (" ++ reason ++ ")")
        | none => .ok ()

/-- `validate_structure`, the package around the part apart. -/
def validateStructure (part : Bytes) (opaques : List OpaqueBlock) (edits : StructureEdits) :
    Outcome Unit :=
  if edits.newParagraphs = [] ∧ edits.deletedParagraphs = [] then .ok ()
  else do
    let located ← scanDocument part
    let _ ← edits.newParagraphs.mapM (validateNew located edits.newParagraphs)
    let _ ← edits.deletedParagraphs.mapM (validateDeleted part opaques located)
    pure ()

/-! ## The opening tag -/

/-- The attributes of a `w:p` that are its own. -/
def ephemeralPAttrs : List String :=
  ["paraId", "textId", "rsidP", "rsidR", "rsidRDefault", "rsidDel", "rsidRPr"]

def attrNameByte (b : UInt8) : Bool :=
  isAsciiAlphabetic b || isAsciiDigit b || b == byte '_' || b == byte '.' || b == byte '-'

/-- How long the name is that stands here. -/
def ncNameLength : Bytes → Option Nat
  | [] => none
  | b :: rest =>
    if isAsciiAlphabetic b || b == byte '_' then some ((rest.takeWhile attrNameByte).length + 1)
    else none

/-- One attribute with a quoted value, the white space before it among it: its length and name. -/
def matchPAttr (opening : Bytes) : Option (Nat × String) := do
  let blank := (opening.takeWhile isAsciiWhitespace).length
  if blank = 0 then none
  else
    let named := opening.drop blank
    let first ← ncNameLength named
    let length ←
      if (named.drop first).head? = some (byte ':') then
        (ncNameLength (named.drop (first + 1))).map (first + 1 + ·)
      else some first
    let equals := (named.drop length).dropWhile isAsciiWhitespace
    if equals.head? ≠ some (byte '=') then none
    else
      let value := (equals.drop 1).dropWhile isAsciiWhitespace
      let quote ← value.head?
      if quote ≠ byte '"' ∧ quote ≠ byte '\'' then none
      else
        let closing := (value.drop 1).dropWhile (· != quote)
        if closing = [] then none
        else
          some (opening.length - (closing.drop 1).length,
            String.ofList (decodeLossy (named.take length)))

/-- Every round takes a byte, so the length is fuel enough. -/
def stripFrom : Nat → Bytes → Bytes
  | 0, _ => []
  | _, [] => []
  | fuel + 1, b :: rest =>
    match if isAsciiWhitespace b then matchPAttr (b :: rest) else none with
    | some (n, name) =>
      (if localName name ∈ ephemeralPAttrs then [] else (b :: rest).take n) ++
        stripFrom fuel ((b :: rest).drop n)
    | none => b :: stripFrom fuel rest

def stripEphemeralPAttrs (opening : Bytes) : Bytes := stripFrom opening.length opening

/-! ## Properties -/

def safePprChildren : List String :=
  ["pStyle", "keepNext", "keepLines", "pageBreakBefore", "widowControl", "numPr",
    "suppressLineNumbers", "shd", "tabs", "suppressAutoHyphens", "kinsoku", "wordWrap",
    "overflowPunct", "topLinePunct", "autoSpaceDE", "autoSpaceDN", "bidi", "adjustRightInd",
    "snapToGrid", "spacing", "ind", "contextualSpacing", "mirrorIndents", "jc", "textAlignment",
    "outlineLvl", "rPr"]

def refusedPprChildren : List String := ["sectPr", "pPrChange", "rPrChange", "divId", "cnfStyle"]

def safeRprChildren : List String :=
  ["rStyle", "rFonts", "b", "bCs", "i", "iCs", "caps", "smallCaps", "strike", "dstrike", "outline",
    "shadow", "emboss", "imprint", "noProof", "snapToGrid", "vanish", "webHidden", "color",
    "spacing", "w", "kern", "position", "sz", "szCs", "highlight", "u", "effect", "bdr", "shd",
    "fitText", "vertAlign", "rtl", "cs", "em", "lang"]

def refusedRprChildren : List String :=
  ["rPrChange", "ins", "del", "moveFrom", "moveTo", "eastAsianLayout", "specVanish"]

/-- A child of a `numPr` that refers to the numbering. -/
def keptNumPrChildren : List String := ["ilvl", "numId"]

def droppedNumPrChildren : List String := ["ins", "del", "moveFrom", "moveTo", "numPrChange"]

section PropertyBlock

variable (allow refused : List String) (what : String)

/-- One child of a `numPr`. -/
def numPrChild (xml : Bytes) (child : ElementNode) : Outcome Bytes :=
  if child.name ∈ keptNumPrChildren then .ok (slice xml child.openStart child.stop)
  else if child.name ∈ droppedNumPrChildren then .ok []
  else refuse ("invalid-structure: " ++ what ++ " carries `numPr/" ++ child.name ++
    "`, which this build does not know how to inherit safely; nothing was written")

/-- One child of a property block; `recurse` takes the block of a paragraph mark. -/
def propertyChild (recurse : Bytes → List ElementNode → ElementNode → Outcome Bytes)
    (xml : Bytes) (nodes : List ElementNode) (child : ElementNode) : Outcome Bytes :=
  if child.name ∈ refused then .ok []
  else if child.name = "rPr" then do
    let inner := slice xml child.openStart child.stop
    let innerNodes ← buildTree (scanTags inner)
    match innerNodes.head? with
    | some root => recurse inner innerNodes root
    | none => .ok []
  else if child.name = "numPr" then do
    let kept ← (nodesAt nodes child.children).mapM (numPrChild what xml)
    -- an empty `numPr` is dropped as a whole
    if child.selfClosing then .ok []
    else .ok (slice xml child.openStart child.openEnd ++ kept.flatten ++
      slice xml child.closeStart child.stop)
  else if child.name ∉ allow then
    refuse ("invalid-structure: " ++ what ++ " carries `" ++ child.name ++
      "`, which this build does not know how to inherit safely; nothing was written. " ++
      "Inherit from a paragraph whose properties are plain, " ++
      "or report this as a gap rather than working around it")
  else .ok (slice xml child.openStart child.stop)

/-- A block within a block is shorter than that, so the length of the part is fuel enough. -/
def safePropertyBlockFuel : Nat → Bytes → List ElementNode → ElementNode → Outcome Bytes
  | 0, _, _, _ => .error .panic
  | fuel + 1, xml, nodes, node => do
    let children ← (nodesAt nodes node.children).mapM
      (propertyChild allow refused what (safePropertyBlockFuel fuel) xml nodes)
    pure (slice xml node.openStart node.openEnd ++ children.flatten ++
      (if node.selfClosing then [] else slice xml node.closeStart node.stop))

def safePropertyBlock (xml : Bytes) (nodes : List ElementNode) (node : ElementNode) :
    Outcome Bytes :=
  safePropertyBlockFuel allow refused what (xml.length + 1) xml nodes node

end PropertyBlock

/-! ## A new paragraph -/

/-- The bytes around the body of a new paragraph. -/
def paragraphBytes (opening ppr rpr : Bytes) (body : Text) : Bytes :=
  stripEphemeralPAttrs opening ++ ppr ++
    (if body = [] then []
      else bytes "<w:r>" ++ rpr ++
        bytes (if needsXmlSpace body then "<w:t xml:space=\"preserve\">" else "<w:t>") ++
        utf8 (xmlEscape body) ++ bytes "</w:t></w:r>") ++
    bytes "</w:p>"

/-- The run properties of the first leaf of a paragraph. -/
def leafRpr (leaves : List ProseLeaf) (paragraphId : String) : Text :=
  ((leaves.find? fun leaf => leaf.paragraphId == paragraphId && leaf.leafIndex == 0).map
    (·.rpr)).getD []

def propertiesOf (inherit : Text) : String :=
  "paragraph " ++ String.ofList inherit ++ "'s properties"

/-- The block of a run's properties that are given as text. -/
def runProperties (what : String) (rpr : Text) : Outcome Bytes :=
  if rpr = [] then .ok []
  else do
    let nodes ← buildTree (scanTags (utf8 rpr))
    match nodes.head? with
    | some node => safePropertyBlock safeRprChildren refusedRprChildren what (utf8 rpr) nodes node
    | none => .ok []

/-- The block of the `pPr` of a paragraph. -/
def paragraphProperties (what : String) (inherit : Bytes) (nodes : List ElementNode)
    (root : ElementNode) : Outcome Bytes :=
  match (nodesAt nodes root.children).find? fun child => child.name == "pPr" with
  | some child =>
    safePropertyBlock safePprChildren refusedPprChildren what inherit nodes child
  | none => .ok []

def renderNewParagraph (part : Bytes) (leaves : List ProseLeaf)
    (located : List (String × Nat × Nat)) (paragraph : NewParagraph) : Outcome Bytes :=
  match located.find? fun entry => entry.1 == String.ofList paragraph.inherit with
  | none =>
    refuse ("invalid-structure: new paragraph requires an existing inherit paragraph: " ++
      String.ofList paragraph.paragraphId ++ " (inherits " ++
      String.ofList paragraph.inherit ++ ")")
  | some (_, start, stop) => do
    let inherit := slice part start stop
    let nodes ← buildTree (scanTags inherit)
    match nodes.head? with
    | none => refuse "malformed paragraph XML"
    | some root => do
      -- of a `<w:p .../>` the last byte is dropped
      let opening := if root.selfClosing then (inherit.take root.openEnd).dropLast
        else inherit.take root.openEnd
      let what := propertiesOf paragraph.inherit
      let ppr ← if paragraph.formatPolicy = .safeInherit then
          paragraphProperties what inherit nodes root
        else .ok []
      let rpr ← if paragraph.formatPolicy = .safeInherit then
          runProperties what (leafRpr leaves (String.ofList paragraph.inherit))
        else .ok []
      pure (paragraphBytes opening ppr rpr paragraph.body)

/-! ## Where it goes -/

/-- The first element of a name in or below a node; a child stands behind its parent, so the number
of nodes is fuel enough. -/
def findNamed (nodes : List ElementNode) (name : String) : Nat → Nat → Option Nat
  | 0, _ => none
  | fuel + 1, index =>
    match nodes[index]? with
    | none => none
    | some node =>
      if node.name = name then some index
      else node.children.findSome? (findNamed nodes name fuel)

/-- In front of the section properties of the body, or of its end. -/
def bodyAppendOffset (xml : Bytes) : Outcome Nat := do
  let nodes ← buildTree (scanTags xml)
  match ((List.range nodes.length).findSome? (findNamed nodes "body" nodes.length)).bind
      (nodes[·]?) with
  | none => refuse "document XML has no body element"
  | some body =>
    match (nodesAt nodes body.children).find? fun child => child.name == "sectPr" with
    | some child => pure child.openStart
    | none => pure body.closeStart

/-- The place of a paragraph id; of equal ids the last one's. -/
def indexOf (located : List (String × Nat × Nat)) (paragraphId : Text) : Option Nat :=
  ((located.zipIdx.filter fun entry => entry.1.1 == String.ofList paragraphId).getLast?).map (·.2)

theorem indexOf_spec {located : List (String × Nat × Nat)} {id : Text} {index : Nat}
    {entry : String × Nat × Nat} (h : indexOf located id = some index)
    (hentry : located[index]? = some entry) : entry.1 = String.ofList id := by
  rw [indexOf, Option.map_eq_some_iff] at h
  obtain ⟨⟨other, i⟩, hlast, rfl⟩ := h
  obtain ⟨hmem, hname⟩ := List.mem_filter.mp (List.mem_of_getLast? hlast)
  have hother := List.mem_zipIdx_iff_getElem?.mp hmem
  rw [hother] at hentry
  obtain rfl := Option.some.inj hentry
  exact beq_iff_eq.mp hname

section Anchor

variable (located : List (String × Nat × Nat)) (deleted : List Text) (appendAt : Nat)

/-- The start of the first paragraph from a place on that is not deleted. -/
def survivorFrom (index : Nat) : Nat :=
  (((located.drop index).find? fun entry => entry.1.toList ∉ deleted).map (·.2.1)).getD appendAt

/-- A paragraph that is asked for twice is refused, so the number of new ones is fuel enough. -/
def anchorOffset (news : List NewParagraph) : Nat → List Text → Text → Outcome Nat
  | 0, _, _ => .error .panic
  | fuel + 1, seen, current =>
    if current ∈ seen then
      refuse ("invalid-structure: insert_before paragraphs form a cycle at " ++
        String.ofList current)
    else
      match indexOf located current with
      | some index => .ok (survivorFrom located deleted appendAt index)
      | none =>
        match news.find? fun paragraph => paragraph.paragraphId = current with
        | none =>
          refuse ("invalid-structure: unknown insert_before paragraph: " ++ String.ofList current)
        | some pending =>
          match pending.insertBefore with
          | some next => anchorOffset news fuel (seen ++ [current]) next
          | none => .ok appendAt

end Anchor

/-- What replaces a range of the part, and the paragraph it adds. -/
structure ParagraphSpan where
  start : Nat
  stop : Nat
  content : Bytes
  pending : Option Text

/-- `sort_by_key(|span| (span.start, span.end))`, which is stable. -/
def sortSpans (spans : List ParagraphSpan) : List ParagraphSpan :=
  spans.insertionSort fun a b => a.start < b.start ∨ a.start = b.start ∧ a.stop ≤ b.stop

/-- The part from `cursor` on, with the spans put in place. -/
def applySpans (part : Bytes) (overlap : String) : Nat → List ParagraphSpan → Outcome Bytes
  | cursor, [] => .ok (part.drop cursor)
  | cursor, span :: rest =>
    if span.start < cursor ∨ span.stop < span.start then refuse overlap
    else do
      let after ← applySpans part overlap span.stop rest
      pure (slice part cursor span.start ++ span.content ++ after)

/-- The ids of the paragraphs in the order of the document. -/
def splicedIds : List (Nat × String) → List ParagraphSpan → List String
  | survivors, [] => survivors.map (·.2)
  | survivors, span :: rest =>
    (survivors.takeWhile fun survivor => survivor.1 < span.start).map (·.2) ++
      (span.pending.map String.ofList).toList ++
      splicedIds (survivors.dropWhile fun survivor => survivor.1 < span.start) rest

/-- The span of a deleted paragraph. -/
def deletedSpan (located : List (String × Nat × Nat)) (paragraphId : Text) :
    Outcome ParagraphSpan := do
  let index ← expect (indexOf located paragraphId)
  let (_, start, stop) ← expect located[index]?
  pure ⟨start, stop, [], none⟩

theorem deletedSpan_eq_ok {located : List (String × Nat × Nat)} {id : Text} {span : ParagraphSpan}
    (h : deletedSpan located id = .ok span) : span.pending = none ∧
      ∃ entry ∈ located, entry.1 = String.ofList id ∧ entry.2.1 = span.start := by
  obtain ⟨index, hindex, h⟩ := bind_eq_ok h
  obtain ⟨⟨name, start, stop⟩, hentry, h⟩ := bind_eq_ok h
  obtain rfl := Except.ok.inj h
  have hindex := expect_eq_ok_iff.mp hindex
  have hentry := expect_eq_ok_iff.mp hentry
  exact ⟨rfl, _, List.mem_of_getElem? hentry, (indexOf_spec hindex hentry), rfl⟩

/-- The span of a new paragraph. -/
def newSpan (part : Bytes) (leaves : List ProseLeaf) (located : List (String × Nat × Nat))
    (edits : StructureEdits) (appendAt : Nat) (paragraph : NewParagraph) :
    Outcome ParagraphSpan := do
  let deleted := edits.deletedParagraphs.map (·.paragraphId)
  let start ← match paragraph.insertBefore with
    | none => .ok appendAt
    | some anchor =>
      anchorOffset located deleted appendAt edits.newParagraphs (edits.newParagraphs.length + 1) []
        anchor
  let content ← renderNewParagraph part leaves located paragraph
  pure ⟨start, start, content, some paragraph.paragraphId⟩

/-- Of two paragraphs in one place the later one comes first. -/
def spliceStructure (part : Bytes) (leaves : List ProseLeaf) (edits : StructureEdits) :
    Outcome (Bytes × List String) := do
  let located ← scanDocument part
  let deleted := edits.deletedParagraphs.map (·.paragraphId)
  let appendAt ← bodyAppendOffset part
  let dropped ← deleted.mapM (deletedSpan located)
  let added ← edits.newParagraphs.reverse.mapM (newSpan part leaves located edits appendAt)
  let spans := sortSpans (dropped ++ added)
  let out ← applySpans part "invalid-structure: overlapping paragraph splices" 0 spans
  let survivors := located.filter fun entry => entry.1.toList ∉ deleted
  pure (out, splicedIds (survivors.map fun entry => (entry.2.1, entry.1)) spans)

end Docx2Typed
