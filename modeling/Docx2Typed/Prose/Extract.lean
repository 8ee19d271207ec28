import Docx2Typed.Package
import Docx2Typed.Prose.Locate
import Docx2Typed.Prose.Text

/-!
# The prose inventory

`extract_paragraph` and `enumerate_parts` of `prose.rs`: the text leaves and the opaque blocks of
every located paragraph.  Runs are reached through hyperlinks and revisions; a paragraph that
holds any opaque block is locked as a whole.

The element tree is a list of nodes with child indices.  The recursion over it carries fuel; in
a tree built from a scan a child stands behind its parent, so the number of nodes is enough.
-/

namespace Docx2Typed

open Library.Utf8 (decodeLossy)

/-- A resolved prose leaf with its byte ranges inside one part. -/
structure ProseLeaf where
  partKey : String
  paragraphId : String
  leafIndex : Nat
  /-- Decoded visible text of the leaf. -/
  text : Text
  editable : Bool
  /-- Whether the text reaches the projection the caller's offsets are measured in. -/
  projected : Bool
  textStart : Nat
  textEnd : Nat
  /-- Byte offset just past the text element's open tag. -/
  openEnd : Nat
  styleSha256 : String
  /-- Raw rPr of the owning run. -/
  rpr : Text
  rprStart : Nat
  rprEnd : Nat
  runOpenEnd : Nat
  deriving DecidableEq, Repr

/-- One opaque block (locked interior) with its byte range. -/
structure OpaqueBlock where
  partKey : String
  paragraphId : String
  tag : String
  start : Nat
  stop : Nat
  deriving DecidableEq, Repr

structure ParagraphEntry where
  partKey : String
  paragraphId : String
  visibleText : Text
  editable : Bool
  leafCount : Nat
  opaqueCount : Nat
  deriving DecidableEq, Repr

structure ProseInventory where
  partKeys : List String := []
  paragraphs : List ParagraphEntry := []
  leaves : List ProseLeaf := []
  opaques : List OpaqueBlock := []
  deriving DecidableEq, Repr

/-- Known inline children of a run. -/
def knownRunChildren : List String :=
  ["t", "delText", "tab", "br", "cr", "noBreakHyphen", "softHyphen", "sym", "commentReference",
    "footnoteRef", "endnoteRef", "annotationRef", "separator", "continuationSeparator",
    "lastRenderedPageBreak"]

/-- One part with its element tree. -/
structure PartTree where
  crates : Crates
  xml : Bytes
  nodes : List ElementNode

/-- What a run lies in: the part, and the paragraph. -/
structure ParagraphContext extends PartTree where
  partKey : String
  paragraphId : String

/-- The running state of `extract_paragraph`. -/
structure ExtractState where
  leaves : List ProseLeaf := []
  opaques : List OpaqueBlock := []
  leafIndex : Nat := 0
  /-- The rPr read last, in whatever run. -/
  rprBytes : Bytes := []

/-- The text of a text element; one with element children has none. -/
def textRange (node : ElementNode) : Nat × Nat :=
  (node.openEnd, if node.children = [] then node.closeStart else node.openEnd)

/-- The state within one run. -/
structure RunState where
  paragraph : ExtractState
  isOpaque : Bool := false
  rprRange : Nat × Nat := (0, 0)

/-- One child of a run. -/
def processRunChild (ctx : ParagraphContext) (run : ElementNode) (inGap : Bool) (s : RunState)
    (child : ElementNode) : RunState :=
  if child.name = "rPr" then
    { s with
      paragraph := { s.paragraph with rprBytes := slice ctx.xml child.openStart child.stop }
      rprRange := (child.openStart, child.stop) }
  else if child.name = "t" ∨ child.name = "delText" then
    let range := textRange child
    let leaf : ProseLeaf :=
      { partKey := ctx.partKey
        paragraphId := ctx.paragraphId
        leafIndex := s.paragraph.leafIndex
        text := decodedText (slice ctx.xml range.1 range.2)
        editable := child.name ≠ "delText"
        projected := !inGap && child.name != "delText"
        textStart := range.1
        textEnd := range.2
        openEnd := child.openEnd
        styleSha256 := ctx.crates.sha256Hex s.paragraph.rprBytes
        rpr := decodeLossy s.paragraph.rprBytes
        rprStart := s.rprRange.1
        rprEnd := s.rprRange.2
        runOpenEnd := run.openEnd }
    { s with
      paragraph := { s.paragraph with
        leaves := s.paragraph.leaves ++ [leaf]
        leafIndex := s.paragraph.leafIndex + 1 }
      isOpaque := s.isOpaque || decide (child.children ≠ []) }
  else if child.name ∈ knownRunChildren then s
  else { s with isOpaque := true }

/-- The nodes of a list of indices. -/
def nodesAt (nodes : List ElementNode) (indices : List Nat) : List ElementNode :=
  indices.filterMap fun i => nodes[i]?

/-- One run: an unknown child makes the whole run an opaque block. -/
def processRun (ctx : ParagraphContext) (inGap : Bool) (s : ExtractState) (run : ElementNode) :
    ExtractState :=
  let done := (nodesAt ctx.nodes run.children).foldl (processRunChild ctx run inGap) { paragraph := s }
  if done.isOpaque then
    { done.paragraph with
      opaques := done.paragraph.opaques ++
        [⟨ctx.partKey, ctx.paragraphId, run.rawName, run.openStart, run.stop⟩] }
  else done.paragraph

/-- Children of a paragraph that carry nothing and lock nothing. -/
def isPassedOver (name : String) : Bool :=
  ["pPr", "proofErr", "bookmarkStart", "bookmarkEnd", "commentRangeStart", "commentRangeEnd"].contains
    name

/-- Children of a paragraph whose own children are read in their place. -/
def isTransparent (name : String) : Bool :=
  ["hyperlink", "ins", "del", "moveFrom", "moveTo"].contains name

/-- The deletion side of a tracked change. -/
def opensGap (name : String) : Bool := name == "del" || name == "moveFrom"

/-- One child of a paragraph, or of an element read in its place; `recurse` reads the latter. -/
def processChild (ctx : ParagraphContext)
    (recurse : Bool → ExtractState → ElementNode → ExtractState) (inGap : Bool) (s : ExtractState)
    (child : ElementNode) : ExtractState :=
  if child.name = "r" then processRun ctx inGap s child
  else if isTransparent child.name then recurse (inGap || opensGap child.name) s child
  else if isPassedOver child.name then s
  else
    { s with
      opaques := s.opaques ++
        [⟨ctx.partKey, ctx.paragraphId, child.rawName, child.openStart, child.stop⟩] }

def processContainer (ctx : ParagraphContext) :
    Nat → Bool → ExtractState → ElementNode → ExtractState
  | 0, _, s, _ => s
  | fuel + 1, inGap, s, node =>
    (nodesAt ctx.nodes node.children).foldl (processChild ctx (processContainer ctx fuel) inGap) s

/-- `extract_paragraph`. -/
def extractParagraph (ctx : ParagraphContext) (node : ElementNode) :
    List ProseLeaf × List OpaqueBlock :=
  let s := processContainer ctx ctx.nodes.length false {} node
  let leaves :=
    if s.opaques = [] then s.leaves
    else s.leaves.map fun leaf => { leaf with editable := false }
  (leaves, s.opaques)

/-! ## Enumeration -/

/-- The part keys in extract order: headers, the document, footers, notes, comments. -/
def partKeysOf (parts : PartMap) : List String :=
  let keys := parts.map (·.1)
  keys.filter (fun key => "header".toList.isPrefixOf key.toList) ++ ["document"] ++
    keys.filter (fun key => "footer".toList.isPrefixOf key.toList) ++
    ["endnotes", "footnotes", "comments"].filter keys.contains

/-- The paragraphs of one part, located. -/
def locateParagraphs (partKey : String) (xml : Bytes) : Outcome (List (String × Nat × Nat)) :=
  if partKey = "document" then scanDocument xml else scanPart xml partKey

/-- The tree node of a located paragraph. -/
def findParagraphNode (nodes : List ElementNode) (start stop : Nat) : Option ElementNode :=
  nodes.find? fun node => node.openStart == start &&
    (node.stop == stop || (node.selfClosing && node.openStart == stop))

/-- One located paragraph, enumerated. -/
def enumerateParagraph (crates : Crates) (partKey : String) (xml : Bytes)
    (nodes : List ElementNode) (located : String × Nat × Nat) :
    Outcome (ParagraphEntry × List ProseLeaf × List OpaqueBlock) :=
  match findParagraphNode nodes located.2.1 located.2.2 with
  | none => refuse s!"paragraph locator disagrees with parsed XML: {located.1}"
  | some node =>
    let (leaves, opaques) := extractParagraph ⟨⟨crates, xml, nodes⟩, partKey, located.1⟩ node
    pure (
      { partKey
        paragraphId := located.1
        visibleText := (leaves.filter fun leaf => leaf.textStart != leaf.textEnd).flatMap (·.text)
        editable := decide (opaques = [])
        leafCount := leaves.length
        opaqueCount := opaques.length },
      leaves, opaques)

/-- One part, enumerated paragraph by paragraph. -/
def enumeratePart (crates : Crates) (parts : PartMap) (partKey : String) :
    Outcome (List (ParagraphEntry × List ProseLeaf × List OpaqueBlock)) := do
  let xml ← expect (parts.lookup partKey)
  let nodes ← buildTree (scanTags xml)
  let located ← locateParagraphs partKey xml
  located.mapM (enumerateParagraph crates partKey xml nodes)

/-- `enumerate_parts`. -/
def enumerateParts (crates : Crates) (parts : PartMap) : Outcome ProseInventory := do
  let partKeys := partKeysOf parts
  let found ← partKeys.mapM (enumeratePart crates parts)
  let paragraphs := found.flatten
  pure
    { partKeys
      paragraphs := paragraphs.map (·.1)
      leaves := paragraphs.flatMap (·.2.1)
      opaques := paragraphs.flatMap (·.2.2) }

/-- `enumerate_package_bytes`. -/
def enumeratePackage (crates : Crates) (package : Bytes) : Outcome ProseInventory := do
  let parts ← partXmlMembers crates package
  if (parts.lookup "document").isNone then .error (notADocx "missing word/document.xml")
  else enumerateParts crates parts

end Docx2Typed
