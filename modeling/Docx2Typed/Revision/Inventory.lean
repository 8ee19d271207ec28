import Docx2Typed.Projection.Segments

/-!
# The inventory of tracked revisions

`locate_revisions` and `scan_revisions_bytes` of `govern.rs`: one pass over the tags of a part that
notes every revision element when it ends, and then asks of each one which paragraph it stands in
and whether that paragraph holds anything the editor does not know.
-/

namespace Docx2Typed

open Library (findSub)
open Library.Utf8 (decodeLossy)

/-! ## Attributes and texts -/

/-- `attr_value`: the value behind the first `name="` of an open tag. -/
def attrValueAt (xml : Bytes) (start openEnd : Nat) (name : String) : Option Text :=
  let needle := bytes name ++ [byte '=', byte '"']
  let raw := slice xml start openEnd
  match findSub needle raw with
  | none => none
  | some position =>
    let rest := raw.drop (position + needle.length)
    if byte '"' ∈ rest then some (decodeLossy (rest.takeWhile (· != byte '"'))) else none

/-- `element_text`. -/
def elementText (xml : Bytes) (openEnd closeStart : Nat) : Text :=
  match decodeTextSegments (slice xml openEnd closeStart) with
  | .ok chars => chars.map (·.char)
  | .error _ => decodeLossy (slice xml openEnd closeStart)

/-- The revisions open inside the one whose text is read, and the text so far. -/
structure RevisionTextScan where
  nested : List String := []
  out : Text := []

def revisionTextStep (xml : Bytes) (tags : List Tag) (start stop : Nat) (s : RevisionTextScan)
    (tag : Tag) : RevisionTextScan :=
  if tag.closing then
    if s.nested.head? = some tag.name then { s with nested := s.nested.tail } else s
  else if start < tag.start ∧ (revisionKind tag.name).isSome ∧ tag.selfClosing = false then
    { s with nested := tag.name :: s.nested }
  else if s.nested = [] ∧ (tag.name = "t" ∨ tag.name = "delText") ∧ tag.selfClosing = false then
    let closeStart := ((tags.find? fun candidate =>
      candidate.closing && candidate.name == tag.name && tag.stop ≤ candidate.start &&
        candidate.start < stop).map (·.start)).getD tag.stop
    { s with out := s.out ++ elementText xml tag.stop closeStart }
  else s

/-- `revision_text`: the text of a revision's own runs. -/
def revisionText (xml : Bytes) (tags : List Tag) (start stop : Nat) : Text :=
  ((tags.filter fun tag => start ≤ tag.start && tag.start < stop).foldl
    (revisionTextStep xml tags start stop) {}).out

/-! ## What a paragraph holds -/

/-- `is_interior_container`. -/
def isInteriorContainer (name : String) : Bool :=
  ["r", "pPr", "fldSimple", "oMath", "oMathPara", "drawing", "pict", "object", "sdt", "smartTag",
    "proofErr"].contains name

/-- Known children of a paragraph or of a container in it. -/
def knownContainerChildren : List String :=
  ["pPr", "proofErr", "r", "hyperlink", "ins", "del", "moveFrom", "moveTo", "bookmarkStart",
    "bookmarkEnd", "commentRangeStart", "commentRangeEnd"]

structure OpaqueScan where
  stack : List String := []
  runDepth : Nat := 0
  pprDepth : Nat := 0
  rprDepth : Nat := 0
  /-- The first tag of the range is the paragraph itself. -/
  first : Bool := true
  opaques : List (Nat × Nat) := []

def opaqueStep (s : OpaqueScan) (tag : Tag) : OpaqueScan :=
  let pushed := if tag.selfClosing then s.stack else tag.name :: s.stack
  if tag.closing then
    match s.stack with
    | [] => s
    | name :: rest =>
      if name = tag.name then
        { s with
          stack := rest
          runDepth := if name = "r" then s.runDepth - 1 else s.runDepth
          pprDepth := if name = "pPr" then s.pprDepth - 1 else s.pprDepth
          rprDepth := if name = "rPr" then s.rprDepth - 1 else s.rprDepth }
      else s
  else if s.first then { s with first := false, stack := pushed }
  else
    let knownRunChild :=
      tag.name == "rPr" || tag.name == "rPrChange" || knownRunChildren.contains tag.name
    let unknown :=
      if 0 < s.pprDepth ∨ 0 < s.rprDepth then false
      else if 0 < s.runDepth then !knownRunChild
      else tag.name == "proofErr" || !knownContainerChildren.contains tag.name
    { s with
      stack := pushed
      opaques := if unknown then s.opaques ++ [(tag.start, tag.stop)] else s.opaques
      runDepth := if tag.name = "r" then s.runDepth + 1 else s.runDepth
      pprDepth := if tag.name = "pPr" then s.pprDepth + 1 else s.pprDepth
      rprDepth := if tag.name = "rPr" then s.rprDepth + 1 else s.rprDepth }

/-- `opaque_blocks_in_range`. -/
def opaqueBlocksInRange (xml : Bytes) (start stop : Nat) : List (Nat × Nat) :=
  (((scanTags xml).filter fun tag => start ≤ tag.start && tag.start < stop).foldl opaqueStep
    {}).opaques

def opaqueRanges (xml : Bytes) (paragraphs : List (String × Nat × Nat)) : List (Nat × Nat) :=
  paragraphs.flatMap fun paragraph => opaqueBlocksInRange xml paragraph.2.1 paragraph.2.2

/-- The paragraph around a position that starts last; of two that start together, the later one. -/
def paragraphAround (paragraphs : List (String × Nat × Nat)) (position : Nat) :
    Option (String × Nat × Nat) :=
  paragraphs.foldl (fun owner paragraph =>
    if paragraph.2.1 ≤ position ∧ position < paragraph.2.2 ∧
        owner.all (fun previous => previous.2.1 ≤ paragraph.2.1) then some paragraph
    else owner) none

/-- `paragraph_for_revision`: its id, whether it holds an opaque block, and whether the position
stands in one. -/
def paragraphForRevision (paragraphs : List (String × Nat × Nat)) (blocks : List (Nat × Nat))
    (position : Nat) : Option String × Bool × Bool :=
  match paragraphAround paragraphs position with
  | none => (none, false, false)
  | some (id, start, stop) =>
    (some id, blocks.any (fun block => start ≤ block.1 && block.2 ≤ stop),
      blocks.any fun block => block.1 ≤ position && position < block.2)

/-! ## `locate_revisions` -/

structure LocatedRevision where
  start : Nat
  stop : Nat
  openEnd : Nat
  closeStart : Nat
  kind : String
  wId : Text
  author : Text
  date : Text
  /-- The element closes itself: a paragraph mark. -/
  mark : Bool
  insideOpaque : Bool
  paragraphOpaque : Bool := false
  paragraphId : Option String := none
  text : Text := []
  deriving DecidableEq, Repr

/-- A revision element as its tags show it. -/
def revisionElement (xml : Bytes) (kind : String) (openTag closeTag : Nat × Nat)
    (mark insideOpaque : Bool) : LocatedRevision where
  start := openTag.1
  stop := closeTag.2
  openEnd := openTag.2
  closeStart := closeTag.1
  kind
  wId := (attrValueAt xml openTag.1 openTag.2 "w:id").getD []
  author := (attrValueAt xml openTag.1 openTag.2 "w:author").getD []
  date := (attrValueAt xml openTag.1 openTag.2 "w:date").getD []
  mark
  insideOpaque

structure LocateWalk where
  /-- Open elements, innermost first: name, and the bytes of the start tag. -/
  stack : List (String × Nat × Nat) := []
  interiorDepth : Nat := 0
  found : List LocatedRevision := []

/-- An end tag that does not match the innermost open element is passed over. -/
def locateStep (xml : Bytes) (s : LocateWalk) (tag : Tag) : LocateWalk :=
  if tag.closing then
    match s.stack with
    | [] => s
    | (name, start, openEnd) :: rest =>
      if name = tag.name then
        let interiorDepth :=
          if isInteriorContainer name then s.interiorDepth - 1 else s.interiorDepth
        { stack := rest
          interiorDepth
          found := s.found ++ ((revisionKind name).map fun kind =>
            revisionElement xml kind (start, openEnd) (tag.start, tag.stop) false
              (0 < interiorDepth)).toList }
      else s
  else if tag.selfClosing then
    { s with
      found := s.found ++ ((revisionKind tag.name).map fun kind =>
        revisionElement xml kind (tag.start, tag.stop) (tag.stop, tag.stop) true
          (0 < s.interiorDepth)).toList }
  else
    { s with
      stack := (tag.name, tag.start, tag.stop) :: s.stack
      interiorDepth :=
        if isInteriorContainer tag.name then s.interiorDepth + 1 else s.interiorDepth }

/-- The revision elements of a part, in the order in which they end. -/
def revisionElements (xml : Bytes) : List LocatedRevision :=
  ((scanTags xml).foldl (locateStep xml) {}).found

/-- What the paragraphs of the part say of a revision element. -/
def LocatedRevision.resolve (xml : Bytes) (paragraphs : List (String × Nat × Nat))
    (revision : LocatedRevision) : LocatedRevision :=
  let (paragraphId, paragraphOpaque, insideBlock) :=
    paragraphForRevision paragraphs (opaqueRanges xml paragraphs) revision.start
  { revision with
    paragraphId
    paragraphOpaque
    insideOpaque := revision.insideOpaque || insideBlock
    text := revisionText xml (scanTags xml) revision.start revision.stop }

/-- The order of the inventory: by paragraph, content before marks, then by start.  Of two
paragraphs with one id the later one counts. -/
def LocatedRevision.sortKey (paragraphs : List (String × Nat × Nat)) (revision : LocatedRevision) :
    Nat × Nat × Nat :=
  let ordinal := revision.paragraphId.bind fun id =>
    (paragraphs.zipIdx.reverse.find? (·.1.1 == id)).map (·.2)
  (ordinal.getD usizeMax, if revision.mark then 1 else 0, revision.start)

def sortKeyLe (a b : Nat × Nat × Nat) : Bool :=
  a.1 < b.1 || a.1 == b.1 && (a.2.1 < b.2.1 || a.2.1 == b.2.1 && a.2.2 ≤ b.2.2)

/-- The paragraphs of a part, as its kind of part numbers them. -/
def partParagraphs (partKey : String) (xml : Bytes) (isDocument : Bool) :
    Outcome (List (String × Nat × Nat)) :=
  if isDocument then scanDocument xml else scanPart xml partKey

def locateRevisions (partKey : String) (xml : Bytes) (part : String) (isDocument : Bool) :
    Outcome (List LocatedRevision) := do
  let walk := (scanTags xml).foldl (locateStep xml) {}
  if walk.stack ≠ [] then refuse s!"{part} XML has unclosed elements"
  else do
    let paragraphs ← partParagraphs partKey xml isDocument
    pure ((walk.found.map (·.resolve xml paragraphs)).insertionSort
      fun a b => sortKeyLe (a.sortKey paragraphs) (b.sortKey paragraphs))

/-! ## `scan_revisions_bytes` -/

structure RevisionEntry where
  part : String
  kind : String
  wId : Text
  author : Text
  date : Text
  text : Text
  paragraphId : Option String
  editable : Bool
  reason : Option String
  scope : Option String
  deriving DecidableEq, Repr

/-- Why a revision of the document is locked. -/
def LocatedRevision.lock (revision : LocatedRevision) : Option String × Option String :=
  if revision.mark then (some "paragraph-mark-revision", some "paragraph-mark")
  else if revision.insideOpaque then (some "nested-container-or-non-editable-part", none)
  else if revision.paragraphOpaque then (some "paragraph-contains-unsupported-node", none)
  else (none, none)

/-- Revisions outside the document can only be viewed. -/
def revisionEntry (part : String) (revision : LocatedRevision) : RevisionEntry :=
  let isDocument := part = "word/document.xml"
  let (reason, scope) :=
    if isDocument then revision.lock else (some "nested-container-or-non-editable-part", none)
  { part
    kind := revision.kind
    wId := revision.wId
    author := revision.author
    date := revision.date
    text := revision.text
    paragraphId := if isDocument then revision.paragraphId else none
    editable := reason.isNone
    reason
    scope }

/-- `package_xml_members`: the XML members, by name and then by content. -/
def packageXmlMembers (crates : Crates) (package : Bytes) : Outcome (List (String × Bytes)) :=
  match crates.members package with
  | none => .error (notADocx "")
  | some members => do
    let xmlMembers := members.filter fun member => decide (".xml".toList <:+ member.1.toList)
    let read ← xmlMembers.mapM fun member =>
      match member.2 with
      | none => (.error (.refused .io) : Outcome (String × Bytes))
      | some xml => pure (member.1, xml)
    pure (read.insertionSort fun a b => a.1 < b.1 ∨ a.1 = b.1 ∧ a.2 ≤ b.2)

/-- `is_prose_part`. -/
def isProsePart (name : String) : Bool := name == "word/document.xml" || (partKeyFromPath name).isSome

/-- The revisions of one member. -/
def locateMember (name : String) (xml : Bytes) : Outcome (List LocatedRevision) :=
  if name = "word/document.xml" then locateRevisions "document" xml name true
  else do
    let partKey ← expect (partKeyFromPath name)
    locateRevisions partKey xml name false

/-- The prose parts of a package with their revisions. -/
def locatedParts (crates : Crates) (package : Bytes) :
    Outcome (List ((String × Bytes) × List LocatedRevision)) := do
  let members ← packageXmlMembers crates package
  (members.filter fun member => isProsePart member.1).mapM fun member => do
    let located ← locateMember member.1 member.2
    pure (member, located)

def scanRevisions (crates : Crates) (package : Bytes) : Outcome (List RevisionEntry) := do
  let parts ← locatedParts crates package
  pure (parts.flatMap fun part => part.2.map (revisionEntry part.1.1))

end Docx2Typed
