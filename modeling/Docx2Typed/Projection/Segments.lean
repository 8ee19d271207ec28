import Docx2Typed.Prose.Extract
import Docx2Typed.Style.Canonical

/-!
# The document projection: paragraphs and segments

`SegmentWalker` and the paragraph registry of `project_document_bytes`: a second walk over the
element tree of each part, which emits one segment for each non-empty text, with its style, its
revision, the comments open around it and its visibility.

The registries of the projection that no segment reads (blocks, tables, labels of styles, images)
are not modelled.  The keys of the revisions of a part come from `govern.rs`; they are a parameter,
of which nothing is assumed.
-/

namespace Docx2Typed

open Library.Utf8 (decodeLossy)

structure Visibility where
  original : Bool
  tracked : Bool
  finalView : Bool
  deriving DecidableEq, Repr

/-- One canonical text span of a paragraph. -/
structure Segment where
  start : Nat
  stop : Nat
  text : Text
  styleId : String
  revision : Option String
  commentIds : List Text
  editable : Bool
  visibility : Visibility
  deriving DecidableEq, Repr

structure ProjectionParagraph where
  part : String
  paragraphId : String
  editable : Bool
  leafCount : Nat
  opaqueCount : Nat
  start : Nat
  stop : Nat
  segments : List Segment
  deriving DecidableEq, Repr

/-! ## Attributes of an open tag -/

/-- The attributes from one point of an open tag on: local names, and a value even where none is
written.  On a byte that starts no name, no space and no `=` the source's loop stands still for
ever; here the fuel ends it. -/
def openTagAttrsFrom : Nat → Bytes → List (Text × Text)
  | 0, _ => []
  | fuel + 1, rest =>
    let rest := rest.dropWhile isAsciiWhitespace
    if rest = [] ∨ rest.head? = some (byte '/') ∨ rest.head? = some (byte '>') then []
    else
      let name := decodeLossy (rest.takeWhile isNameByte)
      let afterName := (rest.dropWhile isNameByte).dropWhile fun b =>
        isAsciiWhitespace b || b == byte '='
      match afterName with
      | [] => [(localOf name, [])]
      | quote :: afterQuote =>
        if quote = byte '"' ∨ quote = byte '\'' then
          (localOf name, decodeLossy (afterQuote.takeWhile (· != quote))) ::
            openTagAttrsFrom fuel ((afterQuote.dropWhile (· != quote)).drop 1)
        else (localOf name, []) :: openTagAttrsFrom fuel afterName

/-- `open_tag_attrs`. -/
def openTagAttrs (xml : Bytes) (start openEnd : Nat) : List (Text × Text) :=
  let rest := ((slice xml start openEnd).drop 1).dropWhile isNameByte
  openTagAttrsFrom rest.length rest

/-! ## The segment walker -/

structure WalkerContext extends PartTree where
  paragraphEditable : Bool
  /-- Byte range of a revision element, and its registry key. -/
  revKeys : List ((Nat × Nat) × String)

/-- `SegmentWalker`. -/
structure WalkerState where
  /-- Comment ranges open at the current position; they span paragraphs. -/
  openComments : List Text := []
  /-- The open revision elements, innermost first: key and kind. -/
  revStack : List (String × String) := []
  offset : Nat := 0
  segments : List Segment := []
  /-- The ids of the style registry. -/
  styles : List String := []

/-- `govern::revision_kind`. -/
def revisionKind (name : String) : Option String :=
  if name = "ins" then some "insert"
  else if name = "del" then some "delete"
  else if name = "moveFrom" then some "move_from"
  else if name = "moveTo" then some "move_to"
  else none

/-- `StyleRegistry::ensure`. -/
def ensureStyle (styles : List String) (styleId : String) : List String :=
  if styles.contains styleId then styles else styles ++ [styleId]

/-- The rPr without its format history: open tag, other children, close tag. -/
def canonicalRprBytes (tree : PartTree) (node : ElementNode) : Bytes :=
  slice tree.xml node.openStart node.openEnd ++
    ((nodesAt tree.nodes node.children).filter (·.name ≠ "rPrChange")).flatMap
      (fun child => slice tree.xml child.openStart child.stop) ++
    if node.selfClosing then [] else slice tree.xml node.closeStart node.stop

/-- The style id of an rPr node; the byte form only where the fragment has no canonical form. -/
def rprStyleId (tree : PartTree) (node : ElementNode) : String :=
  match styleIdForRpr tree.crates (decodeLossy (slice tree.xml node.openStart node.stop)) with
  | .ok styleId => styleId
  | .error _ => contentStyleId tree.crates (canonicalRprBytes tree node)

def commentId (tree : PartTree) (node : ElementNode) : Option Text :=
  ((openTagAttrs tree.xml node.openStart node.openEnd).find? (·.1 == "id".toList)).map (·.2)

/-- Remove the last occurrence. -/
def removeLast (id : Text) (comments : List Text) : List Text := (comments.reverse.erase id).reverse

def emitText (ctx : WalkerContext) (styleId : String) (s : WalkerState) (node : ElementNode) :
    WalkerState :=
  if node.children ≠ [] then s
  else
    let text := decodedText (slice ctx.xml node.openEnd node.closeStart)
    if text = [] then s
    else
      { s with
        offset := s.offset + text.length
        segments := s.segments ++ [
          { start := s.offset
            stop := s.offset + text.length
            text
            styleId
            revision := s.revStack.head?.map (·.1)
            commentIds := s.openComments
            editable := ctx.paragraphEditable && node.name != "delText"
            visibility :=
              { original := !s.revStack.any fun entry =>
                  entry.2 == "insert" || entry.2 == "move_to"
                tracked := true
                finalView := !s.revStack.any fun entry =>
                  entry.2 == "delete" || entry.2 == "move_from" } }] }

/-- The style of a run: that of its first rPr. -/
def runStyleId (tree : PartTree) (run : ElementNode) : String :=
  match (nodesAt tree.nodes run.children).find? (·.name = "rPr") with
  | some rpr => rprStyleId tree rpr
  | none => defaultStyleId tree.crates

def visitRun (ctx : WalkerContext) (s : WalkerState) (run : ElementNode) : WalkerState :=
  let children := nodesAt ctx.nodes run.children
  let registered :=
    if children.any (·.name = "rPr") then
      { s with styles := ensureStyle s.styles (runStyleId ctx.toPartTree run) }
    else s
  (children.filter fun child => child.name = "t" ∨ child.name = "delText").foldl
    (emitText ctx (runStyleId ctx.toPartTree run)) registered

/-- One child of a paragraph, or of an element read in its place. -/
def visitChild (ctx : WalkerContext) (recurse : WalkerState → ElementNode → WalkerState)
    (s : WalkerState) (child : ElementNode) : WalkerState :=
  if child.name = "commentRangeStart" then
    { s with openComments := s.openComments ++ (commentId ctx.toPartTree child).toList }
  else if child.name = "commentRangeEnd" then
    match commentId ctx.toPartTree child with
    | some id => { s with openComments := removeLast id s.openComments }
    | none => s
  else if child.name = "r" then visitRun ctx s child
  else if child.name = "ins" ∨ child.name = "del" ∨ child.name = "moveFrom" ∨
      child.name = "moveTo" then
    match revisionKind child.name, ctx.revKeys.lookup (child.openStart, child.stop) with
    | some kind, some key =>
      let visited := recurse { s with revStack := (key, kind) :: s.revStack } child
      { visited with revStack := visited.revStack.tail }
    | _, _ => recurse s child
  else if child.name = "hyperlink" then recurse s child
  else s

def visitContainer (ctx : WalkerContext) : Nat → WalkerState → ElementNode → WalkerState
  | 0, s, _ => s
  | fuel + 1, s, node =>
    (nodesAt ctx.nodes node.children).foldl (visitChild ctx (visitContainer ctx fuel)) s

/-! ## The paragraph registry -/

/-- What the projection of one part reads. -/
structure PartContext extends PartTree where
  partKey : String
  revKeys : List ((Nat × Nat) × String)

/-- The paragraphs of one part, visited in byte order: each with its number in the locator's
order.  Open comments and the style registry go from one paragraph to the next. -/
def projectLocated (ctx : PartContext) :
    List ((ParagraphEntry × String × Nat × Nat) × Nat) → List Text → List String →
      Outcome (List (Nat × ProjectionParagraph) × List String)
  | [], _, styles => pure ([], styles)
  | ((entry, id, start, stop), i) :: rest, openComments, styles =>
    match findParagraphNode ctx.nodes start stop with
    | none => refuse s!"projection: paragraph locator disagrees with parsed XML: {id}"
    | some node => do
      let walker : WalkerContext := ⟨ctx.toPartTree, entry.editable, ctx.revKeys⟩
      let visited := visitContainer walker ctx.nodes.length { openComments, styles } node
      let (projected, styles') ← projectLocated ctx rest visited.openComments visited.styles
      pure ((i,
        { part := ctx.partKey
          paragraphId := id
          editable := entry.editable
          leafCount := entry.leafCount
          opaqueCount := entry.opaqueCount
          start, stop
          segments := visited.segments }) :: projected, styles')

/-- One part: the locator's paragraphs are zipped with the inventory's entries from a cursor on,
visited by start, and registered in the locator's order. -/
def projectPart (crates : Crates) (revisionKeys : String → Bytes → List ((Nat × Nat) × String))
    (parts : PartMap) (entries : List ParagraphEntry) (styles : List String) (partKey : String) :
    Outcome (List ProjectionParagraph × List ParagraphEntry × List String) :=
  match parts.lookup partKey with
  | none => refuse s!"projection: part bytes missing: {partKey}"
  | some xml => do
    let nodes ← buildTree (scanTags xml)
    let located ← locateParagraphs partKey xml
    if entries.length < located.length then
      refuse s!"projection: inventory/locator mismatch in {partKey}"
    else do
      let order := ((entries.zip located).zipIdx).insertionSort fun a b => a.1.2.2.1 ≤ b.1.2.2.1
      let (projected, styles') ←
        projectLocated ⟨⟨crates, xml, nodes⟩, partKey, revisionKeys partKey xml⟩ order [] styles
      if nodes.any (·.parent.isNone) then
        pure ((projected.insertionSort fun a b => a.1 ≤ b.1).map (·.2),
          entries.drop located.length, styles')
      else refuse s!"projection: no root element in {partKey}"

def projectParts (crates : Crates) (revisionKeys : String → Bytes → List ((Nat × Nat) × String))
    (parts : PartMap) :
    List String → List ParagraphEntry → List String → Outcome (List ProjectionParagraph)
  | [], _, _ => pure []
  | partKey :: rest, entries, styles =>
    -- comments are a registry of their own, not paragraphs
    if partKey = "comments" then projectParts crates revisionKeys parts rest entries styles
    else do
      let (paragraphs, entries', styles') ←
        projectPart crates revisionKeys parts entries styles partKey
      let others ← projectParts crates revisionKeys parts rest entries' styles'
      pure (paragraphs ++ others)

/-- The paragraph registry of `project_document_bytes`. -/
def projectDocument (crates : Crates)
    (revisionKeys : String → Bytes → List ((Nat × Nat) × String)) (package : Bytes) :
    Outcome (List ProjectionParagraph) := do
  let inventory ← enumeratePackage crates package
  let parts ← partXmlMembers crates package
  projectParts crates revisionKeys parts inventory.partKeys inventory.paragraphs
    [defaultStyleId crates]

end Docx2Typed
