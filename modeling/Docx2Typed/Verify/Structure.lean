import Docx2Typed.Prose.Structure
import Docx2Typed.Verify.Locate

/-!
# The structural edits the verifier recomputes

`recompute_structure_part` puts deleted and new paragraphs into the template part once more.  The
copying of an opening tag (`strip_ephemeral_p_attrs`, `match_p_attr`), the lists of property names,
`xml_escape`, `needs_xml_space`, the search for an anchor, the order of the spans and the loop that
applies them are the same functions as in Core and are modelled once, there.  The tree, the property
blocks and the choice of the run properties are the verifier's own.
-/

namespace Docx2Typed.Verify

open Library.Utf8 (decodeLossy)

/-! ## The tree -/

structure LightNode where
  name : String
  openStart : Nat
  openEnd : Nat
  closeStart : Nat
  stop : Nat
  parent : Option Nat
  children : List Nat
  deriving DecidableEq, Repr

def Tag.toLightNode (tag : Tag) (parent : Option Nat) : LightNode :=
  ⟨tag.name, tag.start, tag.stop, tag.stop, tag.stop, parent, []⟩

/-- A new child of the innermost open element. -/
def lightLink (stack : List Nat) (index : Nat) (nodes : List LightNode) : List LightNode :=
  match stack with
  | [] => nodes
  | top :: _ => nodes.modify top fun node => { node with children := node.children ++ [index] }

/-- One tag: the nodes so far and the stack of open ones, innermost first. -/
def buildLightStep (state : List LightNode × List Nat) (tag : Tag) :
    Outcome (List LightNode × List Nat) :=
  let (nodes, stack) := state
  if tag.closing then
    match stack with
    | [] => refuse "malformed XML nesting"
    | top :: rest => do
      let node ← expect nodes[top]?
      if node.name ≠ tag.name then refuse "malformed XML nesting"
      else pure (nodes.set top { node with closeStart := tag.start, stop := tag.stop }, rest)
  else
    let index := nodes.length
    pure (lightLink stack index nodes ++ [tag.toLightNode stack.head?],
      if tag.selfClosing then stack else index :: stack)

def buildLightTree (tags : List Tag) : Outcome (List LightNode) := do
  let (nodes, stack) ← tags.foldlM buildLightStep ([], [])
  if stack = [] then pure nodes else refuse "unclosed elements"

def lightNodesAt (nodes : List LightNode) (indices : List Nat) : List LightNode :=
  indices.filterMap fun i => nodes[i]?

/-! ## Properties -/

section PropertyBlock

variable (allow refused : List String) (what : String)

def numPrChild (xml : Bytes) (child : LightNode) : Outcome Bytes :=
  if child.name ∈ keptNumPrChildren then .ok (slice xml child.openStart child.stop)
  else if child.name ∈ droppedNumPrChildren then .ok []
  else refuse ("invalid-structure: " ++ what ++ " carries `numPr/" ++ child.name ++
    "`, which this build does not know how to inherit safely; nothing was written")

/-- One child of a property block; `recurse` takes the block of a paragraph mark. -/
def propertyChild (recurse : Bytes → List LightNode → LightNode → Outcome Bytes)
    (xml : Bytes) (nodes : List LightNode) (child : LightNode) : Outcome Bytes :=
  if child.name ∈ refused then .ok []
  else if child.name = "rPr" then do
    let inner := slice xml child.openStart child.stop
    let innerNodes ← buildLightTree (scanTags inner)
    match innerNodes.head? with
    | some root => recurse inner innerNodes root
    | none => .ok []
  else if child.name = "numPr" then do
    let kept ← (lightNodesAt nodes child.children).mapM (numPrChild what xml)
    .ok (slice xml child.openStart child.openEnd ++ kept.flatten ++
      (if child.stop = child.openEnd then [] else slice xml child.closeStart child.stop))
  else if child.name ∉ allow then
    refuse ("invalid-structure: " ++ what ++ " carries `" ++ child.name ++
      "`, which this build does not know how to inherit safely; nothing was written")
  else .ok (slice xml child.openStart child.stop)

/-- The block of a paragraph mark is taken through the lists for run properties. -/
def safePropertyBlockFuel : Nat → List String → List String → Bytes → List LightNode → LightNode →
    Outcome Bytes
  | 0, _, _, _, _, _ => .error .panic
  | fuel + 1, allow, refused, xml, nodes, node => do
    let children ← (lightNodesAt nodes node.children).mapM
      (propertyChild allow refused what
        (safePropertyBlockFuel fuel safeRprChildren refusedRprChildren) xml nodes)
    pure (slice xml node.openStart node.openEnd ++ children.flatten ++
      (if node.stop = node.openEnd then [] else slice xml node.closeStart node.stop))

def safePropertyBlock (xml : Bytes) (nodes : List LightNode) (node : LightNode) : Outcome Bytes :=
  safePropertyBlockFuel what (xml.length + 1) allow refused xml nodes node

end PropertyBlock

/-! ## A new paragraph -/

/-- The run properties of the first run that holds text; a child stands behind its parent, so the
number of nodes is fuel enough. -/
def firstRunRprFrom (paragraph : Bytes) (nodes : List LightNode) : Nat → Nat → Option Text
  | 0, _ => none
  | fuel + 1, index =>
    match nodes[index]? with
    | none => none
    | some node =>
      let children := lightNodesAt nodes node.children
      if node.name = "r" then
        if children.any fun child => child.name == "t" || child.name == "delText" then
          some (decodeLossy (((children.find? fun child => child.name == "rPr").map fun child =>
            slice paragraph child.openStart child.stop).getD []))
        else none
      else node.children.findSome? (firstRunRprFrom paragraph nodes fuel)

def firstRunRpr (paragraph : Bytes) (nodes : List LightNode) (root : Nat) : Option Text :=
  firstRunRprFrom paragraph nodes nodes.length root

def runProperties (what : String) (rpr : Text) : Outcome Bytes :=
  if rpr = [] then .ok []
  else do
    let nodes ← buildLightTree (scanTags (utf8 rpr))
    match nodes.head? with
    | some node => safePropertyBlock safeRprChildren refusedRprChildren what (utf8 rpr) nodes node
    | none => .ok []

def paragraphProperties (what : String) (inherit : Bytes) (nodes : List LightNode)
    (root : LightNode) : Outcome Bytes :=
  match (lightNodesAt nodes root.children).find? fun child => child.name == "pPr" with
  | some child =>
    safePropertyBlock safePprChildren refusedPprChildren what inherit nodes child
  | none => .ok []

def renderNewParagraph (part : Bytes) (located : List (String × Nat × Nat))
    (paragraph : NewParagraph) : Outcome Bytes :=
  match located.find? fun entry => entry.1 == String.ofList paragraph.inherit with
  | none => refuse ("inherit paragraph not found: " ++ String.ofList paragraph.inherit)
  | some (_, start, stop) => do
    let inherit := slice part start stop
    let nodes ← buildLightTree (scanTags inherit)
    match nodes.findIdx? fun node => node.parent.isNone with
    | none => refuse "no paragraph root"
    | some index => do
      let root ← expect nodes[index]?
      let opening := if root.stop = root.openEnd then (inherit.take root.openEnd).dropLast
        else inherit.take root.openEnd
      if paragraph.formatPolicy = .none then
        pure (paragraphBytes opening [] [] paragraph.body)
      else do
        let what := propertiesOf paragraph.inherit
        let ppr ← paragraphProperties what inherit nodes root
        let rpr ← runProperties what ((firstRunRpr inherit nodes index).getD [])
        pure (paragraphBytes opening ppr rpr paragraph.body)

/-! ## The part -/

def findNamed (nodes : List LightNode) (name : String) : Nat → Nat → Option Nat
  | 0, _ => none
  | fuel + 1, index =>
    match nodes[index]? with
    | none => none
    | some node =>
      if node.name = name then some index
      else node.children.findSome? (findNamed nodes name fuel)

def bodyAppendOffset (part : Bytes) : Outcome Nat := do
  let nodes ← buildLightTree (scanTags part)
  match ((List.range nodes.length).findSome? (findNamed nodes "body" nodes.length)).bind
      (nodes[·]?) with
  | none => refuse "no body element"
  | some body =>
    match (lightNodesAt nodes body.children).find? fun child => child.name == "sectPr" with
    | some child => pure child.openStart
    | none => pure body.closeStart

def deletedSpan (located : List (String × Nat × Nat)) (paragraphId : Text) :
    Outcome ParagraphSpan :=
  match (indexOf located paragraphId).bind (located[·]?) with
  | none => refuse ("deleted paragraph not found: " ++ String.ofList paragraphId)
  | some (_, start, stop) => pure ⟨start, stop, [], none⟩

def newSpan (part : Bytes) (located : List (String × Nat × Nat)) (edits : StructureEdits)
    (appendAt : Nat) (paragraph : NewParagraph) : Outcome ParagraphSpan := do
  let deleted := edits.deletedParagraphs.map (·.paragraphId)
  let start ← match paragraph.insertBefore with
    | none => .ok appendAt
    | some anchor =>
      anchorOffset located deleted appendAt edits.newParagraphs (edits.newParagraphs.length + 1) []
        anchor
  let content ← renderNewParagraph part located paragraph
  pure ⟨start, start, content, none⟩

def structureSpans (part : Bytes) (edits : StructureEdits) : Outcome (List ParagraphSpan) := do
  let located ← locateParagraphs part "document"
  let appendAt ← bodyAppendOffset part
  let dropped ← (edits.deletedParagraphs.map (·.paragraphId)).mapM (deletedSpan located)
  let added ← edits.newParagraphs.reverse.mapM (newSpan part located edits appendAt)
  pure (sortSpans (dropped ++ added))

def recomputeStructurePart (part : Bytes) (edits : StructureEdits) : Outcome Bytes := do
  let spans ← structureSpans part edits
  applySpans part "overlapping paragraph splices" 0 spans

end Docx2Typed.Verify
