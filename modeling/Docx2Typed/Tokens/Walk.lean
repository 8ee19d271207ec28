import Docx2Typed.Draft.Markup
import Docx2Typed.Projection.Segments

/-!
# The token walk, written twice

`token_table` walks every paragraph of a package and allocates `N0`, `N1`, ... from one counter;
`paragraph_nodes` walks the same paragraphs and builds their trees, allocating again.  The two
walks share the counter's rule and nothing else.

The counter is the number of records so far.  Of a record the XML as `ElementTree` would write it
is left out: nothing else in the walk reads it.  The recursion over the element tree carries fuel,
as in the inventory.
-/

namespace Docx2Typed

open Library (findSub)
open Library.Utf8 (decodeLossy)

/-! ## Names -/

/-- Prefixes with their namespaces; the first declaration of a prefix counts. -/
abbrev Namespaces := List (Text × Text)

/-- One `xmlns:PREFIX="URI"`, from behind the `=`.  A text that ends there panics. -/
def namespaceValue (declared rest : Text) : Outcome Namespaces :=
  match rest with
  | [] => .error .panic
  | quote :: value =>
    if (quote = '"' ∨ quote = '\'') ∧ quote ∈ value ∧ declared ≠ [] ∧
        ¬ declared.any [' ', '\t', '\n', '\r'].contains then
      pure [(declared, value.takeWhile (· ≠ quote))]
    else pure []

def namespacesFrom : Nat → Text → Outcome Namespaces
  | 0, _ => pure []
  | fuel + 1, text =>
    match findSub "xmlns:".toList text with
    | none => pure []
    | some offset =>
      let declaration := text.drop (offset + "xmlns:".toList.length)
      if '=' ∉ declaration then pure []
      else do
        let rest := (declaration.dropWhile (· ≠ '=')).drop 1
        let here ← namespaceValue (trim (declaration.takeWhile (· ≠ '='))) rest
        let others ← namespacesFrom fuel rest
        pure (here ++ others)

/-- `part_namespaces`. -/
def partNamespaces (xml : Bytes) : Outcome Namespaces :=
  let text := decodeLossy xml
  namespacesFrom (text.length + 1) text

/-- The namespaces `qname` spells with a prefix of its own. -/
def knownNamespaces : List (Text × Text) :=
  [("http://schemas.openxmlformats.org/wordprocessingml/2006/main", "w"),
    ("http://schemas.openxmlformats.org/officeDocument/2006/relationships", "r"),
    ("http://schemas.microsoft.com/office/word/2012/wordml", "w15"),
    ("http://www.w3.org/XML/1998/namespace", "xml"),
    ("http://schemas.microsoft.com/office/word/2023/wordml/word16du", "w16du")].map
      fun entry => (entry.1.toList, entry.2.toList)

def qname (literal : Text) (namespaces : Namespaces) : Text :=
  match splitOnce ':' literal with
  | none => literal
  | some (declared, localName) =>
    match namespaces.lookup declared with
    | none => literal
    | some uri =>
      match knownNamespaces.lookup uri with
      | some known => known ++ [':'] ++ localName
      | none => ['{'] ++ uri ++ ['}'] ++ localName

/-! ## Records -/

/-- `TokenRecord`. -/
structure TokenRecord where
  id : Text
  kind : Text
  attrs : AttrMap
  part : String
  paragraphId : String
  /-- Byte range of the token's element inside its part. -/
  start : Nat
  stop : Nat
  openTag : Text
  closeTag : Text
  styleId : String

/-- What the walk of one paragraph reads. -/
structure TokenContext extends PartTree where
  namespaces : Namespaces
  part : String
  paragraphId : String

def tokenId (n : Nat) : Text := 'N' :: n.repr.toList

/-- `Walker::add`, `Walker::add_styled`: the next id, and the records with one more. -/
def addToken (ctx : TokenContext) (tokens : List TokenRecord) (kind : Text) (attrs : AttrMap)
    (node : ElementNode) (styleId : String) : List TokenRecord :=
  tokens ++ [
    { id := tokenId tokens.length
      kind
      attrs
      part := ctx.part
      paragraphId := ctx.paragraphId
      start := node.openStart
      stop := node.stop
      openTag := decodeLossy (slice ctx.xml node.openStart node.openEnd)
      closeTag :=
        if node.selfClosing then [] else decodeLossy (slice ctx.xml node.closeStart node.stop)
      styleId }]

@[simp] theorem length_addToken (ctx : TokenContext) (tokens : List TokenRecord) (kind : Text)
    (attrs : AttrMap) (node : ElementNode) (styleId : String) :
    (addToken ctx tokens kind attrs node styleId).length = tokens.length + 1 := by
  simp [addToken]

/-- The name and the attributes of an element, in prefixes `qname` knows. -/
def tagOf (ctx : TokenContext) (node : ElementNode) : Text × AttrMap :=
  (qname (elementQname ctx.xml node) ctx.namespaces,
    (canonicalAttributePairs (slice ctx.xml node.openStart node.stop)).foldl
      (fun attrs pair => attrs.insert (qname pair.1 ctx.namespaces) pair.2) AttrMap.empty)

def tagAttrs (tag : Text) : AttrMap := AttrMap.empty.insert "tag".toList tag

/-- `anchor_kind`. -/
def anchorKind (name : String) : Option Text :=
  if name = "bookmarkStart" then some "bookmark-start".toList
  else if name = "bookmarkEnd" then some "bookmark-end".toList
  else if name = "commentRangeStart" then some "comment-start".toList
  else if name = "commentRangeEnd" then some "comment-end".toList
  else none

/-! ## Runs -/

/-- `Walker::style_of`. -/
def styleOf (ctx : TokenContext) (rpr : ElementNode) : String :=
  match styleIdForRpr ctx.crates (decodeLossy (slice ctx.xml rpr.openStart rpr.stop)) with
  | .ok styleId => styleId
  | .error _ => defaultStyleId ctx.crates

/-- The last `rPrChange` of an rPr, or the one found before. -/
def changeOf (ctx : TokenContext) (rpr : ElementNode) (found : Option ElementNode) :
    Option ElementNode :=
  (nodesAt ctx.nodes rpr.children).foldl
    (fun found inner => if inner.name = "rPrChange" then some inner else found) found

def isTextChild (child : ElementNode) : Bool := child.name == "t" || child.name == "delText"

/-- The state of the flat walk within one run. -/
structure FlatRun where
  tokens : List TokenRecord
  style : String
  rprChange : Option ElementNode := none
  sawContent : Bool := false

/-- What follows the children of a run: its format history, then the mark of an empty run. -/
def FlatRun.finish (ctx : TokenContext) (run : ElementNode) (s : FlatRun) : List TokenRecord :=
  let changed := match s.rprChange with
    | some change =>
      addToken ctx s.tokens "rpr-change".toList (tagAttrs "w:rPrChange".toList) change s.style
    | none => s.tokens
  if s.sawContent then changed
  else addToken ctx changed "empty-run".toList (tagOf ctx run).2 run s.style

/-- `Walker::run`, from one child on. -/
def runFrom (ctx : TokenContext) (run : ElementNode) (s : FlatRun) :
    List ElementNode → List TokenRecord
  | [] => s.finish ctx run
  | child :: rest =>
    if child.name = "rPr" then
      runFrom ctx run
        { s with style := styleOf ctx child, rprChange := changeOf ctx child s.rprChange } rest
    else if isTextChild child then runFrom ctx run { s with sawContent := true } rest
    else if knownInline.contains child.name.toList then
      runFrom ctx run
        { s with
          tokens := addToken ctx s.tokens child.name.toList (tagOf ctx child).2 child s.style
          sawContent := true } rest
    -- an unknown child makes the whole run opaque, and the walk of the run stops here
    else addToken ctx s.tokens "unsupported-run".toList (tagAttrs (tagOf ctx child).1) run s.style

def walkRun (ctx : TokenContext) (tokens : List TokenRecord) (run : ElementNode) :
    List TokenRecord :=
  runFrom ctx run { tokens, style := defaultStyleId ctx.crates } (nodesAt ctx.nodes run.children)

/-- `merge_adjacent_text`, with the nodes merged so far. -/
def mergeStep (merged : List TypedNode) (node : TypedNode) : List TypedNode :=
  match node, merged.getLast? with
  | .text styleId content vertical, some (.text lastStyle lastContent lastVertical) =>
    if lastStyle = styleId ∧ lastVertical = vertical then
      merged.dropLast ++ [.text lastStyle (lastContent ++ content) lastVertical]
    else merged ++ [node]
  | _, _ => merged ++ [node]

def mergeAdjacentText (nodes : List TypedNode) : List TypedNode := nodes.foldl mergeStep []

/-- The state of the tree walk within one run. -/
structure TreeRun where
  tokens : List TokenRecord
  style : String
  rprChange : Option ElementNode := none
  out : List TypedNode := []

def TreeRun.finish (ctx : TokenContext) (run : ElementNode) (s : TreeRun) :
    List TypedNode × List TokenRecord :=
  let (out, changed) := match s.rprChange with
    | some change =>
      (s.out ++ [TypedNode.inline (tokenId s.tokens.length) "rpr-change".toList s.style.toList
          (tagAttrs "w:rPrChange".toList)],
        addToken ctx s.tokens "rpr-change".toList (tagAttrs "w:rPrChange".toList) change s.style)
    | none => (s.out, s.tokens)
  if out.isEmpty then
    ([TypedNode.inline (tokenId changed.length) "empty-run".toList s.style.toList (tagOf ctx run).2],
      addToken ctx changed "empty-run".toList (tagOf ctx run).2 run s.style)
  else (mergeAdjacentText out, changed)

/-- `Walker::run_nodes`, from one child on. -/
def runNodesFrom (ctx : TokenContext) (run : ElementNode) (s : TreeRun) :
    List ElementNode → List TypedNode × List TokenRecord
  | [] => s.finish ctx run
  | child :: rest =>
    if child.name = "rPr" then
      runNodesFrom ctx run
        { s with style := styleOf ctx child, rprChange := changeOf ctx child s.rprChange } rest
    else if isTextChild child then
      let text := decodedText (slice ctx.xml (textRange child).1 (textRange child).2)
      runNodesFrom ctx run { s with out := s.out ++ [.text s.style.toList text none] } rest
    else if knownInline.contains child.name.toList then
      let attrs := (tagOf ctx child).2
      runNodesFrom ctx run
        { s with
          tokens := addToken ctx s.tokens child.name.toList attrs child s.style
          out := s.out ++
            [.inline (tokenId s.tokens.length) child.name.toList s.style.toList attrs] } rest
    else
      let attrs := tagAttrs (tagOf ctx child).1
      ([.opaqueToken (tokenId s.tokens.length) "unsupported-run".toList attrs],
        addToken ctx s.tokens "unsupported-run".toList attrs run s.style)

def walkRunNodes (ctx : TokenContext) (tokens : List TokenRecord) (run : ElementNode) :
    List TypedNode × List TokenRecord :=
  runNodesFrom ctx run { tokens, style := defaultStyleId ctx.crates }
    (nodesAt ctx.nodes run.children)

/-! ## Containers -/

/-- One child of a container, in the flat walk. -/
def containerChild (ctx : TokenContext)
    (recurse : List TokenRecord → List ElementNode → List TokenRecord) (tokens : List TokenRecord)
    (node : ElementNode) : List TokenRecord :=
  if node.name = "pPr" then tokens
  else if node.name = "proofErr" then
    addToken ctx tokens "opaque".toList (tagAttrs "w:proofErr".toList) node ""
  else if node.name = "r" then walkRun ctx tokens node
  else if node.name = "hyperlink" then
    recurse (addToken ctx tokens "hyperlink".toList (tagOf ctx node).2 node "")
      (nodesAt ctx.nodes node.children)
  else if (revisionKind node.name).isSome then
    recurse (addToken ctx tokens "revision".toList (tagOf ctx node).2 node "")
      (nodesAt ctx.nodes node.children)
  else
    match anchorKind node.name with
    | some kind => addToken ctx tokens kind (tagOf ctx node).2 node ""
    | none => addToken ctx tokens "opaque".toList (tagAttrs (tagOf ctx node).1) node ""

/-- `Walker::container`. -/
def container (ctx : TokenContext) :
    Nat → List TokenRecord → List ElementNode → List TokenRecord
  | 0, tokens, _ => tokens
  | fuel + 1, tokens, children => children.foldl (containerChild ctx (container ctx fuel)) tokens

/-- One child of a container, in the tree walk: its nodes. -/
def containerNodesChild (ctx : TokenContext)
    (recurse : List TokenRecord → List ElementNode → List TypedNode × List TokenRecord)
    (tokens : List TokenRecord) (node : ElementNode) : List TypedNode × List TokenRecord :=
  let id := tokenId tokens.length
  let attrs := (tagOf ctx node).2
  if node.name = "pPr" then ([], tokens)
  else if node.name = "proofErr" then
    ([.opaqueToken id "opaque".toList (tagAttrs "w:proofErr".toList)],
      addToken ctx tokens "opaque".toList (tagAttrs "w:proofErr".toList) node "")
  else if node.name = "r" then walkRunNodes ctx tokens node
  else if node.name = "hyperlink" then
    let (inner, tokens') := recurse (addToken ctx tokens "hyperlink".toList attrs node "")
      (nodesAt ctx.nodes node.children)
    ([.range id "hyperlink".toList attrs inner], tokens')
  else
    match revisionKind node.name with
    | some kind =>
      let (inner, tokens') := recurse (addToken ctx tokens "revision".toList attrs node "")
        (nodesAt ctx.nodes node.children)
      ([.revision id kind.toList attrs inner], tokens')
    | none =>
      match anchorKind node.name with
      | some kind => ([.anchor id kind attrs], addToken ctx tokens kind attrs node "")
      | none =>
        ([.opaqueToken id "opaque".toList (tagAttrs (tagOf ctx node).1)],
          addToken ctx tokens "opaque".toList (tagAttrs (tagOf ctx node).1) node "")

/-- The loop over the children of a container. -/
def containerNodesLoop (ctx : TokenContext)
    (recurse : List TokenRecord → List ElementNode → List TypedNode × List TokenRecord) :
    List TypedNode → List TokenRecord → List ElementNode → List TypedNode × List TokenRecord
  | out, tokens, [] => (out, tokens)
  | out, tokens, node :: rest =>
    let (nodes, tokens') := containerNodesChild ctx recurse tokens node
    containerNodesLoop ctx recurse (out ++ nodes) tokens' rest

/-- `Walker::container_nodes`. -/
def containerNodes (ctx : TokenContext) :
    Nat → List TokenRecord → List ElementNode → List TypedNode × List TokenRecord
  | 0, tokens, _ => ([], tokens)
  | fuel + 1, tokens, children =>
    let (out, tokens') := containerNodesLoop ctx (containerNodes ctx fuel) [] tokens children
    (mergeAdjacentText out, tokens')

/-! ## Paragraph marks -/

/-- The `ins` and `del` inside the rPr of a pPr, in document order. -/
def paragraphMarks (ctx : TokenContext) (children : List ElementNode) : List ElementNode :=
  (children.filter (·.name = "pPr")).flatMap fun ppr =>
    ((nodesAt ctx.nodes ppr.children).filter (·.name = "rPr")).flatMap fun rpr =>
      (nodesAt ctx.nodes rpr.children).filter fun mark => mark.name = "ins" ∨ mark.name = "del"

def addMark (ctx : TokenContext) (tokens : List TokenRecord) (mark : ElementNode) :
    List TokenRecord :=
  addToken ctx tokens "paragraph-mark".toList (tagOf ctx mark).2 mark ""

/-- `Walker::paragraph_mark`: a token for every mark. -/
def paragraphMark (ctx : TokenContext) (tokens : List TokenRecord) (children : List ElementNode) :
    List TokenRecord :=
  (paragraphMarks ctx children).foldl (addMark ctx) tokens

/-- `Walker::paragraph_mark_token`: a token for the first mark. -/
def paragraphMarkToken (ctx : TokenContext) (tokens : List TokenRecord)
    (children : List ElementNode) : Option (Text × Text × AttrMap) × List TokenRecord :=
  match paragraphMarks ctx children with
  | [] => (none, tokens)
  | mark :: _ =>
    let kind := if mark.name = "ins" then "insert".toList else "delete".toList
    (some (kind, tokenId tokens.length, (tagOf ctx mark).2), addMark ctx tokens mark)

/-! ## Parts -/

/-- `ParagraphNodes`. -/
structure ParagraphNodes where
  part : String
  paragraphId : String
  start : Nat
  nodes : List TypedNode
  mark : Option (Text × Text × AttrMap)
  sectionBearing : Bool

/-- One part as both walks read it: its tree, its namespaces and its paragraphs. -/
structure WalkedPart extends PartTree where
  part : String
  namespaces : Namespaces
  located : List (String × Nat × Nat)

/-- The body first, then headers, footers, notes, and what is left, each by key. -/
def partRank (key : String) : Nat :=
  if "header".toList.isPrefixOf key.toList then 0
  else if "footer".toList.isPrefixOf key.toList then 1
  else if key = "footnotes" ∨ key = "endnotes" then 2
  else 3

def walkOrder (parts : PartMap) : List String :=
  "document" :: ((parts.map (·.1)).filter (· ≠ "document")).insertionSort fun a b =>
    partRank a < partRank b ∨ (partRank a = partRank b ∧ a ≤ b)

/-- What both walks do before they walk a part. -/
def openPart (crates : Crates) (parts : PartMap) (part : String) : Outcome (Option WalkedPart) :=
  match parts.lookup part with
  | none => pure none
  | some xml => do
    let nodes ← buildTree (scanTags xml)
    let located ← locateParagraphs part xml
    let namespaces ← partNamespaces xml
    pure (some ⟨⟨crates, xml, nodes⟩, part, namespaces, located⟩)

def WalkedPart.context (walked : WalkedPart) (paragraphId : String) : TokenContext :=
  ⟨walked.toPartTree, walked.namespaces, walked.part, paragraphId⟩

/-- The flat walk of one located paragraph. -/
def walkParagraph (walked : WalkedPart) (tokens : List TokenRecord)
    (located : String × Nat × Nat) : List TokenRecord :=
  match findParagraphNode walked.nodes located.2.1 located.2.2 with
  | none => tokens
  | some root =>
    let ctx := walked.context located.1
    let children := nodesAt walked.nodes root.children
    paragraphMark ctx (container ctx walked.nodes.length tokens children) children

/-- The tree walk of one located paragraph. -/
def walkParagraphNodes (walked : WalkedPart) (s : List ParagraphNodes × List TokenRecord)
    (located : String × Nat × Nat) : List ParagraphNodes × List TokenRecord :=
  match findParagraphNode walked.nodes located.2.1 located.2.2 with
  | none => s
  | some root =>
    let ctx := walked.context located.1
    let children := nodesAt walked.nodes root.children
    let (nodes, tokens) := containerNodes ctx walked.nodes.length s.2 children
    let (mark, tokens') := paragraphMarkToken ctx tokens children
    (s.1 ++ [
      { part := walked.part
        paragraphId := located.1
        start := located.2.1
        nodes
        mark
        sectionBearing := children.any fun child =>
          child.name == "pPr" && (nodesAt walked.nodes child.children).any (·.name == "sectPr") }],
      tokens')

/-- The parts of a package in the order of the walks. -/
def walkedParts (crates : Crates) (package : Bytes) : Outcome (List WalkedPart) := do
  let parts ← partXmlMembers crates package
  let opened ← (walkOrder parts).mapM (openPart crates parts)
  pure (opened.filterMap id)

/-- `token_table`. -/
def tokenTable (crates : Crates) (package : Bytes) : Outcome (List TokenRecord) := do
  let parts ← walkedParts crates package
  pure (parts.foldl (fun tokens walked => walked.located.foldl (walkParagraph walked) tokens) [])

/-- `paragraph_nodes`, with the records its own counter holds at the end. -/
def paragraphNodes (crates : Crates) (package : Bytes) :
    Outcome (List ParagraphNodes × List TokenRecord) := do
  let parts ← walkedParts crates package
  pure (parts.foldl (fun s walked => walked.located.foldl (walkParagraphNodes walked) s) ([], []))

end Docx2Typed
