import Docx2Typed.XmlWalker

/-!
# Locating paragraphs

`scan_document` and `scan_part` of `prose.rs`: one pass over the tags of a part that hands out a
typed id (`P{n}`, `T{t}.R{r}.C{c}.P{p}`, `B{b}.P{p}`, `S{s}.P{p}`, `header1.P{n}`, ...) and a byte
range for every paragraph it locates, in the order in which the paragraphs close.

The open elements are kept innermost first.  `bodyDepth` and the chains the classifiers read are
counted from the outside, as in the source, so a chain is the reversed stack below the body.
-/

namespace Docx2Typed

/-- The kind of one located paragraph. -/
inductive ParagraphPath where
  | direct
  | box (boxIndex : Int) (pOrdinal : Nat)
  | sdt (sdtIndex : Int) (pOrdinal : Nat)
  | cell (tableIndex : Int) (chain : List (String × Nat))
  deriving DecidableEq, Repr

/-- The ordinal a chain ends up with for one element name: the innermost one wins. -/
def chainValue (name : String) (chain : List (String × Nat)) : Nat :=
  (chain.reverse.lookup name).getD 0

def ParagraphPath.id : ParagraphPath → String
  | .direct => ""
  | .box boxIndex pOrdinal => "B" ++ toString boxIndex ++ ".P" ++ toString pOrdinal
  | .sdt sdtIndex pOrdinal => "S" ++ toString sdtIndex ++ ".P" ++ toString pOrdinal
  | .cell tableIndex chain =>
    "T" ++ toString tableIndex ++ ".R" ++ toString (chainValue "tr" chain) ++ ".C" ++
      toString (chainValue "tc" chain) ++ ".P" ++ toString (chainValue "p" chain)

/-! ## What a chain of element names, outermost first, stands for -/

def isSdtContentStack (chain : List String) : Bool :=
  chain.head? == some "sdt" && (chain.drop 1).all fun name => name == "sdtPr" || name == "sdtEndPr"

def isSdtParagraphStack (chain : List String) : Bool :=
  chain.getLast? == some "p" && chain.length == 3 && chain[0]? == some "sdt" &&
    chain[1]? == some "sdtContent"

def isBoxParagraphStack (chain : List String) : Bool :=
  chain.getLast? == some "p" && chain.contains "txbxContent" &&
    !chain.any fun name => name == "tbl" || name == "tr" || name == "tc"

/-- The name a cell paragraph's chain must carry at a level counted from the paragraph. -/
def cellLevelName (level : Nat) : String :=
  match level % 3 with
  | 0 => "tc"
  | 1 => "tr"
  | _ => "tbl"

def isCellParagraphStack (chain : List String) : Bool :=
  chain.getLast? == some "p" && decide (4 ≤ chain.length) &&
    chain.dropLast.reverse.zipIdx.all fun entry => entry.1 == cellLevelName entry.2

/-! ## `scan_document` -/

/-- One open element: its name, where it starts, and its ordinal among its parent's children of
that name. -/
structure Frame where
  name : String
  start : Nat
  ordinal : Nat
  deriving DecidableEq, Repr

/-- The counter of one parent's children of one name.  The source writes `usize::MAX` for the
missing parent, which is the start of no element. -/
structure OrdinalKey where
  depth : Nat
  parentStart : Option Nat
  name : String
  deriving DecidableEq, Repr

structure ScanState where
  /-- Open elements, innermost first. -/
  stack : List Frame := []
  ordinals : List (OrdinalKey × Nat) := []
  bodyDepth : Option Nat := none
  /-- Located so far: start, end and kind. -/
  paragraphStarts : List (Nat × Nat × ParagraphPath) := []
  tableOrdinal : Int := -1
  openTables : List (Int × Nat) := []
  boxOrdinal : Int := -1
  openBoxes : List (Int × Nat) := []
  sdtOrdinal : Int := -1
  openSdts : List (Int × Nat) := []

/-- The open elements below the body, outermost first. -/
def ScanState.below (s : ScanState) (bodyDepth : Nat) : List Frame :=
  s.stack.reverse.drop (bodyDepth + 1)

def ScanState.chain (s : ScanState) (bodyDepth : Nat) : List String :=
  (s.below bodyDepth).map (·.name)

/-- `in_body_paragraph`: the open body child is a paragraph. -/
def ScanState.inBodyParagraph (s : ScanState) (bodyDepth : Nat) : Bool :=
  (s.below bodyDepth).head?.any (·.name == "p")

/-- The container of a list of open containers (innermost first) that an element starting at
`start` closes, if it is the innermost one. -/
def popOpen (closes : Bool) (start : Nat) : List (Int × Nat) → List (Int × Nat)
  | [] => []
  | top :: rest => if closes ∧ top.2 = start then rest else top :: rest

/-- What the paragraph closed by `tag` is located as, if at all. -/
def closingPath (s : ScanState) (bodyDepth : Nat) (top : Frame) (tag : Tag) :
    Outcome (Option ParagraphPath) :=
  let depth := s.stack.length
  if tag.name = "p" ∧ depth = bodyDepth + 2 then pure (some .direct)
  else if tag.name = "p" ∧ bodyDepth + 1 < depth ∧
      (s.openTables ≠ [] ∨ s.openBoxes ≠ [] ∨ s.openSdts ≠ []) then
    let chain := s.chain bodyDepth
    if isBoxParagraphStack chain then do
      let box ← expect s.openBoxes.head?
      pure (some (.box box.1 top.ordinal))
    else if isSdtParagraphStack chain then do
      let sdt ← expect s.openSdts.head?
      pure (some (.sdt sdt.1 top.ordinal))
    else if isCellParagraphStack chain then do
      let table ← expect s.openTables.head?
      pure (some (.cell table.1 ((s.below bodyDepth).map fun frame => (frame.name, frame.ordinal))))
    else pure none
  else pure none

def scanClosing (s : ScanState) (tag : Tag) : Outcome ScanState :=
  match s.stack with
  | [] => refuse s!"malformed document XML nesting near {tag.rawName}"
  | top :: rest =>
    if top.name ≠ tag.name then refuse s!"malformed document XML nesting near {tag.rawName}"
    else
      match s.bodyDepth with
      | none => refuse "document XML has no body element"
      | some bodyDepth => do
        let path ← closingPath s bodyDepth top tag
        pure { s with
          stack := rest
          paragraphStarts :=
            s.paragraphStarts ++ (path.map fun path => (top.start, tag.stop, path)).toList
          openTables := popOpen (tag.name == "tbl") top.start s.openTables
          openBoxes := popOpen (tag.name == "txbxContent") top.start s.openBoxes
          openSdts := popOpen (tag.name == "sdtContent") top.start s.openSdts }

/-- The counter an opening tag belongs to. -/
def ScanState.keyOf (s : ScanState) (tag : Tag) : OrdinalKey :=
  ⟨s.stack.length - 1, s.stack.head?.map (·.start), tag.name⟩

def ScanState.ordinalOf (s : ScanState) (tag : Tag) : Nat :=
  (s.ordinals.lookup (s.keyOf tag)).getD 0

/-- Count the tag and note the body. -/
def ScanState.count (s : ScanState) (tag : Tag) : ScanState :=
  { s with
    ordinals := (s.keyOf tag, s.ordinalOf tag + 1) :: s.ordinals
    bodyDepth :=
      if tag.name = "body" ∧ s.bodyDepth = none then some s.stack.length else s.bodyDepth }

def ScanState.pushSdt (s : ScanState) (bodyDepth : Nat) (tag : Tag) : ScanState :=
  if tag.name = "sdtContent" ∧ bodyDepth + 1 < s.stack.length ∧
      isSdtContentStack (s.chain bodyDepth) then
    { s with sdtOrdinal := s.sdtOrdinal + 1, openSdts := (s.sdtOrdinal + 1, tag.start) :: s.openSdts }
  else s

def ScanState.pushBox (s : ScanState) (bodyDepth : Nat) (tag : Tag) : ScanState :=
  if tag.name = "txbxContent" ∧ bodyDepth + 1 < s.stack.length ∧ s.inBodyParagraph bodyDepth then
    { s with boxOrdinal := s.boxOrdinal + 1, openBoxes := (s.boxOrdinal + 1, tag.start) :: s.openBoxes }
  else s

/-- A table counts at body level, or directly in a cell. -/
def ScanState.pushTable (s : ScanState) (bodyDepth : Nat) (tag : Tag) : ScanState :=
  if tag.name = "tbl" ∧ (s.stack.length = bodyDepth + 1 ∨
      (bodyDepth + 1 < s.stack.length ∧ s.stack.head?.any (·.name == "tc"))) then
    { s with
      tableOrdinal := s.tableOrdinal + 1
      openTables := (s.tableOrdinal + 1, tag.start) :: s.openTables }
  else s

def scanOpening (s : ScanState) (tag : Tag) : ScanState :=
  let frame : Frame := ⟨tag.name, tag.start, s.ordinalOf tag⟩
  let counted := s.count tag
  match counted.bodyDepth with
  | none => if tag.selfClosing then counted else { counted with stack := frame :: s.stack }
  | some bodyDepth =>
    if tag.name = "p" ∧ s.stack.length = bodyDepth + 1 then
      if tag.selfClosing then
        { counted with
          paragraphStarts := s.paragraphStarts ++ [(tag.start, tag.stop, .direct)] }
      else { counted with stack := frame :: s.stack }
    else
      let opened := ((counted.pushSdt bodyDepth tag).pushBox bodyDepth tag).pushTable bodyDepth tag
      -- a body-level table is pushed even when its tag closes itself
      if tag.selfClosing ∧ ¬ (tag.name = "tbl" ∧ s.stack.length = bodyDepth + 1) then opened
      else { opened with stack := frame :: s.stack }

def scanDocumentStep (s : ScanState) (tag : Tag) : Outcome ScanState :=
  if tag.closing then scanClosing s tag else pure (scanOpening s tag)

/-- Direct paragraphs are numbered in closing order, the others carry their path's id. -/
def nameLocated : Nat → List (Nat × Nat × ParagraphPath) → List (String × Nat × Nat)
  | _, [] => []
  | directCount, (start, stop, path) :: rest =>
    match path with
    | .direct => ("P" ++ toString directCount, start, stop) :: nameLocated (directCount + 1) rest
    | path => (path.id, start, stop) :: nameLocated directCount rest

/-- The pass of `scan_document` over the tags: its final state, accepted. -/
def scanDocumentTags (tags : List Tag) : Outcome ScanState := do
  let s ← tags.foldlM scanDocumentStep {}
  if s.stack ≠ [] then refuse "document XML has unclosed elements"
  else if s.openTables ≠ [] ∨ s.openBoxes ≠ [] ∨ s.openSdts ≠ [] then
    refuse "document XML has unclosed containers"
  else if s.bodyDepth = none then refuse "document XML has no body element"
  else pure s

/-- `scan_document`: paragraph id, start, end, in scan order. -/
def scanDocument (xml : Bytes) : Outcome (List (String × Nat × Nat)) := do
  let s ← scanDocumentTags (scanTags xml)
  pure (nameLocated 0 s.paragraphStarts)

/-! ## `scan_part` -/

/-- The part key without its trailing digits. -/
def partBase (partKey : String) : String :=
  String.ofList (partKey.toList.reverse.dropWhile Char.isDigit).reverse

/-- The root element of a part, by the base of its key. -/
def partRootName (base : String) : Option String :=
  if base = "header" then some "hdr"
  else if base = "footer" then some "ftr"
  else if base = "footnotes" ∨ base = "endnotes" ∨ base = "comments" then some base
  else none

structure PartState where
  /-- Open elements, innermost first. -/
  stack : List (String × Nat) := []
  rootStart : Option Nat := none
  rootEnd : Option Nat := none
  paragraphs : List (Nat × Nat) := []
  cellParagraphs : List (String × Nat × Nat) := []
  tableOrdinal : Int := -1
  trOrdinal : Int := 0
  tcOrdinal : Int := 0
  cellPOrdinal : Int := 0
  openTables : List (Int × Nat) := []

/-- `hdr` and `ftr` parts hold tables; the note parts hold paragraphs one level deeper. -/
def isHeaderRoot (rootName : String) : Bool := rootName == "hdr" || rootName == "ftr"

/-- The three elements around the innermost one are a cell, its row and its table. -/
def inTableCell (stack : List (String × Nat)) : Bool :=
  ((stack.drop 1).take 3).map (·.1) == ["tc", "tr", "tbl"]

def cellParagraphId (partKey : String) (tableIndex trOrdinal tcOrdinal cellPOrdinal : Int) :
    String :=
  partKey ++ ".T" ++ toString tableIndex ++ ".R" ++ toString (trOrdinal - 1) ++ ".C" ++
    toString (tcOrdinal - 1) ++ ".P" ++ toString cellPOrdinal

/-- Note a paragraph of a table cell. -/
def PartState.closeCellParagraph (s : PartState) (partKey rootName : String) (topStart : Nat)
    (tag : Tag) : Outcome PartState :=
  if tag.name = "p" ∧ 5 ≤ s.stack.length ∧ isHeaderRoot rootName ∧ s.openTables ≠ [] ∧
      inTableCell s.stack then do
    let table ← expect s.openTables.head?
    let id := cellParagraphId partKey table.1 s.trOrdinal s.tcOrdinal s.cellPOrdinal
    pure { s with
      cellParagraphs := s.cellParagraphs ++ [(id, topStart, tag.stop)]
      cellPOrdinal := s.cellPOrdinal + 1 }
  else pure s

def partClosing (partKey rootName : String) (s : PartState) (tag : Tag) : Outcome PartState :=
  match s.stack with
  | [] => refuse s!"malformed {partKey} XML nesting near {tag.rawName}"
  | top :: rest =>
    if top.1 ≠ tag.name then refuse s!"malformed {partKey} XML nesting near {tag.rawName}"
    else do
      let depth := s.stack.length
      let isDirect := tag.name = "p" ∧
        ((depth = 2 ∧ isHeaderRoot rootName) ∨ (depth = 3 ∧ ¬ isHeaderRoot rootName))
      let s' ← { s with
        rootEnd := if tag.name = rootName ∧ depth = 1 then some tag.start else s.rootEnd
        paragraphs :=
          if isDirect then s.paragraphs ++ [(top.2, tag.stop)] else s.paragraphs
        }.closeCellParagraph partKey rootName top.2 tag
      pure { s' with
        openTables := popOpen (tag.name == "tbl") top.2 s'.openTables
        stack := rest }

def PartState.enterRoot (s : PartState) (rootName : String) (tag : Tag) : PartState :=
  if tag.name = rootName ∧ s.stack.length = 0 then
    { s with
      rootStart := some tag.start
      rootEnd := if tag.selfClosing then some tag.stop else s.rootEnd }
  else s

def PartState.enterTable (s : PartState) (rootName : String) (tag : Tag) : PartState :=
  if tag.name = "tbl" ∧ s.stack.length = 1 ∧ isHeaderRoot rootName then
    { s with
      tableOrdinal := s.tableOrdinal + 1
      trOrdinal := 0
      tcOrdinal := 0
      openTables := (s.tableOrdinal + 1, tag.start) :: s.openTables }
  else s

def PartState.enterRow (s : PartState) (tag : Tag) : PartState :=
  if tag.name = "tr" ∧ s.stack.length = 2 ∧ s.openTables ≠ [] then
    { s with trOrdinal := s.trOrdinal + 1, tcOrdinal := 0 }
  else s

def PartState.enterCell (s : PartState) (tag : Tag) : PartState :=
  if tag.name = "tc" ∧ s.stack.length = 3 ∧ s.openTables ≠ [] then
    { s with tcOrdinal := s.tcOrdinal + 1, cellPOrdinal := 0 }
  else s

def partOpening (rootName : String) (s : PartState) (tag : Tag) : PartState :=
  let entered := (((s.enterRoot rootName tag).enterTable rootName tag).enterRow tag).enterCell tag
  if tag.selfClosing then entered
  else { entered with stack := (tag.name, tag.start) :: s.stack }

def scanPartStep (partKey rootName : String) (s : PartState) (tag : Tag) : Outcome PartState :=
  if tag.closing then partClosing partKey rootName s tag else pure (partOpening rootName s tag)

/-- `scan_part`: the part's direct paragraphs first, then the cell paragraphs of its tables. -/
def scanPart (xml : Bytes) (partKey : String) : Outcome (List (String × Nat × Nat)) :=
  match partRootName (partBase partKey) with
  | none => refuse s!"unknown part key: {partKey}"
  | some rootName => do
    let s ← (scanTags xml).foldlM (scanPartStep partKey rootName) {}
    if s.stack ≠ [] ∨ s.rootStart = none then refuse s!"{partKey} XML has unclosed elements"
    else if s.rootEnd = none then refuse s!"no {rootName} root in {partKey}"
    else
      pure ((s.paragraphs.zipIdx.map fun entry =>
        (partKey ++ ".P" ++ toString entry.2, entry.1.1, entry.1.2)) ++ s.cellParagraphs)

end Docx2Typed
