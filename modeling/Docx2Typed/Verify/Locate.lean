import Docx2Typed.Prose.ParagraphIds.Part

/-!
# The paragraphs the verifier finds

`locate_paragraphs` of the verifier scans a part on its own: its tokens are found as the tag
scanner of Core finds them (`scan_angle` and `find_bytes` are the same functions there), but it
takes every ASCII white space for a space inside a tag and does not ask what follows the name of a
closing tag.  The pass over the tags is a second copy of `scan_document` and, for the other parts,
a shorter `scan_part`.
-/

namespace Docx2Typed.Verify

/-! ## Tags -/

/-- One structural token. -/
structure Tag where
  name : String
  closing : Bool
  selfClosing : Bool
  start : Nat
  stop : Nat
  deriving DecidableEq, Repr

/-- What one token is read as. -/
def readTag (token : Bytes) (start stop : Nat) : Option Tag :=
  if bytes "<!--" <+: token ∨ bytes "<?" <+: token ∨ bytes "<!" <+: token then none
  else
    let body := (token.drop 1).dropWhile isAsciiWhitespace
    if body.head? = some (byte '/') then
      let afterSlash := (body.drop 1).dropWhile isAsciiWhitespace
      let rawName := afterSlash.takeWhile isNameByte
      if rawName = [] then none
      else some ⟨localName (asciiString rawName), true, false, start, stop⟩
    else
      let rawName := body.takeWhile isNameByte
      if rawName = [] then none
      else some ⟨localName (asciiString rawName), false, decide (bytes "/>" <:+ token), start, stop⟩

def scanTagsFrom : Nat → Nat → Bytes → List Tag
  | 0, _, _ => []
  | fuel + 1, offset, xml =>
    let lt := offset + (xml.takeWhile (· != byte '<')).length
    let rest := xml.dropWhile (· != byte '<')
    if rest = [] then []
    else
      match tokenLength rest with
      | none => []
      | some n =>
        (readTag (rest.take n) lt (lt + n)).toList ++ scanTagsFrom fuel (lt + n) (rest.drop n)

def scanTags (xml : Bytes) : List Tag := scanTagsFrom xml.length 0 xml

/-! ## The document -/

/-- A chain of element names, outermost first, that ends in a text box paragraph. -/
def isBoxStack (chain : List String) : Bool :=
  chain.getLast? == some "p" && chain.contains "txbxContent" &&
    !chain.any fun name => name == "tbl" || name == "tr" || name == "tc"

def isSdtStack (chain : List String) : Bool :=
  chain.getLast? == some "p" && chain.length == 3 && chain[0]? == some "sdt" &&
    chain[1]? == some "sdtContent"

def isCellStack (chain : List String) : Bool :=
  chain.getLast? == some "p" && decide (4 ≤ chain.length) &&
    chain.dropLast.reverse.zipIdx.all fun entry =>
      entry.1 == if entry.2 % 3 = 0 then "tc" else if entry.2 % 3 = 1 then "tr" else "tbl"

/-- What a paragraph is located as when `tag` closes it. -/
def pathOf (s : ScanState) (bodyDepth : Nat) (top : Frame) (tag : Tag) :
    Outcome (Option ParagraphPath) :=
  let depth := s.stack.length
  let below := s.stack.reverse.drop (bodyDepth + 1)
  if tag.name = "p" ∧ depth = bodyDepth + 2 then pure (some .direct)
  else if tag.name = "p" ∧ bodyDepth + 1 < depth ∧
      (s.openTables ≠ [] ∨ s.openBoxes ≠ [] ∨ s.openSdts ≠ []) then
    let chain := below.map (·.name)
    if isBoxStack chain then do
      let box ← expect s.openBoxes.head?
      pure (some (.box box.1 top.ordinal))
    else if isSdtStack chain then do
      let sdt ← expect s.openSdts.head?
      pure (some (.sdt sdt.1 top.ordinal))
    else if isCellStack chain then do
      let table ← expect s.openTables.head?
      pure (some (.cell table.1 (below.map fun frame => (frame.name, frame.ordinal))))
    else pure none
  else pure none

def locateClosing (s : ScanState) (tag : Tag) : Outcome ScanState :=
  match s.stack with
  | [] => refuse "malformed document XML"
  | top :: rest =>
    if top.name ≠ tag.name then refuse "malformed document XML"
    else
      match s.bodyDepth with
      | none => refuse "document has no body"
      | some bodyDepth => do
        let path ← pathOf s bodyDepth top tag
        pure { s with
          paragraphStarts :=
            s.paragraphStarts ++ (path.map fun path => (top.start, tag.stop, path)).toList
          openTables := popOpen (tag.name == "tbl") top.start s.openTables
          openBoxes := popOpen (tag.name == "txbxContent") top.start s.openBoxes
          openSdts := popOpen (tag.name == "sdtContent") top.start s.openSdts
          stack := rest }

/-- Note the content of a control that opens below the body. -/
def openSdt (s : ScanState) (bodyDepth : Nat) (tag : Tag) : ScanState :=
  if tag.name = "sdtContent" ∧ bodyDepth + 1 < s.stack.length ∧
      ((s.stack.reverse.drop (bodyDepth + 1)).head?.any fun frame => frame.name == "sdt") ∧
      (s.stack.reverse.drop (bodyDepth + 2)).all
        fun frame => frame.name == "sdtPr" || frame.name == "sdtEndPr" then
    { s with sdtOrdinal := s.sdtOrdinal + 1, openSdts := (s.sdtOrdinal + 1, tag.start) :: s.openSdts }
  else s

/-- Note a text box that opens in a paragraph of the body. -/
def openBox (s : ScanState) (bodyDepth : Nat) (tag : Tag) : ScanState :=
  if tag.name = "txbxContent" ∧ bodyDepth + 1 < s.stack.length ∧
      s.stack.reverse[bodyDepth + 1]?.any fun frame => frame.name == "p" then
    { s with boxOrdinal := s.boxOrdinal + 1, openBoxes := (s.boxOrdinal + 1, tag.start) :: s.openBoxes }
  else s

/-- Note a table that opens in the body, or in a cell. -/
def openTable (s : ScanState) (bodyDepth : Nat) (tag : Tag) : ScanState :=
  if tag.name = "tbl" ∧ (s.stack.length = bodyDepth + 1 ∨
      (bodyDepth + 1 < s.stack.length ∧ s.stack.head?.any fun frame => frame.name == "tc")) then
    { s with
      tableOrdinal := s.tableOrdinal + 1
      openTables := (s.tableOrdinal + 1, tag.start) :: s.openTables }
  else s

def locateOpening (s : ScanState) (tag : Tag) : ScanState :=
  let depth := s.stack.length
  let key : OrdinalKey := ⟨depth - 1, s.stack.head?.map (·.start), tag.name⟩
  let ordinal := (s.ordinals.lookup key).getD 0
  let frame : Frame := ⟨tag.name, tag.start, ordinal⟩
  let counted := { s with
    bodyDepth := if tag.name = "body" ∧ s.bodyDepth = none then some depth else s.bodyDepth
    ordinals := (key, ordinal + 1) :: s.ordinals }
  match counted.bodyDepth with
  | none => if tag.selfClosing then counted else { counted with stack := frame :: s.stack }
  | some bodyDepth =>
    if tag.name = "p" ∧ depth = bodyDepth + 1 then
      if tag.selfClosing then
        { counted with
          paragraphStarts := s.paragraphStarts ++ [(tag.start, tag.stop, .direct)] }
      else { counted with stack := frame :: s.stack }
    else
      let opened := openTable (openBox (openSdt counted bodyDepth tag) bodyDepth tag) bodyDepth tag
      -- a body-level table is pushed even when its tag closes itself
      if tag.selfClosing ∧ ¬ (tag.name = "tbl" ∧ depth = bodyDepth + 1) then opened
      else { opened with stack := frame :: s.stack }

def locateStep (s : ScanState) (tag : Tag) : Outcome ScanState :=
  if tag.closing then locateClosing s tag else pure (locateOpening s tag)

/-- The id of each paragraph; `direct` counts the direct ones. -/
def namePaths (direct : Nat) : List (Nat × Nat × ParagraphPath) → List (String × Nat × Nat)
  | [] => []
  | (start, stop, .direct) :: rest =>
    ("P" ++ toString direct, start, stop) :: namePaths (direct + 1) rest
  | (start, stop, .box boxIndex pOrdinal) :: rest =>
    ("B" ++ toString boxIndex ++ ".P" ++ toString pOrdinal, start, stop) :: namePaths direct rest
  | (start, stop, .sdt sdtIndex pOrdinal) :: rest =>
    ("S" ++ toString sdtIndex ++ ".P" ++ toString pOrdinal, start, stop) :: namePaths direct rest
  | (start, stop, .cell tableIndex chain) :: rest =>
    ("T" ++ toString tableIndex ++ ".R" ++ toString (chainValue "tr" chain) ++ ".C" ++
      toString (chainValue "tc" chain) ++ ".P" ++ toString (chainValue "p" chain), start, stop) ::
      namePaths direct rest

def locateDocumentParagraphs (tags : List Tag) : Outcome (List (String × Nat × Nat)) := do
  let s ← tags.foldlM locateStep {}
  pure (namePaths 0 s.paragraphStarts)

/-! ## The other parts -/

structure PartLocated where
  /-- Open elements, innermost first. -/
  stack : List (String × Nat) := []
  paragraphs : List (String × Nat × Nat) := []
  index : Nat := 0

/-- Whether the key is one of a header or footer. -/
def rootHdr (partKey : String) : Bool :=
  "header".toList.isPrefixOf partKey.toList || "footer".toList.isPrefixOf partKey.toList

def locatePartStep (partKey : String) (s : PartLocated) (tag : Tag) : Outcome PartLocated :=
  if tag.closing then
    match s.stack with
    | [] => refuse "malformed part XML"
    | top :: rest =>
      if top.1 ≠ tag.name then refuse "malformed part XML"
      else if tag.name = "p" ∧ ((rootHdr partKey ∧ s.stack.length = 2) ∨
          (¬ rootHdr partKey ∧ s.stack.length = 3)) then
        pure ⟨rest, s.paragraphs ++ [(partKey ++ ".P" ++ toString s.index, top.2, tag.stop)],
          s.index + 1⟩
      else pure { s with stack := rest }
  else pure (if tag.selfClosing then s else { s with stack := (tag.name, tag.start) :: s.stack })

def locatePartParagraphs (tags : List Tag) (partKey : String) :
    Outcome (List (String × Nat × Nat)) := do
  let s ← tags.foldlM (locatePartStep partKey) {}
  pure s.paragraphs

/-- Paragraph id, start, end, in scan order. -/
def locateParagraphs (part : Bytes) (partKey : String) : Outcome (List (String × Nat × Nat)) :=
  if partKey = "document" then locateDocumentParagraphs (scanTags part)
  else locatePartParagraphs (scanTags part) partKey

end Docx2Typed.Verify
