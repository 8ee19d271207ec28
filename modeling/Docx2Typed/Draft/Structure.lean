import Docx2Typed.Draft.Projection

/-!
# Inserting, deleting and committing paragraphs

A paragraph is inserted into the draft as a pending block with a temporary id, and deleted by
removing its block and leaving a mark at the end.  The commit gives every pending paragraph its
formal id, records what has become of the paragraphs in the structure record and then rewrites the
draft: pending blocks get their formal ids, the marks of deletions go.

Of the commit this is the part that concerns ids.  What the island plan and the build make of the
texts decides whether a commit gets that far, and what `typed.md` reads afterwards; both are given
to it as `CommitRest`.
-/

namespace Docx2Typed

/-! ## Records -/

inductive FormatPolicy where
  | safeInherit
  | none
  deriving DecidableEq, Repr

structure NewParagraph where
  part : Text
  paragraphId : Text
  inherit : Text
  formatPolicy : FormatPolicy
  body : Text
  insertBefore : Option Text
  deriving DecidableEq, Repr

structure DeletedParagraph where
  part : Text
  paragraphId : Text
  deriving DecidableEq, Repr

/-- `StructureEdits`. -/
structure StructureEdits where
  newParagraphs : List NewParagraph := []
  deletedParagraphs : List DeletedParagraph := []
  deriving DecidableEq, Repr

/-- The ids a structure record names. -/
def StructureEdits.ids (structure_ : StructureEdits) : List Text :=
  structure_.newParagraphs.map (·.paragraphId) ++ structure_.deletedParagraphs.map (·.paragraphId)

/-- The files of a workspace that the ids depend on. -/
structure Workspace where
  draft : Text
  typedMd : Text
  baselineView : Option Text
  record : StructureEdits
  deriving DecidableEq, Repr

/-! ## The draft -/

/-- `split_blocks`. -/
def splitBlocks (text : Text) : Answer (Text × List Text) := do
  let blocks ← paragraphBlocks text
  pure (editHeader text, blocks)

/-- `write_draft`. -/
def writeDraft (header : Text) (blocks : List Text) : Text :=
  header ++ ['\n'] ++ blocks.flatMap (fun block => '\n' :: block) ++ ['\n']

def newMarker : Text := "<!--@new temp=\"".toList

/-- `find_paragraph_block`. -/
def findParagraphBlock (blocks : List Text) (paragraphId : Text) : Option Nat :=
  blocks.findIdx? fun block =>
    "<!--@p id=\"".toList ++ paragraphId ++ ['"'] <+: block ∨ newMarker ++ paragraphId ++ ['"'] <+: block

/-- `marker_attr`. -/
def markerAttr (marker name : Text) : Option Text :=
  (afterFirst (name ++ "=\"".toList) marker).map quotedValue

/-- The digits of a number, at least one. -/
def parseDigits (digits : Text) : Option Nat :=
  if digits = [] then none
  else
    digits.foldl (fun value c => do
      let value ← value
      let digit ← digitValue 10 c
      pure (value * 10 + digit)) (some 0)

/-- `parse::<i64>`. -/
def parseI64 : Text → Option Int
  | '-' :: digits => do
    let value ← parseDigits digits
    if value ≤ 2 ^ 63 then pure (-(value : Int)) else none
  | '+' :: digits => do
    let value ← parseDigits digits
    if value < 2 ^ 63 then pure (value : Int) else none
  | digits => do
    let value ← parseDigits digits
    if value < 2 ^ 63 then pure (value : Int) else none

/-- The kinds and ids of the blocks that have a marker. -/
def blockMarkers (blocks : List Text) : List (Text × Text) :=
  (blocks.filterMap markerOf).map fun marker => (marker.1, marker.2.1)

/-- `next_temp_id`. -/
def nextTempId (blocks : List Text) : Text :=
  let temps := (blockMarkers blocks).filterMap fun marker =>
    if marker.1 = "new".toList then (stripPrefix ['N'] marker.2).bind parseDigits else none
  'N' :: (temps.foldl max 0 + 1).repr.toList

/-! ## Insertion and deletion -/

/-- An id of a table, a text box or a part. -/
def isContainerId (paragraphId : Text) : Bool :=
  ['T'].isPrefixOf paragraphId || ['B'].isPrefixOf paragraphId || paragraphId.contains '.'

/-- `insert_paragraph`; `ready` is the answer of `ensure_agent_ready`. -/
def insertParagraph (ready : Answer Unit) (workspace : Workspace) (afterId text : Text)
    (inherit : Option Text) (format : FormatPolicy) : Answer Workspace := do
  if isContainerId afterId || (inherit.map isContainerId).getD false then
    deny "table-structure-immutable"
      ("paragraphs cannot be inserted into tables, text boxes, or " ++
        "header/footer/note parts; container structure operations are out of scope")
  else do
    ready
    let (header, blocks) ← splitBlocks workspace.draft
    match findParagraphBlock blocks afterId with
    | none =>
      deny "paragraph-not-found"
        ("paragraph " ++ String.ofList afterId ++ " not found in the draft")
    | some index =>
      let formatAttr := if format = .none then " format=\"none\"".toList else []
      let block := newMarker ++ nextTempId blocks ++ "\" inherit=\"".toList ++
        inherit.getD afterId ++ ['"'] ++ formatAttr ++ "/>\n".toList ++ text
      pure { workspace with draft := writeDraft header (blocks.insertIdx (index + 1) block) }

/-- `repoint_dependents`: what was anchored on the deleted paragraph takes over its anchor. -/
def repointDependents (record : StructureEdits) (deleted : Text) : StructureEdits :=
  match record.newParagraphs.find? (·.paragraphId = deleted) with
  | none => record
  | some paragraph =>
    { record with
      newParagraphs := record.newParagraphs.map fun other =>
        if other.insertBefore = some deleted then { other with insertBefore := paragraph.insertBefore }
        else other }

def deleteMarker (paragraphId : Text) : Text :=
  "<!--@delete id=\"".toList ++ paragraphId ++ "\"-->".toList

/-- `delete_paragraph`; `unprotected` is the answer of `require_unprotected`. -/
def deleteParagraph (ready unprotected : Answer Unit) (workspace : Workspace) (paragraphId : Text) :
    Answer Workspace := do
  if ['T'].isPrefixOf paragraphId || ['B'].isPrefixOf paragraphId ||
      (paragraphId.contains '.' && !(['P'].isPrefixOf paragraphId)) then
    deny "table-structure-immutable"
      ("container and part paragraphs cannot be deleted; container " ++
        "structure operations are out of scope")
  else do
    ready
    let (header, blocks) ← splitBlocks workspace.draft
    match findParagraphBlock blocks paragraphId with
    | none =>
      deny "paragraph-not-found"
        ("paragraph " ++ String.ofList paragraphId ++ " not found in the draft")
    | some index => do
      unprotected
      pure { workspace with
        draft := writeDraft header (blocks.eraseIdx index ++ [deleteMarker paragraphId])
        record := repointDependents workspace.record paragraphId }

/-! ## Formal ids -/

/-- The number of an id that the allocation looks at. -/
def paragraphNumber (id : Text) : Option Int := (stripPrefix ['P'] id).bind parseI64

/-- The ids in use, as the allocation sees them: those of all blocks that are not pending. -/
def usedIds (blocks : List Text) : List Text :=
  ((blockMarkers blocks).filter (·.1 ≠ "new".toList)).map (·.2)

def pendingIds (blocks : List Text) : List Text :=
  ((blockMarkers blocks).filter (·.1 = "new".toList)).map (·.2)

/-- The next free number; the arithmetic of an `i64` panics behind its last value. -/
def nextNumber (used : List Text) : Outcome Int :=
  match (used.filterMap paragraphNumber).max? with
  | none => pure 0
  | some highest => if highest = 2 ^ 63 - 1 then .error .panic else pure (highest + 1)

def formalId (n : Int) : Text := 'P' :: n.repr.toList

/-- The loop over the pending blocks, with the ids used so far. -/
def allocateFrom (used : List Text) : List Text → Outcome (List (Text × Text))
  | [] => pure []
  | temp :: rest => do
    let next ← nextNumber used
    let others ← allocateFrom (formalId next :: used) rest
    pure ((temp, formalId next) :: others)

/-- The temporary ids of a draft with their formal ids. -/
def formalIds (blocks : List Text) : Outcome (List (Text × Text)) :=
  allocateFrom (usedIds blocks) (pendingIds blocks)

/-- `formal_ids.get(id).unwrap_or(id)`. -/
def toFormal (formal : Records) (id : Text) : Text := (formal.get id).getD id

/-! ## The structure record -/

/-- `draft_inherit`, `draft_format_policy`: an attribute of the first block with an id that has
it. -/
def draftAttr (blocks : List Text) (id name : Text) : Option Text :=
  blocks.findSome? fun block => do
    let (_, blockId, marker) ← markerOf block
    if blockId = id then markerAttr marker name else none

def draftFormatPolicy (blocks : List Text) (id : Text) : FormatPolicy :=
  if draftAttr blocks id "format".toList = some "none".toList then .none else .safeInherit

/-- `next_live_paragraph`: the next block of a paragraph that is not deleted. -/
def nextLiveParagraph (blocks : List Text) (id : Text) : Option Text :=
  let deleted := ((blockMarkers blocks).filter (·.1 = "delete".toList)).map (·.2)
  match blocks.findIdx? fun block => (markerOf block).any (·.2.1 = id) with
  | none => none
  | some start =>
    (blockMarkers (blocks.drop (start + 1))).findSome? fun marker =>
      if marker.1 = "p".toList ∧ marker.2 ∉ deleted then some marker.2 else none

/-- The bodies a commit commits, by the ids it commits them under. -/
def committedBodies (formal : Records) (blocks : List Text) : Records :=
  blocks.filterMap fun block =>
    match markerOf block with
    | some (kind, id, _) =>
      if kind = "p".toList ∨ kind = "new".toList then
        some (toFormal formal id, draftBodyReading (blockBody block))
      else none
    | none => none

/-- What one changed paragraph does to the structure record. -/
def recordChange (blocks : List Text) (formal committed before : Records) (record : StructureEdits)
    (id : Text) : StructureEdits :=
  match committed.get id with
  | none =>
    -- a synthesised paragraph is dropped, any other is recorded as deleted
    if record.newParagraphs.any (·.paragraphId = id) then
      { record with newParagraphs := record.newParagraphs.filter (·.paragraphId ≠ id) }
    else if record.deletedParagraphs.any (·.paragraphId = id) then record
    else
      { record with
        deletedParagraphs := record.deletedParagraphs ++ [⟨"document".toList, id⟩] }
  | some newBody =>
    match record.newParagraphs.findIdx? (·.paragraphId = id) with
    | some index =>
      { record with
        newParagraphs := record.newParagraphs.modify index fun paragraph =>
          { paragraph with body := newBody } }
    | none =>
      if (before.get id).isSome then record
      else
        let temp := ((formal.reverse.find? fun entry => entry.2 = id).map (·.1)).getD id
        { record with
          newParagraphs := record.newParagraphs ++ [
            { part := "document".toList
              paragraphId := id
              inherit := (draftAttr blocks temp "inherit".toList).getD []
              formatPolicy := draftFormatPolicy blocks temp
              body := newBody
              insertBefore := nextLiveParagraph blocks temp }] }

/-! ## The commit -/

/-- `committed_marker`. -/
def committedMarker (id marker : Text) : Text :=
  match markerAttr marker "inherit".toList with
  | some (c :: inherit) =>
    "<!--@p id=\"".toList ++ id ++ "\" inherit=\"".toList ++ (c :: inherit) ++ "\"/>".toList
  | _ => "<!--@p id=\"".toList ++ id ++ "\"-->".toList

/-- One line of the committed draft, if it stays; the first line is the header. -/
def committedLine (formal : Records) (isFirst : Bool) (line : Text) : Option Text :=
  let trimmed := trim line
  if !isFirst && "<!--@delete".toList.isPrefixOf trimmed then none
  else
    match stripPrefix newMarker trimmed with
    | some rest => some (committedMarker (toFormal formal (quotedValue rest)) trimmed)
    | none => some line

def committedLines (formal : Records) : List Text → List Text
  | [] => []
  | first :: rest =>
    (committedLine formal true first).toList ++ rest.filterMap (committedLine formal false)

/-- The draft as a commit leaves it. -/
def committedDraft (crates : Crates) (formal : Records) (draft typedMd : Text) : Answer Text := do
  let lines := committedLines formal (pySplitlines draft)
  let bodyHash ← withCode "workdir-invalid" (editBodySha256 crates (joinLines lines))
  match lines with
  | [] => pure []
  | _ :: rest =>
    pure (joinLines (projectionHeader (crates.sha256Hex (utf8 typedMd)).toList bodyHash :: rest))

/-- What a commit comes to behind the allocation of ids. -/
inductive CommitRest where
  /-- It returns before the records are written. -/
  | refused
  /-- It writes the records and fails before it rebinds the draft. -/
  | stopped
  /-- It completes, and `typed.md` reads so. -/
  | published (typedMd : Text)

/-- `apply_projection`, as far as ids are concerned: the workspace it leaves, and the ids it has
allocated if it got as far as writing them. -/
def commitDraft (crates : Crates) (template : List InventoryParagraph) (rest : CommitRest)
    (workspace : Workspace) : Workspace × List Text :=
  let sources : ChangeSources :=
    { baselineView := workspace.baselineView
      typedMd := some workspace.typedMd
      inventory := pure template }
  match rest, splitBlocks workspace.draft with
  | .refused, _ => (workspace, [])
  | _, .error _ => (workspace, [])
  | rest, .ok (_, blocks) =>
    match computeChanged sources blocks, formalIds blocks with
    | .ok changed, .ok formal =>
      let before := ((workspace.baselineView.map parseBaselineParagraphs).getD []).foldl
        Records.orInsert (parseTypedParagraphs workspace.typedMd)
      let record := (changed.map (toFormal formal)).foldl
        (recordChange blocks formal (committedBodies formal blocks) before) workspace.record
      let saved := { workspace with record }
      match rest with
      | .published typedMd =>
        match committedDraft crates formal workspace.draft typedMd with
        | .ok draft => ({ saved with draft, typedMd }, formal.map (·.2))
        | .error _ => ({ saved with typedMd }, formal.map (·.2))
      | _ => (saved, formal.map (·.2))
    | _, _ => (workspace, [])

end Docx2Typed
