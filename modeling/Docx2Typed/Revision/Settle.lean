import Docx2Typed.Revision.Inventory

/-!
# Settling one revision

`find_settleable_revision` and `settle_one_revision` of `govern.rs`.  The settler walks the part on
its own and takes the first revision element to end with the `w:id` it is given; only then does it
ask what the inventory asks of every revision.
-/

namespace Docx2Typed

/-- An error code with its message, or a panic. -/
inductive SettleFailure where
  | refused (code message : String)
  | panic
  deriving DecidableEq, Repr

/-- The settler reports what the paragraph scan refuses under one code. -/
def scanFailure : Failure → SettleFailure
  | .refused (.domain message) => .refused "workdir-invalid" message
  | .refused (.message message) => .refused "workdir-invalid" message
  | .refused .io => .refused "workdir-invalid" ""
  | .panic => .panic

def revisionNotFound (wId : Text) : SettleFailure :=
  .refused "revision-not-found" ("revision not found: w:id " ++ String.ofList wId)

structure FindWalk where
  stack : List (String × Nat × Nat) := []
  interiorDepth : Nat := 0
  found : Option LocatedRevision := none

/-- The first element with the id is kept; the text of one that closes itself is empty. -/
def FindWalk.keep (wId : Text) (s : FindWalk) (revision : LocatedRevision) : FindWalk :=
  if revision.wId = wId ∧ s.found = none then { s with found := some revision } else s

def findStep (xml : Bytes) (tags : List Tag) (wId : Text) (s : FindWalk) (tag : Tag) : FindWalk :=
  if tag.closing then
    match s.stack with
    | [] => s
    | (name, start, openEnd) :: rest =>
      if name = tag.name then
        let interiorDepth :=
          if isInteriorContainer name then s.interiorDepth - 1 else s.interiorDepth
        let closed := { s with stack := rest, interiorDepth }
        match revisionKind name with
        | none => closed
        | some kind =>
          closed.keep wId
            { revisionElement xml kind (start, openEnd) (tag.start, tag.stop) false
                (0 < interiorDepth) with
              text := revisionText xml tags start tag.stop }
      else s
  else if tag.selfClosing then
    match revisionKind tag.name with
    | none => s
    | some kind =>
      s.keep wId (revisionElement xml kind (tag.start, tag.stop) (tag.stop, tag.stop) true
        (0 < s.interiorDepth))
  else
    { s with
      stack := (tag.name, tag.start, tag.stop) :: s.stack
      interiorDepth :=
        if isInteriorContainer tag.name then s.interiorDepth + 1 else s.interiorDepth }

/-- What makes a found revision settleable. -/
def settleGate (xml : Bytes) (wId : Text) (revision : LocatedRevision) :
    Except SettleFailure LocatedRevision :=
  match scanDocument xml with
  | .error failure => .error (scanFailure failure)
  | .ok paragraphs =>
    let (paragraphId, paragraphOpaque, insideBlock) :=
      paragraphForRevision paragraphs (opaqueRanges xml paragraphs) revision.start
    let placed : LocatedRevision := { revision with
      paragraphId
      paragraphOpaque
      insideOpaque := revision.insideOpaque || insideBlock }
    if placed.mark then .error (revisionNotFound wId)
    else if placed.insideOpaque then .error (revisionNotFound wId)
    else if placed.paragraphOpaque then
      .error (.refused "revision-outside-editable-surface" ("paragraph " ++
        placed.paragraphId.getD "?" ++
        " contains unsupported structure; its revisions can only be viewed"))
    else .ok placed

def findSettleableRevision (xml : Bytes) (wId : Text) : Except SettleFailure LocatedRevision :=
  let tags := scanTags xml
  match (tags.foldl (findStep xml tags wId) {}).found with
  | none => .error (revisionNotFound wId)
  | some revision => settleGate xml wId revision

/-! ## The settled part -/

/-- The `w:delText` to `w:t` conversion from one place on; the last ten bytes are not looked at.
Every round shortens what is left, so its length is fuel enough. -/
def convertFrom : Nat → Bytes → Bytes
  | 0, rest => rest
  | fuel + 1, rest =>
    if rest.length ≤ 10 then rest
    else if bytes "<w:delText" <+: rest then
      let token := rest.takeWhile (· != byte '>')
      convertFrom fuel (bytes "<w:t" ++ token.drop 10 ++ rest.drop token.length)
    else if bytes "</w:delText>" <+: rest then
      convertFrom fuel (bytes "</w:t>" ++ rest.drop 12)
    else
      match rest with
      | [] => []
      | b :: rest => b :: convertFrom fuel rest

/-- `convert_deltext`. -/
def convertDeltext (interior : Bytes) : Bytes := convertFrom interior.length interior

structure Settlement where
  partXml : Bytes
  kind : String
  wId : Text
  author : Text
  date : Text
  text : Text
  paragraphId : Option String
  deriving DecidableEq, Repr

/-- The part without the element, or with its content in its place. -/
def settledXml (xml : Bytes) (action : String) (revision : LocatedRevision) : Bytes :=
  let removeKinds :=
    if action = "accept" then ["delete", "move_from"] else ["insert", "move_to"]
  let interior := slice xml revision.openEnd revision.closeStart
  xml.take revision.start ++
    (if removeKinds.contains revision.kind then []
      else if action = "reject" then convertDeltext interior else interior) ++
    xml.drop revision.stop

def settleOneRevision (xml : Bytes) (wId : Text) (action : String) :
    Except SettleFailure Settlement :=
  if action ≠ "accept" ∧ action ≠ "reject" then
    .error (.refused "invalid-action" ("unknown decision action: " ++ action))
  else do
    let revision ← findSettleableRevision xml wId
    pure
      { partXml := settledXml xml action revision
        kind := revision.kind
        wId := revision.wId
        author := revision.author
        date := revision.date
        text := revision.text
        paragraphId := revision.paragraphId }

end Docx2Typed
