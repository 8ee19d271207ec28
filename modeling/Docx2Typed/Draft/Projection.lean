import Mathlib.Data.List.Destutter
import Docx2Typed.Draft.Markup

/-!
# The draft projection

`render_projection` writes the paragraphs of the template as a draft: a header line that binds
`typed.md` and the body by their digests, then one block for each paragraph, its text as it
stands.  The same text is frozen as the baseline view, and `compute_changed` compares the blocks of
a draft with it.
-/

namespace Docx2Typed

/-- `InventoryParagraph`. -/
structure InventoryParagraph where
  id : Text
  visibleText : Text
  deriving DecidableEq, Repr

/-- `hex::encode` writes hexadecimal digits. -/
def Crates.HexDigests (crates : Crates) : Prop :=
  ∀ content, ∀ c ∈ (crates.sha256Hex content).toList, ("0123456789abcdef".toList).contains c = true

/-! ## Writing -/

def segmentationContract : Text := "uax29-c1-1/unicode-16.0.0".toList

/-- The marker line of a template paragraph. -/
def paragraphMarker (id : Text) : Text := "<!--@p id=\"".toList ++ id ++ "\" base=\"\"/>".toList

def renderBlock (paragraph : InventoryParagraph) : Text :=
  paragraphMarker paragraph.id ++ '\n' :: paragraph.visibleText

/-- `edit_body_sha256`. -/
def editBodySha256 (crates : Crates) (text : Text) : Outcome Text :=
  match dropBlankLines (pySplitlines text) with
  | [] => refuse "edit-header-missing: edit.md must start with an @edit header"
  | first :: rest =>
    if editMarker <+: first then pure (crates.sha256Hex (utf8 (joinLines rest))).toList
    else refuse "edit-header-missing: edit.md must start with an @edit header"

def projectionHeader (typedSha256 projectionSha256 : Text) : Text :=
  "<!--@edit schema=\"1\" sync-contract=\"1\" base-typed-sha256=\"".toList ++ typedSha256 ++
    "\" base-projection-sha256=\"".toList ++ projectionSha256 ++ "\" segmentation=\"".toList ++
    segmentationContract ++ "\"-->".toList

/-- The text of a `CoreError`; those of the modelled functions are domain errors. -/
def failureMessage : Failure → String
  | .refused (.domain message) => message
  | .refused (.message message) => message
  | .refused .io => ""
  | .panic => ""

/-- `map_err(|error| CollaborationError::new(code, error.to_string()))`. -/
def withCode {α : Type} (code : String) : Outcome α → Answer α
  | .ok a => .ok a
  | .error failure => deny code (failureMessage failure)

/-- `render_projection`: the draft, and the digest of `typed.md`. -/
def renderProjection (crates : Crates) (typedMd : Bytes) (paragraphs : List InventoryParagraph) :
    Answer (Text × Text) := do
  let typedSha256 := (crates.sha256Hex typedMd).toList
  let body := joinLines (paragraphs.map renderBlock)
  let bodyHash ← withCode "workdir-invalid"
    (editBodySha256 crates (projectionHeader typedSha256 "PLACEHOLDER".toList ++ '\n' :: body))
  pure (projectionHeader typedSha256 bodyHash ++ '\n' :: body, typedSha256)

/-! ## Records of a text -/

/-- Ids with what is recorded for them, in the order of their writing (`BTreeMap::insert`: the last
record of an id counts). -/
abbrev Records := List (Text × Text)

def Records.get (records : Records) (id : Text) : Option Text :=
  ((records.reverse.find? fun record => record.1 = id).map (·.2))

/-- The text one draft body says, in the typed spelling. -/
def draftBodyReading (body : Text) : Text := typedBodyVisibleText (typedMarkupFromDraft body)

/-- `parse_baseline_paragraphs`. -/
def parseBaselineParagraphs (text : Text) : Records :=
  match paragraphBlocks text with
  | .error _ => []
  | .ok blocks =>
    blocks.filterMap fun block =>
      match markerOf block with
      | some (kind, id, _) =>
        if kind = "p".toList ∨ kind = "new".toList then some (id, draftBodyReading (blockBody block))
        else none
      | none => none

/-- The paragraph `parse_typed_paragraphs` is reading, and what it has recorded. -/
structure TypedReader where
  current : Option Text := none
  bodyLines : List Text := []
  records : Records := []

/-- `trim_end_matches('\n')`. -/
def trimNewlines (text : Text) : Text := (text.reverse.dropWhile (· = '\n')).reverse

def TypedReader.flush (reader : TypedReader) : TypedReader :=
  match reader.current with
  | none => reader
  | some id =>
    { records := reader.records ++
        [(id, typedBodyVisibleText (trimNewlines (joinLines reader.bodyLines)))] }

def TypedReader.step (reader : TypedReader) (line : Text) : TypedReader :=
  let trimmed := trim line
  match stripPrefix "<!--@p id=\"".toList trimmed with
  | some rest => { reader.flush with current := some (quotedValue rest) }
  | none =>
    if "<!--@delete".toList <+: trimmed ∨ "<!--@part".toList <+: trimmed then reader.flush
    else if "<!--@mark".toList <+: trimmed then reader
    else if "<!--@".toList <+: trimmed then reader.flush
    else if reader.current.isSome ∧ line ≠ [] then
      { reader with bodyLines := reader.bodyLines ++ [line] }
    else reader

/-- `parse_typed_paragraphs`. -/
def parseTypedParagraphs (text : Text) : Records :=
  ((strLines text).foldl TypedReader.step {}).flush.records

/-! ## What has changed -/

/-- The files `compute_changed` reads: the baseline view and `typed.md` where they exist, and the
paragraphs of the template. -/
structure ChangeSources where
  baselineView : Option Text
  typedMd : Option Text
  inventory : Answer (List InventoryParagraph)

/-- `entry(..).or_insert(..)`: a record only for an id that has none. -/
def Records.orInsert (records : Records) (record : Text × Text) : Records :=
  if (records.get record.1).isSome then records else records ++ [record]

/-- The records of `typed.md`, each id once, with the last record of an id. -/
def lastRecords (records : Records) : Records :=
  records.filterMap fun record => (records.get record.1).map fun text => (record.1, text)

/-- The paragraphs as they stood: those of the baseline view, and where it has none those of
`typed.md` and of the template. -/
def oldParagraphs (sources : ChangeSources) : Answer Records := do
  let inventory ← sources.inventory
  let frozen := (sources.baselineView.map parseBaselineParagraphs).getD []
  let typed := lastRecords ((sources.typedMd.map parseTypedParagraphs).getD [])
  pure ((inventory.map fun paragraph => (paragraph.id, paragraph.visibleText)).foldl
    Records.orInsert (typed.foldl Records.orInsert frozen))

/-- The id one block reports as changed. -/
def changedId (old : Records) (block : Text) : Option Text :=
  match markerOf block with
  | none => none
  | some (kind, id, _) =>
    if kind = "p".toList then
      if (old.get id).getD [] = draftBodyReading (blockBody block) then none else some id
    else if kind = "new".toList then some id
    else if kind = "delete".toList ∧ (old.get id).isSome then some id
    else none

/-- `compute_changed`: sorted, each id once. -/
def computeChanged (sources : ChangeSources) (blocks : List Text) : Answer (List Text) := do
  let old ← oldParagraphs sources
  pure (((blocks.filterMap (changedId old)).insertionSort (· ≤ ·)).destutter (· ≠ ·))

end Docx2Typed
