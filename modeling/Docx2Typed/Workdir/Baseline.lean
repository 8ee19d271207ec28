import Docx2Typed.Basic
import Mathlib.Data.Int.Notation
import Mathlib.Logic.Function.Basic

/-!
# Baselines

`plan_extract_with` plans the workdir of a source document: it refuses where work would be lost,
reads the package, and gives the assets to write and the stale files to remove.  `plan_build`
validates a workdir and reads the edits that its build applies.

A workdir is what stands at each name in it; a file has its bytes also when they cannot be read.
What the readers of JSON, headers and packages make of bytes is given by `Readers`.
-/

namespace Docx2Typed.Baseline

/-! ## Workdirs -/

inductive Entry where
  | missing
  | folder
  | file (content : Bytes) (readable : Bool)
  deriving DecidableEq

def Entry.exists : Entry → Bool
  | .missing => false
  | _ => true

def Entry.isFile : Entry → Bool
  | .file _ _ => true
  | _ => false

/-- `fs::read`. -/
def Entry.read : Entry → Outcome Bytes
  | .file content true => .ok content
  | _ => .error (.refused .io)

abbrev Files := String → Entry

def islandsFile : String := "islands.json"
def structureFile : String := "structure.json"
def formatPlanFile : String := "format_plan.json"
def baselineFile : String := "baseline.json"
def baselineViewFile : String := "baseline.view"
def externalTargetsFile : String := "external-targets.json"
def stateFile : String := "edit.state.json"
def projectionFile : String := "edit.md"
def templateFile : String := "_template.docx"

/-! ## What the files hold -/

structure IslandEdit where
  paragraphId : String
  old : String
  new : String
  deriving DecidableEq

/-- The JSON of `islands.json`; an edit that does not parse is none. -/
structure IslandsJson where
  schema : Option String
  edits : Option (List (Option IslandEdit))

structure StructureEdits where
  newParagraphs : List String
  deletedParagraphs : List String
  deriving DecidableEq

def StructureEdits.isEmpty (edits : StructureEdits) : Bool :=
  edits.newParagraphs.isEmpty && edits.deletedParagraphs.isEmpty

/-- The JSON of `structure.json`. -/
structure StructureJson where
  schema : Option String
  edits : Option StructureEdits

/-- The JSON of `format_plan.json`: how long its array of paragraphs is, if it has one. -/
structure FormatPlan where
  paragraphs : Option ℕ
  deriving DecidableEq

abbrev Manifest := List (String × String)

/-- The JSON of `format.json`, as far as a build reads it. -/
structure FormatRecord where
  schema : Option String
  modelVersion : Option ℤ
  canonicalizerVersion : Option ℤ
  source : Option String
  sourceSha256 : Option String
  templateSha256 : Option String
  packageManifest : Option Manifest
  stylesSha256 : Option String
  typedSha256 : Option String

/-- The JSON object of `edit.state.json`. -/
structure StateJson where
  schema : Option String
  editSchemaVersion : Option ℤ
  syncContractVersion : Option ℤ
  segmentationContract : Option String
  editableViewContract : Option String
  baseTypedSha256 : Option String
  baseProjectionSha256 : Option String

/-- The readers of a workdir's files, and the writers whose files are read back. -/
structure Readers where
  sha256 : Bytes → String
  islandsJson : Bytes → Option IslandsJson
  structureJson : Bytes → Option StructureJson
  formatPlan : Bytes → Option FormatPlan
  stateJson : Bytes → Option StateJson
  /-- `parse_edit_header`. -/
  editHeader : Bytes → Outcome (List (String × String))
  editBodySha256 : Bytes → Outcome String
  /-- The epoch that a `baseline.json` of the known schema records. -/
  baselineEpoch : Bytes → Option ℕ
  baselineJson : ℕ → Bytes
  baseline_readsBack : ∀ epoch, epoch < 2 ^ 64 → baselineEpoch (baselineJson epoch) = some epoch
  baselineEpoch_lt : ∀ content epoch, baselineEpoch content = some epoch → epoch < 2 ^ 64
  /-- The epochs of the expectations in `external-targets.json`. -/
  externalEpochs : Bytes → List ℕ
  formatRecord : Bytes → Option FormatRecord
  formatJson : FormatRecord → Bytes
  format_readsBack : ∀ record, formatRecord (formatJson record) = some record
  packageManifest : Bytes → Outcome Manifest
  /-- `serialize_typed` of a package, under the name of its source. -/
  typedMarkup : String → Bytes → Outcome Bytes
  /-- `styles.json` of a package. -/
  styleRegistry : Bytes → Outcome Bytes
  /-- The tokens and the part digests, records that no build reads. -/
  partRecords : Bytes → Outcome Unit
  /-- `revisions.json` and `revisions.md` of a package. -/
  revisions : Bytes → Outcome (Bytes × Bytes)

section Reading

variable (r : Readers) (files : Files)

def islandsSchema : String := "docx2typed-islands-1"
def structureSchema : String := "docx2typed-structure-1"

def loadIslands : Outcome (List IslandEdit) :=
  if !(files islandsFile).isFile then .ok []
  else do
    let content ← (files islandsFile).read
    match r.islandsJson content with
    | none => refuse "invalid islands.json"
    | some value =>
      if value.schema ≠ some islandsSchema then
        refuse ("incompatible islands.json schema: " ++ value.schema.getD "missing")
      else
        match value.edits with
        | none => refuse "invalid islands.json: missing edits array"
        | some edits => do
          let parsed ← edits.mapM fun edit =>
            match edit with
            | some edit => .ok edit
            | none => refuse "invalid islands.json edit"
          pure (parsed.filter (·.old ≠ ""))

def loadStructure : Outcome StructureEdits :=
  if !(files structureFile).isFile then .ok ⟨[], []⟩
  else do
    let content ← (files structureFile).read
    match r.structureJson content with
    | none => refuse "invalid structure.json"
    | some value =>
      if value.schema ≠ some structureSchema then
        refuse ("incompatible structure.json schema: " ++ value.schema.getD "missing")
      else
        match value.edits with
        | none => refuse "invalid structure.json"
        | some edits => .ok edits

/-- The format plan; a file that cannot be read or parsed is none. -/
def readFormatPlan : Option FormatPlan := (files formatPlanFile).read.toOption.bind r.formatPlan

def readBaselineEpoch : Option ℕ := (files baselineFile).read.toOption.bind r.baselineEpoch

/-! ### The state of the draft -/

inductive Freshness where
  | clean
  | dirty
  | staleClean
  | conflict
  deriving DecidableEq

def Freshness.text : Freshness → String
  | .clean => "clean"
  | .dirty => "dirty"
  | .staleClean => "stale-clean"
  | .conflict => "conflict"

def segmentationContract : String := "uax29-c1-1/unicode-16.0.0"

def isDigest (text : String) : Bool :=
  text.utf8ByteSize = 64 &&
    text.toList.all fun c => c.isDigit || ('a' ≤ c && c ≤ 'f') || ('A' ≤ c && c ≤ 'F')

/-- The checks of `edit.state.json`. -/
def checkState (state : StateJson) : Outcome Unit :=
  if state.schema ≠ some "typed-clean-edit-state-1" then
    refuse "edit-state-incompatible: unexpected edit.state.json schema"
  else if state.editSchemaVersion ≠ some 1 then
    refuse "edit-state-incompatible: edit_schema_version mismatch in edit.state.json"
  else if state.syncContractVersion ≠ some 1 then
    refuse "edit-state-incompatible: sync_contract_version mismatch in edit.state.json"
  else if state.segmentationContract ≠ some segmentationContract then
    refuse "edit-state-incompatible: segmentation_contract mismatch in edit.state.json"
  else
    match state.editableViewContract with
    | some "editable-view-1" => checkDigests
    | some marker => refuse ("edit-state-incompatible: editable_view_contract " ++ marker.quote ++
        " in edit.state.json is not a known editable-view rule; re-extract the source into a " ++
        "fresh workdir to re-establish the baseline")
    | none =>
      if (files baselineViewFile).isFile then
        refuse ("edit-state-incompatible: edit.state.json has no editable_view_contract but " ++
          "baseline.view exists — the frozen baseline is from a different lifecycle " ++
          "generation; re-extract the source into a fresh workdir to re-establish the baseline")
      else checkDigests
where
  checkDigests : Outcome Unit :=
    if !isDigest (state.baseTypedSha256.getD "") then
      refuse "edit-binding-mismatch: invalid base_typed_sha256 in edit.state.json"
    else if !isDigest (state.baseProjectionSha256.getD "") then
      refuse "edit-binding-mismatch: invalid base_projection_sha256 in edit.state.json"
    else .ok ()

def requiredKeys : List String :=
  ["schema", "sync-contract", "base-typed-sha256", "base-projection-sha256", "segmentation"]

/-- The checks of the header of `edit.md` against the state. -/
def checkHeader (state : StateJson) (header : List (String × String)) : Outcome Unit :=
  let value (key : String) : String := (header.lookup key).getD ""
  if requiredKeys.any (fun key => (header.lookup key).isNone) ∨
      header.length ≠ requiredKeys.length then
    refuse ("edit-header-missing: @edit header must declare schema, sync-contract, " ++
      "base-typed-sha256, base-projection-sha256, segmentation")
  else if value "schema" ≠ "1" ∨ value "sync-contract" ≠ "1" then
    refuse "edit-state-incompatible: unsupported edit schema or sync contract"
  else if value "segmentation" ≠ segmentationContract then
    refuse "edit-state-incompatible: unsupported segmentation contract"
  else if !isDigest (value "base-typed-sha256") then
    refuse "edit-grammar-invalid: base-typed-sha256 must be a SHA-256 hex digest"
  else if !isDigest (value "base-projection-sha256") then
    refuse "edit-grammar-invalid: base-projection-sha256 must be a SHA-256 hex digest"
  else if value "base-typed-sha256" ≠ state.baseTypedSha256.getD "" then
    refuse "edit-header-tampered: edit.md header base-typed-sha256 does not match edit.state.json"
  else if value "base-projection-sha256" ≠ state.baseProjectionSha256.getD "" then
    refuse ("edit-header-tampered: edit.md header base-projection-sha256 does not match " ++
      "edit.state.json")
  else .ok ()

def freshness (state : StateJson) (typed body : String) : Freshness :=
  if typed = state.baseTypedSha256.getD "" then
    if body = state.baseProjectionSha256.getD "" then .clean else .dirty
  else if body = state.baseProjectionSha256.getD "" then .staleClean
  else .conflict

def classifyEditState : Outcome Freshness :=
  if !(files stateFile).exists then
    refuse ("edit-state-missing: edit.state.json not found; run `docx2typed edit refresh " ++
      "--init` to create the projection and authoritative state")
  else do
    let content ← (files stateFile).read
    match r.stateJson content with
    | none => refuse "edit-state-incompatible: cannot read edit.state.json"
    | some state => do
      checkState files state
      if !(files projectionFile).exists then
        refuse "edit-state-missing: edit.md not found; run `docx2typed edit refresh --init`"
      else do
        let text ← (files projectionFile).read
        let header ← r.editHeader text
        checkHeader state header
        let typed ← (files "typed.md").read
        let body ← r.editBodySha256 text
        pure (freshness state (r.sha256 typed) body)

end Reading

/-! ## Extraction -/

inductive BaselineReset where
  | refuse
  | allowCommitted
  deriving DecidableEq

inductive Asset where
  | copySource (path : String) (source : Bytes)
  | bytes (path : String) (content : Bytes)
  | remove (path : String)
  deriving DecidableEq

structure Source where
  name : String
  entry : Entry

section Extraction

variable (r : Readers) (outdir : String) (files : Files)

def appliedEditCount : ℕ :=
  ((loadIslands r files).toOption.map List.length).getD 0 +
    ((loadStructure r files).toOption.map fun edits =>
      edits.newParagraphs.length + edits.deletedParagraphs.length).getD 0 +
    ((readFormatPlan r files).bind FormatPlan.paragraphs).getD 0

/-- A draft that is not clean is not discarded; one that cannot be classified is. -/
def checkDraft : Outcome Unit :=
  if !(files stateFile).exists then .ok ()
  else
    match classifyEditState r files with
    | .error _ => .ok ()
    | .ok .clean => .ok ()
    | .ok state => refuse ("workdir-has-pending-edit: " ++ outdir ++ " carries a `" ++ state.text ++
        "` draft; commit it first (`commit_sync`), then sync the source in — syncing now would " ++
        "discard the pending edit")

def checkApplied (reset : BaselineReset) : Outcome Unit :=
  if reset = .refuse ∧ 0 < appliedEditCount r files then
    refuse ("workdir-not-at-baseline: " ++ outdir ++ " carries " ++
      toString (appliedEditCount r files) ++ " edit(s) on top of its baseline that the source " ++
      "does not have; exporting keeps them but does not put the workdir back on its baseline, " ++
      "so either reset the workdir to the source on purpose (`--discard-committed-versions`) or " ++
      "start the incoming file in a workdir of its own")
  else .ok ()

def replacesExistingBaseline : Bool := (files templateFile).isFile

/-- The files that a baseline replacement clears. -/
def staleFiles : List String :=
  [islandsFile, structureFile, baselineViewFile, externalTargetsFile, formatPlanFile,
    "format_intents.json", projectionFile, stateFile, "workdir.json"]

def staleBaselineAssets : List Asset :=
  (staleFiles.filter fun name => (files name).isFile).map Asset.remove

/-- The epoch of the next baseline, as a `u64`. -/
def nextEpoch : ℕ := ((readBaselineEpoch r files).getD 0 + 1) % 2 ^ 64

def baselineAssets (source : Bytes) (record : FormatRecord) (styles typed : Bytes)
    (revisions : Bytes × Bytes) : List Asset :=
  [.copySource templateFile source, .bytes "format.json" (r.formatJson record),
    .bytes "styles.json" styles, .bytes "typed.md" typed, .bytes "revisions.json" revisions.1,
    .bytes "revisions.md" revisions.2,
    .bytes baselineFile (r.baselineJson (nextEpoch r files))]

/-- What a new baseline records of its source. -/
def baselineRecord (name : String) (source : Bytes) (manifest : Manifest) (styles : Bytes) :
    FormatRecord where
  schema := some "typed-format-1"
  modelVersion := some 1
  canonicalizerVersion := some 1
  source := some name
  sourceSha256 := some (r.sha256 source)
  templateSha256 := some (r.sha256 source)
  packageManifest := some manifest
  stylesSha256 := some (r.sha256 styles)
  typedSha256 := none

def planExtractWith (source : Source) (reset : BaselineReset) : Outcome (List Asset) := do
  checkDraft r outdir files
  checkApplied r outdir files reset
  if !source.entry.isFile then
    refuse ("file not found: " ++ source.name)
  else do
    let content ← source.entry.read
    let manifest ← r.packageManifest content
    if (manifest.lookup "word/document.xml").isNone then
      .error (.refused (.message "not a valid DOCX: missing word/document.xml"))
    else do
      let typed ← r.typedMarkup source.name content
      let styles ← r.styleRegistry content
      r.partRecords content
      let revisions ← r.revisions content
      let assets := baselineAssets r files content
        (baselineRecord r source.name content manifest styles) styles typed revisions
      if replacesExistingBaseline files then pure (assets ++ staleBaselineAssets files)
      else pure assets

/-- `apply_change_set`, on the names of a workdir; nothing is written over a folder. -/
def applyAsset (files : Files) : Asset → Option Files
  | .copySource path source =>
    if files path = .folder then none else some (Function.update files path (.file source true))
  | .bytes path content =>
    if files path = .folder then none else some (Function.update files path (.file content true))
  | .remove path => some (Function.update files path .missing)

def applyChangeSet (files : Files) (assets : List Asset) : Option Files :=
  assets.foldlM applyAsset files

end Extraction

/-! ## Building -/

section Building

variable (r : Readers) (files : Files)

/-- Whether `typed.md` is what the template gives, where `format.json` does not pin it. -/
def pristine (record : FormatRecord) (template typed : Bytes) : Bool :=
  match record.typedSha256 with
  | some recorded => recorded = r.sha256 typed
  | none =>
    if (files stateFile).isFile then true
    else
      match r.typedMarkup (record.source.getD "") template with
      | .ok expected => r.sha256 expected = r.sha256 typed
      | .error _ => true

structure WorkdirMeta where
  template : Bytes
  pristine : Bool

def requiredFiles : List String := ["typed.md", "format.json", "styles.json", templateFile]

def validateWorkdir : Outcome WorkdirMeta :=
  match requiredFiles.find? fun name => !(files name).isFile with
  | some name => refuse ("workdir missing: " ++ name)
  | none => do
    let format ← (files "format.json").read
    match r.formatRecord format with
    | none => refuse "invalid workdir JSON"
    | some record =>
      if record.schema ≠ some "typed-format-1" ∨ record.modelVersion ≠ some 1 ∨
          record.canonicalizerVersion ≠ some 1 then
        refuse "incompatible typed workdir schema"
      else do
        let template ← (files templateFile).read
        if record.templateSha256 ≠ some (r.sha256 template) then
          refuse "source-drift: template fingerprint changed after extract"
        else do
          let manifest ← r.packageManifest template
          if record.packageManifest ≠ some manifest then
            refuse "source-drift: template package manifest changed after extract"
          else do
            let styles ← (files "styles.json").read
            if record.stylesSha256 ≠ some (r.sha256 styles) then
              refuse "source-drift: styles.json changed after extract"
            else do
              let typed ← (files "typed.md").read
              pure ⟨template, pristine r files record template typed⟩

/-- What a build applies to its template. -/
structure BuildPlan where
  template : Bytes
  edits : List IslandEdit
  structureEdits : StructureEdits
  formatPlan : Option FormatPlan

/-- What a build does with edits: the gates of islands and structure, and the package that applying
a plan gives. -/
structure Builder where
  validateIslands : Bytes → List IslandEdit → Outcome Unit
  validateStructure : Bytes → StructureEdits → Outcome Unit
  applyEdits : Files → BuildPlan → Outcome Bytes

variable (b : Builder)

def checkFresh : Outcome Unit :=
  if !(files stateFile).isFile then .ok ()
  else do
    match ← classifyEditState r files with
    | .clean => pure ()
    | .dirty => refuse ("edit-dirty: edit.md has unapplied changes; run `docx2typed edit sync` " ++
        "to apply them or `docx2typed edit refresh --discard` to replace the projection")
    | .staleClean => refuse ("edit-stale: typed.md changed after the projection was generated; " ++
        "run `docx2typed edit refresh` first")
    | .conflict => refuse ("edit-conflict: typed.md and edit.md both changed; resolve " ++
        "explicitly before building")

def planBuild : Outcome BuildPlan := do
  let workdir ← validateWorkdir r files
  let islands ← loadIslands r files
  let structureEdits ← loadStructure r files
  let formatPlan := readFormatPlan r files
  if !workdir.pristine ∧ files ".docx2typed-store" ≠ .folder ∧ islands = [] ∧
      structureEdits.isEmpty ∧ formatPlan = none then
    refuse ("workdir-invalid: typed edits are not implemented in the protocol-major-1 Rust " ++
      "slice (issue #55; edits land in #56+)")
  else do
    checkFresh r files
    if islands ≠ [] then b.validateIslands workdir.template islands
    if !structureEdits.isEmpty then b.validateStructure workdir.template structureEdits
    pure ⟨workdir.template, islands, structureEdits, formatPlan⟩

/-- The package that a build of the workdir writes. -/
def build : Outcome Bytes := do
  let plan ← planBuild r files b
  if plan.edits = [] ∧ plan.structureEdits.isEmpty ∧ plan.formatPlan = none then pure plan.template
  else b.applyEdits files plan

end Building

end Docx2Typed.Baseline
