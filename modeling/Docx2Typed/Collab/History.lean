import Docx2Typed.Library.Lines
import Docx2Typed.Store.Collect

/-!
# The review history

`append` writes a record at the end of `.review/history.jsonl`; inside of a mutation the record
names the generation under construction.  `review_frame` with the id of a record looks it up in the
trail of the generation that the pointer selects, and reads the frame from the directory of the
generation that the record names.

A record is taken apart only as far as these look: its id, its generation, and the rest of its
object as `payload`.  How records are written and read as JSON is given by `RecordText`.
-/

namespace Docx2Typed.History

open Store
open Library (Fate Program)

/-! ## Records -/

/-- A record; the id is empty and the generation `none` where the object has no string there. -/
structure HistoryRecord where
  historyId : String
  generation : Option String
  payload : String
  deriving DecidableEq

/-- The JSON of records: one line each, which reads as the record again.  `legacyHistoryId` is the
hash that stands for a missing id. -/
structure RecordText where
  write : HistoryRecord → List Char
  read : List Char → Option HistoryRecord
  legacyHistoryId : HistoryRecord → String
  read_write : ∀ record, read (write record) = some record
  newline : ∀ record, '\n' ∉ write record
  carriage : ∀ record, '\r' ∉ write record

variable (text : RecordText)

/-! ## The trail -/

/-- `history_path`. -/
def historyPath : String := ".review/history.jsonl"

/-- The file that is read for records; one that is not there, or no text, has none. -/
def trailText (files : Files) : List Char :=
  match files.lookup historyPath with
  | some (.text text) => text.toList
  | _ => []

/-- The records of a directory: a line that is no record is left out. -/
def trail (files : Files) : List HistoryRecord :=
  (Library.linesFrom (· == '\n') [] (trailText files)).filterMap text.read

/-- `append`. -/
def append (record : HistoryRecord) (files : Files) : Files :=
  files.insert historyPath
    (.text (String.ofList (trailText files ++ (text.write record ++ ['\n']))))

/-- The id that `normalize` serves a record under. -/
def servedId (record : HistoryRecord) : String :=
  if record.historyId = "" then text.legacyHistoryId record else record.historyId

/-- `read`. -/
def readHistory (files : Files) (historyId : String) : Option HistoryRecord :=
  (trail text files).find? (servedId text · = historyId)

/-! ## Frames -/

/-- A review frame: its identity, and the directory that the document, the review, the state and
the history list are read from. -/
structure Frame where
  generation : String
  generationManifestSha256 : Option String
  historyId : Option String
  files : Files

/-- `pin`, with the files of the pinned directory. -/
def pinned (disk : Disk) : Except StoreError (Pointer × Files) :=
  match disk.pointer with
  | none => .error (.store storeInvalid "store pointer is missing or corrupt")
  | some pointer =>
    match disk.generations.lookup pointer.generation with
    | none => .error (.store needsRecovery
        ("pointer selects generation " ++ pointer.generation ++ " but its directory is missing"))
    | some files =>
      match files.lookup generationJson with
      | some (.manifest manifest) =>
        if manifest.generation = pointer.generation then .ok (pointer, files)
        else .error (.store needsRecovery "generation manifest is malformed")
      | _ => .error (.store needsRecovery "generation manifest is corrupt")

/-- `generation_manifest_sha256`. -/
def generationManifestSha256 (disk : Disk) (generation : String) : Option String :=
  match disk.readFile (.generation generation generationJson) with
  | some (.manifest manifest) => some manifest.assetsSha256
  | _ => none

def historyGenerationUnavailable : String := "history-generation-unavailable"

/-- `review_frame` on a workdir with a store. -/
def reviewFrame (disk : Disk) (historyId : Option String) : Except StoreError Frame :=
  match pinned disk with
  | .error error => .error error
  | .ok (pointer, files) =>
    match historyId with
    | none => .ok
        { generation := pointer.generation, generationManifestSha256 := pointer.manifestSha256
          historyId := none, files }
    | some id =>
      match readHistory text files id with
      | none => .error (.store "history-not-found" "no history record with this id")
      | some record =>
        match record.generation with
        | none => .error (.store historyGenerationUnavailable
            ("the history record predates generation binding and cannot be reconstructed as an " ++
              "atomic frame"))
        | some generation =>
          match disk.generations.lookup generation with
          | none => .error (.store historyGenerationUnavailable
              "the referenced generation is no longer materialized")
          | some files => .ok
              { generation, generationManifestSha256 := generationManifestSha256 disk generation
                historyId := some id, files }

/-! ## Mutations that append -/

/-- A change that leaves the trail as it is. -/
structure Change where
  run : Files → Except StoreError Files
  trail_eq : ∀ {files files' : Files}, run files = .ok files' →
    files'.lookup historyPath = files.lookup historyPath

/-- What the closure of a mutation does to the generation under construction. -/
inductive Act where
  | change (change : Change)
  | append (historyId payload : String)

/-- A record, with the files as they were when it was appended. -/
structure Appended where
  record : HistoryRecord
  files : Files

/-- The record of an append in a generation: `generation_binding` gives its name. -/
def recordIn (generation historyId payload : String) : HistoryRecord :=
  { historyId, generation := some generation, payload }

/-- The files that a closure leaves. -/
def perform (generation : String) : List Act → Files → Except StoreError Files
  | [], files => .ok files
  | .change change :: acts, files =>
    match change.run files with
    | .error error => .error error
    | .ok files => perform generation acts files
  | .append historyId payload :: acts, files =>
    perform generation acts (append text (recordIn generation historyId payload) files)

/-- The records that it appends on the way. -/
def appended (generation : String) : List Act → Files → List Appended
  | [], _ => []
  | .change change :: acts, files =>
    match change.run files with
    | .error _ => []
    | .ok files => appended generation acts files
  | .append historyId payload :: acts, files =>
    let record := recordIn generation historyId payload
    let files := append text record files
    { record, files } :: appended generation acts files

/-- The request with a closure; what it gives back, it makes of the files that the acts leave. -/
def performing (request : Request) (acts : List Act) : Request :=
  { request with
    run := fun files =>
      match perform text request.generationId acts files with
      | .error error => .error error
      | .ok files' => (request.run files').map fun outcome => { outcome with files := files' } }

/-! ## Runs -/

/-- A record that a mutation has appended; `stands` says whether the pointer selected the
generation when the mutation ended. -/
structure Logged where
  record : HistoryRecord
  files : Files
  stands : Bool

/-- A store with all records appended so far, and all generation ids drawn so far. -/
structure Reviewed where
  disk : Disk
  log : List Logged
  drawn : List String

/-- What happens to a store: a mutation, the recovery of a transaction, and the collection that
ends every recovery.  Each may fail or be cut off at any of its steps. -/
inductive Event where
  | mutate (request : Request) (acts : List Act) (fates : List Fate)
  | settle (txName : String) (fates : List Fate)
  | collect (fates : List Fate)

/-- What a closure runs on: the files of the parent under the drafts of the root. -/
def parentFiles (disk : Disk) : Option Files :=
  disk.pointer.bind fun pointer =>
    (disk.generations.lookup pointer.generation).map (overlayIngress disk.root)

/-- The records that a mutation comes to append. -/
def appendedAt (disk : Disk) (request : Request) (acts : List Act) : List Appended :=
  if request.generation then
    match parentFiles disk with
    | some files => appended text request.generationId acts files
    | none => []
  else []

/-- The pointer selects the generation. -/
def selects (disk : Disk) (generation : String) : Bool :=
  decide (disk.pointer.map (·.generation) = some generation)

section Runs

variable (digests : Digests) (canonicalSource : Files → Option TargetPath)

def Reviewed.step (state : Reviewed) : Event → Reviewed
  | .mutate request acts fates =>
    let disk := (mutateSettled digests canonicalSource (performing text request acts) state.disk
      fates).state
    { disk
      log := state.log ++ (appendedAt text state.disk request acts).map fun appended =>
        { record := appended.record, files := appended.files
          stands := selects disk request.generationId }
      drawn := request.generationId :: state.drawn }
  | .settle txName fates =>
    { state with disk := (recoverTx digests txName state.disk fates).state }
  | .collect fates => { state with disk := (gcAbandoned digests state.disk fates).state }

def Reviewed.run (state : Reviewed) (events : List Event) : Reviewed :=
  events.foldl (Reviewed.step text digests canonicalSource) state

end Runs

/-! ## Reconstruction -/

/-- The files that the store writes into a generation beside those of the closure. -/
def serviceFiles : List String := [generationJson, operationLedger, "run.evidence.json"]

/-- A frame reads the same in both directories. -/
def SameReading (files files' : Files) : Prop :=
  ∀ name, name ∉ serviceFiles → files.lookup name = files'.lookup name

/-- Every record that a frame finds and that names a generation is served from that generation, with
the files as they were when it was appended; and none is found of a mutation that was rolled
back. -/
structure Reconstructs (state : Reviewed) : Prop where
  served : ∀ pointer files historyId record generation,
    pinned state.disk = .ok (pointer, files) → readHistory text files historyId = some record →
      record.generation = some generation →
        ∃ frame, reviewFrame text state.disk (some historyId) = .ok frame ∧
          frame.generation = generation ∧ (∃ logged ∈ state.log, logged.record = record) ∧
            ∀ logged ∈ state.log, logged.record = record → SameReading frame.files logged.files
  rolledBack : ∀ logged ∈ state.log, logged.stands = false → ∀ pointer files historyId,
    pinned state.disk = .ok (pointer, files) →
      readHistory text files historyId ≠ some logged.record

end Docx2Typed.History
