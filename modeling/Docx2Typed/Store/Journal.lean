import Docx2Typed.Basic
import Mathlib.Data.List.Infix

/-!
# The journal of a transaction

A mutation of the store leaves one record for each phase it has reached, in a file named after
the phase.  A record carries the hash of its own body and, in `prev_hash`, the hash of the record
it follows; `read_phases` reads the files that are there in the order of the phases and follows
the hashes.

`semantic_sha256` is a parameter: it is the SHA-256 of the canonical JSON of a value.  Of the
fields of a record those that the store reads again are fields here, the others stand as texts in
`rest`.
-/

namespace Docx2Typed.Store

/-- `StoreError`. -/
inductive StoreError where
  | store (code message : String)
  | io (message : String)
  deriving DecidableEq, Repr

/-! ## Records -/

inductive Phase where
  | intent
  | prepared
  | externalPublished
  | generationCommitted
  | completed
  deriving DecidableEq, Repr

def Phase.name : Phase → String
  | .intent => "intent"
  | .prepared => "prepared"
  | .externalPublished => "external-published"
  | .generationCommitted => "generation-committed"
  | .completed => "completed"

/-- `PHASE_ORDER`. -/
def phaseOrder : List Phase :=
  [.intent, .prepared, .externalPublished, .generationCommitted, .completed]

/-- The canonical path of an external output. -/
structure TargetPath where
  folder : String
  fileName : String
  deriving DecidableEq, Repr

/-- Where a file of the store lies: in a generation, beside the pointer, or outside. -/
inductive Place where
  | generation (name : String)
  | root
  | outside (path : TargetPath)
  deriving DecidableEq, Repr

/-- `expected_before`: what staging saw at the target. -/
structure ExpectedBefore where
  present : Option Bool
  sha256 : Option String
  deriving DecidableEq, Repr

/-- An external output as the journal lists it; a backup lies in the staging directory of its
operation. -/
structure External where
  target : TargetPath
  staged : String
  mode : String
  sha256 : Option String
  expectedBefore : Option ExpectedBefore
  backup : Option String := none
  backupSha256 : Option String := none
  deriving DecidableEq, Repr

/-- A `docx2typed-result-1` envelope.  `shaped` says that `data`, `diagnostics`, `evidence` and
`engine` are of the JSON types the envelope prescribes for them. -/
structure Envelope where
  schema : String
  operation : String
  outcome : String
  operationId : Option String
  data : String
  evidence : List String
  shaped : Bool := true
  deriving DecidableEq, Repr

/-- The payload of a record. -/
structure Payload where
  operationId : Option String := none
  generation : Option String := none
  parent : Option String := none
  inputSha256 : Option String := none
  envelope : Option Envelope := none
  ledgerAnchor : Option Place := none
  ledgerDirectory : Option Bool := none
  evidencePath : Option Place := none
  externals : Option (List External) := none
  outcome : Option String := none
  rest : List (String × String) := []
  deriving DecidableEq, Repr

/-- A record without its own hash. -/
structure Body where
  schema : Option String
  phase : Option String
  prevHash : Option String
  payload : Payload
  deriving DecidableEq, Repr

structure Record where
  body : Body
  recordSha256 : Option String
  deriving DecidableEq, Repr

/-- A file of a transaction directory: what parses, or what does not. -/
inductive JournalFile where
  | unreadable
  | record (record : Record)
  deriving DecidableEq, Repr

/-- The files of a transaction directory. -/
abbrev Journal := Phase → Option JournalFile

def Journal.empty : Journal := fun _ => none

def journalSchema : String := "docx2typed-transaction-journal-1"

section Records

variable (semanticSha256 : Body → String)

/-- `journal_record`. -/
def journalRecord (phase : Phase) (payload : Payload) (prevHash : String) : Record :=
  let body : Body :=
    { schema := some journalSchema, phase := some phase.name, prevHash := some prevHash, payload }
  { body, recordSha256 := some (semanticSha256 body) }

/-- `write_journal_record`, once the file is renamed into place. -/
def Journal.write (journal : Journal) (phase : Phase) (record : Record) : Journal :=
  Function.update journal phase (some (.record record))

/-! ## `read_phases` -/

def storeInvalid : String := "store-invalid"

/-- The shape that `read_phases` asks of the record in the file of a phase. -/
def Record.wellShaped (record : Record) (phase : Phase) : Bool :=
  decide (record.body.schema = some journalSchema) &&
    decide (record.body.phase = some phase.name) && record.recordSha256.isSome

/-- The loop of `read_phases` over the phases still to come. -/
def readPhasesFrom (journal : Journal) :
    List Phase → Option String → Except StoreError (List Record)
  | [], _ => .ok []
  | phase :: phases, expectedPrev =>
    match journal phase with
    | none => readPhasesFrom journal phases expectedPrev
    | some .unreadable =>
      .error (.store storeInvalid ("transaction journal record is corrupt: " ++ phase.name))
    | some (.record record) =>
      if record.wellShaped phase = false then
        .error (.store storeInvalid ("transaction journal record is malformed: " ++ phase.name))
      else if record.recordSha256 ≠ some (semanticSha256 record.body) then
        .error (.store storeInvalid ("transaction journal record hash mismatch: " ++ phase.name))
      else if expectedPrev.any (fun expected => record.body.prevHash ≠ some expected) then
        .error (.store storeInvalid ("transaction journal chain broken at " ++ phase.name))
      else do
        let records ← readPhasesFrom journal phases record.recordSha256
        pure (record :: records)

/-- `read_phases`. -/
def readPhases (journal : Journal) : Except StoreError (List Record) := do
  let records ← readPhasesFrom semanticSha256 journal phaseOrder none
  match records with
  | [] => pure []
  | first :: rest =>
    if (journal .intent).isSome && decide (first.body.phase ≠ some Phase.intent.name) then
      .error (.store storeInvalid "transaction journal starts without intent")
    else pure (first :: rest)

/-- `read_phases_soft`. -/
def readPhasesSoft (journal : Journal) : Option (List Record) :=
  (readPhases semanticSha256 journal).toOption

/-- The hash a record closed after a failure goes back to: that of the last record that can be
read. -/
def lastHash (journal : Journal) : String :=
  (((readPhasesSoft semanticSha256 journal).getD []).getLast?.bind (·.recordSha256)).getD "genesis"

end Records

/-! ## What recovery makes of the records -/

def Record.hasPhase (record : Record) (phase : Phase) : Bool :=
  decide (record.body.phase = some phase.name)

/-- The record of a phase, as recovery looks it up. -/
def findPhase (records : List Record) (phase : Phase) : Option Record :=
  records.find? (·.hasPhase phase)

/-- The ways `recover_tx` takes once it has read the records. -/
inductive Course where
  | rollBack
  | settle (completed : Record)
  | decideExternals (prepared : Record)
  | rollForward (prepared : Record)
  | rollBackPrepared (generation : String)
  | ambiguous
  | panic
  deriving DecidableEq, Repr

/-- The branches of `recover_tx`; `pointer` is the generation the pointer selects.  `panic` is the
`expect("prepared present")` of what a branch calls. -/
def course (records : List Record) (pointer : Option String) : Course :=
  match records.getLast? with
  | none => .rollBack
  | some last =>
    if last.hasPhase .completed then .settle last
    else
      let prepared := findPhase records .prepared
      match prepared.bind (·.body.payload.generation) with
      | none =>
        if last.hasPhase .externalPublished || last.hasPhase .generationCommitted then
          match prepared with
          | some prepared => .rollForward prepared
          | none => .panic
        else if last.hasPhase .prepared then .decideExternals last
        else .rollBack
      | some generation =>
        if pointer = some generation then
          match prepared with
          | some prepared => .rollForward prepared
          | none => .panic
        else if pointer = prepared.bind (·.body.payload.parent) then .rollBackPrepared generation
        else .ambiguous

end Docx2Typed.Store
