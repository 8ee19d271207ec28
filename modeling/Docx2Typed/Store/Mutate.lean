import Docx2Typed.Store.Chain
import Docx2Typed.Store.Recovery

/-!
# Mutations

`mutate` settles what an earlier run has left, checks the caller's expectations, and then works
through its phases: a generation is copied and changed, the journal is prepared, external outputs
are published, the pointer is moved, the ledger is written, the root follows, the journal is
closed.  A step that fails sends it to `abort`.

What the caller does with the files is `Request.run`; it sees the files of its target and gives
those it leaves and the outputs it stages.  A mutation without a generation sees the root and
leaves it alone.  The messages of errors are cut where they come to name a path.
-/

namespace Docx2Typed.Store

open Library (Program)
open Library.Program

/-- An output the caller stages. -/
structure Staged where
  name : String
  target : TargetPath
  mode : String
  content : Content

/-- `RunOutcome`, with the files the run leaves and what it has staged.  `evidence` is the run
evidence made of `kind` and `payload`. -/
structure RunOutcome where
  outcome : String
  data : String
  evidence : String
  files : Files
  staged : List Staged := []

/-- `StoreMutateRequest`, with the boundary, and with the id and the time that the call draws. -/
structure Request where
  operation : String
  operationId : String
  canonical : String
  inputSha256 : String
  expectedGeneration : String
  generation : Bool
  saveBoundary : Bool
  boundary : Option SaveBoundary := none
  ledgerAnchor : Option Place := none
  ledgerDirectory : Bool := true
  evidencePath : Option Place := none
  kind : String
  run : Files → Except StoreError RunOutcome
  generationId : String
  createdAt : String

section Mutate

variable (digests : Digests) (canonicalSource : Files → Option TargetPath)

/-! ## External outputs -/

def externalFileChanged : String := "external-file-changed"

/-- `check_external_target`. -/
def checkExternalTarget (disk : Disk) (target : TargetPath) :
    Except StoreError (Option ExternalExpectation) :=
  let unknown : Except StoreError (Option ExternalExpectation) :=
    if canonicalSource disk.root = some target ∧ (disk.root.lookup "_template.docx").isSome ∧
        (disk.outside target).map digests.fileSha256 =
          (disk.root.lookup "_template.docx").map digests.fileSha256 then .ok none
    else if (disk.outside target).isSome then
      .error (.store externalFileChanged "external output is not this workdir's publication")
    else .ok (some { expectedSha256 := none, epoch := disk.epoch, observedAbsent := true })
  match (disk.registry target).filter (·.epoch = disk.epoch) with
  | none => unknown
  | some entry =>
    match entry.expectedSha256 with
    | some expected =>
      match disk.outside target with
      | some content =>
        if digests.fileSha256 content = expected then .ok none
        else .error (.store externalFileChanged "external output changed outside the engine")
      | none => .error (.store externalFileChanged "external output disappeared outside the engine")
    | none =>
      if entry.observedAbsent ∧ (disk.outside target).isSome then
        .error (.store externalFileChanged "external output appeared outside the engine")
      else .ok none

/-- The targets checked one after the other. -/
def checkTargets (disk : Disk) : List TargetPath → Except StoreError Unit
  | [] => .ok ()
  | target :: targets =>
    match checkExternalTarget digests canonicalSource disk target with
    | .error error => .error error
    | .ok _ => checkTargets disk targets

/-- `stage_external`. -/
def stageExternal (disk : Disk) (staged : Staged) : External where
  target := staged.target
  staged := staged.name
  mode := staged.mode
  sha256 := some (digests.fileSha256 staged.content)
  expectedBefore :=
    match disk.outside staged.target with
    | some content => some { present := some true, sha256 := some (digests.fileSha256 content) }
    | none => some { present := some false, sha256 := none }

/-- The staged file of an external output. -/
def stagedContent (disk : Disk) (operationId : String) (external : External) : Option Content :=
  (disk.staging.lookup operationId).bind (·.lookup external.staged)

def eraseStaged (operationId name : String) (disk : Disk) : Disk :=
  let files := (disk.staging.lookup operationId).getD ∅
  { disk with staging := disk.staging.insert operationId (files.erase name) }

/-- `record_external_success`. -/
def recordExternalSuccess (target : TargetPath) (sha256 : String) (disk : Disk) : Disk :=
  disk.setRegistry (Function.update disk.registry target
    (some { expectedSha256 := some sha256, epoch := disk.epoch, observedAbsent := false }))

/-- One round of `publish_externals`; it gives the external with its backup. -/
def publishExternal (operationId : String) (external : External) :
    Program Disk StoreError External := do
  let disk ← look fun disk => disk
  let stillExpected := match external.expectedBefore with
    | some { present := some true, sha256 := some was } =>
      (disk.outside external.target).any fun content => digests.fileSha256 content = was
    | some { present := some false, .. } => (disk.outside external.target).isNone
    | _ => true
  if stillExpected = false then
    attempt (eraseStaged operationId external.staged)
    fail (.store externalFileChanged
      "external output changed outside the engine just before publication")
  else
    let staged ← match stagedContent disk operationId external with
      | some staged => give staged
      | none => fail ioError
    let external' ←
      if external.expectedBefore.bind (·.present) = some false then do
        act ioError fun disk =>
          { disk with outside := Function.update disk.outside external.target (some staged) }
        attempt (eraseStaged operationId external.staged)
        give external
      else do
        match disk.outside external.target with
        | none =>
          attempt (eraseStaged operationId external.staged)
          fail ioError
        | some now =>
          if (external.expectedBefore.bind (·.sha256)).any (· ≠ digests.fileSha256 now) then
            attempt (eraseStaged operationId external.staged)
            fail (.store externalFileChanged
              "external output changed outside the engine during the build")
          else
            let backup := "backup-" ++ external.target.fileName
            act ioError fun disk =>
              let files := (disk.staging.lookup operationId).getD ∅
              { disk with staging := disk.staging.insert operationId (files.insert backup now) }
            act ioError fun disk =>
              eraseStaged operationId external.staged
                { disk with outside := Function.update disk.outside external.target (some staged) }
            give { external with
              backup := some backup, backupSha256 := some (digests.fileSha256 now) }
    act ioError (recordExternalSuccess external.target (external.sha256.getD ""))
    give external'

/-- The rounds of `publish_externals`. -/
def publishEach (operationId : String) : List External → Program Disk StoreError (List External)
  | [] => give []
  | external :: externals => do
    let first ← publishExternal digests operationId external
    let rest ← publishEach operationId externals
    give (first :: rest)

/-- `publish_externals`. -/
def publishExternals (m : Mutation) : Program Disk StoreError Mutation :=
  if m.externals = [] then give m
  else do
    let published ← publishEach digests m.operationId m.externals
    let m := { m with published }
    act ioError (Disk.writeRecord m.operationId .externalPublished
      (m.externalPublished digests.semanticSha256))
    give m

/-! ## Checks before the journal -/

/-- The known outputs of `check_production_entry`: the anchor of a ledger that is a file.  That
the evidence path names the same output by its suffix is not modelled. -/
def entryTargets (request : Request) : List TargetPath :=
  match request.ledgerAnchor with
  | some (.outside path) => if request.ledgerDirectory then [] else [path]
  | _ => []

def needsRecovery : String := "needs-recovery"
def generationConflict : String := "generation-conflict"
def operationIdReused : String := "operation-id-reused"
def operationJournalConflict : String := "operation-journal-conflict"

/-- What `mutate` finds before it journals anything: a refusal, the result of an earlier call, or
leave to go on from a pointer. -/
inductive Admission where
  | refuse (error : StoreError)
  | replay (envelope : Envelope)
  | proceed (pointer : Pointer)

/-- The checks between recovery and journal. -/
def admission (disk : Disk) (request : Request) : Admission :=
  match disk.pointer with
  | none => .refuse (.store needsRecovery "workdir pointer is missing or corrupt")
  | some pointer =>
    if pointer.generation ≠ request.expectedGeneration then
      .refuse (.store generationConflict ("expected parent generation " ++
        request.expectedGeneration ++ ", current is " ++ pointer.generation))
    else if pointer.manifestSha256.any fun manifest =>
        decide (request.inputSha256 ≠ "") && decide (manifest ≠ request.inputSha256) then
      .refuse (.store generationConflict "generation content changed since planning")
    else
      match (lookupLedger disk request.operationId request.generation request.ledgerAnchor
          request.ledgerDirectory).1 with
      | some prior =>
        match decide (prior.inputSha256 = some request.canonical), prior.envelope with
        | true, some envelope => .replay envelope
        | _, _ => .refuse (.store operationIdReused
            ("operation_id was already used with different " ++ "canonical input"))
      | none =>
        match checkTargets digests canonicalSource disk (entryTargets request) with
        | .error error => .refuse error
        | .ok _ => .proceed pointer

/-! ## The phases -/

/-- `begin_journal`, after the check that the directory is new. -/
def beginJournal (m : Mutation) : Program Disk StoreError Unit := do
  let taken ← look fun disk => (disk.transactions.lookup m.operationId).isSome
  if taken then
    fail (.store operationJournalConflict "transaction already exists")
  else
    act ioError fun disk =>
      { disk with transactions := disk.transactions.insert m.operationId Journal.empty }
    act ioError (Disk.writeRecord m.operationId .intent (m.intent digests.semanticSha256))

/-- What the journal has to say before the run. -/
def begunMutation (request : Request) (pointer : Pointer) : Mutation where
  operationId := request.operationId
  canonical := request.canonical
  expectedGeneration := request.expectedGeneration
  inputSha256 := request.inputSha256
  kind := request.kind
  pointerSha256 := digests.pointerSha256 pointer
  generationId := request.generationId
  isGeneration := request.generation
  current := pointer.generation
  manifestSha256 := ""
  evidencePath := request.evidencePath.getD
    (if request.generation then .generation request.generationId else .root)
  evidenceSha256 := ""
  envelope := { schema := "", operation := "", outcome := "", operationId := none, data := "",
                evidence := [] }
  envelopeSha256 := ""
  ledgerAnchor := request.ledgerAnchor.getD
    (if request.generation then .generation request.generationId else .root)
  ledgerDirectory := request.ledgerDirectory
  externals := []
  published := []

/-- `copy_generation` and `overlay_ingress`. -/
def copyGeneration (request : Request) (pointer : Pointer) : Program Disk StoreError Unit :=
  if request.generation then do
    let parent ← look fun disk => disk.generations.lookup pointer.generation
    match parent with
    | none => fail ioError
    | some files =>
      act ioError fun disk =>
        { disk with generations := disk.generations.insert request.generationId files }
      act ioError fun disk =>
        let files := (disk.generations.lookup request.generationId).getD ∅
        { disk with generations := disk.generations.insert request.generationId
                      (overlayIngress disk.root files) }
  else give ()

/-- The files that a run leaves, and those it stages. -/
def leaveRun (request : Request) (outcome : RunOutcome) (disk : Disk) : Disk :=
  let generations := if request.generation then
    disk.generations.insert request.generationId outcome.files else disk.generations
  let staging := if outcome.staged = [] then disk.staging else
    disk.staging.insert request.operationId
      (outcome.staged.foldl (fun files staged => files.insert staged.name staged.content) ∅)
  { disk with generations, staging }

/-- The files a run sees. -/
def targetFiles (request : Request) (disk : Disk) : Files :=
  if request.generation then (disk.generations.lookup request.generationId).getD ∅ else disk.root

/-- The manifest of the new generation, where there is one; it gives the `manifest_sha256` of the
journal. -/
def writeManifest (request : Request) (pointer : Pointer) : Program Disk StoreError String :=
  if request.generation then do
    let files ← look fun disk => (disk.generations.lookup request.generationId).getD ∅
    let manifest := generationManifest digests files request.generationId
      (some pointer.generation) request.operationId request.canonical
    act ioError (Disk.writeFile (.generation request.generationId generationJson)
      (.manifest manifest))
    give manifest.assetsSha256
  else give (pointer.manifestSha256.getD request.canonical)

/-- From the copy of the generation to the `prepared` record. -/
def prepare (request : Request) (pointer : Pointer) : Program Disk StoreError Mutation := do
  copyGeneration request pointer
  let files ← look (targetFiles request)
  match request.run files with
  | .error error => fail error
  | .ok outcome =>
    act ioError (leaveRun request outcome)
    let externals ← look fun disk => outcome.staged.map (stageExternal digests disk)
    let checked ← look fun disk =>
      checkTargets digests canonicalSource disk (externals.map (·.target))
    match checked with
    | .error error => fail error
    | .ok _ =>
      let manifestSha256 ← writeManifest digests request pointer
      let begun := begunMutation digests request pointer
      act ioError (Disk.writeFile (evidenceLocation begun.evidencePath) (.text outcome.evidence))
      let envelope : Envelope :=
        { schema := resultSchema, operation := request.operation, outcome := outcome.outcome
          operationId := some request.operationId, data := outcome.data
          evidence := [outcome.evidence] }
      let m := { begun with
        manifestSha256, externals, envelope
        evidenceSha256 := digests.evidenceSha256 outcome.evidence
        envelopeSha256 := digests.envelopeSha256 envelope }
      act ioError (Disk.writeRecord m.operationId .prepared (m.prepared digests.semanticSha256))
      give m

/-- `commit_pointer` of a mutation. -/
def commitPointer (request : Request) (m : Mutation) : Program Disk StoreError Unit :=
  if request.generation then do
    let files ← look fun disk => (disk.generations.lookup request.generationId).getD ∅
    let version ←
      if request.saveBoundary then
        recordVersion digests files (request.boundary.getD { origin := request.operation })
          request.createdAt
      else give none
    act ioError fun disk => disk.setPointer
      (pointerPayload digests disk.pointer request.generationId request.operationId
        m.manifestSha256 version)
  else give ()

/-- The phases up to the pointer. -/
def advance (request : Request) (pointer : Pointer) : Program Disk StoreError Mutation := do
  let prepared ← prepare digests canonicalSource request pointer
  let m ← publishExternals digests prepared
  commitPointer digests request m
  give m

/-- The phases after the pointer has moved. -/
def conclude (request : Request) (m : Mutation) : Program Disk StoreError Envelope := do
  act ioError (Disk.writeRecord m.operationId .generationCommitted
    (m.generationCommitted digests.semanticSha256))
  act ioError (writeLedgerAt m.envelope m.canonical m.ledgerAnchor m.ledgerDirectory)
  if request.generation then
    let files ← look fun disk => (disk.generations.lookup request.generationId).getD ∅
    materializeRoot files
  else give ()
  act ioError (Disk.writeRecord m.operationId .completed (m.completed digests.semanticSha256))
  attempt (Disk.removeTransaction m.operationId)
  attempt (Disk.removeStaging m.operationId)
  give m.envelope

/-- What the journal says of an error. -/
def abortError : StoreError → AbortError
  | .store code message => { code, message, reserveReleased := false }
  | .io message => { code := "io", message, reserveReleased := false }

/-- `abort`, and the error. -/
def abort {α : Type} (request : Request) (pointer : Pointer) (pointerCommitted : Bool)
    (error : StoreError) : Program Disk StoreError α := do
  if pointerCommitted then
    attempt fun disk => disk.setPointer
      (pointerPayload digests disk.pointer pointer.generation ""
        (recordedAssetsSha256 disk pointer.generation) none)
  else give ()
  attempt (Disk.removeGeneration request.generationId)
  attempt (Disk.removeStaging request.operationId)
  attempt fun disk => disk.writeRecord request.operationId .completed
    ((begunMutation digests request pointer).aborted digests.semanticSha256 (abortError error)
      (disk.journal request.operationId))
  attempt (Disk.removeTransaction request.operationId)
  fail error

/-- The recovery that a mutation starts with. -/
def settlePending : Program Disk StoreError Unit := do
  let pending ← look fun disk => decide (disk.transactions.keys ≠ [])
  if pending then
    let summary ← recover digests
    if summary.needsRecovery = [] then give ()
    else fail (.store needsRecovery "workdir needs recovery")
  else give ()

/-- `mutate_with_boundary`. -/
def mutate (request : Request) : Program Disk StoreError Envelope := do
  settlePending digests
  let admitted ← look fun disk => admission digests canonicalSource disk request
  match admitted with
  | .refuse error => fail error
  | .replay envelope => give envelope
  | .proceed pointer =>
    beginJournal digests (begunMutation digests request pointer)
    let m ← handle (advance digests canonicalSource request pointer)
      (abort digests request pointer false)
    handle (conclude digests request m) (abort digests request pointer request.generation)

end Mutate

end Docx2Typed.Store
