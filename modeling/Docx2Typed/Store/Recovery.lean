import Docx2Typed.Store.Disk

/-!
# Recovery

`recover` looks at every transaction directory in turn and takes the way that `course` finds for
the records in it, then collects what nothing names any more.  What it cannot decide it reports
under `needs_recovery` and leaves as it is.
-/

namespace Docx2Typed.Store

open Library (Program)
open Library.Program

/-- `RecoverySummary`; a report is an operation and what is said of it. -/
structure Summary where
  recovered : List (String × String) := []
  rolledBack : List String := []
  needsRecovery : List (String × String) := []
  cleaned : List String := []
  deriving DecidableEq, Repr

def Summary.and (first second : Summary) : Summary where
  recovered := first.recovered ++ second.recovered
  rolledBack := first.rolledBack ++ second.rolledBack
  needsRecovery := first.needsRecovery ++ second.needsRecovery
  cleaned := first.cleaned ++ second.cleaned

/-- A program of recovery: its summary, and no error of its own. -/
abbrev Recovering := Program Disk StoreError

/-- `ambiguous`, and `quarantine`, which does no more. -/
def ambiguous (operationId reason : String) : Summary :=
  { needsRecovery := [(operationId, reason)] }

section Recovery

variable (digests : Digests)

/-! ## External outputs -/

/-- `expected_registry_state`. -/
def expectedRegistryState (entry : Option ExternalExpectation) (external : External)
    (epoch : Nat) : Option Bool :=
  match external.expectedBefore.bind (·.present), external.sha256 with
  | some wasPresent, some journalBytes =>
    match entry.filter (·.epoch = epoch) with
    | some entry =>
      match entry.expectedSha256 with
      | some expected =>
        if journalBytes = expected then some true
        else if wasPresent = false then some false
        else (external.expectedBefore.bind (·.sha256)).map fun wasHash => decide (wasHash = expected)
      | none => if entry.observedAbsent then some (!wasPresent) else none
    | none => if wasPresent then none else some true
  | _, _ => none

/-- The target holds the bytes that the journal lists. -/
def landed (disk : Disk) (external : External) : Bool :=
  match disk.outside external.target with
  | some content => decide (some (digests.fileSha256 content) = external.sha256)
  | none => false

/-- The backup of an external output, where the journal names one and it is there. -/
def backupOf (disk : Disk) (operationId : String) (external : External) : Option Content :=
  external.backup.bind fun name => (disk.staging.lookup operationId).bind (·.lookup name)

def backupOk (disk : Disk) (operationId : String) (external : External) : Bool :=
  match backupOf disk operationId external with
  | some content => decide (some (digests.fileSha256 content) = external.backupSha256)
  | none => false

/-- The target is as staging saw it. -/
def stagingStateMatches (disk : Disk) (external : External) : Bool :=
  match external.expectedBefore with
  | some { present := some false, .. } => (disk.outside external.target).isNone
  | some { present := some true, sha256 := some was } =>
    (disk.outside external.target).any fun content => digests.fileSha256 content = was
  | _ => false

/-- What `external_decision` makes of one target. -/
inductive Verdict where
  | landed
  | untouched
  | quarantine (reason : String)
  deriving DecidableEq, Repr

def changedDuringBuild : String :=
  "external target changed outside the engine during the build; " ++
    "target left untouched, needs explicit recovery"

def changedAfterStaging : String :=
  "external output changed outside the engine after staging; " ++
    "target left untouched, needs explicit recovery"

/-- The body of the loop of `external_decision`. -/
def judge (disk : Disk) (operationId : String) (external : External) : Verdict :=
  if expectedRegistryState (disk.registry external.target) external disk.epoch ≠ some true then
    .quarantine changedDuringBuild
  else if landed digests disk external then .landed
  else if (disk.outside external.target).isSome && !backupOk digests disk operationId external &&
      decide (external.mode = "create") then
    .quarantine "unmatched external output"
  else if stagingStateMatches digests disk external || backupOk digests disk operationId external
    then .untouched
  else .quarantine changedAfterStaging

inductive Decision where
  | forward
  | back
  | ambiguous
  deriving DecidableEq, Repr

/-- What a verdict changes of the decision and of `ambiguous`. -/
def decideStep (state : Option Decision × Bool) : Verdict → Option Decision × Bool
  | .landed => (some .forward, state.2)
  | .untouched => (if state.1 = some .forward then state.1 else some .back, state.2)
  | .quarantine _ => (state.1, true)

def Verdict.report (operationId : String) : Verdict → Summary
  | .quarantine reason => ambiguous operationId reason
  | _ => {}

/-- `external_decision` for a journal older than the precondition. -/
def legacyDecision (disk : Disk) (operationId : String) : List External → Decision × Summary
  | [] => (.forward, {})
  | external :: externals =>
    if landed digests disk external && (disk.registry external.target).any (fun entry =>
        entry.epoch = disk.epoch && decide (entry.expectedSha256 = external.sha256)) then
      legacyDecision disk operationId externals
    else (.ambiguous, ambiguous operationId "legacy journal cannot prove this target")

/-- `external_decision`. -/
def externalDecision (disk : Disk) (operationId : String) (externals : List External) :
    Decision × Summary :=
  if externals.any (·.expectedBefore.isNone) then legacyDecision digests disk operationId externals
  else
    let verdicts := externals.map (judge digests disk operationId)
    let state := verdicts.foldl decideStep (none, false)
    let report := (verdicts.map (Verdict.report operationId)).foldl Summary.and {}
    (if state.2 then .ambiguous else state.1.getD .back, report)

/-- One external output of `roll_back_externals`: a backup is renamed back over the target, and a
created output is removed. -/
def rollBackExternal (operationId : String) (external : External) : Recovering Summary :=
  andThen (look fun disk => disk) fun disk =>
    match backupOf disk operationId external with
    | some content =>
      if some (digests.fileSha256 content) ≠ external.backupSha256 then
        give (ambiguous operationId "backup hash mismatch")
      else
        handle
          (andThen (act ioError fun disk =>
            { disk with
              outside := Function.update disk.outside external.target (some content)
              staging := disk.staging.insert operationId
                (((disk.staging.lookup operationId).getD ∅).erase (external.backup.getD "")) })
            fun _ => give { rolledBack := [operationId] })
          fun _ => give (ambiguous operationId "backup restore failed")
    | none =>
      if external.mode = "create" ∧ (disk.outside external.target).isSome then
        handle
          (andThen (act ioError fun disk =>
            { disk with outside := Function.update disk.outside external.target none })
            fun _ => give { rolledBack := [operationId] })
          fun _ => give (ambiguous operationId "output removal failed")
      else give { rolledBack := [operationId] }

/-- A program for each entry, and what they report together. -/
def collect {α : Type} (f : α → Recovering Summary) : List α → Recovering Summary
  | [] => give {}
  | a :: as => andThen (f a) fun first => andThen (collect f as) fun rest => give (first.and rest)

/-- `roll_back_externals`: only what `external-published` lists. -/
def rollBackExternals (operationId : String) (records : List Record) : Recovering Summary :=
  let externals :=
    ((findPhase records .externalPublished).bind (·.body.payload.externals)).getD []
  andThen (collect (rollBackExternal digests operationId) externals) fun summary =>
    andThen (attempt (Disk.removeStaging operationId)) fun _ => give summary

/-! ## Closing a transaction -/

/-- `roll_back_generation`. -/
def rollBackGeneration (operationId : String) (preparedGen : Option String) :
    Recovering Summary := do
  match preparedGen with
  | some generation => attempt (Disk.removeGeneration generation)
  | none => give ()
  attempt (Disk.removeStaging operationId)
  let prevHash ← look fun disk => lastHash digests.semanticSha256 (disk.journal operationId)
  let completed := journalRecord digests.semanticSha256 .completed
    { operationId := some operationId, outcome := some "rolled-back", generation := preparedGen }
    prevHash
  handle (act ioError (Disk.writeRecord operationId .completed completed))
    fun _ => attempt (Disk.writeRecord operationId .completed completed)
  attempt (Disk.removeTransaction operationId)
  give { rolledBack := [operationId] }

/-- Where the run evidence of a place lies. -/
def evidenceLocation : Place → Location
  | .generation generation => .generation generation "run.evidence.json"
  | .root => .root "run.evidence.json"
  | .outside path => .outside path

/-- The directory that the ledger is repaired in when the journal names none. -/
def fallbackAnchor (disk : Disk) (generation : Option String) : Option Place :=
  let present := fun generation => (disk.generations.lookup generation).isSome
  ((generation.filter present).or ((disk.pointer.map (·.generation)).filter present)).map
    .generation

/-- The ledger half of `repair_semantic_result`; `none` is its `false`. -/
def repairLedger (operationId canonical : String) (envelope : Option Envelope)
    (anchor : Option Place) (directory : Bool) : Recovering (Option Summary × Summary) :=
  match anchor, envelope with
  | some anchor, some envelope =>
    andThen (look fun disk => lookupPersisted disk operationId (ledgerLocation anchor directory))
      fun record =>
        if envelope.schema = resultSchema ∧ record = none ∧
            envelope.outcome ∈ ["success", "partial"] then
          handle
            (andThen (act ioError (writeLedgerAt envelope canonical anchor directory)) fun _ =>
              give (some { recovered := [(operationId, "ledger-repaired")] }, {}))
            fun _ => give (none, ambiguous operationId "ledger repair failed")
        else give (some {}, {})
  | _, _ => give (some {}, {})

/-- The evidence half of `repair_semantic_result`. -/
def repairEvidence (operationId : String) (envelope : Option Envelope) (path : Option Place) :
    Recovering (Option Summary × Summary) :=
  match path, envelope with
  | some path, some { evidence := [evidence], .. } =>
    andThen (look fun disk => disk.readFile (evidenceLocation path)) fun content =>
      if content = some (.text evidence) then give (some {}, {})
      else
        handle
          (andThen (act ioError (Disk.writeFile (evidenceLocation path) (.text evidence))) fun _ =>
            give (some { recovered := [(operationId, "evidence-repaired")] }, {}))
          fun _ => give (none, ambiguous operationId "evidence repair failed")
  | _, _ => give (some {}, {})

/-- `repair_semantic_result`. -/
def repairSemanticResult (txName : String) (prepared completed : Option Record) :
    Recovering (Option Summary × Summary) := do
  let subject := completed.or prepared
  let operationId := (subject.bind (·.body.payload.operationId)).getD txName
  let envelope := subject.bind (·.body.payload.envelope)
  let canonical := ((prepared.or completed).bind (·.body.payload.inputSha256)).getD ""
  let generation := subject.bind (·.body.payload.generation)
  let records ← look fun disk =>
    (readPhasesSoft digests.semanticSha256 (disk.journal txName)).getD []
  let preparedRec := findPhase records .prepared
  let anchor ← look fun disk =>
    (preparedRec.bind (·.body.payload.ledgerAnchor)).or (fallbackAnchor disk generation)
  let directory := (preparedRec.bind (·.body.payload.ledgerDirectory)).getD true
  let ledger ← repairLedger operationId canonical envelope anchor directory
  match ledger.1 with
  | none => give ledger
  | some first =>
    let evidence ← repairEvidence operationId envelope
      (preparedRec.bind (·.body.payload.evidencePath))
    match evidence.1 with
    | none => give (none, first.and evidence.2)
    | some second => give (some (first.and second), {})

/-- The registry with the externals whose targets hold the bytes of the journal. -/
def registryAfter (disk : Disk) (externals : List External) :
    TargetPath → Option ExternalExpectation :=
  externals.foldl (fun registry external =>
    match external.sha256 with
    | some published =>
      if landed digests disk external then
        Function.update registry external.target
          (some { expectedSha256 := some published, epoch := disk.epoch, observedAbsent := false })
      else registry
    | none => registry) disk.registry

/-- `finish_commit`. -/
def finishCommit (txName : String) (prepared : Record) (envelope : Option Envelope)
    (generation : Option String) : Recovering Summary := do
  let operationId := prepared.body.payload.operationId.getD ""
  let repaired ← repairSemanticResult digests txName (some prepared) none
  match repaired.1 with
  | none => give repaired.2
  | some summary =>
    let prevHash ← look fun disk => lastHash digests.semanticSha256 (disk.journal txName)
    let completed := journalRecord digests.semanticSha256 .completed
      { operationId := some operationId, generation, parent := prepared.body.payload.parent
        outcome := some ((envelope.map (·.outcome)).getD "success")
        inputSha256 := some (prepared.body.payload.inputSha256.getD ""), envelope }
      prevHash
    let closed ← handle
      (andThen (act ioError (Disk.writeRecord txName .completed completed)) fun _ => give true)
      fun _ => give false
    if closed = false then
      give (summary.and (ambiguous operationId "completed journal close failed"))
    else
      let externals := prepared.body.payload.externals.getD []
      let changed ← look fun disk => externals.any (landed digests disk)
      let registered ← handle
        (if changed then
          andThen (act ioError fun disk => disk.setRegistry (registryAfter digests disk externals))
            fun _ => give true
        else give true)
        fun _ => give false
      if registered = false then
        give (summary.and (ambiguous operationId "external registry repair failed"))
      else
        attempt (Disk.removeTransaction txName)
        give (summary.and { recovered := [(operationId, "completed")] })

/-- `settle_completed`. -/
def settleCompleted (txName : String) (completed : Record) : Recovering Summary := do
  let repaired ← repairSemanticResult digests txName none (some completed)
  match repaired.1 with
  | none => give repaired.2
  | some summary =>
    attempt (Disk.removeTransaction txName)
    give (summary.and
      { recovered := [(completed.body.payload.operationId.getD txName, "completed")] })

/-- `roll_forward`. -/
def rollForward (txName : String) (records : List Record) (prepared : Record) :
    Recovering Summary :=
  let operationId := (records.head?.bind (·.body.payload.operationId)).getD ""
  let envelope := prepared.body.payload.envelope
  match prepared.body.payload.generation with
  | none => finishCommit digests txName prepared envelope none
  | some generation =>
    andThen (look fun disk => disk.generations.lookup generation) fun
    | none => give (ambiguous operationId "prepared generation directory missing")
    | some files =>
      andThen (handle (andThen (materializeRoot files) fun _ => give true) fun _ => give false)
        fun materialized =>
          if materialized then finishCommit digests txName prepared envelope (some generation)
          else give (ambiguous operationId "roll-forward materialize failed")

/-! ## One transaction, and all of them -/

/-- `recover_tx`. -/
def recoverTx (txName : String) : Recovering Summary :=
  andThen (look fun disk => readPhasesSoft digests.semanticSha256 (disk.journal txName)) fun
  | none => give (ambiguous txName "corrupt-journal-chain")
  | some records =>
    andThen (look fun disk => disk) fun disk =>
      match course records (disk.pointer.map (·.generation)) with
      | .rollBack => rollBackGeneration digests txName none
      | .settle completed => settleCompleted digests txName completed
      | .rollForward prepared => rollForward digests txName records prepared
      | .decideExternals prepared =>
        let operationId := (records.head?.bind (·.body.payload.operationId)).getD ""
        let decision := externalDecision digests disk operationId
          (prepared.body.payload.externals.getD [])
        match decision.1 with
        | .forward => rollForward digests txName records prepared
        | .back =>
          andThen (rollBackExternals digests operationId records) fun first =>
            andThen (rollBackGeneration digests txName none) fun second => give (first.and second)
        | .ambiguous =>
          give (decision.2.and (ambiguous txName "external output state is ambiguous"))
      | .rollBackPrepared generation =>
        let operationId := (records.head?.bind (·.body.payload.operationId)).getD ""
        andThen (rollBackExternals digests operationId records) fun first =>
          andThen (rollBackGeneration digests txName (some generation)) fun second =>
            give (first.and second)
      | .ambiguous => give (ambiguous txName "prepared generation differs from pointer")
      | .panic => fail (.io "prepared present")

/-- The generations that `gc_abandoned` keeps: the one the pointer selects, and those that the
records of a readable journal name. -/
def referenced (disk : Disk) : List String :=
  (disk.pointer.map (·.generation)).toList ++
    disk.transactions.names.flatMap fun txName =>
      ((readPhasesSoft digests.semanticSha256 (disk.journal txName)).getD []).filterMap
        (·.body.payload.generation)

/-- `gc_abandoned`. -/
def gcAbandoned : Recovering Summary :=
  andThen (look fun disk =>
      disk.generations.names.filter (· ∉ referenced digests disk)) fun abandoned =>
    andThen (each (fun generation => attempt (Disk.removeGeneration generation)) abandoned) fun _ =>
      andThen (look fun disk => disk.staging.names.filter (· ∉ disk.transactions.names))
        fun leftover =>
          andThen (each (fun name => attempt (Disk.removeStaging name)) leftover) fun _ =>
            give { cleaned := abandoned.map ("generation/" ++ ·) ++
              leftover.map ("staging/" ++ ·) }

/-- `recover`. -/
def recover : Recovering Summary :=
  andThen (look fun disk => disk.transactions.names) fun names =>
    andThen (collect (recoverTx digests) names) fun summary =>
      andThen (gcAbandoned digests) fun cleaned => give (summary.and cleaned)

end Recovery

end Docx2Typed.Store
