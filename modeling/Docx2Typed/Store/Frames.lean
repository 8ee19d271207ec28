import Docx2Typed.Store.Mutate

/-!
# What recovery leaves alone

Recovery keeps, wherever it stops, a property that each of its steps keeps (`Recoverable`).  It
moves neither the pointer nor the objects: what depends on these alone is kept by it, and by the
phases of a mutation that do not move the pointer.
-/

namespace Docx2Typed.Store

open Library (Program)
open Library.Program

/-- A property of the pointer and the objects. -/
structure OnVersions (I : Disk → Prop) : Prop where
  of_eq : ∀ {disk : Disk}, I disk → ∀ {disk' : Disk}, disk'.pointer = disk.pointer →
    disk'.blobs = disk.blobs → disk'.trees = disk.trees → disk'.commits = disk.commits → I disk'

/-- A property of the pointer, the objects and the generations. -/
structure OnStates (I : Disk → Prop) : Prop where
  of_eq : ∀ {disk : Disk}, I disk → ∀ {disk' : Disk}, disk'.pointer = disk.pointer →
    disk'.generations = disk.generations → disk'.blobs = disk.blobs → disk'.trees = disk.trees →
      disk'.commits = disk.commits → I disk'

variable {I : Disk → Prop}

theorem OnVersions.onStates (hI : OnVersions I) : OnStates I where
  of_eq h _ hpointer _ hblobs htrees hcommits := hI.of_eq h hpointer hblobs htrees hcommits

/-- A property of these and the root. -/
structure OnWorkdir (I : Disk → Prop) : Prop where
  of_eq : ∀ {disk : Disk}, I disk → ∀ {disk' : Disk}, disk'.pointer = disk.pointer →
    disk'.root = disk.root → disk'.generations = disk.generations → disk'.blobs = disk.blobs →
      disk'.trees = disk.trees → disk'.commits = disk.commits → I disk'

theorem OnStates.onWorkdir (hI : OnStates I) : OnWorkdir I where
  of_eq h _ hpointer _ hgenerations hblobs htrees hcommits :=
    hI.of_eq h hpointer hgenerations hblobs htrees hcommits

/-- A property of the generations. -/
structure OnGenerations (I : Disk → Prop) : Prop where
  of_eq : ∀ {disk : Disk}, I disk → ∀ {disk' : Disk}, disk'.generations = disk.generations → I disk'

theorem OnGenerations.onStates (hI : OnGenerations I) : OnStates I where
  of_eq h _ _ hgenerations _ _ _ := hI.of_eq h hgenerations

/-- A property that the outputs, what is staged and the registry do not matter to. -/
structure OnHoldings (I : Disk → Prop) : Prop where
  of_eq : ∀ {disk : Disk}, I disk → ∀ {disk' : Disk}, disk'.pointer = disk.pointer →
    disk'.root = disk.root → disk'.generations = disk.generations →
      disk'.transactions = disk.transactions → disk'.blobs = disk.blobs →
        disk'.trees = disk.trees → disk'.commits = disk.commits → I disk'

theorem OnWorkdir.onHoldings (hI : OnWorkdir I) : OnHoldings I where
  of_eq h _ hpointer hroot hgenerations _ := hI.of_eq h hpointer hroot hgenerations

variable {operationId : String}

/-- The gate in front of a publication. -/
def stillExpected (digests : Digests) (disk : Disk) (external : External) : Bool :=
  match external.expectedBefore with
  | some { present := some true, sha256 := some was } =>
    (disk.outside external.target).any fun content => digests.fileSha256 content = was
  | some { present := some false, .. } => (disk.outside external.target).isNone
  | _ => true

/-- A round writes its target, and that behind its gate only; the rest is staging and registry. -/
theorem keeps_publishExternal_of {digests : Digests} {I : Disk → Prop} {p : Prop}
    {external : External}
    (hbeside : ∀ disk staging registry, I disk → I { disk with staging, registry })
    (hgate : ∀ disk, I disk → stillExpected digests disk external ≠ false → p)
    (hwrite : ∀ disk content, p → I disk →
      I { disk with outside := Function.update disk.outside external.target (some content) }) :
    Keeps I (publishExternal digests operationId external) := by
  have herase : Keeps I (attempt (eraseStaged operationId external.staged) :
      Program Disk StoreError Unit) :=
    keeps_attempt fun disk h => hbeside disk _ disk.registry h
  have hregister : ∀ external' : External, Keeps I (do
      act ioError (recordExternalSuccess external.target (external.sha256.getD ""))
      give external' : Program Disk StoreError External) := fun external' =>
    keeps_bind (keeps_act fun disk h => hbeside disk disk.staging _ h) fun _ => keeps_give
  unfold publishExternal
  refine meets_bind (R := fun disk state => I state ∧ I disk) (meets_look fun disk h => ⟨h, h⟩)
    fun disk => meets_knowing fun hdisk => ?_
  dsimp only
  change Keeps _ (if stillExpected digests disk external = false then _ else _)
  split
  next => exact keeps_bind herase fun _ => keeps_fail
  next hstill =>
    have hopen := hgate disk hdisk hstill
    split
    · refine keeps_bind keeps_give fun staged => ?_
      split
      · refine keeps_bind (keeps_act fun disk h => hwrite disk _ hopen h) fun _ => ?_
        exact keeps_bind herase fun _ => keeps_bind keeps_give fun _ => hregister _
      · split
        · exact keeps_bind herase fun _ => keeps_fail_bind
        · split
          · exact keeps_bind herase fun _ => keeps_fail_bind
          · refine keeps_bind (keeps_act fun disk h => hbeside disk _ disk.registry h) fun _ => ?_
            refine keeps_bind (keeps_act fun disk h =>
              hbeside _ _ disk.registry (hwrite disk _ hopen h)) fun _ => ?_
            exact keeps_bind keeps_give fun _ => hregister _
    · exact keeps_fail_bind

section Publishing

variable {I : Disk → Prop} (hI : OnHoldings I) (digests : Digests)

include hI

theorem keeps_publishExternal {external : External} :
    Keeps I (publishExternal digests operationId external) :=
  keeps_publishExternal_of (p := True) (fun _ _ _ h => hI.of_eq h rfl rfl rfl rfl rfl rfl rfl)
    (fun _ _ _ => trivial) fun _ _ _ h => hI.of_eq h rfl rfl rfl rfl rfl rfl rfl

theorem keeps_publishEach : ∀ {externals : List External},
    Keeps I (publishEach digests operationId externals)
  | [] => keeps_give
  | _ :: _ => keeps_bind (keeps_publishExternal hI digests) fun _ =>
      keeps_bind keeps_publishEach fun _ => keeps_give

end Publishing

variable {m : Mutation}

theorem keeps_publishExternals (hI : OnWorkdir I) (digests : Digests) :
    Keeps I (publishExternals digests m) := by
  unfold publishExternals
  split
  · exact keeps_give
  · refine keeps_bind (keeps_publishEach hI.onHoldings digests) fun published => ?_
    exact keeps_bind (keeps_act fun _ h => hI.of_eq h rfl rfl rfl rfl rfl rfl) fun _ => keeps_give

variable {request : Request}

/-- A property that the objects do not matter to. -/
structure BesideObjects (I : Disk → Prop) : Prop where
  of_eq : ∀ {disk : Disk}, I disk → ∀ {disk' : Disk}, disk'.pointer = disk.pointer →
    disk'.root = disk.root → disk'.generations = disk.generations →
      disk'.transactions = disk.transactions → I disk'

variable {I : Disk → Prop}

theorem OnGenerations.besideObjects (hI : OnGenerations I) : BesideObjects I where
  of_eq h _ _ _ hgenerations _ := hI.of_eq h hgenerations

variable {request : Request}

section Objects

variable {I : Disk → Prop} (hI : BesideObjects I) (digests : Digests)

include hI

theorem keeps_recordVersion {files : Files} {boundary : SaveBoundary} {createdAt : String} :
    Keeps I (recordVersion digests files boundary createdAt) := by
  have hput : ∀ content, Keeps I (putBlob digests content) := fun content =>
    keeps_andThen keeps_look fun present =>
      keeps_ite keeps_give (keeps_act fun disk h => hI.of_eq h rfl rfl rfl rfl)
  refine keeps_andThen keeps_look fun previous => ?_
  cases previous with
  | none => exact keeps_give
  | some previous =>
    refine keeps_ite keeps_give ?_
    refine keeps_andThen (keeps_each fun part => hput part.2) fun _ => ?_
    refine keeps_andThen (keeps_andThen keeps_look fun present => keeps_ite keeps_give
      (keeps_act fun disk h => hI.of_eq h rfl rfl rfl rfl)) fun _ => ?_
    exact keeps_andThen (keeps_andThen keeps_look fun present => keeps_ite keeps_give
      (keeps_act fun disk h => hI.of_eq h rfl rfl rfl rfl)) fun _ => keeps_give

theorem keeps_commitPointer {m : Mutation}
    (hpointer : ∀ disk manifestSha256 version, I disk → I (disk.setPointer
      (pointerPayload digests disk.pointer request.generationId request.operationId manifestSha256
        version))) : Keeps I (commitPointer digests request m) := by
  unfold commitPointer
  split
  · refine keeps_bind keeps_look fun files => ?_
    split
    · exact keeps_bind (keeps_recordVersion hI digests) fun _ =>
        keeps_act fun disk h => hpointer disk _ _ h
    · exact keeps_bind keeps_give fun _ => keeps_act fun disk h => hpointer disk _ _ h
  · exact keeps_give

end Objects

theorem keeps_materializeRoot (hroot : ∀ disk root, I disk → I { disk with root }) {files : Files} :
    Keeps I (materializeRoot files) := by
  refine keeps_andThen (keeps_each fun name => keeps_ite keeps_give ?_) fun _ =>
    keeps_each fun name => keeps_ite keeps_give (keeps_andThen keeps_look fun present =>
      keeps_ite (keeps_act fun disk h => hroot disk _ h) keeps_give)
  split
  · exact keeps_act fun disk h => hroot disk _ h
  · exact keeps_give

/-- What `conclude` does once the ledger is written. -/
theorem keeps_close (digests : Digests) {m : Mutation}
    (hroot : ∀ disk root, I disk → I { disk with root }) (hrecord : ∀ disk, I disk →
      I (disk.writeRecord m.operationId .completed (m.completed digests.semanticSha256)))
    (htransaction : ∀ disk, I disk → I (disk.removeTransaction m.operationId))
    (hstaging : ∀ disk, I disk → I (disk.removeStaging m.operationId)) :
    Keeps I (do
      if request.generation then
        let files ← look fun disk => (disk.generations.lookup request.generationId).getD ∅
        materializeRoot files
      else give ()
      act ioError (Disk.writeRecord m.operationId .completed (m.completed digests.semanticSha256))
      attempt (Disk.removeTransaction m.operationId)
      attempt (Disk.removeStaging m.operationId)
      give m.envelope : Program Disk StoreError Envelope) := by
  split
  · refine keeps_bind keeps_look fun files => keeps_bind (keeps_materializeRoot hroot) fun _ => ?_
    exact keeps_bind (keeps_act hrecord) fun _ => keeps_bind (keeps_attempt htransaction) fun _ =>
      keeps_bind (keeps_attempt hstaging) fun _ => keeps_give
  · refine keeps_bind keeps_give fun _ => keeps_bind (keeps_act hrecord) fun _ => ?_
    exact keeps_bind (keeps_attempt htransaction) fun _ => keeps_bind (keeps_attempt hstaging)
      fun _ => keeps_give

section States

variable {I : Disk → Prop} (hI : OnStates I) (digests : Digests)

include hI

theorem keeps_conclude (hledger : ∀ disk, I disk →
      I (writeLedgerAt m.envelope m.canonical m.ledgerAnchor m.ledgerDirectory disk)) :
    Keeps I (conclude digests request m) :=
  keeps_bind (keeps_act fun _ h => hI.of_eq h rfl rfl rfl rfl rfl) fun _ =>
    keeps_bind (keeps_act hledger) fun _ =>
      keeps_close digests (fun _ _ h => hI.of_eq h rfl rfl rfl rfl rfl)
        (fun _ h => hI.of_eq h rfl rfl rfl rfl rfl) (fun _ h => hI.of_eq h rfl rfl rfl rfl rfl)
        fun _ h => hI.of_eq h rfl rfl rfl rfl rfl

end States

/-! ## Recovery -/

variable {α : Type}

theorem keeps_collect {f : α → Recovering Summary} :
    ∀ {as : List α}, (∀ a ∈ as, Keeps I (f a)) → Keeps I (collect f as)
  | [], _ => keeps_give
  | a :: _, hf => keeps_andThen (hf a List.mem_cons_self) fun _ =>
      keeps_andThen (keeps_collect fun a' ha' => hf a' (List.mem_cons_of_mem a ha')) fun _ =>
        keeps_give

theorem keeps_rollBackGeneration (digests : Digests) {preparedGen : Option String}
    (hstaging : ∀ disk, I disk → I (disk.removeStaging operationId))
    (hrecord : ∀ disk record, I disk → record.body.payload.generation = preparedGen →
      record.body.payload.parent = none → I (disk.writeRecord operationId .completed record))
    (htransaction : ∀ disk, I disk → I (disk.removeTransaction operationId))
    (hremove : ∀ disk name, preparedGen = some name → I disk → I (disk.removeGeneration name)) :
    Keeps I (rollBackGeneration digests operationId preparedGen) := by
  have hclose : Keeps I (do
      attempt (Disk.removeStaging operationId)
      let prevHash ← look fun disk => lastHash digests.semanticSha256 (disk.journal operationId)
      let completed := journalRecord digests.semanticSha256 .completed
        { operationId := some operationId, outcome := some "rolled-back"
          generation := preparedGen } prevHash
      handle (act ioError (Disk.writeRecord operationId .completed completed))
        fun _ => attempt (Disk.writeRecord operationId .completed completed)
      attempt (Disk.removeTransaction operationId)
      give { rolledBack := [operationId] } : Recovering Summary) := by
    refine keeps_bind (keeps_attempt hstaging) fun _ => keeps_bind keeps_look fun prevHash => ?_
    refine keeps_bind (keeps_handle (keeps_act fun disk h => hrecord disk _ h rfl rfl) fun _ =>
      keeps_attempt fun disk h => hrecord disk _ h rfl rfl) fun _ => ?_
    exact keeps_bind (keeps_attempt htransaction) fun _ => keeps_give
  cases preparedGen with
  | none => exact hclose
  | some generation =>
    exact keeps_bind (keeps_attempt fun disk h => hremove disk generation rfl h) fun _ => hclose

/-- A property that the steps of recovery keep, where the records that they write name a generation
and a parent that are allowed; and those that are read do. -/
structure Recoverable (allowed : Option String → Option String → Prop) (I : Disk → Prop) :
    Prop where
  of_eq : ∀ {disk : Disk}, I disk → ∀ {disk' : Disk}, disk'.pointer = disk.pointer →
    disk'.generations = disk.generations → disk'.transactions = disk.transactions →
      disk'.blobs = disk.blobs → disk'.trees = disk.trees → disk'.commits = disk.commits → I disk'
  ledger : ∀ {disk : Disk}, I disk → ∀ envelope canonical anchor directory,
    I (writeLedgerAt envelope canonical anchor directory disk)
  evidence : ∀ {disk : Disk}, I disk → ∀ place content,
    I (disk.writeFile (evidenceLocation place) content)
  record : ∀ {disk : Disk}, I disk → ∀ operationId record,
    allowed record.body.payload.generation record.body.payload.parent →
      I (disk.writeRecord operationId .completed record)
  transaction : ∀ {disk : Disk}, I disk → ∀ operationId, I (disk.removeTransaction operationId)
  orphan : ∀ generation, allowed generation none
  read : ∀ {disk : Disk}, I disk → ∀ (digests : Digests) txName records,
    readPhasesSoft digests.semanticSha256 (disk.journal txName) = some records →
      ∀ record ∈ records, allowed record.body.payload.generation record.body.payload.parent

section Repair

variable {I : Disk → Prop} {operationId canonical : String} {envelope : Option Envelope}

theorem keeps_repairLedger {anchor : Option Place} {directory : Bool}
    (h : ∀ place, anchor = some place → ∀ disk envelope, I disk →
      I (writeLedgerAt envelope canonical place directory disk)) :
    Keeps I (repairLedger operationId canonical envelope anchor directory) := by
  unfold repairLedger
  split
  · refine keeps_andThen keeps_look fun record => keeps_ite ?_ keeps_give
    exact meets_told (keeps_act fun disk => h _ rfl disk _)
  · exact keeps_give

theorem keeps_repairEvidence {path : Option Place}
    (h : ∀ place, path = some place → ∀ disk content, I disk →
      I (disk.writeFile (evidenceLocation place) content)) :
    Keeps I (repairEvidence operationId envelope path) := by
  unfold repairEvidence
  split
  · refine keeps_andThen keeps_look fun content => keeps_ite keeps_give ?_
    exact meets_told (keeps_act fun disk => h _ rfl disk _)
  · exact keeps_give

end Repair

variable {records : List Record} {txName : String}

section Recovery

variable {allowed : Option String → Option String → Prop} {I : Disk → Prop}
  (hI : Recoverable allowed I) (digests : Digests)

include hI

theorem keeps_repairSemanticResult {prepared completed : Option Record} :
    Keeps I (repairSemanticResult digests txName prepared completed) := by
  refine keeps_bind keeps_look fun records => keeps_bind keeps_look fun anchor => ?_
  refine keeps_bind (keeps_repairLedger fun _ _ _ _ h => hI.ledger h _ _ _ _) fun ledger => ?_
  split
  · exact keeps_give
  · refine keeps_bind (keeps_repairEvidence fun _ _ _ _ h => hI.evidence h _ _) fun evidence => ?_
    split <;> exact keeps_give

theorem keeps_finishCommit {prepared : Record} {envelope : Option Envelope}
    {generation : Option String} (hallowed : allowed generation prepared.body.payload.parent) :
    Keeps I (finishCommit digests txName prepared envelope generation) := by
  refine keeps_bind (keeps_repairSemanticResult hI digests) fun repaired => ?_
  split
  · exact keeps_give
  · refine keeps_bind keeps_look fun prevHash => ?_
    refine keeps_bind (meets_told (keeps_act fun _ h => hI.record h _ _ hallowed))
      fun closed => ?_
    refine keeps_ite keeps_give (keeps_bind keeps_look fun changed => ?_)
    refine keeps_bind (keeps_handle (keeps_ite (keeps_andThen (keeps_act fun disk h =>
      hI.of_eq h rfl rfl rfl rfl rfl rfl) fun _ => keeps_give) keeps_give) fun _ => keeps_give)
      fun registered => keeps_ite keeps_give ?_
    exact keeps_bind (keeps_attempt fun _ h => hI.transaction h _) fun _ => keeps_give

theorem keeps_settleCompleted {completed : Record} :
    Keeps I (settleCompleted digests txName completed) := by
  refine keeps_bind (keeps_repairSemanticResult hI digests) fun repaired => ?_
  split
  · exact keeps_give
  · exact keeps_bind (keeps_attempt fun _ h => hI.transaction h _) fun _ => keeps_give

theorem keeps_rollForward {prepared : Record}
    (hprepared : allowed prepared.body.payload.generation prepared.body.payload.parent) :
    Keeps I (rollForward digests txName records prepared) := by
  rw [rollForward]
  split
  · rename_i hnone
    exact keeps_finishCommit hI digests (hnone ▸ hprepared)
  · rename_i generation hgeneration
    refine keeps_andThen keeps_look fun files => ?_
    split
    · exact keeps_give
    · refine keeps_andThen (meets_told (keeps_materializeRoot (I := I) fun _ _ h =>
        hI.of_eq h rfl rfl rfl rfl rfl rfl)) fun materialized => ?_
      split
      · exact keeps_finishCommit hI digests (hgeneration ▸ hprepared)
      · exact keeps_give

theorem keeps_rollBackExternals : Keeps I (rollBackExternals digests operationId records) := by
  refine keeps_andThen (keeps_collect fun external _ => ?_) fun _ =>
    keeps_andThen (keeps_attempt fun _ h => hI.of_eq h rfl rfl rfl rfl rfl rfl) fun _ => keeps_give
  refine keeps_andThen keeps_look fun disk => ?_
  split
  · split
    · exact keeps_give
    · refine meets_told (keeps_act fun disk h => ?_)
      exact hI.of_eq h rfl rfl rfl rfl rfl rfl
  · split
    · refine meets_told (keeps_act fun disk h => ?_)
      exact hI.of_eq h rfl rfl rfl rfl rfl rfl
    · exact keeps_give

omit hI in
theorem mem_of_course {pointer : Option String} {record : Record}
    (h : course records pointer = .rollForward record ∨
      course records pointer = .decideExternals record) : record ∈ records := by
  have hfound : ∀ {record : Record}, findPhase records .prepared = some record →
      record ∈ records := fun h => List.mem_of_find?_eq_some h
  unfold course at h
  split at h
  · rcases h with h | h <;> cases h
  · rename_i last hlast
    have hlast := List.mem_of_getLast? hlast
    split at h
    · rcases h with h | h <;> cases h
    · dsimp only at h
      split at h
      · split at h
        · split at h
          · rename_i prepared hprepared
            rcases h with h | h <;> cases h
            exact hfound hprepared
          · rcases h with h | h <;> cases h
        · split at h
          · rcases h with h | h <;> cases h
            exact hlast
          · rcases h with h | h <;> cases h
      · split at h
        · split at h
          · rename_i prepared hprepared
            rcases h with h | h <;> cases h
            exact hfound hprepared
          · rcases h with h | h <;> cases h
        · split at h <;> rcases h with h | h <;> cases h

/-- A recovery removes one generation at most: the prepared one that it rolls back. -/
theorem meets_recoverTx {start : Disk} (hstart : I start) (hremove : ∀ records generation,
      readPhasesSoft digests.semanticSha256 (start.journal txName) = some records →
        course records (start.pointer.map (·.generation)) = .rollBackPrepared generation →
          ∀ disk, I disk → I (disk.removeGeneration generation)) :
    Meets (fun disk => disk = start) (recoverTx digests txName) (fun _ => I) (fun _ => I) I := by
  have hback : ∀ generation : Option String,
      (∀ disk name, generation = some name → I disk → I (disk.removeGeneration name)) →
        Keeps I (rollBackGeneration digests txName generation) := fun generation hremove =>
    keeps_rollBackGeneration digests (fun _ h => hI.of_eq h rfl rfl rfl rfl rfl rfl)
      (fun _ _ h _ hparent => hI.record h _ _ (hparent ▸ hI.orphan _))
      (fun _ h => hI.transaction h _) hremove
  have hnone : Keeps I (rollBackGeneration digests txName none) :=
    hback none fun _ _ h => by cases h
  refine meets_look_at ?_
  split
  · exact meets_give fun disk h => h ▸ hstart
  · rename_i records hrecords
    have hread := hI.read hstart digests txName records hrecords
    refine meets_look_at ?_
    suffices hkeeps : Keeps I _ from
      hkeeps.of_imp fun disk h => h ▸ hstart
    split
    · exact hnone
    · exact keeps_settleCompleted hI digests
    · rename_i prepared hcourse
      exact keeps_rollForward hI digests (hread _ (mem_of_course (.inl hcourse)))
    · rename_i prepared hcourse
      dsimp only
      split
      · exact keeps_rollForward hI digests (hread _ (mem_of_course (.inr hcourse)))
      · exact keeps_andThen (keeps_rollBackExternals hI digests) fun _ =>
          keeps_andThen hnone fun _ => keeps_give
      · exact keeps_give
    · rename_i generation hcourse
      refine keeps_andThen (keeps_rollBackExternals hI digests) fun _ =>
        keeps_andThen (hback _ fun disk name hname h => ?_) fun _ => keeps_give
      obtain rfl := Option.some.inj hname
      exact hremove records generation hrecords hcourse disk h
    · exact keeps_give
    · exact keeps_fail

omit hI in
/-- What outlasts the removal of any directory outlasts a collection. -/
theorem keeps_gcAbandoned_of_removal
    (hgeneration : ∀ disk name, I disk → I (disk.removeGeneration name))
    (hstaging : ∀ disk name, I disk → I (disk.removeStaging name)) :
    Keeps I (gcAbandoned digests) := by
  refine keeps_andThen keeps_look fun abandoned => ?_
  refine keeps_andThen (keeps_each fun name => keeps_attempt fun disk => hgeneration disk name)
    fun _ => keeps_andThen keeps_look fun leftover => ?_
  exact keeps_andThen (keeps_each fun name => keeps_attempt fun disk => hstaging disk name)
    fun _ => keeps_give

/-- A collection removes generations, and staging directories. -/
theorem keeps_gcAbandoned_of_removes
    (hremove : ∀ disk generation, I disk → I (disk.removeGeneration generation)) :
    Keeps I (gcAbandoned digests) :=
  keeps_gcAbandoned_of_removal digests hremove fun _ _ h => hI.of_eq h rfl rfl rfl rfl rfl rfl

end Recovery

variable {pointer : Pointer}

variable {error : StoreError}

theorem keeps_abort_of (digests : Digests) {pointer : Pointer} {committed : Bool}
    (hback : committed = true → ∀ disk, I disk → I (disk.setPointer
      (pointerPayload digests disk.pointer pointer.generation ""
        (recordedAssetsSha256 disk pointer.generation) none)))
    (hremove : ∀ disk, I disk → I (disk.removeGeneration request.generationId))
    (hstaging : ∀ disk, I disk → I (disk.removeStaging request.operationId))
    (hrecord : ∀ disk, I disk → I (disk.writeRecord request.operationId .completed
      ((begunMutation digests request pointer).aborted digests.semanticSha256 (abortError error)
        (disk.journal request.operationId))))
    (htransaction : ∀ disk, I disk → I (disk.removeTransaction request.operationId)) :
    Keeps I (abort digests request pointer committed error : Program Disk StoreError α) := by
  unfold abort
  split
  all_goals
    refine keeps_bind ?_ fun _ => keeps_bind (keeps_attempt hremove) fun _ => ?_
    rotate_left
    refine keeps_bind (keeps_attempt hstaging) fun _ => ?_
    refine keeps_bind (keeps_attempt hrecord) fun _ => ?_
    exact keeps_bind (keeps_attempt htransaction) fun _ => keeps_fail
  · exact keeps_attempt (hback ‹_›)
  · exact keeps_give

section Frames

variable {I : Disk → Prop} (hI : OnVersions I) (digests : Digests)

include hI

theorem OnVersions.writeFile {location : Location} {content : Content} {disk : Disk}
    (h : I disk) : I (disk.writeFile location content) := by
  cases location <;> exact hI.of_eq h rfl rfl rfl rfl

theorem OnVersions.recoverable : Recoverable (fun _ _ => True) I where
  of_eq h _ hpointer _ _ := hI.of_eq h hpointer
  ledger h _ _ _ _ := hI.writeFile h
  evidence h _ _ := hI.writeFile h
  record h _ _ _ := hI.of_eq h rfl rfl rfl rfl
  transaction h _ := hI.of_eq h rfl rfl rfl rfl
  orphan _ := trivial
  read _ _ _ _ _ _ _ := trivial

theorem keeps_recoverTx : Keeps I (recoverTx digests txName) :=
  fun start fates h => meets_recoverTx hI.recoverable digests h
    (fun _ _ _ _ _ h => hI.of_eq h rfl rfl rfl rfl) start fates rfl

theorem keeps_recover : Keeps I (recover digests) := by
  refine keeps_andThen keeps_look fun names => ?_
  refine keeps_andThen (keeps_collect fun txName _ => keeps_recoverTx hI digests) fun _ => ?_
  exact keeps_andThen (keeps_gcAbandoned_of_removes hI.recoverable digests fun _ _ h =>
    hI.of_eq h rfl rfl rfl rfl) fun _ => keeps_give

/-! ## The phases of a mutation -/

theorem keeps_settlePending : Keeps I (settlePending digests) := by
  refine keeps_bind keeps_look fun pending => ?_
  split
  · refine keeps_bind (keeps_recover hI digests) fun summary => ?_
    split
    · exact keeps_give
    · exact keeps_fail
  · exact keeps_give

theorem keeps_beginJournal : Keeps I (beginJournal digests m) := by
  refine keeps_bind keeps_look fun taken => ?_
  split
  · exact keeps_fail
  · exact keeps_bind (keeps_act fun disk h => hI.of_eq h rfl rfl rfl rfl) fun _ =>
      keeps_act fun disk h => hI.of_eq h rfl rfl rfl rfl

theorem keeps_copyGeneration : Keeps I (copyGeneration request pointer) := by
  unfold copyGeneration
  split
  · refine keeps_bind keeps_look fun parent => ?_
    split
    · exact keeps_fail
    · exact keeps_bind (keeps_act fun disk h => hI.of_eq h rfl rfl rfl rfl) fun _ =>
        keeps_act fun disk h => hI.of_eq h rfl rfl rfl rfl
  · exact keeps_give

theorem keeps_writeManifest : Keeps I (writeManifest digests request pointer) := by
  unfold writeManifest
  split
  · exact keeps_bind keeps_look fun files =>
      keeps_bind (keeps_act fun disk h => hI.writeFile h) fun _ => keeps_give
  · exact keeps_give

theorem keeps_prepare {canonicalSource : Files → Option TargetPath} :
    Keeps I (prepare digests canonicalSource request pointer) := by
  refine keeps_bind (keeps_copyGeneration hI) fun _ => keeps_bind keeps_look fun files => ?_
  split
  · exact keeps_fail
  · refine keeps_bind (keeps_act fun disk h => hI.of_eq h rfl rfl rfl rfl) fun _ => ?_
    refine keeps_bind keeps_look fun externals => keeps_bind keeps_look fun checked => ?_
    split
    · exact keeps_fail
    · refine keeps_bind (keeps_writeManifest hI digests) fun manifestSha256 => ?_
      refine keeps_bind (keeps_act fun disk h => hI.writeFile h) fun _ => ?_
      exact keeps_bind (keeps_act fun disk h => hI.of_eq h rfl rfl rfl rfl) fun _ => keeps_give

/-- `abort` without a pointer to take back. -/
theorem keeps_abort {pointer : Pointer} :
    Keeps I (abort digests request pointer false error : Program Disk StoreError α) :=
  keeps_abort_of digests (fun h => by cases h) (fun _ h => hI.of_eq h rfl rfl rfl rfl)
    (fun _ h => hI.of_eq h rfl rfl rfl rfl) (fun _ h => hI.of_eq h rfl rfl rfl rfl)
    fun _ h => hI.of_eq h rfl rfl rfl rfl

omit hI in
theorem fails_abort {committed : Bool} :
    Fails (abort digests request pointer committed error : Program Disk StoreError α) := by
  unfold abort
  split
  all_goals
    refine fails_bind fun _ => fails_bind fun _ => fails_bind fun _ => ?_
    exact fails_bind fun _ => fails_bind fun _ => fails_fail

end Frames

end Docx2Typed.Store
