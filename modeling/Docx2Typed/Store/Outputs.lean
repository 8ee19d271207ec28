import Docx2Typed.Store.Manifest

/-!
# Outputs that somebody else has written

Recovery finds the outputs of a transaction as anybody may have left them since.  What it replaces
and removes should be what the transaction has published there; a file of somebody else's should
stay, and be reported.
-/

namespace Docx2Typed.Store

open Library (Program Fate Ending)
open Library.Program

section Outputs

variable (digests : Digests)

/-- The outputs that `external-published` lists, with their backups. -/
def publishedOutputs (records : List Record) : List External :=
  ((findPhase records .externalPublished).bind (·.body.payload.externals)).getD []

/-- The outputs that a journal lists. -/
def journalOutputs (records : List Record) : List External :=
  ((findPhase records .prepared).bind (·.body.payload.externals)).getD [] ++
    publishedOutputs records

/-- What lies at the target is what the transaction has published there. -/
def Published (records : List Record) (disk : Disk) (target : TargetPath) : Prop :=
  ∃ external ∈ journalOutputs records, external.target = target ∧
    landed digests disk external = true

/-- What lies at the target is neither what the transaction has published there nor what staging
saw. -/
def Foreign (records : List Record) (disk : Disk) (target : TargetPath) : Prop :=
  (∃ external ∈ journalOutputs records, external.target = target) ∧
    (disk.outside target).isSome ∧ ¬ Published digests records disk target ∧
      ∀ external ∈ journalOutputs records, external.target = target →
        stagingStateMatches digests disk external = false

/-- Recovery of the transaction replaces and removes only what the transaction has published, and
reports a file of somebody else's. -/
structure SparesOthers (txName : String) (disk : Disk) : Prop where
  unreadable : readPhasesSoft digests.semanticSha256 (disk.journal txName) = none →
    ∀ fates, (recoverTx digests txName disk fates).state = disk
  untouched : ∀ records,
    readPhasesSoft digests.semanticSha256 (disk.journal txName) = some records →
      ∀ target content, (∃ external ∈ journalOutputs records, external.target = target) →
        disk.outside target = some content → ¬ Published digests records disk target →
          ∀ fates, (recoverTx digests txName disk fates).state.outside target = some content
  reported : ∀ records,
    readPhasesSoft digests.semanticSha256 (disk.journal txName) = some records →
      (∃ target, Foreign digests records disk target) → ∀ fates summary,
        (recoverTx digests txName disk fates).ending = .returned summary →
          summary.needsRecovery ≠ []

/-- A target that cannot be decided. -/
def Quarantined (disk : Disk) (operationId : String) (externals : List External) : Prop :=
  if externals.any (·.expectedBefore.isNone) then
    ∃ external ∈ externals, ¬ (landed digests disk external = true ∧
      (disk.registry external.target).any (fun entry =>
        entry.epoch = disk.epoch && decide (entry.expectedSha256 = external.sha256)) = true)
  else ∃ external ∈ externals, ∃ reason, judge digests disk operationId external =
    .quarantine reason

/-- The operation that recovery reads the first record for. -/
def recoveredOperation (records : List Record) : String :=
  (records.head?.bind (·.body.payload.operationId)).getD ""

/-- Recovery can neither take the transaction forward nor back: the pointer selects neither its
generation nor the parent, or, before anything was recorded as published, one of its targets cannot
be decided, or the generation to go forward to is gone. -/
inductive Undecided (records : List Record) (disk : Disk) : Prop
  | pointer (hcourse : course records (disk.pointer.map (·.generation)) = .ambiguous)
  | target (prepared : Record)
      (hcourse : course records (disk.pointer.map (·.generation)) = .decideExternals prepared)
      (hopen : Quarantined digests disk (recoveredOperation records)
        (prepared.body.payload.externals.getD []))
  | gone (prepared : Record) (generation : String)
      (hcourse : course records (disk.pointer.map (·.generation)) = .rollForward prepared)
      (hgeneration : prepared.body.payload.generation = some generation)
      (hgone : disk.generations.lookup generation = none)

/-- Nothing that recovery may write over the target would change what lies there. -/
structure Harmless (records : List Record) (disk : Disk) (target : TargetPath)
    (content : Content) : Prop where
  kept : ∀ external ∈ publishedOutputs records, external.target = target →
    external.mode ≠ "create"
  same : ∀ external ∈ publishedOutputs records, external.target = target → ∀ backup,
    backupOf disk (recoveredOperation records) external = some backup →
      some (digests.fileSha256 backup) = external.backupSha256 → backup = content
  evidence : ∀ path,
    (findPhase records .prepared).bind (·.body.payload.evidencePath) = some path →
      evidenceLocation path ≠ .outside target
  ledger : ∀ anchor,
    (findPhase records .prepared).bind (·.body.payload.ledgerAnchor) = some anchor →
      ledgerLocation anchor (((findPhase records .prepared).bind
        (·.body.payload.ledgerDirectory)).getD true) ≠ .outside target

/-- Nobody else has written a target, and of the targets that do not hold what the transaction has
published, none would be changed. -/
structure Owned (records : List Record) (disk : Disk) : Prop where
  none_foreign : ∀ target, ¬ Foreign digests records disk target
  harmless : ∀ target content, (∃ external ∈ journalOutputs records, external.target = target) →
    disk.outside target = some content → ¬ Published digests records disk target →
      Harmless digests records disk target content

end Outputs

variable {content : Content} {disk : Disk} {generation : Option String} {start : Disk}
  {target : TargetPath}

section Rules

variable {digests : Digests}

theorem decideStep_ambiguous {verdicts : List Verdict} : ∀ {state : Option Decision × Bool},
    (verdicts.foldl decideStep state).2 = true ↔
      state.2 = true ∨ ∃ reason, Verdict.quarantine reason ∈ verdicts := by
  induction verdicts with
  | nil => simp
  | cons verdict verdicts ih =>
    intro state
    rw [List.foldl_cons, ih]
    cases verdict with
    | landed => simp [decideStep]
    | untouched => simp [decideStep]
    | quarantine reason => simp [decideStep]

theorem legacyDecision_ambiguous_iff {disk : Disk} {operationId : String} :
    ∀ {externals : List External},
      (legacyDecision digests disk operationId externals).1 = .ambiguous ↔
        ∃ external ∈ externals, ¬ (landed digests disk external = true ∧
          (disk.registry external.target).any (fun entry =>
            entry.epoch = disk.epoch && decide (entry.expectedSha256 = external.sha256)) = true)
  | [] => by simp [legacyDecision]
  | external :: externals => by
    have ih := @legacyDecision_ambiguous_iff disk operationId externals
    rw [legacyDecision]
    simp only [Bool.and_eq_true, List.mem_cons, exists_eq_or_imp]
    split
    · rename_i hproved
      rw [ih]
      simp [hproved]
    · rename_i hproved
      simp only [true_iff]
      exact .inl hproved

theorem decideStep_ne_ambiguous {verdicts : List Verdict} : ∀ {state : Option Decision × Bool},
    state.1 ≠ some .ambiguous → (verdicts.foldl decideStep state).1 ≠ some .ambiguous := by
  induction verdicts with
  | nil => exact fun h => h
  | cons verdict verdicts ih =>
    intro state h
    rw [List.foldl_cons]
    refine ih ?_
    cases verdict with
    | landed => simp [decideStep]
    | untouched =>
      rw [decideStep]
      split
      · exact h
      · simp
    | quarantine reason => exact h

/-- The decision is open exactly when a target cannot be decided. -/
theorem externalDecision_ambiguous_iff {operationId : String} {externals : List External} :
    (externalDecision digests disk operationId externals).1 = .ambiguous ↔
      Quarantined digests disk operationId externals := by
  rw [externalDecision, Quarantined]
  split
  · exact legacyDecision_ambiguous_iff
  · dsimp only
    have hmem : (∃ reason, Verdict.quarantine reason ∈
        externals.map (judge digests disk operationId)) ↔
          ∃ external ∈ externals, ∃ reason, judge digests disk operationId external =
            .quarantine reason := by
      simp only [List.mem_map]
      exact ⟨fun ⟨reason, external, hexternal, h⟩ => ⟨external, hexternal, reason, h⟩,
        fun ⟨external, hexternal, reason, h⟩ => ⟨reason, external, hexternal, h⟩⟩
    rw [← hmem]
    have hflag := @decideStep_ambiguous (externals.map (judge digests disk operationId))
      (none, false)
    split
    · rename_i hopen
      simpa [hopen] using hflag
    · rename_i hopen
      have hnever := @decideStep_ne_ambiguous (externals.map (judge digests disk operationId))
        (none, false) (by simp)
      refine iff_of_false (fun h => ?_) fun h => hopen (hflag.mpr (.inr h))
      cases hstate : ((externals.map (judge digests disk operationId)).foldl decideStep
        (none, false)).1 with
      | none =>
        rw [hstate] at h
        cases h
      | some decision =>
        rw [hstate] at h
        exact hnever (by rw [hstate]; exact congrArg some h)

/-! ## What recovery leaves at some targets -/

/-- A property of what lies at some targets, and of the registry. -/
structure OnTargets (targets : TargetPath → Prop) (I : Disk → Prop) : Prop where
  of_eq : ∀ {disk : Disk}, I disk → ∀ {disk' : Disk},
    (∀ target, targets target → disk'.outside target = disk.outside target) →
      disk'.registry = disk.registry → disk'.epoch = disk.epoch → I disk'

theorem onTargets_outside :
    OnTargets (· = target) fun disk => disk.outside target = some content where
  of_eq h _ houtside _ _ := (houtside _ rfl).trans h

/-- However the program ends, the property holds then. -/
abbrev Leaves {α : Type} (P I : Disk → Prop) (p : Program Disk StoreError α) : Prop :=
  Meets P p (fun _ => I) (fun _ => I) I

/-- The run evidence and the ledger that the journal names lie elsewhere. -/
structure Elsewhere (records : List Record) (targets : TargetPath → Prop) : Prop where
  evidence : ∀ path,
    (findPhase records .prepared).bind (·.body.payload.evidencePath) = some path →
      ∀ target, targets target → evidenceLocation path ≠ .outside target
  ledger : ∀ anchor,
    (findPhase records .prepared).bind (·.body.payload.ledgerAnchor) = some anchor →
      ∀ target, targets target → ledgerLocation anchor (((findPhase records .prepared).bind
        (·.body.payload.ledgerDirectory)).getD true) ≠ .outside target

theorem Harmless.elsewhere {records : List Record}
    (h : Harmless digests records disk target content) :
    Elsewhere records (· = target) where
  evidence path hpath _ htarget := htarget ▸ h.evidence path hpath
  ledger anchor hanchor _ htarget := htarget ▸ h.ledger anchor hanchor

theorem outside_writeFile {location : Location} (h : location ≠ .outside target) :
    (disk.writeFile location content).outside target = disk.outside target := by
  cases location with
  | root name => rfl
  | generation generation name => rfl
  | outside path =>
    exact Function.update_of_ne (fun heq => h (congrArg Location.outside heq.symm)) _ _

variable {txName : String} {records : List Record} {targets : TargetPath → Prop} {I : Disk → Prop}

/-- The property, with the journal that recovery has read. -/
def Reading (digests : Digests) (txName : String) (records : List Record) (I : Disk → Prop)
    (disk : Disk) : Prop :=
  I disk ∧ readPhasesSoft digests.semanticSha256 (disk.journal txName) = some records

section

variable (hI : OnTargets targets I)

include hI

theorem Reading.writeFile {location : Location} {written : Content}
    (h : Reading digests txName records I disk)
    (hlocation : ∀ target, targets target → location ≠ .outside target) :
    Reading digests txName records I (disk.writeFile location written) := by
  refine ⟨hI.of_eq h.1 (fun target htarget => outside_writeFile (hlocation target htarget)) ?_ ?_,
    ?_⟩ <;> cases location <;> first | rfl | exact h.2

theorem keeps_repairSemanticResult_of_elsewhere (helsewhere : Elsewhere records targets)
    {prepared completed : Option Record} :
    Keeps (Reading digests txName records I)
      (repairSemanticResult digests txName prepared completed) := by
  refine meets_bind (R := fun read disk => Reading digests txName records I disk ∧
    read = records) (meets_look fun disk h => ⟨h, by rw [h.2]; rfl⟩) fun read =>
    meets_knowing fun hread => ?_
  subst hread
  refine meets_bind (R := fun anchor disk => Reading digests txName read I disk ∧
    ∀ place, anchor = some place → ∀ target, targets target →
      ledgerLocation place (((findPhase read .prepared).bind
        (·.body.payload.ledgerDirectory)).getD true) ≠ .outside target)
    (meets_look fun disk h => ⟨h, fun place hplace target htarget => ?_⟩) fun anchor =>
    meets_knowing fun hanchor => ?_
  · rcases Option.or_eq_some_iff.mp hplace with hrecorded | ⟨-, hfallback⟩
    · exact helsewhere.ledger place hrecorded target htarget
    · obtain ⟨generation, -, rfl⟩ := Option.map_eq_some_iff.mp hfallback
      exact fun h => by cases h
  · refine keeps_bind (keeps_repairLedger fun place hplace _ _ h =>
      h.writeFile hI (hanchor place hplace)) fun ledger => ?_
    split
    · exact keeps_give
    · refine keeps_bind (keeps_repairEvidence fun place hplace _ _ h =>
        h.writeFile hI (helsewhere.evidence place hplace)) fun evidence => ?_
      split <;> exact keeps_give

theorem leaves_finishCommit (helsewhere : Elsewhere records targets)
    (hregistry : ∀ disk registry, I disk → I (Disk.setRegistry registry disk)) {prepared : Record}
    {envelope : Option Envelope} :
    Leaves (Reading digests txName records I) I
      (finishCommit digests txName prepared envelope generation) := by
  refine meets_bind ((keeps_repairSemanticResult_of_elsewhere hI helsewhere).weaken
    (fun _ h => h) (fun _ _ h => h.1) (fun _ _ h => h.1) fun _ h => h.1) fun repaired => ?_
  split
  · exact keeps_give
  · change Keeps I _
    refine keeps_bind keeps_look fun prevHash => ?_
    refine keeps_bind (meets_told (keeps_act fun _ h => hI.of_eq h (fun _ _ => rfl) rfl rfl))
      fun closed => keeps_ite keeps_give ?_
    refine keeps_bind keeps_look fun changed => ?_
    refine keeps_bind (keeps_handle (keeps_ite (keeps_andThen (keeps_act fun disk h =>
      hregistry disk _ h) fun _ => keeps_give) keeps_give) fun _ => keeps_give)
      fun registered => keeps_ite keeps_give ?_
    exact keeps_bind (keeps_attempt fun _ h => hI.of_eq h (fun _ _ => rfl) rfl rfl) fun _ =>
      keeps_give

theorem leaves_settleCompleted (helsewhere : Elsewhere records targets) {completed : Record} :
    Leaves (Reading digests txName records I) I (settleCompleted digests txName completed) := by
  refine meets_bind ((keeps_repairSemanticResult_of_elsewhere hI helsewhere).weaken
    (fun _ h => h) (fun _ _ h => h.1) (fun _ _ h => h.1) fun _ h => h.1) fun repaired => ?_
  split
  · exact keeps_give
  · change Keeps I _
    exact keeps_bind (keeps_attempt fun _ h => hI.of_eq h (fun _ _ => rfl) rfl rfl) fun _ =>
      keeps_give

theorem keeps_materializeRoot_of_reading {files : Files} :
    Keeps (Reading digests txName records I) (materializeRoot files) :=
  keeps_materializeRoot fun _ _ h => ⟨hI.of_eq h.1 (fun _ _ => rfl) rfl rfl, h.2⟩

theorem leaves_rollForward (helsewhere : Elsewhere records targets)
    (hregistry : ∀ disk registry, I disk → I (Disk.setRegistry registry disk)) {prepared : Record} :
    Leaves (Reading digests txName records I) I (rollForward digests txName records prepared) := by
  have hgive : ∀ summary : Summary, Leaves (Reading digests txName records I) I
      (give summary : Recovering Summary) := fun summary => meets_give fun _ h => h.1
  rw [rollForward]
  split
  · exact leaves_finishCommit hI helsewhere hregistry
  · refine meets_andThen (keeps_look.weaken (fun _ h => h) (fun _ _ h => h) (fun _ _ h => h.1)
      fun _ h => h.1) fun files => ?_
    split
    · exact hgive _
    · refine meets_andThen ((meets_told (keeps_materializeRoot_of_reading hI)).weaken
        (fun _ h => h) (fun _ _ h => h) (fun _ _ h => h.1) fun _ h => h.1) fun materialized => ?_
      split
      · exact leaves_finishCommit hI helsewhere hregistry
      · exact hgive _

theorem keeps_rollBackGeneration_of_targets {operationId : String} :
    Keeps I (rollBackGeneration digests operationId generation) :=
  keeps_rollBackGeneration digests (fun _ h => hI.of_eq h (fun _ _ => rfl) rfl rfl)
    (fun _ _ h _ _ => hI.of_eq h (fun _ _ => rfl) rfl rfl)
    (fun _ h => hI.of_eq h (fun _ _ => rfl) rfl rfl)
    fun _ _ _ h => hI.of_eq h (fun _ _ => rfl) rfl rfl

end

/-! ## What rolling back leaves at a target -/

variable {target : TargetPath} {content : Content}

/-- What lies at the target, and what a backup of it would put back there. -/
def BacksUp (digests : Digests) (records : List Record) (target : TargetPath) (content : Content)
    (disk : Disk) : Prop :=
  disk.outside target = some content ∧
    ∀ external ∈ publishedOutputs records, external.target = target → ∀ backup,
      backupOf disk (recoveredOperation records) external = some backup →
        some (digests.fileSha256 backup) = external.backupSha256 → backup = content

theorem backupOf_erase {operationId name : String} {external : External}
    {outside : TargetPath → Option Content} {backup : Content} (h : backupOf { disk with
      outside := outside
      staging := disk.staging.insert operationId
        (((disk.staging.lookup operationId).getD ∅).erase name) } operationId external =
          some backup) : backupOf disk operationId external = some backup := by
  rw [backupOf] at h ⊢
  obtain ⟨of, hof, hlookup⟩ := Option.bind_eq_some_iff.mp h
  rw [AList.lookup_insert, Option.bind_some] at hlookup
  rw [hof, Option.bind_some]
  have hne : of ≠ name := by
    rintro rfl
    rw [AList.lookup_erase] at hlookup
    cases hlookup
  rw [AList.lookup_erase_ne hne] at hlookup
  cases hstaged : disk.staging.lookup operationId with
  | none =>
    rw [hstaged, Option.getD_none, AList.lookup_empty] at hlookup
    cases hlookup
  | some files =>
    rw [hstaged, Option.getD_some] at hlookup
    exact hlookup

theorem keeps_rollBackExternal_of_backsUp {external : External}
    (hexternal : external ∈ publishedOutputs records)
    (hkept : external.target = target → external.mode ≠ "create") :
    Keeps (BacksUp digests records target content)
      (rollBackExternal digests (recoveredOperation records) external) := by
  refine meets_andThen (R := fun seen disk => disk = seen ∧
    BacksUp digests records target content disk) (meets_look fun disk h => ⟨rfl, h⟩) fun seen => ?_
  have hgive : ∀ summary : Summary, Meets (fun disk => disk = seen ∧
      BacksUp digests records target content disk) (give summary : Recovering Summary)
        (fun _ => BacksUp digests records target content)
        (fun _ => BacksUp digests records target content)
        (BacksUp digests records target content) := fun summary => meets_give fun _ h => h.2
  split
  · rename_i backup hbackup
    split
    · exact hgive _
    · rename_i hsha
      rw [not_not] at hsha
      refine meets_told (meets_act (fun disk h => ?_) (fun _ h => h.2) fun _ h => h.2)
      obtain ⟨rfl, hlies, hbacked⟩ := h
      refine ⟨?_, fun other hother htarget there hthere hsame => ?_⟩
      · rcases eq_or_ne target external.target with htarget | hne
        · have hback := hbacked external hexternal htarget.symm backup hbackup hsha
          rw [← hback, htarget]
          exact Function.update_self _ _ _
        · exact (Function.update_of_ne hne _ _).trans hlies
      · exact hbacked other hother htarget there (backupOf_erase hthere) hsame
  · split
    · rename_i hcreate
      refine meets_told (meets_act (fun disk h => ?_) (fun _ h => h.2) fun _ h => h.2)
      obtain ⟨rfl, hlies, hbacked⟩ := h
      have hne : target ≠ external.target := fun heq => hkept heq.symm hcreate.1
      exact ⟨(Function.update_of_ne hne _ _).trans hlies, hbacked⟩
    · exact hgive _

/-- Rolling back what the journal lists as published, and closing it. -/
theorem keeps_rollBack_of_harmless (hharmless : Harmless digests records start target content)
    (hlies : start.outside target = some content) :
    Leaves (fun disk => disk = start) (fun disk => disk.outside target = some content)
      (andThen (rollBackExternals digests (recoveredOperation records) records) fun first =>
        andThen (rollBackGeneration digests txName generation) fun second =>
          give (first.and second)) := by
  have hback : Keeps (BacksUp digests records target content)
      (rollBackExternals digests (recoveredOperation records) records) := by
    refine keeps_andThen (keeps_collect fun external hexternal =>
      keeps_rollBackExternal_of_backsUp hexternal (hharmless.kept external hexternal)) fun _ => ?_
    -- with the staging directory go the backups that are left in it
    refine keeps_andThen (keeps_attempt fun disk h => ⟨h.1, fun other _ _ backup hthere => ?_⟩)
      fun _ => keeps_give
    rw [backupOf, Disk.removeStaging, AList.lookup_erase] at hthere
    cases hname : other.backup with
    | none =>
      rw [hname] at hthere
      cases hthere
    | some name =>
      rw [hname] at hthere
      cases hthere
  refine meets_andThen (hback.weaken (fun disk h => ?_) (fun _ _ h => h.1) (fun _ _ h => h.1)
    fun _ h => h.1) fun first => ?_
  · subst h
    exact ⟨hlies, hharmless.same⟩
  · exact keeps_andThen (keeps_rollBackGeneration_of_targets onTargets_outside) fun second =>
      keeps_give

section

variable (hread : readPhasesSoft digests.semanticSha256 (start.journal txName) = some records)

include hread

theorem untouched_recoverTx (hlies : start.outside target = some content)
    (hharmless : Harmless digests records start target content) (fates : List Fate) :
    (recoverTx digests txName start fates).state.outside target = some content := by
  have hreading : ∀ disk, disk = start → Reading digests txName records
      (fun disk => disk.outside target = some content) disk := by
    rintro disk rfl
    exact ⟨hlies, hread⟩
  have hgive : ∀ summary : Summary, Leaves (fun disk => disk = start)
      (fun disk => disk.outside target = some content) (give summary : Recovering Summary) :=
    fun summary => meets_give fun disk h => h ▸ hlies
  have hforward : ∀ prepared, Leaves (fun disk => disk = start)
      (fun disk => disk.outside target = some content)
      (rollForward digests txName records prepared) := fun prepared =>
    (leaves_rollForward onTargets_outside hharmless.elsewhere fun _ _ h => h).of_imp hreading
  have hleaves : Leaves (fun disk => disk = start) (fun disk => disk.outside target = some content)
      (recoverTx digests txName) := by
    refine meets_look_at ?_
    rw [hread]
    refine meets_look_at ?_
    split
    · exact (keeps_rollBackGeneration_of_targets onTargets_outside).of_imp fun disk h =>
        h ▸ hlies
    · exact (leaves_settleCompleted onTargets_outside hharmless.elsewhere).of_imp hreading
    · exact hforward _
    · dsimp only
      split
      · exact hforward _
      · exact keeps_rollBack_of_harmless hharmless hlies
      · exact hgive _
    · exact keeps_rollBack_of_harmless hharmless hlies
    · exact hgive _
    · exact meets_fail fun disk h => h ▸ hlies
  exact hleaves.left rfl fates

/-- Recovery reports a transaction that it cannot decide, and changes nothing. -/
theorem recoverTx_undecided (hundecided : Undecided digests records start) (fates : List Fate) :
    ∃ summary, recoverTx digests txName start fates = ⟨.returned summary, start, fates⟩ ∧
      summary.needsRecovery ≠ [] := by
  unfold recoverTx
  simp only [andThen, look, hread]
  cases hundecided with
  | pointer hcourse =>
    rw [hcourse]
    exact ⟨_, rfl, by simp [ambiguous]⟩
  | target prepared hcourse hopen =>
    rw [hcourse]
    have hdecision := externalDecision_ambiguous_iff.mpr hopen
    rw [recoveredOperation] at hdecision
    dsimp only
    rw [hdecision]
    exact ⟨_, rfl, by simp [ambiguous, Summary.and]⟩
  | gone prepared generation hcourse hgeneration hgone =>
    rw [hcourse]
    dsimp only
    rw [rollForward, hgeneration]
    simp only [andThen, look, hgone]
    exact ⟨_, rfl, by simp [ambiguous]⟩

end

theorem recoverTx_unreadable
    (hread : readPhasesSoft digests.semanticSha256 (start.journal txName) = none)
    (fates : List Fate) : (recoverTx digests txName start fates).state = start := by
  unfold recoverTx
  simp only [andThen, look, hread]
  rfl

end Rules

/-! ## An output that is overwritten after the crash -/

def reportPath : TargetPath := { folder := "/out", fileName := "report.docx" }

/-- Hashes that tell the records of one journal apart. -/
def phaseDigests : Digests :=
  { spelledDigests with semanticSha256 := fun body => body.phase.getD "" }

/-- An edit that builds an output as well. -/
def buildingEdit : Request :=
  { plainEdit with
    run := fun files => .ok
      { outcome := "success", data := "", evidence := "run", files := files
        staged := [{ name := "report", target := reportPath, mode := "create"
                     content := .text "built" }] } }

/-- The disk it leaves when it is cut after some of its steps. -/
def cutBuild (steps : Nat) : Disk :=
  (mutate phaseDigests noSource buildingEdit sampleDisk
    (List.replicate steps .done ++ [.stop])).state

/-- The output is published and recorded when it is cut, and then somebody writes there. -/
def overwrittenBuild : Disk :=
  { cutBuild 12 with
    outside := Function.update (cutBuild 12).outside reportPath (some (.text "mine")) }

end Docx2Typed.Store
