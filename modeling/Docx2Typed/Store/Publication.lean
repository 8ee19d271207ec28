import Docx2Typed.Store.Outputs

/-!
# All outputs or none

A transaction publishes its outputs one after the other.  Recovery should end with all of them
published and registered, or with none, or say that it cannot: whatever each target holds when it
starts.
-/

namespace Docx2Typed.Store

open Library (Program Fate Ending)
open List
open Library.Program

section Publication

variable (digests : Digests)

/-- The outputs that the transaction was to publish. -/
def preparedOutputs (records : List Record) : List External :=
  ((findPhase records .prepared).bind (·.body.payload.externals)).getD []

/-- What the transaction was to publish does not lie at the target, or lay there before. -/
def Unpublished (disk : Disk) (external : External) : Prop :=
  landed digests disk external = false ∨ stagingStateMatches digests disk external = true

def Registered (disk : Disk) (external : External) : Prop :=
  disk.registry external.target = some
    { expectedSha256 := external.sha256, epoch := disk.epoch, observedAbsent := false }

def AllLanded (records : List Record) (disk : Disk) : Prop :=
  ∀ external ∈ preparedOutputs records, landed digests disk external = true

def AllRegistered (records : List Record) (disk : Disk) : Prop :=
  ∀ external ∈ preparedOutputs records, Registered disk external

def NonePublished (records : List Record) (disk : Disk) : Prop :=
  ∀ external ∈ preparedOutputs records, Unpublished digests disk external

/-- Recovery of the transaction ends with all outputs published and registered, or with none, or
reports that it cannot. -/
def EndsWhole (txName : String) (disk : Disk) : Prop :=
  ∀ fates summary, (recoverTx digests txName disk fates).ending = .returned summary →
    summary.needsRecovery ≠ [] ∨
      ∃ records, readPhasesSoft digests.semanticSha256 (disk.journal txName) = some records ∧
        (AllLanded digests records (recoverTx digests txName disk fates).state ∧
            AllRegistered records (recoverTx digests txName disk fates).state ∨
          NonePublished digests records (recoverTx digests txName disk fates).state)

/-- An output that rolling back takes away from its target: a created one without a backup, or one
whose backup is what lay there before. -/
def Undoes (outputs : List External) (operationId : String) (disk : Disk) (external : External) :
    Prop :=
  (external.backup = none ∧ external.mode = "create") ∨
    ∃ backup, backupOf disk operationId external = some backup ∧
      some (digests.fileSha256 backup) = external.backupSha256 ∧
        ∀ output ∈ outputs, output.target = external.target →
          some (digests.fileSha256 backup) ≠ output.sha256 ∨
            ∃ was, output.expectedBefore = some was ∧ was.present = some true ∧
              was.sha256 = some (digests.fileSha256 backup)

/-- Rolling back these outputs takes back whatever the transaction has published: each can be
undone, no two of them share a backup, and every target that holds an output is among theirs. -/
structure UndoesAll (outputs : List External) (operationId : String) (published : List External)
    (disk : Disk) : Prop where
  undoes : ∀ external ∈ published, Undoes digests outputs operationId disk external
  apart : (published.filterMap (·.backup)).Nodup
  covers : ∀ output ∈ outputs, ¬ Unpublished digests disk output →
    ∃ external ∈ published, external.target = output.target

/-- The targets of the outputs. -/
def IsOutput (records : List Record) (target : TargetPath) : Prop :=
  ∃ external ∈ preparedOutputs records, external.target = target

/-- The ways a transaction can lie in which recovery ends whole. -/
inductive Resolves (records : List Record) (disk : Disk) : Prop
  | undecided (h : Undecided digests records disk)
  | forward (prepared : Record)
      (hcourse : course records (disk.pointer.map (·.generation)) = .rollForward prepared)
      (helsewhere : Elsewhere records (IsOutput records))
      (hwhole : AllLanded digests records disk ∨ NonePublished digests records disk)
  | decided (prepared : Record)
      (hcourse : course records (disk.pointer.map (·.generation)) = .decideExternals prepared)
      (helsewhere : Elsewhere records (IsOutput records))
      (hwhole : AllLanded digests records disk ∨ NonePublished digests records disk ∧
        UndoesAll digests (preparedOutputs records) (recoveredOperation records)
          (publishedOutputs records) disk)
  | back (generation : String)
      (hcourse : course records (disk.pointer.map (·.generation)) = .rollBackPrepared generation)
      (hundoes : UndoesAll digests (preparedOutputs records) (recoveredOperation records)
        (publishedOutputs records) disk)
  | kept (generation : String)
      (hcourse : course records (disk.pointer.map (·.generation)) = .rollBackPrepared generation)
      (hnone : publishedOutputs records = [])
      (hwhole : AllLanded digests records disk ∧ AllRegistered records disk)
  | settled (completed : Record)
      (hcourse : course records (disk.pointer.map (·.generation)) = .settle completed)
      (helsewhere : Elsewhere records (IsOutput records))
      (hwhole : AllLanded digests records disk ∧ AllRegistered records disk ∨
        NonePublished digests records disk)
  | dropped (hcourse : course records (disk.pointer.map (·.generation)) = .rollBack)
      (hwhole : AllLanded digests records disk ∧ AllRegistered records disk ∨
        NonePublished digests records disk)

end Publication

variable {disk : Disk} {external : External} {externals : List External} {prepared : Record}
  {registry : TargetPath → Option ExternalExpectation} {start : Disk}

variable {disk disk' : Disk} {generation : Option String} {pointer : Option String}
  {rest : List External}

section Rules

variable {digests : Digests} {records : List Record} {txName : String}

/-- The targets of the outputs hold what they held. -/
def SameTargets (records : List Record) (start disk : Disk) : Prop :=
  ∀ target, IsOutput records target → disk.outside target = start.outside target

/-- And the registry is the same. -/
def SameOutputs (records : List Record) (start disk : Disk) : Prop :=
  SameTargets records start disk ∧ disk.registry = start.registry ∧ disk.epoch = start.epoch

theorem onTargets_sameTargets :
    OnTargets (IsOutput records) (SameTargets records start) where
  of_eq h _ houtside _ _ := fun target htarget => (houtside target htarget).trans (h target htarget)

theorem onTargets_sameOutputs :
    OnTargets (IsOutput records) (SameOutputs records start) where
  of_eq h _ houtside hregistry hepoch :=
    ⟨fun target htarget => (houtside target htarget).trans (h.1 target htarget),
      hregistry.trans h.2.1, hepoch.trans h.2.2⟩

section

variable (h : disk'.outside external.target = disk.outside external.target)

include h

theorem landed_congr : landed digests disk' external = landed digests disk external := by
  rw [landed, landed, h]

theorem stagingStateMatches_congr
    : stagingStateMatches digests disk' external = stagingStateMatches digests disk external := by
  rw [stagingStateMatches, stagingStateMatches, h]

theorem unpublished_congr :
    Unpublished digests disk' external ↔ Unpublished digests disk external := by
  rw [Unpublished, Unpublished, landed_congr h, stagingStateMatches_congr h]

end

theorem SameTargets.allLanded {start disk : Disk} (h : SameTargets records start disk)
    (hwhole : AllLanded digests records start) : AllLanded digests records disk :=
  fun external hexternal =>
    (landed_congr (h external.target ⟨external, hexternal, rfl⟩)).trans (hwhole external hexternal)

theorem SameTargets.nonePublished {start disk : Disk} (h : SameTargets records start disk)
    (hnone : NonePublished digests records start) : NonePublished digests records disk :=
  fun external hexternal =>
    (unpublished_congr (h external.target ⟨external, hexternal, rfl⟩)).mpr
      (hnone external hexternal)

theorem SameOutputs.allRegistered {start disk : Disk} (h : SameOutputs records start disk)
    (hwhole : AllRegistered records start) : AllRegistered records disk := by
  intro external hexternal
  rw [Registered, h.2.1, h.2.2]
  exact hwhole external hexternal

/-! ## Going forward -/

/-- The round of `registryAfter`. -/
def registryStep (digests : Digests) (disk : Disk)
    (registry : TargetPath → Option ExternalExpectation) (external : External) :
    TargetPath → Option ExternalExpectation :=
  match external.sha256 with
  | some published =>
    if landed digests disk external then
      Function.update registry external.target
        (some { expectedSha256 := some published, epoch := disk.epoch, observedAbsent := false })
    else registry
  | none => registry

theorem registryAfter_eq :
    registryAfter digests disk externals =
      externals.foldl (registryStep digests disk) disk.registry := rfl

theorem registryStep_of_ne {target : TargetPath} (h : target ≠ external.target) :
    registryStep digests disk registry external target = registry target := by
  rw [registryStep]
  cases external.sha256 with
  | none => rfl
  | some published =>
    dsimp only
    split
    · exact Function.update_of_ne h _ _
    · rfl

theorem landed_eq_true_iff :
    landed digests disk external = true ↔ ∃ content, disk.outside external.target = some content ∧
      some (digests.fileSha256 content) = external.sha256 := by
  rw [landed]
  cases disk.outside external.target <;> simp

theorem registryStep_of_landed (h : landed digests disk external = true) :
    registryStep digests disk registry external external.target = some
      { expectedSha256 := external.sha256, epoch := disk.epoch, observedAbsent := false } := by
  obtain ⟨content, -, hsha⟩ := landed_eq_true_iff.mp h
  rw [registryStep, ← hsha]
  dsimp only
  rw [if_pos h, Function.update_self]

/-- Every target that holds its output comes to be registered. -/
theorem registryAfter_of_landed
    (hlanded : ∀ external ∈ externals, landed digests disk external = true)
    (hexternal : external ∈ externals) :
    registryAfter digests disk externals external.target = some
      { expectedSha256 := external.sha256, epoch := disk.epoch, observedAbsent := false } := by
  rw [registryAfter_eq]
  generalize disk.registry = registry
  have hskip : ∀ (externals : List External) (registry : TargetPath → Option ExternalExpectation)
      (target : TargetPath), (∀ external ∈ externals, target ≠ external.target) →
        externals.foldl (registryStep digests disk) registry target = registry target := by
    intro externals
    induction externals with
    | nil => exact fun _ _ _ => rfl
    | cons first externals ih =>
      intro registry target h
      rw [foldl_cons, ih _ _ fun other hother => h other (mem_cons_of_mem _ hother),
        registryStep_of_ne (h first mem_cons_self)]
  induction externals generalizing registry external with
  | nil => cases hexternal
  | cons first externals ih =>
    have hrest : ∀ other ∈ externals, landed digests disk other = true := fun other hother =>
      hlanded other (mem_cons_of_mem _ hother)
    rw [foldl_cons]
    by_cases hlater : ∃ other ∈ externals, other.target = external.target
    · -- the last entry for a target counts, and it says the same
      obtain ⟨other, hother, htarget⟩ := hlater
      obtain ⟨content, hlies, hsha⟩ := landed_eq_true_iff.mp (hrest other hother)
      obtain ⟨content', hlies', hsha'⟩ := landed_eq_true_iff.mp (hlanded external hexternal)
      have hsame : content = content' := by
        rw [htarget, hlies', Option.some.injEq] at hlies
        exact hlies.symm
      rw [← htarget, ih hrest hother, ← hsha, ← hsha', hsame]
    · rcases mem_cons.mp hexternal with rfl | hmem
      · rw [hskip _ _ _ fun other hother htarget => hlater ⟨other, hother, htarget.symm⟩,
          registryStep_of_landed (hlanded external hexternal)]
      · exact absurd ⟨external, hmem, rfl⟩ hlater

theorem needsRecovery_and {first second : Summary} :
    (first.and second).needsRecovery = first.needsRecovery ++ second.needsRecovery := rfl

theorem ambiguous_reports {operationId reason : String} :
    (ambiguous operationId reason).needsRecovery ≠ [] := by simp [ambiguous]

/-- A repair that fails is reported. -/
theorem gives_repairSemanticResult_reports {prepared completed : Option Record} :
    Gives (fun _ => True) (repairSemanticResult digests txName prepared completed)
      fun repaired _ => repaired.1 = none → repaired.2.needsRecovery ≠ [] := by
  have hledger : ∀ (operationId canonical : String) (envelope : Option Envelope)
      (anchor : Option Place) (directory : Bool),
      Gives (fun _ => True) (repairLedger operationId canonical envelope anchor directory)
        fun repaired _ => repaired.1 = none → repaired.2.needsRecovery ≠ [] := by
    intro operationId canonical envelope anchor directory
    unfold repairLedger
    split
    · refine meets_andThen (R := fun _ _ => True) (meets_look fun _ h => h) fun record => ?_
      split
      · refine meets_handle (R := fun _ _ => True) (meets_andThen (R := fun _ _ => True)
          (gives_act fun _ h => h) fun _ => meets_give fun _ _ h => by cases h) fun _ =>
          meets_give fun _ _ _ => ambiguous_reports
      · exact meets_give fun _ _ h => by cases h
    · exact meets_give fun _ _ h => by cases h
  have hevidence : ∀ (operationId : String) (envelope : Option Envelope) (path : Option Place),
      Gives (fun _ => True) (repairEvidence operationId envelope path)
        fun repaired _ => repaired.1 = none → repaired.2.needsRecovery ≠ [] := by
    intro operationId envelope path
    unfold repairEvidence
    split
    · refine meets_andThen (R := fun _ _ => True) (meets_look fun _ h => h) fun record => ?_
      split
      · exact meets_give fun _ _ h => by cases h
      · refine meets_handle (R := fun _ _ => True) (meets_andThen (R := fun _ _ => True)
          (gives_act fun _ h => h) fun _ => meets_give fun _ _ h => by cases h) fun _ =>
          meets_give fun _ _ _ => ambiguous_reports
    · exact meets_give fun _ _ h => by cases h
  refine meets_bind (R := fun _ _ => True) (meets_look fun _ h => h) fun read => ?_
  refine meets_bind (R := fun _ _ => True) (meets_look fun _ h => h) fun anchor => ?_
  refine meets_bind (hledger _ _ _ _ _) fun ledger => ?_
  split
  · exact meets_give fun _ h => h
  · refine meets_bind ((hevidence _ _ _).of_imp fun _ _ => trivial) fun evidence => ?_
    split
    · rename_i hnone
      refine meets_give fun _ h _ => ?_
      rw [needsRecovery_and]
      exact append_ne_nil_of_right_ne_nil _ (h hnone)
    · exact meets_give fun _ _ h => by cases h

section

variable (helsewhere : Elsewhere records (IsOutput records))

include helsewhere

/-- Where all targets hold their outputs, a commit that is finished has them registered. -/
theorem gives_finishCommit_registered
    (houtputs : prepared.body.payload.externals.getD [] = preparedOutputs records)
    (hwhole : AllLanded digests records start) {envelope : Option Envelope} :
    Gives (Reading digests txName records (SameTargets records start))
      (finishCommit digests txName prepared envelope generation)
      fun summary disk => summary.needsRecovery = [] → AllRegistered records disk := by
  have hsame : ∀ {disk disk' : Disk}, SameTargets records start disk →
      disk'.outside = disk.outside → SameTargets records start disk' := fun h houtside =>
    fun target htarget => (congrFun houtside target).trans (h target htarget)
  refine meets_bind (R := fun repaired disk => SameTargets records start disk ∧
    (repaired.1 = none → repaired.2.needsRecovery ≠ [])) ?_ fun repaired =>
    meets_knowing fun hreports => ?_
  · exact ((Gives.of_keeps (keeps_repairSemanticResult_of_elsewhere onTargets_sameTargets
      helsewhere)).and gives_repairSemanticResult_reports).weaken (fun _ h => ⟨h, trivial⟩)
      (fun _ _ h => ⟨h.1.1, h.2⟩) (fun _ _ h => h) fun _ h => h
  · split
    · rename_i hnone
      exact meets_give fun _ _ h => absurd h (hreports hnone)
    · refine meets_bind (R := fun _ => SameTargets records start) (meets_look fun _ h => h)
        fun prevHash => ?_
      refine meets_bind (R := fun _ => SameTargets records start) (Gives.of_keeps (keeps_handle
        (keeps_andThen (keeps_act fun _ h => hsame h rfl) fun _ => keeps_give) fun _ =>
          keeps_give)) fun closed => ?_
      split
      · refine meets_give fun _ _ h => ?_
        rw [needsRecovery_and] at h
        exact absurd h (append_ne_nil_of_right_ne_nil _ ambiguous_reports)
      · dsimp only
        rw [houtputs]
        refine meets_bind (R := fun changed disk => SameTargets records start disk ∧
          (changed = false → preparedOutputs records = [])) (meets_look fun disk h => ⟨h, ?_⟩)
          fun changed => meets_knowing fun hchanged => ?_
        · intro hnone
          rw [any_eq_false] at hnone
          exact eq_nil_iff_forall_not_mem.mpr fun external hexternal =>
            hnone external hexternal (h.allLanded hwhole external hexternal)
        · refine meets_bind (R := fun registered disk =>
            registered = true → AllRegistered records disk) (meets_handle (R := fun _ _ => True) ?_
              fun _ => meets_give fun _ _ h => by cases h) fun registered => ?_
          · split
            · refine meets_andThen (R := fun _ => AllRegistered records)
                (gives_act fun disk h external hexternal => ?_) fun _ => meets_give fun _ h _ => h
              exact registryAfter_of_landed (h.allLanded hwhole) hexternal
            · rename_i hunchanged
              refine meets_give fun disk _ _ external hexternal => ?_
              rw [hchanged (Bool.not_eq_true _ ▸ hunchanged)] at hexternal
              cases hexternal
          · split
            · refine meets_give fun _ _ h => ?_
              rw [needsRecovery_and] at h
              exact absurd h (append_ne_nil_of_right_ne_nil _ ambiguous_reports)
            · rename_i hregistered
              refine meets_bind (R := fun _ => AllRegistered records)
                (meets_attempt (fun disk h => ?_) (fun disk h => ?_) fun _ _ => trivial) fun _ =>
                meets_give fun _ h _ => h
              · exact h (Bool.not_eq_false _ ▸ hregistered)
              · exact h (Bool.not_eq_false _ ▸ hregistered)

theorem gives_rollForward_registered
    (houtputs : prepared.body.payload.externals.getD [] = preparedOutputs records)
    (hwhole : AllLanded digests records start) :
    Gives (Reading digests txName records (SameTargets records start))
      (rollForward digests txName records prepared)
      fun summary disk => summary.needsRecovery = [] → AllRegistered records disk := by
  rw [rollForward]
  split
  · exact gives_finishCommit_registered helsewhere houtputs hwhole
  · refine meets_andThen (R := fun _ => Reading digests txName records (SameTargets records start))
      (meets_look fun _ h => h) fun files => ?_
    split
    · exact meets_give fun _ _ h => absurd h ambiguous_reports
    · refine meets_andThen (Gives.of_keeps (meets_told
        (keeps_materializeRoot_of_reading onTargets_sameTargets))) fun materialized => ?_
      split
      · exact gives_finishCommit_registered helsewhere houtputs hwhole
      · exact meets_give fun _ _ h => absurd h ambiguous_reports

/-- A transaction taken forward is whole where it was: all targets held their outputs, or none. -/
theorem gives_rollForward_whole
    (houtputs : prepared.body.payload.externals.getD [] = preparedOutputs records)
    (hwhole : AllLanded digests records start ∨ NonePublished digests records start) :
    Gives (Reading digests txName records (SameTargets records start))
      (rollForward digests txName records prepared)
      fun summary disk => summary.needsRecovery ≠ [] ∨
        (AllLanded digests records disk ∧ AllRegistered records disk ∨
          NonePublished digests records disk) := by
  have hsame : Gives (Reading digests txName records (SameTargets records start))
      (rollForward digests txName records prepared) fun _ => SameTargets records start :=
    (leaves_rollForward onTargets_sameTargets helsewhere fun _ _ h => h).weaken (fun _ h => h)
      (fun _ _ h => h) (fun _ _ _ => trivial) fun _ _ => trivial
  rcases hwhole with hwhole | hnone
  · refine (hsame.and (gives_rollForward_registered helsewhere houtputs hwhole)).weaken
      (fun _ h => ⟨h, h⟩) (fun summary disk h => ?_) (fun _ _ h => h) fun _ h => h
    rcases eq_or_ne summary.needsRecovery [] with hclear | hreported
    · exact .inr (.inl ⟨h.1.allLanded hwhole, h.2 hclear⟩)
    · exact .inl hreported
  · exact hsame.imp fun _ _ h => .inr (.inr (h.nonePublished hnone))

end

/-! ## Going back -/

variable {outputs : List External} {operationId : String}

theorem backupOf_erase_of_ne {name : String} {outside : TargetPath → Option Content}
    (hname : external.backup ≠ some name) :
    backupOf { disk with
      outside := outside
      staging := disk.staging.insert operationId
        (((disk.staging.lookup operationId).getD ∅).erase name) } operationId external =
      backupOf disk operationId external := by
  rw [backupOf, backupOf]
  cases hbackup : external.backup with
  | none => rfl
  | some of =>
    have hne : of ≠ name := fun h => hname (h ▸ hbackup)
    rw [Option.bind_some, Option.bind_some, AList.lookup_insert, Option.bind_some,
      AList.lookup_erase_ne hne]
    cases disk.staging.lookup operationId with
    | none => rfl
    | some files => rfl

/-- One output undone, and the others as before. -/
theorem UndoesAll.step (h : UndoesAll digests outputs operationId (external :: rest) disk)
    (houtside : ∀ target, target ≠ external.target → disk'.outside target = disk.outside target)
    (hbackups : ∀ other ∈ rest, backupOf disk' operationId other = backupOf disk operationId other)
    (hundone : ∀ output ∈ outputs, output.target = external.target →
      Unpublished digests disk' output) :
    UndoesAll digests outputs operationId rest disk' where
  undoes other hother := by
    rw [Undoes, hbackups other hother]
    exact h.undoes other (mem_cons_of_mem _ hother)
  apart := by
    have hapart := h.apart
    rw [filterMap_cons] at hapart
    split at hapart
    · exact hapart
    · exact (nodup_cons.mp hapart).2
  covers output houtput hpublished := by
    have hne : output.target ≠ external.target := fun htarget =>
      hpublished (hundone output houtput htarget)
    obtain ⟨other, hother, htarget⟩ := h.covers output houtput fun hnone =>
      hpublished ((unpublished_congr (houtside _ hne)).mpr hnone)
    rcases mem_cons.mp hother with rfl | hmem
    · exact absurd htarget.symm hne
    · exact ⟨other, hmem, htarget⟩

/-- A target that holds what lay there before. -/
theorem unpublished_of_was {output : External} {content : Content}
    (hlies : disk.outside output.target = some content)
    (hwas : some (digests.fileSha256 content) ≠ output.sha256 ∨
      ∃ was, output.expectedBefore = some was ∧ was.present = some true ∧
        was.sha256 = some (digests.fileSha256 content)) : Unpublished digests disk output := by
  rcases hwas with hother | ⟨⟨present, sha256⟩, hbefore, hpresent, hsha⟩
  · left
    rw [← Bool.not_eq_true, landed_eq_true_iff]
    rintro ⟨there, hthere, hsame⟩
    rw [hlies, Option.some.injEq] at hthere
    exact hother (hthere ▸ hsame)
  · right
    cases hpresent
    cases hsha
    rw [stagingStateMatches, hbefore]
    dsimp only
    rw [hlies]
    simp

theorem gives_rollBackExternal :
    Gives (UndoesAll digests outputs operationId (external :: rest))
      (rollBackExternal digests operationId external)
      fun summary disk => summary.needsRecovery = [] →
        UndoesAll digests outputs operationId rest disk := by
  refine meets_of_start fun disk hall => meets_look_at ?_
  have hact : ∀ (f : Disk → Disk) (reason : String),
      UndoesAll digests outputs operationId rest (f disk) →
        Gives (fun d => d = disk) (handle
          (andThen (act ioError f) fun _ => give { rolledBack := [operationId] })
          fun _ => give (ambiguous operationId reason)) fun summary disk =>
            summary.needsRecovery = [] → UndoesAll digests outputs operationId rest disk := by
    intro f reason hf
    exact meets_handle (R := fun _ _ => True) (meets_andThen
      (R := fun _ => UndoesAll digests outputs operationId rest) (gives_act fun d h => h ▸ hf)
        fun _ => meets_give fun _ h _ => h) fun _ => meets_give fun _ _ h =>
          absurd h ambiguous_reports
  have hgone : ∀ {disk' : Disk} {output : External}, output.target = external.target →
      disk'.outside external.target = none → Unpublished digests disk' output := by
    intro disk' output htarget hlies
    refine .inl ?_
    rw [landed, htarget, hlies]
  rcases hall.undoes external mem_cons_self with
    ⟨hnone, hcreate⟩ | ⟨backup, hbackup, hsha, hwas⟩
  · have hbackup : backupOf disk operationId external = none := by
      rw [backupOf, hnone]
      rfl
    rw [hbackup]
    dsimp only
    by_cases hthere : (disk.outside external.target).isSome
    · rw [if_pos ⟨hcreate, hthere⟩]
      refine hact _ _ (hall.step (fun target hne => Function.update_of_ne hne _ _)
        (fun _ _ => rfl) fun output _ htarget => hgone htarget ?_)
      exact Function.update_self _ _ _
    · rw [if_neg fun h => hthere h.2]
      exact meets_give fun _ h _ => h ▸ hall.step (fun _ _ => rfl) (fun _ _ => rfl)
        fun output _ htarget => hgone htarget (Option.not_isSome_iff_eq_none.mp hthere)
  · obtain ⟨name, hname, -⟩ := Option.bind_eq_some_iff.mp hbackup
    rw [hbackup]
    dsimp only
    rw [if_neg (not_not_intro hsha)]
    refine hact _ _ (hall.step (fun target hne => Function.update_of_ne hne _ _)
      (fun other hother => backupOf_erase_of_ne fun hsame => ?_) fun output houtput htarget => ?_)
    · have hapart := hall.apart
      rw [filterMap_cons, hname] at hapart
      rw [hname, Option.getD_some] at hsame
      exact (nodup_cons.mp hapart).1 (mem_filterMap.mpr ⟨other, hother, hsame⟩)
    · refine unpublished_of_was ?_ (hwas output houtput htarget)
      rw [htarget]
      exact Function.update_self _ _ _

theorem gives_collect_rollBack : ∀ {published : List External},
    Gives (UndoesAll digests outputs operationId published)
      (collect (rollBackExternal digests operationId) published)
      fun summary disk => summary.needsRecovery = [] →
        ∀ output ∈ outputs, Unpublished digests disk output
  | [] => by
    refine meets_give fun disk h _ output houtput => ?_
    by_contra hpublished
    obtain ⟨external, hexternal, -⟩ := h.covers output houtput hpublished
    cases hexternal
  | external :: rest => by
    refine meets_andThen gives_rollBackExternal fun first => ?_
    by_cases hfirst : first.needsRecovery = []
    · refine meets_andThen (gives_collect_rollBack.of_imp fun _ h => h hfirst) fun others =>
        meets_give fun disk h hclear => ?_
      rw [needsRecovery_and, append_eq_nil_iff] at hclear
      exact h hclear.2
    · refine meets_andThen gives_true fun others => meets_give fun _ _ hclear => ?_
      rw [needsRecovery_and, append_eq_nil_iff] at hclear
      exact absurd hclear.1 hfirst

theorem onTargets_nonePublished : OnTargets (IsOutput records) (NonePublished digests records) where
  of_eq h _ houtside _ _ := fun external hexternal =>
    (unpublished_congr (houtside external.target ⟨external, hexternal, rfl⟩)).mpr
      (h external hexternal)

/-- A transaction that is rolled back has published nothing. -/
theorem gives_rollBack_none
    (hundoes : UndoesAll digests (preparedOutputs records) (recoveredOperation records)
      (publishedOutputs records) start) :
    Gives (fun disk => disk = start)
      (andThen (rollBackExternals digests (recoveredOperation records) records) fun first =>
        andThen (rollBackGeneration digests txName generation) fun second =>
          give (first.and second))
      fun summary disk => summary.needsRecovery ≠ [] ∨ NonePublished digests records disk := by
  refine meets_andThen (R := fun first disk => first.needsRecovery = [] →
    NonePublished digests records disk) ?_ fun first => ?_
  · refine meets_andThen (gives_collect_rollBack.of_imp fun disk h => h ▸ hundoes) fun summary => ?_
    refine meets_andThen (R := fun _ disk => summary.needsRecovery = [] →
      NonePublished digests records disk) (meets_attempt (fun disk h => h) (fun disk h => h)
        fun _ _ => trivial) fun _ => meets_give fun _ h => h
  · by_cases hfirst : first.needsRecovery = []
    · refine meets_andThen ((Gives.of_keeps (keeps_rollBackGeneration_of_targets
        onTargets_nonePublished)).of_imp fun _ h => h hfirst) fun second =>
          meets_give fun _ h => .inr h
    · refine meets_andThen gives_true fun second => meets_give fun _ _ => .inl ?_
      rw [needsRecovery_and]
      exact append_ne_nil_of_left_ne_nil hfirst _

theorem keeps_rollBackExternals_of_none {targets : TargetPath → Prop} {I : Disk → Prop}
    (hnone : publishedOutputs records = []) (hI : OnTargets targets I) :
    Keeps I (rollBackExternals digests operationId records) := by
  rw [publishedOutputs] at hnone
  rw [rollBackExternals, hnone]
  exact keeps_andThen keeps_give fun _ => keeps_andThen
    (keeps_attempt fun _ h => hI.of_eq h (fun _ _ => rfl) rfl rfl) fun _ => keeps_give

/-! ## Every way of recovery -/

theorem findPhase_of_rollForward (h : course records pointer = .rollForward prepared) :
    findPhase records .prepared = some prepared := by
  rw [course] at h
  grind

theorem getLast?_of_decideExternals (h : course records pointer = .decideExternals prepared) :
    records.getLast? = some prepared ∧ prepared.hasPhase .prepared = true := by
  rw [course] at h
  grind

/-- A journal that can be read has one record of each phase. -/
theorem phases_of_linked {semanticSha256 : Body → String} {expectedPrev : Option String}
    {files : List (Phase × JournalFile)} {records : List Record}
    (h : Linked semanticSha256 expectedPrev files records) :
    records.map (·.body.phase) = files.map fun file => some file.1.name := by
  induction h with
  | nil => rfl
  | cons hfollows hrest ih =>
    have hshaped := hfollows.shaped
    simp only [Record.wellShaped, Bool.and_eq_true, decide_eq_true_eq] at hshaped
    rw [map_cons, map_cons, ih, hshaped.1.2]

theorem files_sublist {journal : Journal} : ∀ phases : List Phase,
    ((journal.files phases).map Prod.fst).Sublist phases
  | [] => .slnil
  | phase :: phases => by
    have ih := @files_sublist journal phases
    rw [Journal.files] at ih ⊢
    rw [filterMap_cons]
    cases journal phase with
    | none => exact ih.cons phase
    | some file => exact ih.cons_cons phase

theorem nodup_phases {journal : Journal}
    (h : readPhasesSoft digests.semanticSha256 journal = some records) :
    (records.map (·.body.phase)).Nodup := by
  have hok : readPhases digests.semanticSha256 journal = .ok records := by
    rw [readPhasesSoft] at h
    cases hread : readPhases digests.semanticSha256 journal with
    | error error =>
      rw [hread] at h
      cases h
    | ok read =>
      rw [hread] at h
      cases h
      rfl
  have hfiles := (@files_sublist journal phaseOrder).nodup nodup_phaseOrder
  rw [phases_of_linked (readPhases_eq_ok_iff.mp hok)]
  have hmap := hfiles.map fun _ _ heq => Phase.name_injective (Option.some.inj heq)
  rw [map_map] at hmap
  exact hmap

/-- The record that is found for a phase is the one there is. -/
theorem findPhase_of_mem (hnodup : (records.map (·.body.phase)).Nodup) {record : Record}
    {phase : Phase} (hmem : record ∈ records) (hphase : record.hasPhase phase = true) :
    findPhase records phase = some record := by
  rw [findPhase]
  cases hfound : records.find? (·.hasPhase phase) with
  | none => exact absurd hphase (find?_eq_none.mp hfound record hmem)
  | some found =>
    have hthere : found.hasPhase phase = true :=
      @find?_some _ (fun record : Record => record.hasPhase phase) _ _ hfound
    have hsame := inj_on_of_nodup_map hnodup (mem_of_find?_eq_some hfound) hmem
      ((of_decide_eq_true hthere).trans (of_decide_eq_true hphase).symm)
    rw [hsame]

theorem decideStep_forward {verdicts : List Verdict} : ∀ {state : Option Decision × Bool},
    state.1 = some .forward ∨ .landed ∈ verdicts →
      (verdicts.foldl decideStep state).1 = some .forward := by
  induction verdicts with
  | nil => exact fun h => h.resolve_right not_mem_nil
  | cons verdict verdicts ih =>
    intro state h
    rw [foldl_cons]
    refine ih ?_
    cases verdict with
    | landed => exact .inl rfl
    | untouched =>
      rcases h with hforward | hmem
      · rw [decideStep, if_pos hforward]
        exact .inl hforward
      · exact .inr (by simpa using hmem)
    | quarantine reason =>
      rcases h with hforward | hmem
      · exact .inl hforward
      · exact .inr (by simpa using hmem)

theorem legacyDecision_ne_back : ∀ {externals : List External},
    (legacyDecision digests disk operationId externals).1 ≠ .back
  | [] => by simp [legacyDecision]
  | external :: externals => by
    rw [legacyDecision]
    split
    · exact legacyDecision_ne_back
    · simp

/-- A transaction is only taken back where no target holds its output. -/
theorem not_landed_of_back (h : (externalDecision digests disk operationId externals).1 = .back) :
    ∀ external ∈ externals, landed digests disk external = false := by
  intro external hexternal
  by_contra hlanded
  rw [Bool.not_eq_false] at hlanded
  have hmem : judge digests disk operationId external ∈
      externals.map (judge digests disk operationId) := mem_map_of_mem hexternal
  rw [externalDecision] at h
  split at h
  · exact legacyDecision_ne_back h
  · dsimp only at h
    split at h
    · cases h
    · rename_i hclear
      rw [judge] at hmem
      split at hmem
      · exact hclear (decideStep_ambiguous.mpr (.inr ⟨_, hmem⟩))
      · rw [decideStep_forward (.inr hmem)] at h
        cases h

end Rules

/-! ## Two outputs -/

def copyPath : TargetPath := { folder := "/copies", fileName := "report.docx" }

/-- An edit that builds two outputs of one name, with a generation of its own or without. -/
def outputsEdit (generation : Bool) : Request :=
  { plainEdit with
    generation := generation
    run := fun files => .ok
      { outcome := "success", data := "", evidence := "run", files := files
        staged := [{ name := "report", target := reportPath, mode := "create"
                     content := .text "built" },
                   { name := "copy", target := copyPath, mode := "create"
                     content := .text "copied" }] } }

/-- The disk it leaves when it is cut after some of its steps. -/
def cutOutputs (generation : Bool) (steps : Nat) : Disk :=
  (mutate phaseDigests noSource (outputsEdit generation) sampleDisk
    (List.replicate steps .done ++ [.stop])).state

end Docx2Typed.Store
