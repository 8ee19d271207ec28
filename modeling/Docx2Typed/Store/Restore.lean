import Docx2Typed.Store.Collect
import Docx2Typed.Store.Retention

/-!
# Restoring a version

`history_restore` copies the canonical assets of a version over the files of the current
generation, in a mutation like any other.  What the build reads besides them it takes from the root
as it stands after that: the sidecars of the current state, not those of the version.
-/

namespace Docx2Typed.Store

open Library (Program Fate Ending)
open Library.Program List

/-! ## `history_restore` -/

/-- The record of a commit object. -/
def Commit.record (commit : Commit) : VersionRecord where
  version := commit.version
  treeObject := some commit.treeObject
  parentCommit := commit.parentCommit
  parentGeneration := commit.parentGeneration
  pin := commit.pin

/-- `version_chain` of a disk; `legacyRecord` is the `version` object in the manifest of a
generation, which only writers before the object pool have left. -/
def recordedVersions (legacyRecord : Files → Option VersionRecord) (disk : Disk) :
    List VersionRecord :=
  let chain := (poolChain Commit.parentCommit disk.commits.keys.length disk.commits
    ((disk.pointer.bind (·.head.headCommit)).filter (· ≠ ""))).map Commit.record
  let legacy := match chain.getLast? with
    | none => (disk.pointer.bind (·.head.headVersionGeneration)).filter (· ≠ "")
    | some record => record.parentGeneration
  let manifests := disk.generations.keys.foldl (fun table name =>
    table.insert name ((disk.generations.lookup name).bind legacyRecord)) ∅
  chain ++ legacyChain disk.generations.keys.length manifests legacy

def versionTrimmed : String := "version-trimmed"

/-- The refusal of a version that the trim log names. -/
def trimmedOnPurpose (version : String) : StoreError :=
  .store versionTrimmed (version ++ " was trimmed by retention (its content is gone on purpose); " ++
    "restore a version that is still retained")

def versionContentMissing : String := "version-content-missing"

/-- `version_not_found`. -/
def versionNotFound (name : String) : StoreError :=
  .store "version-not-found" (name ++ " is not in this document's history; call history_list")

/-- `materialize`: the assets of a tree. -/
def materializeParts (blobs : Table Content) : List (String × String) → Option Files
  | [] => some ∅
  | (name, blob) :: parts =>
    match blobs.lookup blob, materializeParts blobs parts with
    | some content, some files => some (files.insert name content)
    | _, _ => none

/-- The tree that a record names, where the pool has it. -/
def pooledTree (disk : Disk) (record : VersionRecord) : Option Tree :=
  (record.treeObject.filter (· ≠ "")).bind disk.trees.lookup

/-- `version_state_dir`.  A record without a generation leads to the directory of all generations,
which has no assets. -/
def versionState (disk : Disk) (record : VersionRecord) : Except StoreError (Option Files) :=
  match pooledTree disk record with
  | some tree =>
    match materializeParts disk.blobs tree.parts with
    | some files => .ok (some files)
    | none => .error (.store versionContentMissing (record.version ++ " content is incomplete"))
  | none =>
    match record.generation with
    | some generation => .ok (disk.generations.lookup generation)
    | none => .ok (some ∅)

/-- `recorded_assets`; of two entries for a path the later counts. -/
def recordedAssets (source : Files) : List (String × String) :=
  match source.lookup generationJson with
  | some (.manifest manifest) => manifest.assets.reverse
  | _ => []

/-- The check of one asset against the hash recorded with the version. -/
def assetError (digests : Digests) (version : String) (source : Files) (name : String) :
    Option StoreError :=
  match source.lookup name with
  | none => some (.store versionContentMissing (version ++ " has no recorded " ++ name))
  | some content =>
    if (recordedAssets source).lookup name |>.any (· ≠ digests.fileSha256 content) then
      some (.store versionContentMissing (version ++ " content for " ++ name ++
        " does not match the hash recorded with it"))
    else none

/-- What a whole restore leaves of the files it is run on. -/
def restoreFiles (source files : Files) : Files :=
  canonicalAssets.foldl (fun files name =>
    match source.lookup name with
    | some content => files.insert name content
    | none => files) files

/-- The mutation of a whole restore; `restoreData` is what it says of the paragraphs that change,
from the files before and after. -/
def restoreRequest (restoreData : Files → Files → String) (version : String) (source : Files)
    (pointer : Pointer) (operationId canonical generationId createdAt : String) : Request where
  operation := "history_restore"
  operationId := operationId
  canonical := canonical
  inputSha256 := pointer.manifestSha256.getD ""
  expectedGeneration := pointer.generation
  generation := true
  saveBoundary := true
  boundary := some
    { origin := "restore", label := some ("restore " ++ version)
      restoredFrom := some version }
  kind := "mutation"
  run files := .ok
    { outcome := "success"
      data := restoreData files (restoreFiles source files)
      evidence := "history-restore: " ++ version
      files := restoreFiles source files }
  generationId := generationId
  createdAt := createdAt

def restoreDraftDirty : StoreError :=
  .store "restore-draft-dirty" ("the draft has unsaved edits; commit_sync or revert them before " ++
    "restoring, otherwise the restore would silently discard them")

/-- `history_restore` of a whole version, in a store that has been initialised; `draftDirty` is
`draft_is_dirty`, and `trimmed` what the trim log names. -/
def historyRestore (digests : Digests) (canonicalSource : Files → Option TargetPath)
    (legacyRecord : Files → Option VersionRecord) (restoreData : Files → Files → String)
    (draftDirty : Files → Bool) (trimmed : List String)
    (version operationId canonical generationId createdAt : String) :
    Program Disk StoreError Envelope := do
  let disk ← look fun disk => disk
  match (recordedVersions legacyRecord disk).find? (·.version = version) with
  | none => fail (versionNotFound version)
  | some record =>
    if version ∈ trimmed then
      fail (trimmedOnPurpose version)
    else
      match versionState disk record with
      | .error error => fail error
      | .ok none => fail (.store versionTrimmed (version ++ " content has been trimmed by " ++
          "retention and can no longer be restored"))
      | .ok (some source) =>
        match canonicalAssets.findSome? (assetError digests version source) with
        | some error => fail error
        | none =>
          if draftDirty disk.root then
            fail restoreDraftDirty
          else
            match disk.pointer, pin disk with
            | none, _ => fail (.store storeInvalid "store pointer is missing or corrupt")
            | some _, none => fail (.store needsRecovery "generation manifest is malformed")
            | some pointer, some _ =>
              mutate digests canonicalSource
                (restoreRequest restoreData version source pointer operationId canonical
                  generationId createdAt)

/-! ## What the build reads -/

/-- What `plan_build` reads besides the canonical assets: the island edits, the structure record,
the plan of the format engine, and the projection with its state. -/
def buildSidecars : List String :=
  ["islands.json", "structure.json", "format_plan.json", "edit.state.json", "edit.md"]

def buildInputs : List String := canonicalAssets ++ buildSidecars

/-- The root has the same build inputs as some files. -/
def SameInputs (root was : Files) : Prop :=
  ∀ name ∈ buildInputs, root.lookup name = was.lookup name

/-- The version was recorded from some files, and what it recorded is there: the blobs of its tree,
or, where it has none, its generation. -/
inductive RecordedFrom (digests : Digests) (disk : Disk) (record : VersionRecord) (was : Files) :
    Prop
  | pooled (digest : String) (htree : pooledTree disk record = some (treeOf digests was digest))
      (hblobs : ∀ part ∈ treeContents was, disk.blobs.lookup (digests.blobId part.2) = some part.2)
  | legacy (generation : String) (files : Files) (htree : pooledTree disk record = none)
      (hgeneration : record.generation = some generation)
      (hfiles : disk.generations.lookup generation = some files)
      (hwas : ∀ name ∈ canonicalAssets, files.lookup name = was.lookup name)

/-- The files of the generation that the pointer selects. -/
def currentFiles (disk : Disk) : Files :=
  (disk.pointer.bind fun pointer => disk.generations.lookup pointer.generation).getD ∅

/-- What a mutation that leaves a file alone brings to the root: the file of the current generation
under the ingress overlay, and where there is none, what the root keeps. -/
def standing (disk : Disk) (name : String) : Option Content :=
  match (overlayIngress disk.root (currentFiles disk)).lookup name with
  | some content => some content
  | none => if name ∈ optionalRootSidecars then none else disk.root.lookup name

variable {disk : Disk} {pointer : Pointer} {request : Request} {root : String → Option Content}

variable {envelope : Envelope} {outcome : RunOutcome} {record : VersionRecord}

section Restore

variable {digests : Digests}

theorem materializeParts_of_blobs {blobs : Table Content} : ∀ {contents : List (String × Content)},
    (∀ part ∈ contents, blobs.lookup (digests.blobId part.2) = some part.2) →
      ∃ files, materializeParts blobs (contents.map fun part => (part.1, digests.blobId part.2)) =
        some files ∧ ∀ name, files.lookup name = contents.lookup name
  | [], _ => ⟨∅, rfl, fun _ => rfl⟩
  | (name, content) :: contents, h => by
    obtain ⟨files, hfiles, hlookup⟩ := materializeParts_of_blobs fun part hpart =>
      h part (mem_cons_of_mem _ hpart)
    refine ⟨files.insert name content, ?_, fun name' => ?_⟩
    · rw [map_cons, materializeParts, h _ mem_cons_self, hfiles]
    · rcases eq_or_ne name' name with rfl | hne
      · rw [AList.lookup_insert, lookup_cons_self]
      · rw [AList.lookup_insert_ne hne, hlookup, lookup_cons, beq_false_of_ne hne]

theorem lookup_filterMap {was : Files} {name : String} : ∀ names : List String,
    (names.filterMap fun name => (was.lookup name).map fun content => (name, content)).lookup name =
      if name ∈ names then was.lookup name else none
  | [] => rfl
  | first :: names => by
    have ih := @lookup_filterMap was name names
    rw [filterMap_cons]
    rcases eq_or_ne name first with rfl | hne
    · rw [if_pos mem_cons_self]
      cases hlies : was.lookup name with
      | none =>
        rw [Option.map_none]
        dsimp only
        rw [ih, hlies, ite_self]
      | some content =>
        rw [Option.map_some]
        exact lookup_cons_self
    · have hmem : name ∈ first :: names ↔ name ∈ names := by simp [hne]
      simp only [hmem]
      rw [← ih]
      cases was.lookup first with
      | none => rfl
      | some content =>
        rw [Option.map_some]
        dsimp only
        rw [lookup_cons, beq_false_of_ne hne]

/-- What a version gives back of the files it was recorded from. -/
theorem versionState_recordedFrom {was : Files} (h : RecordedFrom digests disk record was) :
    ∃ source,
      versionState disk record = .ok (some source) ∧
        ∀ name ∈ canonicalAssets, source.lookup name = was.lookup name := by
  cases h with
  | pooled digest htree hblobs =>
    obtain ⟨source, hsource, hlookup⟩ := materializeParts_of_blobs hblobs
    have hassets : canonicalAssets ⊆ treeAssets := by decide
    refine ⟨source, ?_, fun name hname => ?_⟩
    · rw [versionState, htree]
      dsimp only
      rw [treeOf, hsource]
    · rw [hlookup, treeContents, lookup_filterMap, if_pos (hassets hname)]
  | legacy generation files htree hgeneration hfiles hwas =>
    refine ⟨files, ?_, hwas⟩
    rw [versionState, htree]
    dsimp only
    rw [hgeneration]
    dsimp only
    rw [hfiles]

theorem isSome_of_assetError {version : String} {source : Files} {name : String}
    (h : assetError digests version source name = none) : (source.lookup name).isSome := by
  rw [assetError] at h
  cases hlies : source.lookup name with
  | none =>
    rw [hlies] at h
    cases h
  | some content => rfl

/-! ## The root after a mutation -/

theorem lookup_restoreFiles {source files : Files}
    (hcomplete : ∀ name ∈ canonicalAssets, (source.lookup name).isSome) (name : String) :
    (restoreFiles source files).lookup name =
      if name ∈ canonicalAssets then source.lookup name else files.lookup name := by
  have hfold : ∀ (names : List String) (files : Files),
      (∀ name ∈ names, (source.lookup name).isSome) →
        (names.foldl (fun files name =>
          match source.lookup name with
          | some content => files.insert name content
          | none => files) files).lookup name =
            if name ∈ names then source.lookup name else files.lookup name := by
    intro names
    induction names with
    | nil => exact fun _ _ => rfl
    | cons first names ih =>
      intro files hthere
      rw [foldl_cons, ih _ fun name hname => hthere name (mem_cons_of_mem _ hname)]
      obtain ⟨content, hcontent⟩ :=
        Option.isSome_iff_exists.mp (hthere first mem_cons_self)
      rw [hcontent]
      dsimp only
      by_cases hmem : name ∈ names
      · rw [if_pos hmem, if_pos (mem_cons_of_mem _ hmem)]
      · rw [if_neg hmem]
        rcases eq_or_ne name first with rfl | hne
        · rw [if_pos mem_cons_self, AList.lookup_insert, hcontent]
        · rw [AList.lookup_insert_ne hne, if_neg (by simp [hne, hmem])]
  exact hfold canonicalAssets files hcomplete

/-- The root has these files. -/
def RootIs (files : String → Option Content) (disk : Disk) : Prop :=
  ∀ name, disk.root.lookup name = files name

theorem RootIs.update {name : String} {content : Option Content} {disk' : Disk}
    (h : RootIs root disk) (hat : disk'.root.lookup name = content)
    (hother : ∀ other, other ≠ name → disk'.root.lookup other = disk.root.lookup other) :
    RootIs (Function.update root name content) disk' := by
  intro other
  rcases eq_or_ne other name with rfl | hne
  · rw [Function.update_self, hat]
  · rw [Function.update_of_ne hne, hother other hne, h other]

/-- A loop that changes one file a round, and changes it twice as it changes it once. -/
theorem gives_each_root {f : String → Program Disk StoreError Unit}
    {step : String → Option Content → Option Content}
    (htwice : ∀ name content, step name (step name content) = step name content)
    (hround : ∀ name root, Gives (RootIs root) (f name) fun _ =>
      RootIs (Function.update root name (step name (root name)))) :
    ∀ {names : List String} {root : String → Option Content},
      Gives (RootIs root) (each f names) fun _ =>
        RootIs fun name => if name ∈ names then step name (root name) else root name
  | [], root => meets_give fun disk h name => by simpa using h name
  | first :: names, root => by
    refine meets_andThen (hround first root) fun _ =>
      (gives_each_root htwice hround).imp fun _ disk h name => ?_
    rw [h name]
    beta_reduce
    rcases eq_or_ne name first with rfl | hne
    · rw [Function.update_self, htwice, ite_self, if_pos mem_cons_self]
    · simp [hne]

theorem gives_materializeFiles {files : Files} {names : List String} :
    Gives (RootIs root)
      (each (fun name =>
        if name = generationJson then give ()
        else
          match files.lookup name with
          | some content => act ioError (Disk.writeFile (.root name) content)
          | none => give ()) names : Program Disk StoreError Unit)
      fun _ => RootIs fun name => if name ∈ names then
        if name = generationJson then root name else (files.lookup name).or (root name)
      else root name := by
  refine @gives_each_root _ (fun name content =>
    if name = generationJson then content else (files.lookup name).or content)
    (fun name content => ?_) (fun name root => ?_) names root
  · split
    · rfl
    · cases files.lookup name <;> rfl
  · split
    · rw [Function.update_eq_self]
      exact meets_give fun _ h => h
    · cases files.lookup name with
      | none =>
        rw [Option.none_or, Function.update_eq_self]
        exact meets_give fun _ h => h
      | some content =>
        exact gives_act fun disk h => h.update (AList.lookup_insert _) fun _ hne =>
          AList.lookup_insert_ne hne

theorem gives_dropSidecars {files : Files} {names : List String} :
    Gives (RootIs root)
      (each (fun name =>
        if (files.lookup name).isSome then give ()
        else
          andThen (look fun disk => (disk.root.lookup name).isSome) fun present =>
            if present then act ioError fun disk => { disk with root := disk.root.erase name }
            else give ()) names : Program Disk StoreError Unit)
      fun _ => RootIs fun name => if name ∈ names then
        if files.lookup name = none then none else root name
      else root name := by
  refine @gives_each_root _ (fun name content => if files.lookup name = none then none else content)
    (fun name content => ?_) (fun name root => ?_) names root
  · split <;> rfl
  · cases files.lookup name with
    | some content =>
      rw [if_neg (Option.some_ne_none content), Function.update_eq_self]
      exact meets_give fun _ h => h
    | none =>
      rw [if_neg (by simp), if_pos rfl]
      refine meets_andThen (R := fun present disk => RootIs root disk ∧
        present = (root name).isSome) (meets_look fun disk h => ⟨h, by rw [h name]⟩)
        fun present => meets_knowing fun hpresent => ?_
      split
      · exact gives_act fun disk h => h.update (AList.lookup_erase _ _) fun _ hne =>
          AList.lookup_erase_ne hne
      · refine meets_give fun disk h => h.update ?_ fun _ _ => rfl
        rw [h name]
        simp_all

/-- The root after `materialize_root`. -/
def materialized (files : Files) (root : String → Option Content) (name : String) :
    Option Content :=
  match files.lookup name with
  | some content => if name = generationJson then root name else some content
  | none => if name ∈ optionalRootSidecars then none else root name

theorem gives_materializeRoot {files : Files} :
    Gives (RootIs root) (materializeRoot files) fun _ => RootIs (materialized files root) := by
  refine meets_andThen gives_materializeFiles fun _ =>
    gives_dropSidecars.imp fun _ disk h name => ?_
  rw [h name, materialized]
  have hnames : (files.lookup name).isSome → name ∈ Table.names files := by
    intro hsome
    rw [Table.names, mem_insertionSort]
    exact AList.mem_keys.mp (AList.lookup_isSome.mp hsome)
  cases hlies : files.lookup name with
  | none =>
    by_cases hside : name ∈ optionalRootSidecars <;> simp [hside, hlies]
  | some content =>
    have hname := hnames (by rw [hlies]; rfl)
    by_cases hjson : name = generationJson <;> simp [hjson, hname, hlies]

theorem onWorkdir_root {root : Files} : OnWorkdir fun disk => disk.root = root where
  of_eq h _ _ hroot _ _ _ _ := hroot.trans h

variable {canonicalSource : Files → Option TargetPath}

theorem besideObjects_root {root : Files} : BesideObjects fun disk => disk.root = root where
  of_eq h _ _ hroot _ _ := hroot.trans h

/-- The phases up to the pointer leave the root alone when the evidence goes into the
generation. -/
theorem keeps_advance_of_root {root : Files} (hgeneration : request.generation = true)
    (hevidence : request.evidencePath = none) :
    Keeps (fun disk => disk.root = root) (advance digests canonicalSource request pointer) := by
  have hcopy : Keeps (fun disk => disk.root = root) (copyGeneration request pointer) := by
    unfold copyGeneration
    rw [if_pos hgeneration]
    refine keeps_bind keeps_look fun parent => ?_
    cases parent with
    | none => exact keeps_fail
    | some files => exact keeps_bind (keeps_act fun _ h => h) fun _ => keeps_act fun _ h => h
  have hmanifest : Keeps (fun disk => disk.root = root) (writeManifest digests request pointer) := by
    unfold writeManifest
    rw [if_pos hgeneration]
    exact keeps_bind keeps_look fun files => keeps_bind (keeps_act fun _ h => h) fun _ => keeps_give
  have hwritten : evidenceLocation (begunMutation digests request pointer).evidencePath =
      .generation request.generationId "run.evidence.json" := by
    rw [begunMutation, hevidence, if_pos hgeneration]
    rfl
  have hprepare : Keeps (fun disk => disk.root = root)
      (prepare digests canonicalSource request pointer) := by
    refine keeps_bind hcopy fun _ => keeps_bind keeps_look fun files => ?_
    split
    · exact keeps_fail
    · refine keeps_bind (keeps_act fun _ h => h) fun _ => ?_
      refine keeps_bind keeps_look fun externals => keeps_bind keeps_look fun checked => ?_
      split
      · exact keeps_fail
      · refine keeps_bind hmanifest fun manifestSha256 => ?_
        dsimp only
        rw [hwritten]
        refine keeps_bind (keeps_act fun _ h => h) fun _ => ?_
        exact keeps_bind (keeps_act fun _ h => h) fun _ => keeps_give
  refine keeps_bind hprepare fun prepared => ?_
  refine keeps_bind (keeps_publishExternals onWorkdir_root digests) fun m => ?_
  exact keeps_bind (keeps_commitPointer besideObjects_root digests fun _ _ _ h => h) fun _ =>
    keeps_give

/-- The phases after it bring the files of the generation to the root. -/
theorem gives_conclude_root (hgeneration : request.generation = true)
    (hanchor : request.ledgerAnchor = none) {m : Mutation} :
    Gives (fun disk => Prepared digests request pointer outcome m disk ∧ RootIs root disk)
      (conclude digests request m)
      fun _ disk => ∃ content, RootIs (materialized
        ((selectedFiles digests request pointer outcome).insert operationLedger content) root)
          disk := by
  have hat : request.ledgerAt = .generation request.generationId operationLedger := by
    rw [Request.ledgerAt, hanchor]
    rfl
  refine meets_bind (R := fun _ disk => Prepared digests request pointer outcome m disk ∧
    RootIs root disk) (gives_act fun disk h => ⟨onGenerations_prepared.of_eq h.1 rfl, h.2⟩)
    fun _ => ?_
  refine meets_bind (R := fun _ disk => (∃ content, disk.generations.lookup request.generationId =
    some ((selectedFiles digests request pointer outcome).insert operationLedger content)) ∧
      RootIs root disk) (gives_act fun disk h => ⟨?_, ?_⟩) fun _ => ?_
  · rw [writeLedgerAt, h.1.envelope, h.1.canonical, h.1.ledgerAt, hat, lookup_writeFile h.1.files,
      writtenAt, if_pos rfl]
    exact ⟨_, rfl⟩
  · rw [writeLedgerAt, h.1.ledgerAt, hat]
    exact h.2
  · rw [if_pos hgeneration]
    refine meets_bind (R := fun files disk => RootIs root disk ∧ ∃ content,
      files = (selectedFiles digests request pointer outcome).insert operationLedger content)
      (meets_look fun disk h => ?_) fun files => meets_knowing fun hfiles => ?_
    · obtain ⟨⟨content, hlies⟩, hroot⟩ := h
      exact ⟨hroot, content, by rw [hlies]; rfl⟩
    · obtain ⟨content, rfl⟩ := hfiles
      refine meets_bind gives_materializeRoot fun _ => ?_
      refine (Gives.of_keeps ?_).imp fun _ _ h => ⟨content, h⟩
      refine keeps_bind (keeps_act fun _ h => h) fun _ => ?_
      refine keeps_bind (keeps_attempt fun _ h => h) fun _ => ?_
      exact keeps_bind (keeps_attempt fun _ h => h) fun _ => keeps_give

/-- A program that gives a value has not come to its handler, where the handler gives none. -/
theorem gives_handle {α : Type} {P : Disk → Prop} {Q : α → Disk → Prop}
    {p : Program Disk StoreError α} {handler : StoreError → Program Disk StoreError α}
    (hp : Gives P p Q) (hfails : ∀ error, Fails (handler error)) :
    Gives P (handle p handler) Q := by
  refine meets_handle hp fun error state fates _ => ?_
  cases hending : (handler error state fates).ending with
  | returned value => exact absurd hending (hfails error state fates value)
  | failed error => trivial
  | stopped => trivial

/-- A mutation that is neither refused nor a replay leaves the root with what its run has left. -/
theorem gives_mutateSettled_root {settled : Disk} (hgeneration : request.generation = true)
    (hevidence : request.evidencePath = none) (hanchor : request.ledgerAnchor = none)
    (hproceed : admission digests canonicalSource settled request = .proceed pointer) :
    Gives (fun disk => disk = settled) (mutateSettled digests canonicalSource request)
      fun _ disk => ∃ outcome content, request.outcomeAt pointer settled = some outcome ∧
        RootIs (materialized ((selectedFiles digests request pointer outcome).insert
          operationLedger content) settled.root.lookup) disk := by
  refine meets_look_at ?_
  rw [hproceed]
  refine meets_bind (R := fun _ disk => disk.generations = settled.generations ∧
    disk.root = settled.root) ?_ fun _ => ?_
  · refine meets_bind (R := fun _ disk => disk = settled) (meets_look fun _ h => h) fun taken => ?_
    split
    · exact meets_fail fun _ _ => trivial
    · refine meets_bind (R := fun _ disk => disk.generations = settled.generations ∧
        disk.root = settled.root) (gives_act fun disk h => ?_) fun _ => gives_act fun _ h => h
      rw [h]
      exact ⟨rfl, rfl⟩
  · refine meets_of_start fun begun hbegun => ?_
    have houtcome : request.outcomeAt pointer begun = request.outcomeAt pointer settled := by
      rw [Request.outcomeAt, Request.outcomeAt, hbegun.1, hbegun.2]
    have hkeeps : Keeps (fun disk => disk.root = settled.root)
        (advance digests canonicalSource request pointer) :=
      keeps_advance_of_root hgeneration hevidence
    have hadvance := ((Gives.of_keeps hkeeps).and (gives_advance hgeneration)).of_imp
      fun disk (h : disk = begun) => ⟨h ▸ hbegun.2, h⟩
    refine meets_bind (gives_handle hadvance fun _ => fails_abort digests) fun m => ?_
    refine gives_handle (meets_of_start fun disk h => ?_) fun _ => fails_abort digests
    obtain ⟨hroot, outcome, hat, hprepared⟩ := h
    have hlookup : RootIs settled.root.lookup disk := fun name => by rw [hroot]
    refine Meets.of_imp (P := fun disk => Prepared digests request pointer outcome m disk ∧
      RootIs settled.root.lookup disk) ?_ fun _ h => h ▸ ⟨hprepared, hlookup⟩
    refine (gives_conclude_root hgeneration hanchor).imp fun _ _ hconcluded => ?_
    obtain ⟨content, hfiles⟩ := hconcluded
    exact ⟨outcome, content, houtcome ▸ hat, hfiles⟩

/-! ## What a restore brings back -/

/-- A mutation whose operation is not in the ledger is not a replay. -/
theorem admission_not_replay
    (h : (lookupLedger disk request.operationId request.generation request.ledgerAnchor
      request.ledgerDirectory).1 = none) :
    admission digests canonicalSource disk request ≠ .replay envelope := by
  intro hreplay
  unfold admission at hreplay
  split at hreplay
  · cases hreplay
  · split at hreplay
    · cases hreplay
    · split at hreplay
      · cases hreplay
      · rw [h] at hreplay
        dsimp only at hreplay
        split at hreplay <;> cases hreplay

theorem mutateSettled_refused {error : StoreError}
    (h : admission digests canonicalSource disk request = .refuse error) (fates : List Fate) :
    mutateSettled digests canonicalSource request disk fates = ⟨.failed error, disk, fates⟩ := by
  rw [mutateSettled, look_bind, h]
  rfl

/-- The evidence, the manifest and the ledger are written beside what the run has left. -/
theorem lookup_concluded (hevidence : request.evidencePath = none) {content : Content}
    {name : String} (hbeside : name ∉ [operationLedger, generationJson, "run.evidence.json"]) :
    ((selectedFiles digests request pointer outcome).insert operationLedger content).lookup name =
      outcome.files.lookup name := by
  simp only [mem_cons, not_mem_nil, or_false, not_or] at hbeside
  obtain ⟨hledger, hjson, hrun⟩ := hbeside
  have hat : request.evidenceAt = .generation request.generationId "run.evidence.json" := by
    rw [Request.evidenceAt, hevidence]
    rfl
  rw [AList.lookup_insert_ne hledger, selectedFiles, hat, writtenAt, if_pos rfl,
    AList.lookup_insert_ne hrun, listedFiles, AList.lookup_insert_ne hjson]

/-- A mutation that is no replay and gives a value leaves the root with what its run has left. -/
theorem lookup_mutateSettled {fates : List Fate} {envelope : Envelope}
    (hgeneration : request.generation = true) (hevidence : request.evidencePath = none)
    (hanchor : request.ledgerAnchor = none)
    (hnew : (lookupLedger disk request.operationId request.generation request.ledgerAnchor
      request.ledgerDirectory).1 = none)
    (hended : (mutateSettled digests canonicalSource request disk fates).ending =
      .returned envelope) :
    ∃ pointer outcome, disk.pointer = some pointer ∧
      request.outcomeAt pointer disk = some outcome ∧
        ∀ name ∉ [operationLedger, generationJson, "run.evidence.json"],
          (mutateSettled digests canonicalSource request disk fates).state.root.lookup name =
            match outcome.files.lookup name with
            | some content => some content
            | none => if name ∈ optionalRootSidecars then none else disk.root.lookup name := by
  cases hadmission : admission digests canonicalSource disk request with
  | refuse error =>
    rw [mutateSettled_refused hadmission] at hended
    cases hended
  | replay prior => exact absurd hadmission (admission_not_replay hnew)
  | proceed pointer =>
    obtain ⟨outcome, content, hat, hroot⟩ :=
      (gives_mutateSettled_root hgeneration hevidence hanchor hadmission).value rfl hended
    refine ⟨pointer, outcome, admission_pointer hadmission, hat, fun name hbeside => ?_⟩
    have hjson : name ≠ generationJson := fun h => hbeside (by simp [h])
    rw [hroot name, materialized, lookup_concluded hevidence hbeside]
    simp only [if_neg hjson]

/-- A program that has given a value has gone through its first part. -/
theorem returned_bind {α β : Type} {p : Program Disk StoreError α}
    {f : α → Program Disk StoreError β} {fates : List Fate} {value : β}
    (h : ((p >>= f) disk fates).ending = .returned value) :
    ∃ first, (p disk fates).ending = .returned first ∧
      (p >>= f) disk fates = f first (p disk fates).state (p disk fates).fates := by
  change (andThen p f disk fates).ending = _ at h
  rw [andThen] at h
  cases hending : (p disk fates).ending with
  | returned first =>
    refine ⟨first, rfl, ?_⟩
    change andThen p f disk fates = _
    rw [andThen]
    simp only [hending]
  | failed error =>
    rw [hending] at h
    cases h
  | stopped =>
    rw [hending] at h
    cases h

section Root

variable {legacyRecord : Files → Option VersionRecord} {restoreData : Files → Files → String}
  {draftDirty : Files → Bool} {trimmed : List String}
  {version operationId canonical generationId createdAt : String}

/-- Where a restore gives a value, the version has all assets, and its mutation has run. -/
theorem historyRestore_eq {start : Disk} {source : Files} {fates : List Fate}
    (hfound : (recordedVersions legacyRecord start).find? (·.version = version) = some record)
    (hsource : versionState start record = .ok (some source))
    (hended : (historyRestore digests canonicalSource legacyRecord restoreData draftDirty trimmed
      version operationId canonical generationId createdAt start fates).ending =
        .returned envelope) :
    (∀ name ∈ canonicalAssets, (source.lookup name).isSome) ∧
      ∃ pointer, historyRestore digests canonicalSource legacyRecord restoreData draftDirty trimmed
        version operationId canonical generationId createdAt start fates =
          mutate digests canonicalSource (restoreRequest restoreData version source pointer
            operationId canonical generationId createdAt) start fates := by
  rw [historyRestore, look_bind, hfound] at hended ⊢
  dsimp only at hended ⊢
  rw [hsource] at hended ⊢
  dsimp only at hended ⊢
  by_cases htrimmed : version ∈ trimmed
  · rw [if_pos htrimmed] at hended
    cases hended
  rw [if_neg htrimmed] at hended ⊢
  cases hassets : canonicalAssets.findSome? (assetError digests version source) with
  | some error =>
    rw [hassets] at hended
    cases hended
  | none =>
    rw [hassets] at hended
    dsimp only at hended ⊢
    by_cases hdirty : draftDirty start.root
    · rw [if_pos hdirty] at hended
      cases hended
    rw [if_neg hdirty] at hended ⊢
    refine ⟨fun name hname => isSome_of_assetError
      (findSome?_eq_none_iff.mp hassets name hname), ?_⟩
    cases hpointer : start.pointer with
    | none =>
      rw [hpointer] at hended
      cases hended
    | some pointer =>
      cases hpin : pin start with
      | none =>
        rw [hpointer, hpin] at hended
        cases hended
      | some generation => exact ⟨pointer, rfl⟩

end Root

end Restore

/-! ## Islands later than the version -/

/-- A workdir with all assets. -/
def workDisk : Disk :=
  let assets : Files := ((((∅ : Files).insert "_template.docx" (.text "template")).insert
    "styles.json" (.text "styles")).insert "format.json" (.text "format")).insert "typed.md"
      (.text "old")
  { sampleDisk with root := assets, generations := AList.singleton "gen-0" assets }

/-- Hashes for a store with one tree, one commit and no recovery. -/
def shortDigests : Digests :=
  { spelledDigests with
    semanticSha256 := fun _ => ""
    treeId := fun _ => "tree-1"
    commitId := fun _ => "commit-1" }

/-- It has a version. -/
def savedDisk : Disk := (mutate shortDigests noSource savedEdit workDisk []).state

/-- An edit after the version. -/
def laterEdit (run : Files → Files) : Request :=
  { plainEdit with
    operationId := "op-2"
    expectedGeneration := "gen-1"
    run := fun files => .ok
      { outcome := "success", data := "", evidence := "run", files := run files }
    generationId := "gen-2" }

def islandsDisk : Disk :=
  (mutate shortDigests noSource
    (laterEdit fun files => files.insert "islands.json" (.text "later")) savedDisk []).state

def retypedDisk : Disk :=
  (mutate shortDigests noSource
    (laterEdit fun files => files.insert "typed.md" (.text "newer")) savedDisk []).state

def restoreFirst : Program Disk StoreError Envelope :=
  historyRestore shortDigests noSource (fun _ => none) (fun _ _ => "") (fun _ => false) [] "V1"
    "op-3" "canonical" "gen-3" "now"

end Docx2Typed.Store
