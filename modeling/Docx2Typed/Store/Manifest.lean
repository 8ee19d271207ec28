import Docx2Typed.Store.Versions

/-!
# The manifest of a generation

A mutation lists the files of its generation in `generation.json` before it writes the run
evidence, and writes the operation ledger once the pointer has moved.  Both lie in the generation
unless the caller names another place, so the manifest stays true exactly where they do not change
what it lists.
-/

namespace Docx2Typed.Store

open Library (Program Fate Ending)
open Library.Program

variable {I : Disk → Prop} {P : Disk → Prop} {content : Content} {files : Files} {m : Mutation}
  {manifest : Manifest} {name : String} {outcome : RunOutcome} {pointer : Pointer}
  {request : Request} {α : Type}

variable {generation name : String} {p : Program Disk StoreError α}

section Manifest

variable (digests : Digests)

/-- The manifest lists exactly the files of a directory but itself, with their hashes. -/
def Manifest.Lists (manifest : Manifest) (files : Files) : Prop :=
  ∀ name sha256, (name, sha256) ∈ manifest.assets ↔
    name ≠ generationJson ∧ (files.lookup name).map digests.fileSha256 = some sha256

theorem generationManifest_lists {generation operationId inputSha256 : String}
    {parent : Option String} :
    (generationManifest digests files generation parent operationId inputSha256).Lists digests
      files := by
  intro name sha256
  have hnames : ∀ {content}, files.lookup name = some content → name ∈ Table.names files := by
    intro content h
    rw [Table.names, List.mem_insertionSort]
    exact AList.mem_keys.mp (AList.lookup_isSome.mp (by rw [h]; rfl))
  simp only [generationManifest, List.mem_filterMap]
  constructor
  · rintro ⟨name', -, hentry⟩
    split at hentry
    · cases hentry
    · rename_i hne
      obtain ⟨content, hcontent, hpair⟩ := Option.map_eq_some_iff.mp hentry
      obtain ⟨rfl, rfl⟩ := Prod.mk.inj hpair
      exact ⟨hne, by rw [hcontent]; rfl⟩
  · rintro ⟨hne, hsha⟩
    obtain ⟨content, hcontent, rfl⟩ := Option.map_eq_some_iff.mp hsha
    refine ⟨name, hnames hcontent, ?_⟩
    rw [if_neg hne, hcontent]
    rfl

variable {digests}

/-- A file written over a true manifest leaves it true exactly when the manifest lists it as it is
written. -/
theorem Manifest.Lists.insert_iff (h : manifest.Lists digests files) (hname : name ≠ generationJson)
    :
    manifest.Lists digests (files.insert name content) ↔
      (files.lookup name).map digests.fileSha256 = some (digests.fileSha256 content) := by
  constructor
  · intro hlists
    have hmem := (hlists name (digests.fileSha256 content)).mpr
      ⟨hname, by rw [AList.lookup_insert]; rfl⟩
    exact ((h name _).mp hmem).2
  · intro hsame name' sha256
    rw [h name' sha256]
    refine and_congr_right fun _ => ?_
    rcases eq_or_ne name' name with rfl | hne
    · rw [hsame, AList.lookup_insert]
      rfl
    · rw [AList.lookup_insert_ne hne]

theorem Manifest.Lists.not_erase (h : manifest.Lists digests files) (hname : name ≠ generationJson)
    (hcontent : files.lookup name = some content) :
    ¬ manifest.Lists digests (files.erase name) := by
  intro hlists
  have hmem := (h name (digests.fileSha256 content)).mpr ⟨hname, by rw [hcontent]; rfl⟩
  have hgone := ((hlists name _).mp hmem).2
  rw [AList.lookup_erase] at hgone
  cases hgone

/-- A check of a generation against its manifest finds nothing. -/
def Verifies (digests : Digests) (files : Files) : Prop :=
  ∃ manifest, files.lookup generationJson = some (.manifest manifest) ∧
    manifest.Lists digests files

theorem Verifies.insert_iff (h : Verifies digests files) (hname : name ≠ generationJson) :
    Verifies digests (files.insert name content) ↔
      (files.lookup name).map digests.fileSha256 = some (digests.fileSha256 content) := by
  obtain ⟨manifest, hmanifest, hlists⟩ := h
  rw [← hlists.insert_iff hname, Verifies]
  rw [AList.lookup_insert_ne (Ne.symm hname), hmanifest]
  exact ⟨fun ⟨_, heq, h⟩ => Content.manifest.inj (Option.some.inj heq) ▸ h, fun h => ⟨_, rfl, h⟩⟩

theorem Verifies.not_erase (h : Verifies digests files) (hname : name ≠ generationJson)
    (hcontent : files.lookup name = some content) : ¬ Verifies digests (files.erase name) := by
  obtain ⟨manifest, hmanifest, hlists⟩ := h
  rintro ⟨manifest', hmanifest', hlists'⟩
  rw [AList.lookup_erase_ne (Ne.symm hname), hmanifest] at hmanifest'
  obtain rfl := Content.manifest.inj (Option.some.inj hmanifest')
  exact hlists.not_erase hname hcontent hlists'

/-! ## The files of a new generation -/

/-- The files of a generation once a file is written somewhere. -/
def writtenAt (generation : String) (location : Location) (content : Content) (files : Files) :
    Files :=
  match location with
  | .generation generation' name =>
    if generation' = generation then files.insert name content else files
  | _ => files

theorem lookup_writeFile {disk : Disk} {generation : String}
    (h : disk.generations.lookup generation = some files) (location : Location) (content : Content)
    :
    (disk.writeFile location content).generations.lookup generation =
      some (writtenAt generation location content files) := by
  cases location with
  | root name => exact h
  | outside path => exact h
  | generation generation' name =>
    simp only [Disk.writeFile, writtenAt]
    split
    · rename_i heq
      rw [heq, AList.lookup_insert, h]
      rfl
    · rename_i hne
      rw [AList.lookup_insert_ne (Ne.symm hne), h]

/-- What the run of a request makes of the pointer's generation on a disk. -/
def Request.outcomeAt (request : Request) (pointer : Pointer) (disk : Disk) : Option RunOutcome :=
  (disk.generations.lookup pointer.generation).bind fun parent =>
    (request.run (overlayIngress disk.root parent)).toOption

/-- Where a request that makes a generation has its run evidence. -/
def Request.evidenceAt (request : Request) : Location :=
  evidenceLocation (request.evidencePath.getD (.generation request.generationId))

/-- Where it has its ledger. -/
def Request.ledgerAt (request : Request) : Location :=
  ledgerLocation (request.ledgerAnchor.getD (.generation request.generationId))
    request.ledgerDirectory

def Request.envelope (request : Request) (outcome : RunOutcome) : Envelope where
  schema := resultSchema
  operation := request.operation
  outcome := outcome.outcome
  operationId := some request.operationId
  data := outcome.data
  evidence := [outcome.evidence]

/-- The files a run leaves, with the manifest of them. -/
def listedFiles (digests : Digests) (request : Request) (pointer : Pointer)
    (outcome : RunOutcome) : Files :=
  outcome.files.insert generationJson (.manifest
    (generationManifest digests outcome.files request.generationId (some pointer.generation)
      request.operationId request.canonical))

/-- The generation as the pointer comes to select it. -/
def selectedFiles (digests : Digests) (request : Request) (pointer : Pointer)
    (outcome : RunOutcome) : Files :=
  writtenAt request.generationId request.evidenceAt (.text outcome.evidence)
    (listedFiles digests request pointer outcome)

/-- What the phases up to the pointer make of a run. -/
structure Prepared (digests : Digests) (request : Request) (pointer : Pointer)
    (outcome : RunOutcome) (m : Mutation) (disk : Disk) : Prop where
  files : disk.generations.lookup request.generationId =
    some (selectedFiles digests request pointer outcome)
  envelope : m.envelope = request.envelope outcome
  canonical : m.canonical = request.canonical
  ledgerAt : ledgerLocation m.ledgerAnchor m.ledgerDirectory = request.ledgerAt

theorem onGenerations_prepared : OnGenerations (Prepared digests request pointer outcome m) where
  of_eq h _ hgenerations := ⟨hgenerations ▸ h.files, h.envelope, h.canonical, h.ledgerAt⟩

/-- Where a program ends in when it gives a value. -/
def Gives {α : Type} (P : Disk → Prop) (p : Program Disk StoreError α) (Q : α → Disk → Prop) :
    Prop :=
  Meets P p Q (fun _ _ => True) fun _ => True

theorem Gives.of_keeps (h : Keeps I p) : Gives I p fun _ => I :=
  h.weaken (fun _ h => h) (fun _ _ h => h) (fun _ _ _ => trivial) fun _ _ => trivial

theorem Gives.and {P P' : Disk → Prop} {Q Q' : α → Disk → Prop} (h : Gives P p Q)
    (h' : Gives P' p Q') :
    Gives (fun disk => P disk ∧ P' disk) p fun value disk => Q value disk ∧ Q' value disk := by
  intro disk fates hdisk
  have hends := h disk fates hdisk.1
  have hends' := h' disk fates hdisk.2
  cases hending : (p disk fates).ending with
  | returned value =>
    rw [hending] at hends hends'
    exact ⟨hends, hends'⟩
  | failed error => trivial
  | stopped => trivial

theorem gives_true : Gives P p fun _ _ => True := by
  intro disk fates _
  cases (p disk fates).ending <;> trivial

theorem gives_act {f : Disk → Disk} {Q : Unit → Disk → Prop} (h : ∀ disk, P disk → Q () (f disk)) :
    Gives P (act ioError f) Q :=
  meets_act h (fun _ _ => trivial) fun _ _ => trivial

variable {canonicalSource : Files → Option TargetPath}

section

variable (hgeneration : request.generation = true)

include hgeneration

theorem gives_copyGeneration {start : Disk} :
    Gives (fun disk => disk = start) (copyGeneration request pointer)
      fun _ disk => ∃ parent, start.generations.lookup pointer.generation = some parent ∧
        disk.generations.lookup request.generationId =
          some (overlayIngress start.root parent) := by
  unfold copyGeneration
  rw [if_pos hgeneration]
  refine meets_look_at ?_
  cases hparent : start.generations.lookup pointer.generation with
  | none => exact meets_fail fun _ _ => trivial
  | some files =>
    refine meets_bind (R := fun _ disk => disk.root = start.root ∧
      disk.generations.lookup request.generationId = some files)
      (gives_act fun disk h => ?_) fun _ => gives_act fun disk h => ⟨files, rfl, ?_⟩
    · rw [h]
      exact ⟨rfl, AList.lookup_insert _⟩
    · rw [AList.lookup_insert, h.1, h.2]
      rfl

theorem gives_writeManifest :
    Gives (fun disk => disk.generations.lookup request.generationId = some outcome.files)
      (writeManifest digests request pointer)
      fun _ disk => disk.generations.lookup request.generationId =
        some (listedFiles digests request pointer outcome) := by
  unfold writeManifest
  rw [if_pos hgeneration]
  refine meets_bind (R := fun files disk =>
    disk.generations.lookup request.generationId = some outcome.files ∧ files = outcome.files)
    (meets_look fun disk h => ⟨h, by rw [h]; rfl⟩) fun files => meets_knowing fun hfiles => ?_
  subst hfiles
  refine meets_bind (gives_act fun disk h => ?_) fun _ => meets_give fun disk h => h
  rw [lookup_writeFile h, writtenAt, if_pos rfl]
  rfl

theorem gives_prepare {start : Disk} :
    Gives (fun disk => disk = start) (prepare digests canonicalSource request pointer)
      fun m disk => ∃ outcome, request.outcomeAt pointer start = some outcome ∧
        Prepared digests request pointer outcome m disk := by
  refine meets_bind (gives_copyGeneration hgeneration) fun _ => ?_
  refine meets_bind (R := fun files disk => request.outcomeAt pointer start =
    (request.run files).toOption) (meets_look fun disk h => ?_) fun files => ?_
  · obtain ⟨parent, hparent, hfiles⟩ := h
    rw [targetFiles, if_pos hgeneration, hfiles, Request.outcomeAt, hparent]
    rfl
  · cases hrun : request.run files with
    | error error => exact meets_fail fun _ _ => trivial
    | ok outcome =>
      refine meets_bind (R := fun _ disk => disk.generations.lookup request.generationId =
        some outcome.files ∧ request.outcomeAt pointer start = some outcome)
        (gives_act fun disk h => ⟨?_, h⟩) fun _ => meets_knowing fun houtcome => ?_
      · simp only [leaveRun]
        rw [if_pos hgeneration, AList.lookup_insert]
      · refine meets_bind (R := fun _ disk => disk.generations.lookup request.generationId =
          some outcome.files) (meets_look fun _ h => h) fun externals => ?_
        refine meets_bind (R := fun _ disk => disk.generations.lookup request.generationId =
          some outcome.files) (meets_look fun _ h => h) fun checked => ?_
        split
        · exact meets_fail fun _ _ => trivial
        · refine meets_bind (gives_writeManifest hgeneration) fun manifestSha256 => ?_
          have hevidence : evidenceLocation (begunMutation digests request pointer).evidencePath =
              request.evidenceAt := by
            rw [Request.evidenceAt, begunMutation, if_pos hgeneration]
          dsimp only
          rw [hevidence]
          refine meets_bind (R := fun _ disk => disk.generations.lookup request.generationId =
            some (selectedFiles digests request pointer outcome))
            (gives_act fun disk h => lookup_writeFile h _ _) fun _ => ?_
          refine meets_bind (gives_act fun disk h => h) fun _ =>
            meets_give fun disk h => ⟨outcome, houtcome, h, rfl, rfl, ?_⟩
          simp only [begunMutation, Request.ledgerAt]
          rw [if_pos hgeneration]

end

theorem gives_publishExternals (hI : OnWorkdir I) :
    Gives I (publishExternals digests m) fun m' disk => I disk ∧
      ∃ published, m' = { m with published } := by
  unfold publishExternals
  split
  · exact meets_give fun disk h => ⟨h, m.published, rfl⟩
  · refine meets_bind (Gives.of_keeps (keeps_publishEach hI.onHoldings digests)) fun published => ?_
    refine meets_bind (gives_act (Q := fun _ => I) fun disk h => ?_) fun _ =>
      meets_give fun disk h => ⟨h, published, rfl⟩
    exact hI.of_eq h rfl rfl rfl rfl rfl rfl

/-- The phases up to the pointer leave the generation with the files of the run, the manifest of
these and the evidence. -/
theorem gives_advance {request : Request} (hgeneration : request.generation = true)
    {pointer : Pointer} {start : Disk} :
    Gives (fun disk => disk = start) (advance digests canonicalSource request pointer)
      fun m disk => ∃ outcome, request.outcomeAt pointer start = some outcome ∧
        Prepared digests request pointer outcome m disk := by
  refine meets_bind (gives_prepare hgeneration) fun prepared => ?_
  refine meets_of_start fun disk ⟨outcome, houtcome, hprepared⟩ => Meets.of_imp
    (P := Prepared digests request pointer outcome prepared) ?_ fun _ h => h ▸ hprepared
  refine meets_bind (gives_publishExternals onGenerations_prepared.onStates.onWorkdir) fun m => ?_
  refine meets_bind (R := fun _ disk => Prepared digests request pointer outcome m disk) ?_
    fun _ => meets_give fun disk h => ⟨outcome, houtcome, h⟩
  refine (Gives.of_keeps (keeps_commitPointer onGenerations_prepared.besideObjects
    digests fun _ _ _ h => onGenerations_prepared.of_eq h rfl)).of_imp fun disk h => ?_
  obtain ⟨hfiles, published, rfl⟩ := h
  exact ⟨hfiles.files, hfiles.envelope, hfiles.canonical, hfiles.ledgerAt⟩

/-- The row that a mutation writes into its ledger. -/
def Request.ledgerContent (request : Request) (outcome : RunOutcome) (before : Option Content) :
    Content :=
  .ledger (setRow request.operationId
    { inputSha256 := some request.canonical, envelope := some (request.envelope outcome) }
    (ledgerRows before))

/-- The phases after the pointer write the ledger, and touch the generation no more. -/
theorem gives_conclude :
    Gives (Prepared digests request pointer outcome m) (conclude digests request m)
      fun _ disk => ∃ before, (∀ name, request.ledgerAt = .generation request.generationId name →
          before = (selectedFiles digests request pointer outcome).lookup name) ∧
        disk.generations.lookup request.generationId =
          some (writtenAt request.generationId request.ledgerAt
            (request.ledgerContent outcome before)
            (selectedFiles digests request pointer outcome)) := by
  refine meets_bind (R := fun _ => Prepared digests request pointer outcome m)
    (gives_act fun disk h => onGenerations_prepared.of_eq h rfl) fun _ => ?_
  refine meets_bind (gives_act fun disk h => ?_) fun _ => Gives.of_keeps (keeps_close digests
    (fun _ _ h => h) (fun _ h => h) (fun _ h => h) fun _ h => h)
  refine ⟨disk.readFile request.ledgerAt, fun name hname => ?_, ?_⟩
  · rw [hname, Disk.readFile, h.files]
    rfl
  · rw [writeLedgerAt, h.envelope, h.canonical, h.ledgerAt]
    exact lookup_writeFile h.files _ _

/-! ## When the manifest is true -/

/-- The run leaves the evidence as it will be written, wherever that is written into the
generation. -/
def EvidenceListed (digests : Digests) (request : Request) (outcome : RunOutcome) : Prop :=
  ∀ name, request.evidenceAt = .generation request.generationId name →
    (outcome.files.lookup name).map digests.fileSha256 =
      some (digests.fileSha256 (.text outcome.evidence))

/-- The same of the ledger. -/
def LedgerListed (digests : Digests) (request : Request) (outcome : RunOutcome) : Prop :=
  ∀ name, request.ledgerAt = .generation request.generationId name →
    (outcome.files.lookup name).map digests.fileSha256 =
      some (digests.fileSha256 (request.ledgerContent outcome (outcome.files.lookup name)))

theorem lookup_writtenAt {generation : String} {location : Location} (name : String) :
    (writtenAt generation location content files).lookup name =
      if location = .generation generation name then some content else files.lookup name := by
  cases location with
  | root name' => rfl
  | outside path => rfl
  | generation generation' name' =>
    simp only [writtenAt, Location.generation.injEq]
    rcases eq_or_ne generation' generation with rfl | hother
    · rw [if_pos rfl]
      rcases eq_or_ne name' name with rfl | hname
      · rw [if_pos ⟨rfl, rfl⟩, AList.lookup_insert]
      · rw [if_neg fun h => hname h.2, AList.lookup_insert_ne hname.symm]
    · rw [if_neg hother, if_neg fun h => hother h.1]

theorem Request.evidenceAt_name (h : request.evidenceAt = .generation generation name) :
    name = "run.evidence.json" := by
  rw [Request.evidenceAt] at h
  cases hplace : request.evidencePath.getD (.generation request.generationId) <;>
    rw [hplace] at h <;> cases h
  rfl

theorem Request.ledgerAt_name (h : request.ledgerAt = .generation generation name) :
    name = operationLedger := by
  rw [Request.ledgerAt] at h
  cases hplace : request.ledgerAnchor.getD (.generation request.generationId) <;>
    rw [hplace] at h
  · cases h
    rfl
  · cases h
  · cases hdirectory : request.ledgerDirectory <;> rw [hdirectory] at h <;> cases h

/-- Over a true manifest, another directory is as listed where the hashes are the same. -/
theorem Manifest.Lists.iff_same (h : manifest.Lists digests files) (files' : Files) :
    manifest.Lists digests files' ↔ ∀ name, name ≠ generationJson →
      (files'.lookup name).map digests.fileSha256 =
        (files.lookup name).map digests.fileSha256 := by
  constructor
  · intro h' name hname
    refine Option.ext fun sha256 => ?_
    have hmem := (h name sha256).symm.trans (h' name sha256)
    simpa [hname] using hmem.symm
  · intro hsame name sha256
    rw [h name sha256]
    exact and_congr_right fun hname => by rw [hsame name hname]

section Selected

variable {request : Request} {pointer : Pointer} {outcome : RunOutcome}

theorem lookup_listedFiles (hname : name ≠ generationJson) :
    (listedFiles digests request pointer outcome).lookup name = outcome.files.lookup name := by
  rw [listedFiles, AList.lookup_insert_ne hname]

/-- A directory with the manifest of the listed files verifies where it is as these are. -/
theorem verifies_iff_same (hmanifest : files.lookup generationJson =
      (listedFiles digests request pointer outcome).lookup generationJson) :
    Verifies digests files ↔ ∀ name, name ≠ generationJson →
      (files.lookup name).map digests.fileSha256 =
        (outcome.files.lookup name).map digests.fileSha256 := by
  rw [listedFiles, AList.lookup_insert] at hmanifest
  rw [← (generationManifest_lists digests).iff_same, Verifies, hmanifest]
  exact ⟨fun ⟨_, heq, h⟩ => Content.manifest.inj (Option.some.inj heq) ▸ h, fun h => ⟨_, rfl, h⟩⟩

theorem verifies_selectedFiles_iff :
    Verifies digests (selectedFiles digests request pointer outcome) ↔
      EvidenceListed digests request outcome := by
  have hmanifest : (selectedFiles digests request pointer outcome).lookup generationJson =
      (listedFiles digests request pointer outcome).lookup generationJson := by
    rw [selectedFiles, lookup_writtenAt, if_neg]
    exact fun h => absurd (Request.evidenceAt_name h) (by decide)
  rw [verifies_iff_same hmanifest, EvidenceListed]
  refine forall_congr' fun name => ?_
  rw [selectedFiles, lookup_writtenAt]
  constructor
  · intro h hat
    have hname : name ≠ generationJson := by
      rw [Request.evidenceAt_name hat]
      decide
    rw [← h hname, if_pos hat]
    rfl
  · intro h hname
    split
    · rename_i hat
      exact (h hat).symm
    · rw [lookup_listedFiles hname]

theorem verifies_concluded_iff {before : Option Content}
    (hbefore : ∀ name, request.ledgerAt = .generation request.generationId name →
      before = (selectedFiles digests request pointer outcome).lookup name) :
    Verifies digests (writtenAt request.generationId request.ledgerAt
      (request.ledgerContent outcome before) (selectedFiles digests request pointer outcome)) ↔
      EvidenceListed digests request outcome ∧ LedgerListed digests request outcome := by
  have hmanifest : (writtenAt request.generationId request.ledgerAt
      (request.ledgerContent outcome before)
      (selectedFiles digests request pointer outcome)).lookup generationJson =
        (listedFiles digests request pointer outcome).lookup generationJson := by
    rw [lookup_writtenAt, if_neg fun h => absurd (Request.ledgerAt_name h) (by decide),
      selectedFiles, lookup_writtenAt,
      if_neg fun h => absurd (Request.evidenceAt_name h) (by decide)]
  rw [verifies_iff_same hmanifest, EvidenceListed, LedgerListed, ← forall_and]
  refine forall_congr' fun name => ?_
  rw [lookup_writtenAt, selectedFiles, lookup_writtenAt]
  have hapart : request.ledgerAt = .generation request.generationId name →
      request.evidenceAt ≠ .generation request.generationId name := by
    intro hledger hevidence
    have hname := (Request.ledgerAt_name hledger).symm.trans (Request.evidenceAt_name hevidence)
    exact absurd hname (by decide)
  have hnamed : (request.ledgerAt = .generation request.generationId name ∨
      request.evidenceAt = .generation request.generationId name) → name ≠ generationJson := by
    rintro (hat | hat)
    · rw [Request.ledgerAt_name hat]
      decide
    · rw [Request.evidenceAt_name hat]
      decide
  have hrow : request.ledgerAt = .generation request.generationId name →
      before = outcome.files.lookup name := by
    intro hat
    rw [hbefore name hat, selectedFiles, lookup_writtenAt, if_neg (hapart hat),
      lookup_listedFiles (hnamed (.inl hat))]
  by_cases hledger : request.ledgerAt = .generation request.generationId name
  · have hname := hnamed (.inl hledger)
    rw [if_pos hledger, hrow hledger, Option.map_some]
    exact ⟨fun h => ⟨fun hat => absurd hat (hapart hledger), fun _ => (h hname).symm⟩,
      fun h _ => (h.2 hledger).symm⟩
  · by_cases hevidence : request.evidenceAt = .generation request.generationId name
    · have hname := hnamed (.inr hevidence)
      simp only [if_neg hledger, if_pos hevidence, Option.map_some]
      exact ⟨fun h => ⟨fun _ => (h hname).symm, fun hat => absurd hat hledger⟩,
        fun h _ => (h.1 hevidence).symm⟩
    · simp only [if_neg hledger, if_neg hevidence]
      refine iff_of_true (fun hname => by rw [lookup_listedFiles hname])
        ⟨fun hat => absurd hat hevidence, fun hat => absurd hat hledger⟩

end Selected

theorem Gives.value {Q : α → Disk → Prop} (h : Gives P p Q) {disk : Disk} (hdisk : P disk)
    {fates : List Fate} {value : α} (hending : (p disk fates).ending = .returned value) :
    Q value (p disk fates).state := by
  have hends := h disk fates hdisk
  rw [hending] at hends
  exact hends

/-- When the pointer comes to select a generation, a check of it against its manifest finds nothing
exactly when the run evidence is not written into it, or as it is listed; once the mutation has
ended, exactly when the same holds of the ledger as well.  A check that has found nothing finds
every file that is altered or missing then. -/
theorem manifest_true_iff {request : Request} (hgeneration : request.generation = true)
    {pointer : Pointer} {start : Disk} {fates : List Fate} {m : Mutation}
    (h : (advance digests canonicalSource request pointer start fates).ending = .returned m) :
    ∃ outcome files, request.outcomeAt pointer start = some outcome ∧
      (advance digests canonicalSource request pointer start fates).state.generations.lookup
        request.generationId = some files ∧
      (Verifies digests files ↔ EvidenceListed digests request outcome) ∧
      (∀ fates' envelope ended, ended = conclude digests request m
          (advance digests canonicalSource request pointer start fates).state fates' →
        ended.ending = .returned envelope → ∃ files',
          ended.state.generations.lookup request.generationId = some files' ∧
          (Verifies digests files' ↔
            EvidenceListed digests request outcome ∧ LedgerListed digests request outcome)) ∧
      (Verifies digests files → ∀ name content, name ≠ generationJson →
        files.lookup name = some content → ¬ Verifies digests (files.erase name) ∧
          ∀ altered, digests.fileSha256 altered ≠ digests.fileSha256 content →
            ¬ Verifies digests (files.insert name altered)) := by
  obtain ⟨outcome, houtcome, hprepared⟩ := (gives_advance hgeneration).value rfl h
  refine ⟨outcome, _, houtcome, hprepared.files, verifies_selectedFiles_iff, ?_, ?_⟩
  · rintro fates' envelope ended rfl hended
    obtain ⟨before, hbefore, hfiles⟩ := gives_conclude.value hprepared hended
    exact ⟨_, hfiles, verifies_concluded_iff hbefore⟩
  · intro hverifies name content hname hcontent
    refine ⟨hverifies.not_erase hname hcontent, fun altered haltered hsame => ?_⟩
    have hsha := (hverifies.insert_iff hname).mp hsame
    rw [hcontent, Option.map_some, Option.some.injEq] at hsha
    exact haltered hsha.symm

end Manifest

/-! ## An edit with its evidence in the generation -/

def samplePointer : Pointer :=
  { generation := "gen-0", operationId := none, manifestSha256 := none, head := {} }

/-- The pointer selects the generation of an edit that no step has failed in, and a check of it
finds the evidence that the manifest does not list. -/
theorem plainEdit_unlisted : ∃ m files,
    (advance spelledDigests noSource plainEdit samplePointer sampleDisk []).ending = .returned m ∧
    (advance spelledDigests noSource plainEdit samplePointer sampleDisk []).state.pointer.map
      (·.generation) = some plainEdit.generationId ∧
    (advance spelledDigests noSource plainEdit samplePointer sampleDisk []).state.generations.lookup
      plainEdit.generationId = some files ∧ ¬ Verifies spelledDigests files := by
  have hgiven : (advance spelledDigests noSource plainEdit samplePointer sampleDisk
      []).ending.given.isSome := by
    decide +kernel
  obtain ⟨m, hm⟩ := Option.isSome_iff_exists.mp hgiven
  have hm := Ending.given_eq_some hm
  have hgeneration : plainEdit.generation = true := rfl
  obtain ⟨outcome, houtcome, hprepared⟩ := (gives_advance hgeneration).value rfl hm
  refine ⟨m, _, hm, by decide +kernel, hprepared.files, fun hverifies => ?_⟩
  have hlisted := verifies_selectedFiles_iff.mp hverifies "run.evidence.json" rfl
  have hnone : (plainEdit.outcomeAt samplePointer sampleDisk).bind
      (fun outcome => outcome.files.lookup "run.evidence.json") = none := by
    decide +kernel
  rw [houtcome, Option.bind_some] at hnone
  rw [hnone] at hlisted
  cases hlisted

/-- The same edit with its evidence and its ledger elsewhere. -/
def editElsewhere : Request :=
  { plainEdit with
    evidencePath := some (.outside { folder := "/out", fileName := "run.evidence.json" })
    ledgerAnchor := some .root }

theorem editElsewhere_listed : ∃ fates m outcome files,
    (advance spelledDigests noSource editElsewhere samplePointer sampleDisk fates).ending =
      .returned m ∧
    editElsewhere.outcomeAt samplePointer sampleDisk = some outcome ∧
    (advance spelledDigests noSource editElsewhere samplePointer sampleDisk
      fates).state.generations.lookup editElsewhere.generationId = some files ∧
    (Verifies spelledDigests files ↔ EvidenceListed spelledDigests editElsewhere outcome) := by
  have hgiven : (advance spelledDigests noSource editElsewhere samplePointer sampleDisk
      []).ending.given.isSome := by
    decide +kernel
  obtain ⟨m, hm⟩ := Option.isSome_iff_exists.mp hgiven
  obtain ⟨outcome, files, houtcome, hfiles, hiff, -⟩ :=
    manifest_true_iff rfl (Ending.given_eq_some hm)
  exact ⟨[], m, outcome, files, Ending.given_eq_some hm, houtcome, hfiles, hiff⟩

end Docx2Typed.Store
