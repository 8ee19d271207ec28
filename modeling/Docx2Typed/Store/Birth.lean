import Docx2Typed.Store.Versions

/-!
# The birth of a store

`init` makes the store directory, copies the files of the root into a first generation, keeps a
journal of it, and writes the pointer; `ensure` opens a store where there is a store directory, and
calls `init` where there is none.  `init_interrupted_usable_iff`: when `init` is interrupted, the
calls behind it find a store that can be used, or none, exactly when the pointer had been written or
nothing had been done and the next call is not `recover`.  In between there is a store directory
without a pointer, which nothing removes and nothing completes.
-/

namespace Docx2Typed.Store

open Library (Program Fate)
open Library.Program

/-- A workdir: its path, whether there is a store directory in it and a directory of transactions
in that, and what they hold. -/
structure Site where
  path : String
  store : Bool
  transactions : Bool
  disk : Disk

/-- What a birth is called with, and the name it draws for its generation. -/
structure Birth where
  operationId : String
  inputSha256 : String
  generation : String
  deriving DecidableEq, Repr

def Site.on (f : Disk → Disk) (site : Site) : Site := { site with disk := f site.disk }

/-- A program of the store in the directory where the store lies. -/
def onDisk {α : Type} (p : Program Disk StoreError α) : Program Site StoreError α :=
  fun site fates =>
    let left := p site.disk fates
    ⟨left.ending, { site with disk := left.state }, left.fates⟩

/-- `create_dir_all` of the store directory. -/
def Site.makeStore (site : Site) : Site := { site with store := true }

/-- `remove_dir_all` of the store directory. -/
def Site.removeStore (site : Site) : Site :=
  { site with
    store := false
    transactions := false
    disk := { site.disk with
      generations := ∅, transactions := ∅, staging := ∅, blobs := ∅, trees := ∅, commits := ∅ } }

/-- The files that `copy_root_assets` copies. -/
def rootAssets (disk : Disk) : List (String × Content) :=
  (Table.names disk.root).filterMap fun name => (disk.root.lookup name).map (name, ·)

section Birth

variable (digests : Digests) (birth : Birth)

def birthIntent : Record :=
  journalRecord digests.semanticSha256 .intent
    { operationId := some birth.operationId, inputSha256 := some birth.inputSha256
      rest := [("expected_generation", "null"), ("kind", "birth")] }
    "genesis"

def birthPrepared (manifestSha256 : String) : Record :=
  journalRecord digests.semanticSha256 .prepared
    { operationId := some birth.operationId, generation := some birth.generation
      inputSha256 := some birth.inputSha256
      rest := [("manifest_sha256", manifestSha256), ("kind", "birth")] }
    (digests.semanticSha256 (birthIntent digests birth).body)

def birthCommitted (prepared : Record) : Record :=
  journalRecord digests.semanticSha256 .generationCommitted
    { operationId := some birth.operationId, generation := some birth.generation }
    (digests.semanticSha256 prepared.body)

def birthCompleted (committed : Record) : Record :=
  journalRecord digests.semanticSha256 .completed
    { operationId := some birth.operationId, generation := some birth.generation
      outcome := some "success", rest := [("kind", "birth")] }
    (digests.semanticSha256 committed.body)

/-- A step that changes what the directories hold. -/
def actOn (f : Disk → Disk) : Program Site StoreError Unit := act ioError (Site.on f)

/-- A step that leaves nothing behind that is read again: the probe, the reserve, `fsync`. -/
def touch : Program Site StoreError Unit := act ioError id

/-- The first generation: a copy of the root, and its manifest. -/
def writeFirst : Program Site StoreError Manifest := do
  actOn fun disk => { disk with generations := disk.generations.insert birth.generation ∅ }
  let assets ← look fun site => rootAssets site.disk
  each (fun asset =>
    actOn (Disk.writeFile (.generation birth.generation asset.1) asset.2)) assets
  let files ← look fun site => (site.disk.generations.lookup birth.generation).getD ∅
  let manifest := generationManifest digests files birth.generation none birth.operationId
    birth.inputSha256
  actOn (Disk.writeFile (.generation birth.generation generationJson) (.manifest manifest))
  touch
  give manifest

/-- The birth up to its pointer, behind the store directory. -/
def writeBirth : Program Site StoreError Record := do
  touch
  touch
  let manifest ← writeFirst digests birth
  act ioError fun site => { site.on fun disk => { disk with
    transactions := disk.transactions.insert birth.operationId Journal.empty } with
    transactions := true }
  actOn (Disk.writeRecord birth.operationId .intent (birthIntent digests birth))
  let prepared := birthPrepared digests birth manifest.assetsSha256
  actOn (Disk.writeRecord birth.operationId .prepared prepared)
  let previous ← look fun site => site.disk.pointer
  actOn (Disk.setPointer (pointerPayload digests previous birth.generation birth.operationId
    manifest.assetsSha256 none))
  give prepared

/-- The end of the journal. -/
def closeBirth (prepared : Record) : Program Site StoreError Unit := do
  let committed := birthCommitted digests birth prepared
  actOn (Disk.writeRecord birth.operationId .generationCommitted committed)
  actOn (Disk.writeRecord birth.operationId .completed (birthCompleted digests birth committed))

/-- The steps of `init`. -/
def bear : Program Site StoreError Unit := do
  act ioError Site.makeStore
  let prepared ← writeBirth digests birth
  closeBirth digests birth prepared
  attempt (Site.on (Disk.removeTransaction birth.operationId))

/-- `init`. -/
def init : Program Site StoreError Unit := do
  let present ← look Site.store
  if present then give ()
  else handle (bear digests birth) fun error => do
    attempt Site.removeStore
    fail error

/-- `open`. -/
def openStore : Program Site StoreError Unit := do
  let site ← look fun site => site
  if site.store = false then
    fail (.store storeInvalid ("not a store-backed workdir: " ++ site.path))
  else
    touch
    let pointer ← look fun site => site.disk.pointer
    if pointer.isNone then
      fail (.store storeInvalid
        ("store pointer is missing or corrupt: " ++ site.path ++ "/workdir.json"))
    else give ()

/-- `ensure`. -/
def ensure : Program Site StoreError Unit := do
  let present ← look Site.store
  if present then openStore else init digests birth

/-- `recover`: the lane is a file in the store directory, which is made for it. -/
def recoverSite : Program Site StoreError Summary := do
  act ioError Site.makeStore
  let present ← look Site.transactions
  if present then onDisk (recover digests) else give {}

end Birth

/-- The calls that may follow. -/
inductive StoreCall where
  | ensure (birth : Birth)
  | init (birth : Birth)
  | recover
  deriving DecidableEq, Repr

/-- What a call leaves that nothing disturbs. -/
def StoreCall.run (digests : Digests) (site : Site) : StoreCall → Site
  | .ensure birth => (Store.ensure digests birth site []).state
  | .init birth => (Store.init digests birth site []).state
  | .recover => (recoverSite digests site []).state

def runStoreCalls (digests : Digests) (calls : List StoreCall) (site : Site) : Site :=
  calls.foldl (StoreCall.run digests) site

/-! ## What the calls may find -/

/-- The manifest of a generation. -/
def manifestAt (disk : Disk) (generation : String) : Option Content :=
  (disk.generations.lookup generation).bind (·.lookup generationJson)

/-- There is no store directory, and nothing in one. -/
structure Site.NoStore (site : Site) : Prop where
  store : site.store = false
  transactionsDir : site.transactions = false
  generations : site.disk.generations = ∅
  transactions : site.disk.transactions = ∅

/-- The pointer selects a first generation, which is there. -/
def Site.Born (site : Site) : Prop :=
  ∃ pointer manifest, site.store = true ∧ site.disk.pointer = some pointer ∧
    manifestAt site.disk pointer.generation = some (.manifest manifest) ∧
      manifest.generation = pointer.generation ∧ manifest.parent = none ∧
        pointer.manifestSha256 = some manifest.assetsSha256

/-- There is no store, or one that can be used. -/
def Site.Usable (site : Site) : Prop := site.NoStore ∨ site.Born

/-- There is a store directory, and the pointer selects nothing in it. -/
def Site.Stillborn (site : Site) : Prop :=
  site.store = true ∧ ∀ pointer, site.disk.pointer = some pointer →
    manifestAt site.disk pointer.generation = none

variable {site : Site}

theorem Site.Stillborn.not_usable (h : site.Stillborn) : ¬site.Usable := by
  obtain ⟨hstore, hnone⟩ := h
  rintro (hno | ⟨pointer, manifest, -, hpointer, hmanifest, -⟩)
  · exact absurd hstore (by simp [hno.store])
  · rw [hnone pointer hpointer] at hmanifest
    cases hmanifest

/-! ## Recovery does not touch what the pointer selects -/

/-- The pointer, and the manifest of the generation that it selects. -/
def selected (disk : Disk) : Option (Pointer × Option Content) :=
  disk.pointer.map fun pointer => (pointer, manifestAt disk pointer.generation)

/-- The generation is not the one that is selected. -/
def NotSelected (seen : Option (Pointer × Option Content)) (generation : String) : Prop :=
  ∀ pointer manifest, seen = some (pointer, manifest) → pointer.generation ≠ generation

/-- A file that is not the manifest of a generation. -/
def Location.Spares (location : Location) : Prop :=
  ∀ generation, location ≠ .generation generation generationJson

theorem spares_ledgerLocation {anchor : Place} {directory : Bool} :
    (ledgerLocation anchor directory).Spares := by
  have hne : operationLedger ≠ generationJson := by decide
  intro generation h
  cases anchor with
  | generation name => exact hne (Location.generation.inj h).2
  | root => cases h
  | outside path =>
    rw [ledgerLocation] at h
    split at h <;> cases h

theorem spares_evidenceLocation {place : Place} : (evidenceLocation place).Spares := by
  intro generation h
  cases place with
  | generation name => exact absurd (Location.generation.inj h).2 (by decide)
  | root => cases h
  | outside path => cases h

variable {generation : String}

theorem manifestAt_of_lookup {disk disk' : Disk}
    (h : disk'.generations.lookup generation = disk.generations.lookup generation) :
    manifestAt disk' generation = manifestAt disk generation := by
  rw [manifestAt, manifestAt, h]

variable {content : Content}

variable {location : Location}

theorem manifestAt_writeFile (h : location.Spares) (disk : Disk) (generation : String) :
    manifestAt (disk.writeFile location content) generation = manifestAt disk generation := by
  cases location with
  | root name => rfl
  | outside path => rfl
  | generation written name =>
    have hname : generationJson ≠ name := fun heq => h written (heq ▸ rfl)
    by_cases hsame : generation = written
    · subst hsame
      change ((AList.insert generation (AList.insert name content
        ((disk.generations.lookup generation).getD ∅)) disk.generations).lookup
          generation).bind _ = (disk.generations.lookup generation).bind _
      rw [AList.lookup_insert, Option.bind_some, AList.lookup_insert_ne hname]
      cases disk.generations.lookup generation <;> rfl
    · exact manifestAt_of_lookup (AList.lookup_insert_ne hsame)

theorem selected_writeFile (h : location.Spares) (disk : Disk) :
    selected (disk.writeFile location content) = selected disk := by
  have hpointer : (disk.writeFile location content).pointer = disk.pointer := by
    cases location <;> rfl
  rw [selected, selected, hpointer]
  exact congrArg (disk.pointer.map ·) (funext fun pointer => by rw [manifestAt_writeFile h])

theorem selected_removeGeneration {disk : Disk} (h : NotSelected (selected disk) generation) :
    selected (disk.removeGeneration generation) = selected disk := by
  rw [selected, selected]
  cases hpointer : disk.pointer with
  | none => simp [Disk.removeGeneration, hpointer]
  | some pointer =>
    have hne : pointer.generation ≠ generation := h pointer _ (by rw [selected, hpointer]; rfl)
    have hlookup : manifestAt (disk.removeGeneration generation) pointer.generation =
        manifestAt disk pointer.generation :=
      manifestAt_of_lookup (AList.lookup_erase_ne hne)
    change disk.pointer.map _ = _
    rw [hpointer, Option.map_some, Option.map_some, hlookup]

section Seen

variable {digests : Digests} {seen : Option (Pointer × Option Content)}

theorem recoverable_selected : Recoverable (fun _ _ => True) (selected · = seen) where
  of_eq h _ hpointer hgenerations _ _ _ _ := by
    rw [← h, selected, selected, hpointer]
    refine congrArg (Option.map · _) (funext fun pointer => ?_)
    rw [manifestAt_of_lookup (congrArg (AList.lookup pointer.generation ·) hgenerations)]
  ledger h _ _ _ _ := (selected_writeFile spares_ledgerLocation _).trans h
  evidence h _ _ := (selected_writeFile spares_evidenceLocation _).trans h
  record h _ _ _ := h
  transaction h _ := h
  orphan _ := trivial
  read _ _ _ _ _ _ _ := trivial

theorem notSelected_of_rollBackPrepared {records : List Record} {disk : Disk}
    (hdisk : selected disk = seen)
    (h : course records (disk.pointer.map (·.generation)) = .rollBackPrepared generation) :
    NotSelected seen generation := by
  rintro pointer manifest rfl rfl
  rw [selected, Option.map_eq_some_iff] at hdisk
  obtain ⟨pointer', hpointer, heq⟩ := hdisk
  obtain ⟨rfl, -⟩ := Prod.mk.inj heq
  rw [hpointer, Option.map_some, course] at h
  grind

theorem keeps_selected_recoverTx {txName : String} :
    Keeps (selected · = seen) (recoverTx digests txName) := fun start fates hstart =>
  meets_recoverTx recoverable_selected digests hstart (fun _ _ _ hcourse _ hdisk =>
    (selected_removeGeneration (hdisk ▸ notSelected_of_rollBackPrepared hstart hcourse)).trans
      hdisk) start fates rfl

theorem keeps_selected_recover : Keeps (selected · = seen) (recover digests) := by
  refine keeps_andThen keeps_look fun names => ?_
  refine keeps_andThen (keeps_collect fun txName _ => keeps_selected_recoverTx) fun _ => ?_
  refine keeps_andThen ?_ fun _ => keeps_give
  refine meets_andThen (R := fun abandoned disk => selected disk = seen ∧
    ∀ generation ∈ abandoned, NotSelected seen generation)
    (meets_look fun disk hdisk => ⟨hdisk, ?_⟩) fun abandoned => meets_knowing fun habandoned => ?_
  · rintro generation hmem pointer manifest rfl rfl
    rw [selected, Option.map_eq_some_iff] at hdisk
    obtain ⟨pointer', hpointer, heq⟩ := hdisk
    obtain ⟨rfl, -⟩ := Prod.mk.inj heq
    have hnamed : pointer'.generation ∈ referenced digests disk := by
      rw [referenced, hpointer]
      exact List.mem_append_left _ List.mem_cons_self
    exact absurd hnamed (by simpa using (List.mem_filter.mp hmem).2)
  · refine keeps_andThen (meets_each fun generation hmem => ?_) fun _ => ?_
    · refine keeps_attempt fun disk hdisk => ?_
      subst hdisk
      exact selected_removeGeneration (habandoned generation hmem)
    · refine keeps_andThen keeps_look fun leftover => ?_
      exact keeps_andThen (keeps_each fun name => keeps_attempt fun _ h => h) fun _ =>
        keeps_give

end Seen

/-! ## The steps of a birth -/

section Steps

variable {digests : Digests} {birth : Birth} {start : Site}

/-- Before the pointer: it is the one that was there, and no other generation has come. -/
structure Midway (start : Site) (birth : Birth) (site : Site) : Prop where
  store : site.store = true
  pointer : site.disk.pointer = start.disk.pointer
  root : site.disk.root = start.disk.root
  others : ∀ generation ≠ birth.generation, site.disk.generations.lookup generation = none

theorem Midway.stillborn (h : Midway start birth site)
    (hnew : ∀ pointer, start.disk.pointer = some pointer → pointer.generation ≠ birth.generation) :
    site.Stillborn := by
  refine ⟨h.store, fun pointer hpointer => ?_⟩
  rw [manifestAt, h.others _ (hnew pointer (h.pointer.symm.trans hpointer)), Option.bind_none]

theorem Midway.writeRecord {operationId : String} {phase : Phase} {record : Record}
    (h : Midway start birth site) :
    Midway start birth (site.on (Disk.writeRecord operationId phase record)) :=
  ⟨h.store, h.pointer, h.root, h.others⟩

theorem Midway.writeFile {name : String} (h : Midway start birth site) : Midway start birth
      (site.on (Disk.writeFile (.generation birth.generation name) content)) :=
  ⟨h.store, h.pointer, h.root, fun generation hne =>
    (AList.lookup_insert_ne hne).trans (h.others generation hne)⟩

/-- The manifest of the first generation lies in it. -/
def HasFirst (birth : Birth) (manifest : Manifest) (site : Site) : Prop :=
  manifestAt site.disk birth.generation = some (.manifest manifest) ∧
    manifest.generation = birth.generation ∧ manifest.parent = none

theorem paces_touch {P : Site → Prop} (h : ∀ site, P site → Midway start birth site) :
    Paces P 1 touch (fun _ => P) (Midway start birth) :=
  paces_act (fun _ hsite => hsite) h

theorem paces_writeFirst :
    Paces (Midway start birth) ((rootAssets start.disk).length + 3) (writeFirst digests birth)
      (fun manifest site => Midway start birth site ∧ HasFirst birth manifest site)
      (Midway start birth) := by
  refine Paces.of_eq (n := 1 + (0 + ((rootAssets start.disk).length + (0 + (1 + (1 + 0)))))) ?_
    (by omega)
  refine paces_bind (R := fun _ => Midway start birth) (paces_act (fun site h => ?_)
    fun _ h => h) fun _ => ?_
  · exact ⟨h.store, h.pointer, h.root, fun generation hne =>
      (AList.lookup_insert_ne hne).trans (h.others generation hne)⟩
  refine paces_bind (R := fun assets site => Midway start birth site ∧
    assets = rootAssets start.disk) (paces_look fun site h => ⟨h, ?_⟩) fun assets =>
    paces_knowing fun hassets => ?_
  · rw [rootAssets, h.root, rootAssets]
  subst hassets
  refine paces_bind (paces_each fun asset => paces_act (fun _ h => h.writeFile) fun _ h => h)
    fun _ => ?_
  refine paces_bind (R := fun _ => Midway start birth) (paces_look fun _ h => h) fun files => ?_
  refine paces_bind (R := fun _ site => Midway start birth site ∧
    HasFirst birth (generationManifest digests files birth.generation none birth.operationId
      birth.inputSha256) site) (paces_act (fun site h => ⟨h.writeFile, ?_, rfl, rfl⟩)
        fun _ h => h) fun _ => ?_
  · change ((AList.insert birth.generation _ site.disk.generations).lookup
      birth.generation).bind _ = _
    rw [AList.lookup_insert, Option.bind_some, AList.lookup_insert]
  · exact paces_bind (paces_touch fun _ h => h.1) fun _ => paces_give fun _ h => h

/-- The steps behind the store directory, the one that writes the pointer included. -/
theorem paces_writeBirth (digests : Digests) (birth : Birth) (start : Site) :
    Paces (Midway start birth) ((rootAssets start.disk).length + 9) (writeBirth digests birth)
      (fun _ => Site.Born) (Midway start birth) := by
  refine Paces.of_eq
    (n := 1 + (1 + ((rootAssets start.disk).length + 3 + (1 + (1 + (1 + (0 + (1 + 0)))))))) ?_
    (by omega)
  refine paces_bind (paces_touch fun _ h => h) fun _ => ?_
  refine paces_bind (paces_touch fun _ h => h) fun _ => ?_
  refine paces_bind paces_writeFirst fun manifest => ?_
  refine paces_bind (R := fun _ site => Midway start birth site ∧ HasFirst birth manifest site)
    (paces_act (fun site h => ⟨⟨h.1.store, h.1.pointer, h.1.root, h.1.others⟩, h.2⟩)
      fun _ h => h.1) fun _ => ?_
  refine paces_bind (R := fun _ site => Midway start birth site ∧ HasFirst birth manifest site)
    (paces_act (fun site h => ⟨h.1.writeRecord, h.2⟩) fun _ h => h.1) fun _ => ?_
  refine paces_bind (R := fun _ site => Midway start birth site ∧ HasFirst birth manifest site)
    (paces_act (fun site h => ⟨h.1.writeRecord, h.2⟩) fun _ h => h.1) fun _ => ?_
  refine paces_bind (R := fun _ site => Midway start birth site ∧ HasFirst birth manifest site)
    (paces_look fun site h => h) fun previous => ?_
  refine paces_bind (R := fun _ => Site.Born) (paces_act (fun site h => ?_) fun _ h => h.1)
    fun _ => paces_give fun _ h => h
  exact ⟨_, manifest, h.1.store, rfl, h.2.1, h.2.2.1, h.2.2.2, rfl⟩

theorem Site.Born.made (h : site.Born) : site.store = true := by
  obtain ⟨_, _, hstore, -⟩ := h
  exact hstore

theorem Site.Born.of_selected {site site' : Site} (h : site.Born) (hstore : site'.store = true)
    (hselected : selected site'.disk = selected site.disk) : site'.Born := by
  obtain ⟨pointer, manifest, -, hpointer, hmanifest, hrest⟩ := h
  have hseen : selected site'.disk = some (pointer, some (.manifest manifest)) := by
    rw [hselected, selected, hpointer, Option.map_some, hmanifest]
  rw [selected, Option.map_eq_some_iff] at hseen
  obtain ⟨pointer', hpointer', heq⟩ := hseen
  obtain ⟨rfl, hmanifest'⟩ := Prod.mk.inj heq
  exact ⟨pointer', manifest, hstore, hpointer', hmanifest', hrest⟩

theorem Site.Stillborn.of_selected {site site' : Site} (h : site.Stillborn)
    (hstore : site'.store = true) (hselected : selected site'.disk = selected site.disk) :
    site'.Stillborn := by
  refine ⟨hstore, fun pointer hpointer => ?_⟩
  have hseen : selected site.disk = some (pointer, manifestAt site'.disk pointer.generation) := by
    rw [← hselected, selected, hpointer, Option.map_some]
  rw [selected, Option.map_eq_some_iff] at hseen
  obtain ⟨pointer', hpointer', heq⟩ := hseen
  obtain ⟨rfl, hmanifest⟩ := Prod.mk.inj heq
  rw [← hmanifest]
  exact h.2 pointer' hpointer'

theorem paces_closeBirth (digests : Digests) (birth : Birth) (prepared : Record) :
    Paces Site.Born 2 (closeBirth digests birth prepared) (fun _ => Site.Born) Site.Born := by
  refine Paces.of_eq (n := 1 + 1) ?_ rfl
  have hwrite : ∀ phase record (site : Site), site.Born →
      (site.on (Disk.writeRecord birth.operationId phase record)).Born :=
    fun _ _ site h => h.of_selected h.made rfl
  exact paces_bind (R := fun _ => Site.Born) (paces_act (fun site h => hwrite _ _ site h)
    fun _ h => h) fun _ => paces_act (fun site h => hwrite _ _ site h) fun _ h => h

end Steps

/-! ## A birth that is interrupted -/

/-- The process stops at a step, or before the clean-up behind a step that fails. -/
inductive Cuts : List Fate → Prop
  | stop (rest : List Fate) : Cuts (.stop :: rest)
  | fail (rest : List Fate) : Cuts (.fail :: .stop :: rest)

/-- The steps of `init` up to the one that writes the pointer. -/
def stepsToPointer (site : Site) : Nat := (rootAssets site.disk).length + 10

variable {P C : Site → Prop}

section Interrupted

variable {digests : Digests} {birth : Birth} {start : Site} {cut : List Fate}

/-- What a run leaves that does not come to its end, or that nobody cleans up behind. -/
def Halts (C : Site → Prop) (left : Library.Left Site StoreError Unit) : Prop :=
  C left.state ∧ ∀ error, left.ending = .failed error → ∃ rest, left.fates = .stop :: rest

theorem halts_of_paces {α : Type} {n taken : Nat} {Q : α → Site → Prop}
    {p : Program Site StoreError α} {f : α → Program Site StoreError Unit} (h : Paces P n p Q C)
    (hsite : P site) (hcut : Cuts cut) (hlt : taken < n) :
    Halts C ((p >>= f) site (List.replicate taken .done ++ cut)) := by
  obtain ⟨left, hleft, hruns⟩ := (h site hsite).2 taken hlt
  change Halts C (andThen p f site _)
  cases hcut with
  | stop rest =>
    obtain ⟨hstop, -⟩ := hruns rest
    rw [andThen]
    simp only [hstop]
    exact ⟨hleft, fun _ h => by cases h⟩
  | fail rest =>
    obtain ⟨-, error, hfail⟩ := hruns (.stop :: rest)
    rw [andThen]
    simp only [hfail]
    exact ⟨hleft, fun _ _ => ⟨rest, rfl⟩⟩

theorem midway_makeStore (hnone : start.NoStore) : Midway start birth start.makeStore :=
  ⟨rfl, rfl, rfl, fun generation _ => by
    change start.disk.generations.lookup generation = none
    rw [hnone.generations]
    rfl⟩

theorem born_attempt (h : site.Born) (fates : List Fate) :
    Halts Site.Born (attempt (Site.on (Disk.removeTransaction birth.operationId)) site fates) := by
  have hafter : (site.on (Disk.removeTransaction birth.operationId)).Born :=
    h.of_selected h.made rfl
  rcases fates with _ | ⟨fate, fates⟩
  · exact ⟨hafter, fun _ h => by cases h⟩
  · cases fate with
    | done => exact ⟨hafter, fun _ h => by cases h⟩
    | fail => exact ⟨h, fun _ h => by cases h⟩
    | stop => exact ⟨h, fun _ h => by cases h⟩

theorem Halts.weaken {C D : Site → Prop} {left : Library.Left Site StoreError Unit}
    (h : Halts C left) (hCD : ∀ site, C site → D site) : Halts D left :=
  ⟨hCD _ h.1, h.2⟩

/-- Enough steps take effect, and the next part goes on from what they have left. -/
theorem bind_passed {α : Type} {n taken : Nat} {Q : α → Site → Prop} {p : Program Site StoreError α}
    {f : α → Program Site StoreError Unit} (h : Paces P n p Q C) (hsite : P site) (hle : n ≤ taken)
    (cut : List Fate) :
    ∃ value left, Q value left ∧ (p >>= f) site (List.replicate taken .done ++ cut) =
      f value left (List.replicate (taken - n) .done ++ cut) := by
  obtain ⟨value, left, hleft, hpassed⟩ := h.passed hsite
  refine ⟨value, left, hleft, ?_⟩
  change andThen p f site _ = _
  simp only [andThen, hpassed taken hle cut]

/-- The end of the journal finds the store born and leaves it so. -/
theorem halts_closeBirth {prepared : Record} (h : site.Born) (hcut : Cuts cut) (taken : Nat) :
    Halts Site.Born ((closeBirth digests birth prepared >>= fun _ =>
      attempt (Site.on (Disk.removeTransaction birth.operationId))) site
        (List.replicate taken .done ++ cut)) := by
  by_cases hlt : taken < 2
  · exact halts_of_paces (paces_closeBirth digests birth prepared) h hcut hlt
  · obtain ⟨_, left, hleft, hrun⟩ := bind_passed (f := fun _ =>
      attempt (Site.on (Disk.removeTransaction birth.operationId)))
      (paces_closeBirth digests birth prepared) h (Nat.not_lt.mp hlt) cut
    rw [hrun]
    exact born_attempt hleft _

/-- What `init` leaves by the number of its steps that have taken effect. -/
theorem halts_bear (digests : Digests) (birth : Birth) (hnone : start.NoStore) (hcut : Cuts cut)
    (taken : Nat) :
    Halts (fun site => (taken = 0 → site = start) ∧
      (0 < taken → taken < stepsToPointer start → Midway start birth site) ∧
        (stepsToPointer start ≤ taken → site.Born))
      (bear digests birth start (List.replicate taken .done ++ cut)) := by
  cases taken with
  | zero =>
    have hstart : (0 = 0 → start = start) ∧ (0 < 0 → 0 < stepsToPointer start →
        Midway start birth start) ∧ (stepsToPointer start ≤ 0 → start.Born) :=
      ⟨fun _ => rfl, fun h => absurd h (lt_irrefl 0), fun h => by simp [stepsToPointer] at h⟩
    cases hcut with
    | stop rest => exact ⟨hstart, fun _ h => by cases h⟩
    | fail rest => exact ⟨hstart, fun _ _ => ⟨rest, rfl⟩⟩
  | succ taken =>
    have hmade : Midway start birth start.makeStore := midway_makeStore hnone
    change Halts _ ((writeBirth digests birth >>= fun prepared =>
      closeBirth digests birth prepared >>= fun _ =>
        attempt (Site.on (Disk.removeTransaction birth.operationId))) start.makeStore
          (List.replicate taken .done ++ cut))
    by_cases hlt : taken < (rootAssets start.disk).length + 9
    · have hhalts := halts_of_paces (f := fun prepared => closeBirth digests birth prepared >>=
        fun _ => attempt (Site.on (Disk.removeTransaction birth.operationId)))
        (paces_writeBirth digests birth start) hmade hcut hlt
      refine hhalts.weaken fun site hsite => ?_
      exact ⟨fun h => by omega, fun _ _ => hsite, fun h => by rw [stepsToPointer] at h; omega⟩
    · obtain ⟨prepared, left, hleft, hrun⟩ := bind_passed (f := fun prepared =>
        closeBirth digests birth prepared >>= fun _ =>
          attempt (Site.on (Disk.removeTransaction birth.operationId)))
        (paces_writeBirth digests birth start) hmade (Nat.not_lt.mp hlt) cut
      rw [hrun]
      refine (halts_closeBirth hleft hcut _).weaken fun site hsite => ?_
      exact ⟨fun h => by omega, fun _ h => by rw [stepsToPointer] at h; omega, fun _ => hsite⟩

theorem state_init (hnone : start.NoStore) {fates : List Fate} {C : Site → Prop}
    (h : Halts C (bear digests birth start fates)) :
    (Store.init digests birth start fates).state = (bear digests birth start fates).state := by
  have hinit : Store.init digests birth start fates = handle (bear digests birth) (fun error =>
      andThen (attempt Site.removeStore) fun _ => fail error) start fates := by
    rw [Store.init, look_bind, hnone.store]
    rfl
  rw [hinit, handle]
  cases hending : (bear digests birth start fates).ending with
  | returned value => rfl
  | stopped => rfl
  | failed error =>
    obtain ⟨rest, hrest⟩ := h.2 error hending
    simp only [hrest]
    rfl

end Interrupted

/-! ## The calls behind it -/

section Calls

variable {digests : Digests} {site : Site}

theorem state_openStore : (openStore site []).state = site := by
  rw [openStore, look_bind]
  split
  · rfl
  · change ((if site.disk.pointer.isNone then _ else _ : Program Site StoreError Unit) site
      []).state = site
    split <;> rfl

theorem selected_recoverSite (digests : Digests) (site : Site) :
    (recoverSite digests site []).state.store = true ∧
      selected (recoverSite digests site []).state.disk = selected site.disk := by
  change ((if site.transactions then onDisk (recover digests) else give {} :
    Program Site StoreError Summary) site.makeStore []).state.store = true ∧
      selected ((if site.transactions then onDisk (recover digests) else give {} :
        Program Site StoreError Summary) site.makeStore []).state.disk = selected site.disk
  split
  · exact ⟨rfl, Keeps.left keeps_selected_recover (rfl : selected site.disk = _) []⟩
  · exact ⟨rfl, rfl⟩

theorem StoreCall.run_of_store (digests : Digests) (call : StoreCall)
    (hstore : site.store = true) :
    (call.run digests site).store = true ∧
      selected (call.run digests site).disk = selected site.disk := by
  cases call with
  | ensure birth =>
    rw [StoreCall.run, Store.ensure, look_bind, hstore, if_pos rfl, state_openStore]
    exact ⟨hstore, rfl⟩
  | init birth =>
    rw [StoreCall.run, Store.init, look_bind, hstore, if_pos rfl]
    exact ⟨hstore, rfl⟩
  | recover => exact selected_recoverSite digests site

theorem born_runStoreCalls : ∀ (calls : List StoreCall) {site : Site}, site.Born →
    (runStoreCalls digests calls site).Born
  | [], _, h => h
  | call :: calls, site, h => by
    obtain ⟨hafter, hselected⟩ := call.run_of_store digests h.made
    exact born_runStoreCalls calls (h.of_selected hafter hselected)

theorem stillborn_runStoreCalls : ∀ (calls : List StoreCall) {site : Site}, site.Stillborn →
    (runStoreCalls digests calls site).Stillborn
  | [], _, h => h
  | call :: calls, site, h => by
    obtain ⟨hafter, hselected⟩ := call.run_of_store digests h.1
    exact stillborn_runStoreCalls calls (h.of_selected hafter hselected)

theorem born_init (hnone : site.NoStore) (birth : Birth) :
    (Store.init digests birth site []).state.Born := by
  have hhalts : Halts Site.Born (bear digests birth site []) := by
    obtain ⟨⟨prepared, left, hleft, hwritten⟩, -⟩ := paces_writeBirth digests birth
      site site.makeStore (midway_makeStore hnone)
    obtain ⟨⟨_, closed, hclosed, hrun⟩, -⟩ := paces_closeBirth digests birth
      prepared left hleft
    change Halts Site.Born ((andThen (writeBirth digests birth) fun prepared =>
      andThen (closeBirth digests birth prepared) fun _ =>
        attempt (Site.on (Disk.removeTransaction birth.operationId))) site.makeStore [])
    rw [andThen, hwritten [] (by simp)]
    simp only [List.drop_nil, andThen, hrun [] (by simp)]
    exact born_attempt hclosed []
  rw [state_init hnone hhalts]
  exact hhalts.1

/-- From a workdir without a store the first call decides. -/
theorem usable_runStoreCalls_iff (hnone : site.NoStore) (calls : List StoreCall) :
    (runStoreCalls digests calls site).Usable ↔ calls.head? ≠ some .recover := by
  cases calls with
  | nil => exact iff_of_true (.inl hnone) (by simp)
  | cons call calls =>
    cases call with
    | ensure birth =>
      have hensure : StoreCall.run digests site (.ensure birth) =
          (Store.init digests birth site []).state := by
        rw [StoreCall.run, Store.ensure, look_bind, hnone.store]
        rfl
      refine iff_of_true (.inr (born_runStoreCalls calls ?_)) (by simp)
      rw [hensure]
      exact born_init hnone birth
    | init birth =>
      exact iff_of_true (.inr (born_runStoreCalls calls (born_init hnone birth)))
        (by simp)
    | recover =>
      refine iff_of_false (Site.Stillborn.not_usable
        (stillborn_runStoreCalls calls ?_)) (by simp)
      obtain ⟨hmade, hselected⟩ := selected_recoverSite digests site
      have hempty : site.makeStore.Stillborn := by
        refine ⟨rfl, fun pointer _ => ?_⟩
        change (site.disk.generations.lookup _).bind _ = none
        rw [hnone.generations]
        rfl
      exact hempty.of_selected hmade hselected

end Calls

theorem stillborn_init {digests : Digests} {birth : Birth} {taken : Nat} {cut : List Fate}
    (hnone : site.NoStore)
    (hnew : ∀ pointer, site.disk.pointer = some pointer → pointer.generation ≠ birth.generation)
    (hcut : Cuts cut) (hpos : 0 < taken) (hlt : taken < stepsToPointer site) :
    (Store.init digests birth site (List.replicate taken .done ++ cut)).state.Stillborn := by
  have hhalts := halts_bear digests birth hnone hcut taken
  rw [state_init hnone hhalts]
  exact (hhalts.1.2.1 hpos hlt).stillborn hnew

/-- After an interrupted birth the calls behind it find no store or one that can be used exactly
when nothing had been done yet and they do not start with `recover`, or the pointer had been
written. -/
theorem init_interrupted_usable_iff (digests : Digests) (birth : Birth) (site : Site)
    (taken : Nat) (cut : List Fate) (calls : List StoreCall) (hnone : site.NoStore)
    (hnew : ∀ pointer, site.disk.pointer = some pointer → pointer.generation ≠ birth.generation)
    (hcut : Cuts cut) :
    (runStoreCalls digests calls (Store.init digests birth site
      (List.replicate taken .done ++ cut)).state).Usable ↔
        taken = 0 ∧ calls.head? ≠ some .recover ∨ stepsToPointer site ≤ taken := by
  have hhalts := halts_bear digests birth hnone hcut taken
  by_cases hpointer : stepsToPointer site ≤ taken
  · rw [state_init hnone hhalts]
    exact iff_of_true (.inr (born_runStoreCalls calls (hhalts.1.2.2 hpointer))) (.inr hpointer)
  · rcases Nat.eq_zero_or_pos taken with hzero | hpos
    · rw [state_init hnone hhalts, hhalts.1.1 hzero, usable_runStoreCalls_iff hnone]
      exact ⟨fun h => .inl ⟨hzero, h⟩, fun h => (h.resolve_right hpointer).2⟩
    · refine iff_of_false (Site.Stillborn.not_usable (stillborn_runStoreCalls calls
        (stillborn_init hnone hnew hcut hpos (Nat.not_le.mp hpointer)))) ?_
      rintro (⟨hzero, -⟩ | hle)
      · exact hpos.ne' hzero
      · exact hpointer hle

/-- A workdir with a draft and no store. -/
def bareSite : Site where
  path := "work"
  store := false
  transactions := false
  disk := { sampleDisk with pointer := none, generations := ∅ }

def firstBirth : Birth := { operationId := "op-0", inputSha256 := "", generation := "gen-0" }

theorem bareSite_noStore : bareSite.NoStore := ⟨rfl, rfl, rfl, rfl⟩

theorem bareSite_interrupted_usable :
    (runStoreCalls spelledDigests [.recover, .ensure firstBirth] (Store.init spelledDigests
      firstBirth bareSite (List.replicate 11 .done ++ [.stop])).state).Usable :=
  (init_interrupted_usable_iff spelledDigests firstBirth bareSite 11 [.stop] _ bareSite_noStore
    (fun _ h => by cases h) (.stop [])).mpr (.inr (by decide))

/-- Cut after the directory of its generation, the birth leaves a store that nothing opens. -/
theorem bareSite_interrupted_invalid :
    let site := runStoreCalls spelledDigests [.recover, .init firstBirth]
      (Store.init spelledDigests firstBirth bareSite (List.replicate 4 .done ++ [.stop])).state
    ¬site.Usable ∧ (ensure spelledDigests firstBirth site []).ending = .failed
      (.store storeInvalid "store pointer is missing or corrupt: work/workdir.json") := by
  refine ⟨(stillborn_runStoreCalls _ (stillborn_init bareSite_noStore (fun _ h => by cases h)
    (.stop []) (by decide) (by decide))).not_usable, ?_⟩
  decide +kernel

end Docx2Typed.Store
