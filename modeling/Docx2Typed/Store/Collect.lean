import Docx2Typed.Store.Manifest

/-!
# What `gc_abandoned` deletes

What is live is worked out anew at every collection: from the pointer, if it can be read then, and
from the journals that can be read.  Readers hold generations that neither of them has to name.
-/

namespace Docx2Typed.Store

open Library (Program Fate Ending)
open Library.Program List

variable {generation : String} {start : Disk}

section Collect

variable (digests : Digests)

/-- The records of a journal as they lie there, whether they read as a chain or not. -/
def Journal.records (journal : Journal) : List Record :=
  (journal.files phaseOrder).filterMap fun file =>
    match file.2 with
    | .record record => some record
    | .unreadable => none

/-- The transaction has not come to its end. -/
def Journal.Unsettled (journal : Journal) : Prop := journal .completed = none

/-- A store with those who look at it: the generation that its pointer selects, or has last
selected, and those that readers have pinned and still read. -/
structure Watched where
  disk : Disk
  selected : Option String
  readers : List String

/-- The generations that an unsettled transaction may be rolled forward to, or back to while the
pointer does not select the one it prepared. -/
def MayRollTo (watched : Watched) (generation : String) : Prop :=
  ∃ operationId journal record, watched.disk.transactions.lookup operationId = some journal ∧
    journal.Unsettled ∧ record ∈ journal.records ∧
      (record.body.payload.generation = some generation ∨
        record.body.payload.parent = some generation ∧
          watched.selected ≠ record.body.payload.generation)

/-- What a collection must leave. -/
inductive Live (watched : Watched) (generation : String) : Prop
  | selected (h : watched.selected = some generation)
  | read (h : generation ∈ watched.readers)
  | pending (h : MayRollTo watched generation)

/-- The pointer that can be read now selects the generation. -/
def Selected (disk : Disk) (generation : String) : Prop :=
  disk.pointer.map (·.generation) = some generation

/-- A journal that can be read names the generation. -/
def Journaled (disk : Disk) (generation : String) : Prop :=
  ∃ operationId journal records record,
    disk.transactions.lookup operationId = some journal ∧
    readPhases digests.semanticSha256 journal = .ok records ∧ record ∈ records ∧
    record.body.payload.generation = some generation

variable {digests}

theorem mem_referenced {disk : Disk} :
    generation ∈ referenced digests disk ↔
      Selected disk generation ∨ Journaled digests disk generation := by
  rw [referenced, mem_append, Option.mem_toList]
  refine or_congr Iff.rfl ?_
  simp only [mem_flatMap, mem_filterMap, Table.names, mem_insertionSort, Journaled]
  constructor
  · rintro ⟨operationId, hkey, record, hrecord, hgeneration⟩
    obtain ⟨journal, hjournal⟩ :=
      Option.isSome_iff_exists.mp (AList.lookup_isSome.mpr (AList.mem_keys.mpr hkey))
    rw [Disk.journal, hjournal, Option.getD_some, readPhasesSoft] at hrecord
    cases hread : readPhases digests.semanticSha256 journal with
    | error error =>
      rw [hread] at hrecord
      cases hrecord
    | ok records =>
      rw [hread] at hrecord
      exact ⟨operationId, journal, records, record, hjournal, hread, hrecord, hgeneration⟩
  · rintro ⟨operationId, journal, records, record, hjournal, hread, hrecord, hgeneration⟩
    refine ⟨operationId, AList.mem_keys.mp (AList.lookup_isSome.mp (by rw [hjournal]; rfl)), record,
      ?_, hgeneration⟩
    rw [Disk.journal, hjournal, Option.getD_some, readPhasesSoft, hread]
    exact hrecord

/-! ## One collection -/

/-- Removing directories one after the other leaves those that are not listed. -/
theorem lookup_removeGenerations {files : Option Files} :
    ∀ {names : List String}, generation ∉ names →
      Keeps (fun disk : Disk => disk.generations.lookup generation = files)
        (each (fun name => attempt (Disk.removeGeneration name)) names :
          Program Disk StoreError Unit)
  | [], _ => keeps_give
  | name :: names, h => by
    rw [mem_cons, not_or] at h
    obtain ⟨hne, hnames⟩ := h
    refine keeps_andThen (keeps_attempt fun disk hdisk => ?_) fun _ =>
      lookup_removeGenerations hnames
    rw [Disk.removeGeneration, AList.lookup_erase_ne hne]
    exact hdisk

/-- A generation that something names survives the collection, wherever that stops. -/
theorem keeps_gcAbandoned (h : generation ∈ referenced digests start) (fates : List Fate) :
    (gcAbandoned digests start fates).state.generations.lookup generation =
      start.generations.lookup generation := by
  have hall : Meets (fun disk => disk = start) (gcAbandoned digests)
      (fun _ disk => disk.generations.lookup generation = start.generations.lookup generation)
      (fun _ disk => disk.generations.lookup generation = start.generations.lookup generation)
      (fun disk => disk.generations.lookup generation = start.generations.lookup generation) := by
    refine meets_andThen (R := fun abandoned disk =>
      disk.generations.lookup generation = start.generations.lookup generation ∧
        generation ∉ abandoned) (meets_look fun disk hdisk => ?_) fun abandoned =>
      meets_knowing fun habandoned => ?_
    · rw [hdisk]
      refine ⟨rfl, fun hmem => ?_⟩
      exact absurd h (by simpa using (mem_filter.mp hmem).2)
    · refine keeps_andThen (lookup_removeGenerations habandoned) fun _ => ?_
      refine keeps_andThen keeps_look fun leftover => ?_
      exact keeps_andThen (keeps_each fun name => keeps_attempt fun _ h => h) fun _ => keeps_give
  have hends := hall start fates rfl
  cases hending : (gcAbandoned digests start fates).ending <;>
    (rw [hending] at hends; exact hends)

/-- One that is not there does not come to be. -/
theorem absent_gcAbandoned (h : start.generations.lookup generation = none) (fates : List Fate) :
    (gcAbandoned digests start fates).state.generations.lookup generation = none := by
  refine (keeps_gcAbandoned_of_removal (I := fun disk => disk.generations.lookup generation = none)
    digests (fun disk name hdisk => ?_) fun _ _ h => h).left h fates
  rcases eq_or_ne generation name with rfl | hne
  · exact AList.lookup_erase _ _
  · rw [Disk.removeGeneration, AList.lookup_erase_ne hne, hdisk]

theorem each_removeGenerations {generation : String} :
    ∀ {names : List String} {disk : Disk},
      (generation ∈ names ∨ disk.generations.lookup generation = none) →
        ((each (fun name => attempt (Disk.removeGeneration name)) names :
          Program Disk StoreError Unit) disk []).state.generations.lookup generation = none
  | [], _, h => h.resolve_left not_mem_nil
  | name :: names, disk, h => by
    refine @each_removeGenerations generation names (disk.removeGeneration name) ?_
    rcases eq_or_ne generation name with rfl | hne
    · exact .inr (AList.lookup_erase _ _)
    · refine h.imp (fun h => (mem_cons.mp h).resolve_left hne) fun h => ?_
      rw [Disk.removeGeneration, AList.lookup_erase_ne hne, h]

theorem each_removeGenerations_ending : ∀ {names : List String} {disk : Disk},
    ((each (fun name => attempt (Disk.removeGeneration name)) names :
      Program Disk StoreError Unit) disk []).ending = .returned () ∧
    ((each (fun name => attempt (Disk.removeGeneration name)) names :
      Program Disk StoreError Unit) disk []).fates = []
  | [], _ => ⟨rfl, rfl⟩
  | name :: names, disk => @each_removeGenerations_ending names (disk.removeGeneration name)

/-- A generation that nothing names is gone once the collection has run through. -/
theorem gone_of_not_referenced (h : generation ∉ referenced digests start) :
    (gcAbandoned digests start []).state.generations.lookup generation = none := by
  set abandoned := start.generations.names.filter (· ∉ referenced digests start) with habandoned
  have hnone : generation ∈ abandoned ∨ start.generations.lookup generation = none := by
    cases hlies : start.generations.lookup generation with
    | none => exact .inr rfl
    | some files =>
      refine .inl (mem_filter.mpr ⟨?_, by simpa using h⟩)
      rw [Table.names, mem_insertionSort]
      exact AList.mem_keys.mp (AList.lookup_isSome.mp (by rw [hlies]; rfl))
  have hfirst := each_removeGenerations hnone
  obtain ⟨hending, hfates⟩ := @each_removeGenerations_ending abandoned start
  have hrest : ∀ {disk : Disk}, disk.generations.lookup generation = none →
      (andThen (look fun disk : Disk => disk.staging.names.filter (· ∉ disk.transactions.names))
        (fun leftover =>
          andThen (each (fun name => attempt (Disk.removeStaging name)) leftover) fun _ =>
            give { cleaned := abandoned.map ("generation/" ++ ·) ++
              leftover.map ("staging/" ++ ·) } : _ → Recovering Summary) disk
        []).state.generations.lookup generation = none := by
    intro disk hdisk
    have hkeeps : Keeps (fun disk : Disk => disk.generations.lookup generation = none)
        (andThen (look fun disk : Disk => disk.staging.names.filter (· ∉ disk.transactions.names))
          (fun leftover =>
            andThen (each (fun name => attempt (Disk.removeStaging name)) leftover) fun _ =>
              give { cleaned := abandoned.map ("generation/" ++ ·) ++
                leftover.map ("staging/" ++ ·) } : _ → Recovering Summary)) :=
      keeps_andThen keeps_look fun leftover =>
        keeps_andThen (keeps_each fun name => keeps_attempt fun _ h => h) fun _ => keeps_give
    exact hkeeps.left hdisk []
  have hsplit : gcAbandoned digests start [] =
      (andThen (each (fun name => attempt (Disk.removeGeneration name)) abandoned) fun _ =>
        (andThen (look fun disk : Disk => disk.staging.names.filter (· ∉ disk.transactions.names))
          (fun leftover =>
            andThen (each (fun name => attempt (Disk.removeStaging name)) leftover) fun _ =>
              give { cleaned := abandoned.map ("generation/" ++ ·) ++
                leftover.map ("staging/" ++ ·) } : _ → Recovering Summary))) start [] := rfl
  rw [hsplit, andThen, hending]
  dsimp only
  rw [hfates]
  exact hrest hfirst

/-- However many collections are cut short, and wherever, one that runs through then leaves the
generations that were named at first as they were, and no others. -/
theorem gcAbandoned_after (digests : Digests) (start : Disk) (cuts : List (List Fate))
    (generation : String) :
    (gcAbandoned digests (cuts.foldl (fun disk fates => (gcAbandoned digests disk fates).state)
        start) []).state.generations.lookup generation =
      if generation ∈ referenced digests start then start.generations.lookup generation
      else none := by
  induction cuts generalizing start with
  | nil =>
    split
    next h => exact keeps_gcAbandoned h []
    next h => exact gone_of_not_referenced h
  | cons fates cuts ih =>
    -- what is named is read off the pointer and the journals
    have hnamed : referenced digests (gcAbandoned digests start fates).state =
        referenced digests start :=
      (keeps_gcAbandoned_of_removal (I := fun disk => referenced digests disk =
        referenced digests start) digests (fun _ _ h => h) fun _ _ h => h).left rfl fates
    rw [foldl_cons, ih, hnamed]
    by_cases h : generation ∈ referenced digests start
    · rw [if_pos h, if_pos h, keeps_gcAbandoned h fates]
    · rw [if_neg h, if_neg h]

/-! ## What a collection spares -/

/-- The collection leaves what is live as it was, wherever it stops. -/
def Spares (digests : Digests) (watched : Watched) (fates : List Fate) : Prop :=
  ∀ generation, Live watched generation →
    (gcAbandoned digests watched.disk fates).state.generations.lookup generation =
      watched.disk.generations.lookup generation

/-- The pointer that can be read selects the generation, a journal that can be read names it, or it
is not there. -/
def Named (digests : Digests) (disk : Disk) (generation : String) : Prop :=
  Selected disk generation ∨ Journaled digests disk generation ∨
    disk.generations.lookup generation = none

/-- What a collection goes by accounts for what is live: the generation selected last is named,
those of the readers are, and so are those in the records of unsettled journals where these do not
read as a chain, and the parents to go back to. -/
structure Accounted (digests : Digests) (watched : Watched) : Prop where
  selected : ∀ generation, watched.selected = some generation →
    Named digests watched.disk generation
  readers : ∀ generation ∈ watched.readers, Named digests watched.disk generation
  unread : ∀ operationId journal record generation,
    watched.disk.transactions.lookup operationId = some journal → journal.Unsettled →
      Refused digests.semanticSha256 journal → record ∈ journal.records →
        record.body.payload.generation = some generation → Named digests watched.disk generation
  parents : ∀ operationId journal record generation,
    watched.disk.transactions.lookup operationId = some journal → journal.Unsettled →
      record ∈ journal.records → record.body.payload.parent = some generation →
        watched.selected ≠ record.body.payload.generation →
          Named digests watched.disk generation

theorem records_eq_of_read {journal : Journal} {records : List Record}
    (h : readPhases digests.semanticSha256 journal = .ok records) : journal.records = records := by
  have hfiles := (readPhases_eq_ok_iff.mp h).files_eq
  have hsplit : journal.records = ((journal.files phaseOrder).map Prod.snd).filterMap fun file =>
      match file with
      | .record record => some record
      | .unreadable => none := by
    rw [Journal.records, filterMap_map]
    rfl
  rw [hsplit, hfiles, filterMap_map]
  exact filterMap_some

/-- A collection spares what is live exactly when what it goes by accounts for it. -/
theorem spares_iff_accounted {watched : Watched} :
    (∀ fates, Spares digests watched fates) ↔ Accounted digests watched := by
  have hnamed : (∀ fates, Spares digests watched fates) →
      ∀ generation, Live watched generation → Named digests watched.disk generation := by
    intro h generation hlive
    by_cases href : generation ∈ referenced digests watched.disk
    · exact (mem_referenced.mp href).imp_right .inl
    · have hgone := gone_of_not_referenced href
      rw [h [] generation hlive] at hgone
      exact .inr (.inr hgone)
  constructor
  · intro h
    refine ⟨fun g hg => hnamed h g (.selected hg), fun g hg => hnamed h g (.read hg), ?_, ?_⟩
    · intro operationId journal record generation hlies hopen _ hmem hgeneration
      exact hnamed h generation (.pending ⟨operationId, journal, record, hlies, hopen, hmem,
        .inl hgeneration⟩)
    · intro operationId journal record generation hlies hopen hmem hparent hselected
      exact hnamed h generation (.pending ⟨operationId, journal, record, hlies, hopen, hmem,
        .inr ⟨hparent, hselected⟩⟩)
  · intro h fates generation hlive
    have hname : Named digests watched.disk generation := by
      cases hlive with
      | selected hg => exact h.selected generation hg
      | read hg => exact h.readers generation hg
      | pending hg =>
        obtain ⟨operationId, journal, record, hlies, hopen, hmem, hgeneration | hparent⟩ := hg
        · cases hread : readPhases digests.semanticSha256 journal with
          | ok records =>
            rw [records_eq_of_read hread] at hmem
            exact .inr (.inl ⟨operationId, journal, records, record, hlies, hread, hmem,
              hgeneration⟩)
          | error error =>
            exact h.unread operationId journal record generation hlies hopen ⟨error, hread⟩ hmem
              hgeneration
        · exact h.parents operationId journal record generation hlies hopen hmem hparent.1 hparent.2
    rcases hname with hselected | hjournaled | habsent
    · exact keeps_gcAbandoned (mem_referenced.mpr (.inl hselected)) fates
    · exact keeps_gcAbandoned (mem_referenced.mpr (.inr hjournaled)) fates
    · rw [habsent]
      exact absent_gcAbandoned habsent fates

/-! ## Runs -/

variable (digests) (canonicalSource : Files → Option TargetPath)

/-- What `mutate` does once it has settled what was pending. -/
def mutateSettled (request : Request) : Program Disk StoreError Envelope := do
  let admitted ← look fun disk => admission digests canonicalSource disk request
  match admitted with
  | .refuse error => fail error
  | .replay envelope => give envelope
  | .proceed pointer =>
    beginJournal digests (begunMutation digests request pointer)
    let m ← handle (advance digests canonicalSource request pointer)
      (abort digests request pointer false)
    handle (conclude digests request m) (abort digests request pointer request.generation)

theorem mutate_eq (request : Request) : mutate digests canonicalSource request =
    settlePending digests >>= fun _ => mutateSettled digests canonicalSource request := rfl

/-- What happens to a store that is watched.  A recovery is its transactions and the collection
after them; readers come and go in between, and the pointer may be lost and come back. -/
inductive Happening where
  | mutate (request : Request) (fates : List Fate)
  | settle (txName : String) (fates : List Fate)
  | collect (fates : List Fate)
  | pin
  | release (generation : String)
  | lost
  | found (pointer : Pointer)

/-- The pointer that is read now is the one selected last. -/
def Watched.after (watched : Watched) (disk : Disk) : Watched where
  disk := disk
  selected := (disk.pointer.map (·.generation)).or watched.selected
  readers := watched.readers

/-- `pin`: the generation that the pointer selects, if its manifest is there and is its own. -/
def pin (disk : Disk) : Option String :=
  disk.pointer.bind fun pointer =>
    match disk.readFile (.generation pointer.generation generationJson) with
    | some (.manifest manifest) =>
      if manifest.generation = pointer.generation then some pointer.generation else none
    | _ => none

def Watched.step (watched : Watched) : Happening → Watched
  | .mutate request fates =>
    watched.after (mutateSettled digests canonicalSource request watched.disk fates).state
  | .settle txName fates => watched.after (recoverTx digests txName watched.disk fates).state
  | .collect fates => watched.after (gcAbandoned digests watched.disk fates).state
  | .pin => { watched with readers := (pin watched.disk).toList ++ watched.readers }
  | .release generation => { watched with readers := watched.readers.erase generation }
  | .lost => { watched with disk := { watched.disk with pointer := none } }
  | .found pointer => watched.after { watched.disk with pointer := some pointer }

def Watched.run (watched : Watched) (happenings : List Happening) : Watched :=
  happenings.foldl (Watched.step digests canonicalSource) watched

/-- In every run whose collections go by what accounts for the live generations, every collection
spares these; and only such collections spare them wherever they stop. -/
theorem collections_spare_iff (watched : Watched) (happenings : List Happening) :
    (∀ before fates, before ++ [.collect fates] <+: happenings →
        ∀ fates', Spares digests (watched.run digests canonicalSource before) fates') ↔
      ∀ before fates, before ++ [.collect fates] <+: happenings →
        Accounted digests (watched.run digests canonicalSource before) :=
  ⟨fun h before fates hreached => spares_iff_accounted.mp (h before fates hreached),
    fun h before fates hreached => spares_iff_accounted.mpr (h before fates hreached)⟩

end Collect

/-! ## A pointer that cannot be read -/

/-- A store of one generation, which nobody reads. -/
def watchedSample : Watched where
  disk := sampleDisk
  selected := some "gen-0"
  readers := []

/-- An edit is committed, a reader pins its generation, and the pointer cannot be read for a
moment. -/
def editThenLost : List Happening := [.mutate plainEdit [], .pin, .lost]

/-- A collection at that moment deletes the generation that the pointer has selected last and the
reader still reads. -/
theorem editThenLost_deletes :
    "gen-1" ∈ (watchedSample.run spelledDigests noSource editThenLost).readers ∧
    ¬ Spares spelledDigests (watchedSample.run spelledDigests noSource editThenLost) [] := by
  have hread : "gen-1" ∈ (watchedSample.run spelledDigests noSource editThenLost).readers := by
    decide +kernel
  have hlies : ((watchedSample.run spelledDigests noSource
      editThenLost).disk.generations.lookup "gen-1").isSome := by
    decide +kernel
  have hunnamed : "gen-1" ∉ referenced spelledDigests
      (watchedSample.run spelledDigests noSource editThenLost).disk := by
    decide +kernel
  refine ⟨hread, fun hspares => ?_⟩
  rw [← hspares "gen-1" (.read hread), gone_of_not_referenced hunnamed] at hlies
  cases hlies

end Docx2Typed.Store
