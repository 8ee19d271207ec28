import Docx2Typed.Collab.Steps

/-!
# The directories of generations

What the store does to a generation that it has not just made: it writes its own files into it, or
removes the whole of it.  So a frame reads the same from it as long as it is there.

* `besides_mutateSettled`, `besides_recoverTx`, `besides_gcAbandoned`: all generations but the new
  one, the rolled back one, the abandoned ones.
* `meets_mutateSettled`: where the pointer has come to select the new generation, this is as the
  closure has left it.
-/

namespace Docx2Typed.History

open Store
open Library (Fate Program)
open Library.Program

/-! ## Reading the same -/

variable {files : Files}

theorem SameReading.refl : SameReading files files := fun _ _ => rfl

theorem SameReading.symm {files files' : Files} (h : SameReading files files') :
    SameReading files' files := fun name hname => (h name hname).symm

theorem SameReading.trans {files files' files'' : Files} (h : SameReading files files')
    (h' : SameReading files' files'') : SameReading files files'' :=
  fun name hname => (h name hname).trans (h' name hname)

theorem sameReading_insert {name : String} (hname : name ∈ serviceFiles) {content : Content} :
    SameReading files (files.insert name content) := by
  intro name' hname'
  have hne : name' ≠ name := fun h => hname' (h ▸ hname)
  rw [AList.lookup_insert_ne hne]

variable {generation : String}

theorem sameReading_writtenAt {location : Location}
    (hlocation : ∀ generation name, location = .generation generation name → name ∈ serviceFiles)
    {content : Content} : SameReading files (writtenAt generation location content files) := by
  cases location with
  | root name => exact .refl
  | outside path => exact .refl
  | generation generation' name =>
    rw [writtenAt]
    split
    · exact sameReading_insert (hlocation _ _ rfl)
    · exact .refl

/-! ## Properties of directories -/

/-- A property of the pointer and of what frames read from the generations. -/
structure OnReadings (I : Disk → Prop) : Prop where
  of_eq : ∀ {disk : Disk}, I disk → ∀ {disk' : Disk}, disk'.pointer = disk.pointer →
    disk'.generations = disk.generations → I disk'
  service : ∀ {disk : Disk}, I disk → ∀ generation name content, name ∈ serviceFiles →
    I (disk.writeFile (.generation generation name) content)

theorem OnReadings.kept {I : Disk → Prop} (hI : OnReadings I) : Kept (fun _ _ => True) I where
  of_eq h _ hpointer hgenerations _ := hI.of_eq h hpointer hgenerations
  service := hI.service
  beginJournal h _ := hI.of_eq h rfl rfl
  writeRecord h _ _ _ _ := hI.of_eq h rfl rfl
  removeTransaction h _ := hI.of_eq h rfl rfl
  read _ _ _ _ _ _ _ _ _ _ _ := trivial

/-! ## The other generations -/

/-- All generations but those that may go are still there and read the same; one that was not there
holds nothing that a frame reads. -/
def Besides (gone : String → Prop) (start disk : Disk) : Prop :=
  ∀ generation, ¬ gone generation →
    ((start.generations.lookup generation).isSome →
      (disk.generations.lookup generation).isSome) ∧
    ∀ files, disk.generations.lookup generation = some files →
      SameReading ((start.generations.lookup generation).getD ∅) files

variable {canonicalSource : Files → Option TargetPath} {disk : Disk} {txName : String}

section Besides

variable {gone : String → Prop} {start : Disk}

theorem besides_self : Besides gone start start :=
  fun generation _ => ⟨fun h => h, fun files h => by rw [h]; exact .refl⟩

theorem onReadings_besides : OnReadings (Besides gone start) where
  of_eq h disk' _ hgenerations generation hgone := by
    rw [hgenerations]
    exact h generation hgone
  service {disk} h generation name content hname generation' hgone := by
    obtain ⟨hthere, hsame⟩ := h generation' hgone
    simp only [Disk.writeFile]
    rcases eq_or_ne generation' generation with rfl | hne
    · rw [AList.lookup_insert]
      refine ⟨fun _ => rfl, fun files hfiles => ?_⟩
      obtain rfl := Option.some.inj hfiles
      refine SameReading.trans ?_ (sameReading_insert hname)
      cases hlies : disk.generations.lookup generation' with
      | some files => exact hsame files hlies
      | none =>
        have hnone : start.generations.lookup generation' = none := by
          rw [hlies] at hthere
          exact Option.not_isSome_iff_eq_none.mp fun h => absurd (hthere h) (by simp)
        rw [hnone]
        exact .refl
    · rw [AList.lookup_insert_ne hne]
      exact ⟨hthere, hsame⟩

theorem besides_of_ne (h : Besides gone start disk) (hgone : gone generation) (disk' : Disk)
    (hsame : ∀ other, other ≠ generation →
      disk'.generations.lookup other = disk.generations.lookup other) :
    Besides gone start disk' := by
  intro other hother
  rw [hsame other fun heq => hother (heq ▸ hgone)]
  exact h other hother

variable (digests : Digests)

theorem besides_mutateSettled {request : Request} (fates : List Fate) :
    Besides (· = request.generationId) start
      (mutateSettled digests canonicalSource request start fates).state := by
  refine keeps_mutateSettled onReadings_besides.kept digests besides_self (fun _ _ => trivial)
    (fun disk files h => ?_) (fun disk h => ?_) (fun disk pointer h => ?_) fates
  · exact besides_of_ne h rfl
      { disk with generations := disk.generations.insert request.generationId files }
      fun other hne => AList.lookup_insert_ne hne
  · exact besides_of_ne h rfl (disk.removeGeneration request.generationId)
      fun other hne => AList.lookup_erase_ne hne
  · exact h

/-- The generation that the recovery of a transaction would remove. -/
def RollsBack (digests : Digests) (disk : Disk) (txName generation : String) : Prop :=
  ∃ records, readPhasesSoft digests.semanticSha256 (disk.journal txName) = some records ∧
    course records (disk.pointer.map (·.generation)) = .rollBackPrepared generation

theorem besides_recoverTx (fates : List Fate) :
    Besides (RollsBack digests start txName) start
      (recoverTx digests txName start fates).state := by
  refine keeps_recoverTx onReadings_besides.kept digests besides_self ?_ fates
  intro records generation hrecords hcourse disk h
  exact besides_of_ne h ⟨records, hrecords, hcourse⟩ (disk.removeGeneration generation)
    fun other hne => AList.lookup_erase_ne hne

theorem besides_gcAbandoned (fates : List Fate) :
    Besides (· ∉ referenced digests start) start (gcAbandoned digests start fates).state := by
  intro generation hgone
  rw [Store.keeps_gcAbandoned (not_not.mp hgone) fates]
  exact ⟨fun h => h, fun files h => by rw [h]; exact .refl⟩

/-- Whatever generations go, those that are there read as before, or hold nothing that a frame
reads; all but those that are made. -/
def Fades (made : String → Prop) (start disk : Disk) : Prop :=
  ∀ generation, ¬ made generation → ∀ files, disk.generations.lookup generation = some files →
    SameReading ∅ files ∨ ∃ before, start.generations.lookup generation = some before ∧
      SameReading before files

variable {made : String → Prop}

theorem fades_self : Fades made start start := fun _ _ files h => .inr ⟨files, h, .refl⟩

theorem onReadings_fades : OnReadings (Fades made start) where
  of_eq h disk' _ hgenerations generation hmade files hfiles :=
    h generation hmade files (hgenerations ▸ hfiles)
  service {disk} h generation name content hname generation' hmade files hfiles := by
    simp only [Disk.writeFile] at hfiles
    rcases eq_or_ne generation' generation with rfl | hne
    · rw [AList.lookup_insert, Option.some.injEq] at hfiles
      subst hfiles
      cases hlies : disk.generations.lookup generation' with
      | none => exact .inl (sameReading_insert hname)
      | some files =>
        refine (h generation' hmade files hlies).imp (·.trans (sameReading_insert hname)) ?_
        rintro ⟨before, hbefore, hsame⟩
        exact ⟨before, hbefore, hsame.trans (sameReading_insert hname)⟩
    · rw [AList.lookup_insert_ne hne] at hfiles
      exact h generation' hmade files hfiles

theorem fades_removeGeneration (h : Fades made start disk) (generation : String) :
    Fades made start (disk.removeGeneration generation) := by
  intro generation' hmade files hfiles
  rcases eq_or_ne generation' generation with rfl | hne
  · rw [Disk.removeGeneration, AList.lookup_erase] at hfiles
    cases hfiles
  · rw [Disk.removeGeneration, AList.lookup_erase_ne hne] at hfiles
    exact h generation' hmade files hfiles

theorem fades_mutateSettled {request : Request} (fates : List Fate) :
    Fades (· = request.generationId) start
      (mutateSettled digests canonicalSource request start fates).state := by
  refine keeps_mutateSettled onReadings_fades.kept digests fades_self (fun _ _ => trivial)
    (fun disk files h generation hmade files' hfiles' => ?_)
    (fun disk h => fades_removeGeneration h _) (fun _ _ h => h) fates
  rw [AList.lookup_insert_ne hmade] at hfiles'
  exact h generation hmade files' hfiles'

theorem fades_recoverTx (fates : List Fate) :
    Fades made start (recoverTx digests txName start fates).state :=
  keeps_recoverTx onReadings_fades.kept digests fades_self
    (fun _ generation _ _ _ h => fades_removeGeneration h generation) fates

theorem fades_gcAbandoned (fates : List Fate) :
    Fades made start (gcAbandoned digests start fates).state :=
  keeps_gcAbandoned onReadings_fades.kept digests fades_self
    (fun _ generation h => fades_removeGeneration h generation) fates

theorem onReadings_pointer {pointer : Option Pointer} :
    OnReadings fun disk => disk.pointer = pointer where
  of_eq h _ hpointer _ := hpointer.trans h
  service h _ _ _ _ := h

theorem pointer_recoverTx (fates : List Fate) :
    (recoverTx digests txName start fates).state.pointer = start.pointer := by
  have hkept : Kept (fun _ _ => True) fun disk => disk.pointer = start.pointer :=
    onReadings_pointer.kept
  exact keeps_recoverTx hkept digests rfl (fun _ _ _ _ _ h => h) fates

theorem pointer_gcAbandoned (fates : List Fate) :
    (gcAbandoned digests start fates).state.pointer = start.pointer := by
  have hkept : Kept (fun _ _ => True) fun disk => disk.pointer = start.pointer :=
    onReadings_pointer.kept
  exact keeps_gcAbandoned hkept digests rfl (fun _ _ h => h) fates

end Besides

/-! ## The new generation -/

variable {pointer : Pointer}

section New

variable {digests : Digests} {canonicalSource : Files → Option TargetPath} {request : Request}
  {start : Disk}

/-- The generation reads as the files that were left there, or as nothing. -/
def LeftAs (files : Files) (generation : String) (disk : Disk) : Prop :=
  ∀ files', disk.generations.lookup generation = some files' →
    SameReading files files' ∨ SameReading ∅ files'

/-- The pointer selects what it selected before, or the new generation as the closure left it. -/
def Came (request : Request) (start disk : Disk) : Prop :=
  disk.pointer.map (·.generation) = start.pointer.map (·.generation) ∨
    request.generation = true ∧ disk.pointer.map (·.generation) = some request.generationId ∧
      ∃ pointer outcome, start.pointer = some pointer ∧
        request.outcomeAt pointer start = some outcome ∧
          LeftAs outcome.files request.generationId disk

theorem LeftAs.writeFile (h : LeftAs files generation disk) (generation' name : String)
    (content : Content) (hname : name ∈ serviceFiles) :
    LeftAs files generation (disk.writeFile (.generation generation' name) content) := by
  intro files' hfiles'
  simp only [Disk.writeFile] at hfiles'
  rcases eq_or_ne generation generation' with rfl | hne
  · rw [AList.lookup_insert, Option.some.injEq] at hfiles'
    subst hfiles'
    cases hlies : disk.generations.lookup generation with
    | none => exact .inr (sameReading_insert hname)
    | some files' =>
      exact (h files' hlies).imp (·.trans (sameReading_insert hname))
        (·.trans (sameReading_insert hname))
  · rw [AList.lookup_insert_ne hne] at hfiles'
    exact h files' hfiles'

theorem onReadings_came : OnReadings (Came request start) where
  of_eq h disk' hpointer hgenerations := by
    rw [Came, hpointer]
    refine h.imp_right fun ⟨hmakes, hselects, pointer, outcome, hat, houtcome, hleft⟩ => ?_
    refine ⟨hmakes, hselects, pointer, outcome, hat, houtcome, ?_⟩
    rw [LeftAs, hgenerations]
    exact hleft
  service h generation name content hname := by
    refine h.imp_right fun ⟨hmakes, hselects, pointer, outcome, hat, houtcome, hleft⟩ => ?_
    exact ⟨hmakes, hselects, pointer, outcome, hat, houtcome, hleft.writeFile _ _ _ hname⟩

theorem keeps_abort_came {α : Type} (hpointer : start.pointer = some pointer) {committed : Bool}
    {error : StoreError} :
    Keeps (Came request start)
      (abort digests request pointer committed error : Program Disk StoreError α) := by
  refine keeps_abort onReadings_came.kept digests trivial (fun disk _ => ?_) fun disk h => ?_
  · left
    rw [hpointer]
    rfl
  · refine h.imp_right fun ⟨hmakes, hselects, pointer, outcome, hat, houtcome, _⟩ => ?_
    refine ⟨hmakes, hselects, pointer, outcome, hat, houtcome, fun files hfiles => ?_⟩
    rw [Disk.removeGeneration, AList.lookup_erase] at hfiles
    cases hfiles

/-- The pointer moves with the last step of the phases up to it. -/
theorem meets_advance_pointer (hmakes : request.generation = true) {pointer : Pointer} :
    Meets (fun disk : Disk => disk.pointer = some pointer)
      (advance digests canonicalSource request pointer)
      (fun _ disk => disk.pointer.map (·.generation) = some request.generationId)
      (fun _ disk => disk.pointer = some pointer) (fun disk => disk.pointer = some pointer) := by
  refine meets_bind (meets_prepare onReadings_pointer.kept digests trivial fun _ _ h => h)
    fun prepared => meets_knowing fun _ => ?_
  refine meets_bind (meets_publishExternals onReadings_pointer.kept digests trivial)
    fun m => meets_knowing fun _ => ?_
  refine meets_bind (R := fun _ disk => disk.pointer.map (·.generation) =
    some request.generationId) ?_ fun _ => meets_give fun _ h => h
  have hset : ∀ version, Meets (fun disk : Disk => disk.pointer = some pointer)
      (act ioError fun disk : Disk => disk.setPointer (pointerPayload digests disk.pointer
        request.generationId request.operationId m.manifestSha256 version))
      (fun _ disk => disk.pointer.map (·.generation) = some request.generationId)
      (fun _ disk => disk.pointer = some pointer) (fun disk => disk.pointer = some pointer) :=
    fun version => meets_act (fun _ _ => rfl) (fun _ h => h) fun _ h => h
  unfold commitPointer
  rw [if_pos hmakes]
  refine meets_bind (R := fun _ disk => disk.pointer = some pointer) (meets_look fun _ h => h)
    fun files => ?_
  split
  · exact meets_bind (keeps_recordVersion onReadings_pointer.kept.besideObjects digests) hset
  · exact meets_bind (meets_give fun _ h => h) hset

theorem leftAs_prepared {outcome : RunOutcome} {m : Mutation}
    (h : Prepared digests request pointer outcome m disk) :
    LeftAs outcome.files request.generationId disk := by
  intro files hfiles
  rw [h.files, Option.some.injEq] at hfiles
  subst hfiles
  left
  refine SameReading.trans (sameReading_insert (by decide)) (sameReading_writtenAt ?_)
  intro generation name hat
  rw [Request.evidenceAt_name hat]
  decide

/-- The phases up to the pointer leave it as it was, or on the new generation as the closure left
it. -/
theorem meets_advance_came (hmakes : request.generation = true) {begun : Disk}
    (hpointer : start.pointer = some pointer) (hbegun : begun.pointer = some pointer)
    (houtcome : request.outcomeAt pointer begun = request.outcomeAt pointer start) :
    Meets (fun disk => disk = begun) (advance digests canonicalSource request pointer)
      (fun _ => Came request start) (fun _ => Came request start) (Came request start) := by
  have hstays : ∀ disk : Disk, disk.pointer = some pointer → Came request start disk :=
    fun disk h => .inl (by rw [h, hpointer])
  rintro disk fates rfl
  have hmoves := @meets_advance_pointer digests canonicalSource request hmakes pointer disk fates
    hbegun
  have hgives := @gives_advance digests canonicalSource request hmakes pointer disk disk fates rfl
  cases hending : (advance digests canonicalSource request pointer disk fates).ending with
  | returned m =>
    rw [hending] at hmoves hgives
    obtain ⟨outcome, hat, hprepared⟩ := hgives
    exact .inr ⟨hmakes, hmoves, pointer, outcome, hpointer, houtcome ▸ hat,
      leftAs_prepared hprepared⟩
  | failed error =>
    rw [hending] at hmoves
    exact hstays _ hmoves
  | stopped =>
    rw [hending] at hmoves
    exact hstays _ hmoves

/-- What a mutation has made of the pointer, wherever it ends. -/
theorem came_mutateSettled (fates : List Fate) :
    Came request start (mutateSettled digests canonicalSource request start fates).state := by
  have hstays : ∀ disk : Disk, disk.pointer = start.pointer → Came request start disk :=
    fun disk h => .inl (by rw [h])
  have hall : Meets (fun disk => disk = start) (mutateSettled digests canonicalSource request)
      (fun _ => Came request start) (fun _ => Came request start) (Came request start) := by
    refine meets_look_at ?_
    split
    · exact meets_fail fun disk h => hstays disk (by rw [h])
    · exact meets_give fun disk h => hstays disk (by rw [h])
    · rename_i pointer hadmitted
      have hpointer : start.pointer = some pointer := admission_pointer hadmitted
      refine meets_bind (R := fun _ disk => disk.pointer = start.pointer ∧
        disk.generations = start.generations ∧ disk.root = start.root) ?_ fun _ => ?_
      · suffices hkeeps : Keeps (fun disk => disk.pointer = start.pointer ∧
            disk.generations = start.generations ∧ disk.root = start.root) (beginJournal digests
              (begunMutation digests request pointer)) from
          hkeeps.weaken (fun disk h => by rw [h]; exact ⟨rfl, rfl, rfl⟩) (fun _ _ h => h)
            (fun _ disk h => hstays disk h.1) fun disk h => hstays disk h.1
        refine keeps_bind keeps_look fun taken => keeps_ite keeps_fail ?_
        exact keeps_bind (keeps_act fun _ h => h) fun _ => keeps_act fun _ h => h
      · refine meets_of_start fun begun hbegun => ?_
        have hconclude : ∀ m, Keeps (Came request start)
            (handle (conclude digests request m) (abort digests request pointer
              request.generation)) := fun m =>
          keeps_handle (keeps_conclude onReadings_came.kept digests trivial) fun _ =>
            keeps_abort_came hpointer
        have hadvance : Meets (fun disk => disk = begun)
            (advance digests canonicalSource request pointer) (fun _ => Came request start)
            (fun _ => Came request start) (Came request start) := by
          cases hmakes : request.generation with
          | true =>
            refine meets_advance_came hmakes hpointer (hbegun.1.trans hpointer) ?_
            rw [Request.outcomeAt, Request.outcomeAt, hbegun.2.1, hbegun.2.2]
          | false =>
            suffices hkeeps : Keeps (fun disk => disk.pointer = start.pointer)
                (advance digests canonicalSource request pointer) from
              hkeeps.weaken (fun disk h => by rw [h, hbegun.1]) (fun _ => hstays)
                (fun _ => hstays) hstays
            refine meets_bind (meets_prepare onReadings_pointer.kept digests trivial
              fun _ _ h => h) fun prepared => meets_knowing fun _ => ?_
            refine meets_bind (meets_publishExternals onReadings_pointer.kept digests trivial)
              fun m => meets_knowing fun _ => keeps_bind ?_ fun _ => keeps_give
            unfold commitPointer
            rw [hmakes]
            exact keeps_give
        exact meets_bind (meets_handle hadvance fun _ => keeps_abort_came hpointer) hconclude
  exact hall.left rfl fates

end New

end Docx2Typed.History
