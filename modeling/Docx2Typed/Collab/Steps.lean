import Docx2Typed.Collab.History

/-!
# What the steps of the store keep

The phases of a mutation and the ways of recovery write files of their own into generations, write
and remove journals, and change what else is on the disk.  A property that each of these steps
keeps is kept by the programs they make up, wherever these stop.  Apart from them stand the steps
that make or remove a generation and those that move the pointer.

A record of a journal names a generation together with its parent; what holds of the pairs that a
mutation makes and recovery reads holds of the pairs that they write.
-/

namespace Docx2Typed.History

open Store
open Library (Fate Program)
open Library.Program

/-- Generation and parent of a record are related. -/
def RecordRelates (related : String → String → Prop) (record : Record) : Prop :=
  ∀ generation parent, record.body.payload.generation = some generation →
    record.body.payload.parent = some parent → related generation parent

/-- The property is kept by the steps that any phase may take, where the records that they write
are related; and those that are read are. -/
structure Kept (related : String → String → Prop) (I : Disk → Prop) : Prop where
  of_eq : ∀ {disk : Disk}, I disk → ∀ {disk' : Disk}, disk'.pointer = disk.pointer →
    disk'.generations = disk.generations → disk'.transactions = disk.transactions → I disk'
  service : ∀ {disk : Disk}, I disk → ∀ generation name content, name ∈ serviceFiles →
    I (disk.writeFile (.generation generation name) content)
  beginJournal : ∀ {disk : Disk}, I disk → ∀ operationId,
    I { disk with transactions := disk.transactions.insert operationId Journal.empty }
  writeRecord : ∀ {disk : Disk}, I disk → ∀ operationId phase record,
    RecordRelates related record → I (disk.writeRecord operationId phase record)
  removeTransaction : ∀ {disk : Disk}, I disk → ∀ operationId,
    I (disk.removeTransaction operationId)
  read : ∀ {disk : Disk}, I disk → ∀ (digests : Digests) txName records,
    readPhasesSoft digests.semanticSha256 (disk.journal txName) = some records →
      ∀ record ∈ records, RecordRelates related record

variable {m : Mutation} {start : Disk}

section Steps

variable {related : String → String → Prop} {I : Disk → Prop} (hI : Kept related I)

include hI

theorem Kept.evidence {disk : Disk} (h : I disk) (place : Place) (content : Content) :
    I (disk.writeFile (evidenceLocation place) content) := by
  cases place with
  | generation generation => exact hI.service h generation _ content (by decide)
  | root => exact hI.of_eq h rfl rfl rfl
  | outside path => exact hI.of_eq h rfl rfl rfl

theorem Kept.ledger {disk : Disk} (h : I disk) (envelope : Envelope) (canonical : String)
    (anchor : Place) (directory : Bool) :
    I (writeLedgerAt envelope canonical anchor directory disk) := by
  rw [writeLedgerAt]
  cases anchor with
  | generation generation => exact hI.service h generation _ _ (by decide)
  | root => exact hI.of_eq h rfl rfl rfl
  | outside path => cases directory <;> exact hI.of_eq h rfl rfl rfl

theorem Kept.onHoldings : OnHoldings I where
  of_eq h _ hpointer _ hgenerations htransactions _ _ _ :=
    hI.of_eq h hpointer hgenerations htransactions

theorem Kept.recoverable : Recoverable (fun generation parent => ∀ made parent',
    generation = some made → parent = some parent' → related made parent') I where
  of_eq h _ hpointer hgenerations htransactions _ _ _ :=
    hI.of_eq h hpointer hgenerations htransactions
  ledger h := hI.ledger h
  evidence h := hI.evidence h
  record h operationId record := hI.writeRecord h operationId .completed record
  transaction h := hI.removeTransaction h
  orphan _ _ _ _ h := by cases h
  read h := hI.read h

/-! ## Recovery -/

variable (digests : Digests)

/-- A recovery removes one generation at most: the prepared one that it rolls back. -/
theorem keeps_recoverTx {txName : String} (hstart : I start) (hremove : ∀ records generation,
      readPhasesSoft digests.semanticSha256 (start.journal txName) = some records →
        course records (start.pointer.map (·.generation)) = .rollBackPrepared generation →
          ∀ disk, I disk → I (disk.removeGeneration generation)) (fates : List Fate) :
    I (recoverTx digests txName start fates).state :=
  (meets_recoverTx hI.recoverable digests hstart hremove).left rfl fates

/-- A collection removes generations, and staging directories. -/
theorem keeps_gcAbandoned (hstart : I start)
    (hremove : ∀ disk generation, I disk → I (disk.removeGeneration generation)) (fates : List Fate)
    : I (gcAbandoned digests start fates).state :=
  (keeps_gcAbandoned_of_removes hI.recoverable digests hremove).left hstart fates

/-! ## Mutations -/

variable {canonicalSource : Files → Option TargetPath} {request : Request} {pointer : Pointer}

omit hI in
/-- The records of a mutation name its generation, or none, and where it starts from. -/
theorem relates_of_mutation (hm : related m.generationId m.current) {generation : Option String}
    (hgeneration : generation = m.generation ∨ generation = some m.generationId)
    (made parent : String) (hmade : generation = some made) (hparent : some m.current = some parent)
    : related made parent := by
  obtain rfl := Option.some.inj hparent
  have hid : made = m.generationId := by
    rcases hgeneration with rfl | rfl
    · unfold Mutation.generation at hmade
      split at hmade
      · exact (Option.some.inj hmade).symm
      · cases hmade
    · exact (Option.some.inj hmade).symm
  rw [hid]
  exact hm

theorem Kept.besideObjects : BesideObjects I where
  of_eq h _ hpointer _ := hI.of_eq h hpointer

theorem keeps_beginJournal : Keeps I (beginJournal digests m) := by
  refine keeps_bind keeps_look fun taken => keeps_ite keeps_fail ?_
  refine keeps_bind (keeps_act fun disk h => hI.beginJournal h _) fun _ =>
    keeps_act fun disk h => hI.writeRecord h _ _ _ fun _ _ hgeneration => ?_
  cases hgeneration

/-- The phases before the journal is prepared, where the new generation does not matter. -/
theorem meets_prepare (hrelated : related request.generationId pointer.generation)
    (hinsert : ∀ disk files, I disk →
      I { disk with generations := disk.generations.insert request.generationId files }) :
    Meets I (prepare digests canonicalSource request pointer)
      (fun m disk => I disk ∧ related m.generationId m.current) (fun _ => I) I := by
  have hcopy : Keeps I (copyGeneration request pointer) := by
    unfold copyGeneration
    refine keeps_ite (keeps_bind keeps_look fun parent => ?_) keeps_give
    split
    · exact keeps_fail
    · exact keeps_bind (keeps_act fun disk h => hinsert disk _ h) fun _ =>
        keeps_act fun disk h => hinsert disk _ h
  have hleave : ∀ disk outcome, I disk → I (leaveRun request outcome disk) := by
    intro disk outcome h
    cases hgeneration : request.generation with
    | false =>
      refine hI.of_eq h rfl ?_ rfl
      simp only [leaveRun, hgeneration, Bool.false_eq_true, if_false]
    | true =>
      refine hI.of_eq (hinsert disk outcome.files h) rfl ?_ rfl
      simp only [leaveRun, hgeneration, if_true]
  have hmanifest : Keeps I (writeManifest digests request pointer) := by
    unfold writeManifest
    refine keeps_ite (keeps_bind keeps_look fun files => ?_) keeps_give
    exact keeps_bind (keeps_act fun disk h => hI.service h _ _ _ (by decide)) fun _ => keeps_give
  refine meets_bind hcopy fun _ => meets_bind keeps_look fun files => ?_
  split
  · exact meets_fail fun _ h => h
  · rename_i outcome _
    refine meets_bind (R := fun _ => I) (keeps_act fun disk h => hleave disk outcome h) fun _ => ?_
    refine meets_bind (R := fun _ => I) keeps_look fun externals => ?_
    refine meets_bind (R := fun _ => I) keeps_look fun checked => ?_
    split
    · exact meets_fail fun _ h => h
    · refine meets_bind hmanifest fun manifestSha256 => ?_
      refine meets_bind (R := fun _ => I) (keeps_act fun disk h => hI.evidence h _ _) fun _ => ?_
      refine meets_bind (R := fun _ => I) (keeps_act fun _ h => hI.writeRecord h _ _ _ ?_) fun _ =>
        meets_give fun _ h => ⟨h, hrelated⟩
      exact relates_of_mutation hrelated (.inl rfl)

theorem meets_publishExternals (hm : related m.generationId m.current) :
    Meets I (publishExternals digests m)
      (fun m' disk => I disk ∧ related m'.generationId m'.current) (fun _ => I) I := by
  unfold publishExternals
  split
  · exact meets_give fun disk h => ⟨h, hm⟩
  · refine meets_bind (keeps_publishEach hI.onHoldings digests) fun published => ?_
    refine meets_bind (R := fun _ => I)
      (keeps_act fun disk h => hI.writeRecord h _ _ _ fun _ _ _ hparent => ?_) fun _ =>
        meets_give fun disk h => ⟨h, hm⟩
    cases hparent

theorem keeps_conclude (hm : related m.generationId m.current) :
    Keeps I (conclude digests request m) := by
  refine keeps_bind (keeps_act fun _ h =>
    hI.writeRecord h _ _ _ (relates_of_mutation hm (.inl rfl))) fun _ => ?_
  refine keeps_bind (keeps_act fun _ h => hI.ledger h _ _ _ _) fun _ => ?_
  exact keeps_close digests (fun _ _ h => hI.of_eq h rfl rfl rfl)
    (fun _ h => hI.writeRecord h _ _ _ (relates_of_mutation hm (.inl rfl)))
    (fun _ h => hI.removeTransaction h _) fun _ h => hI.of_eq h rfl rfl rfl

theorem keeps_abort {α : Type} {committed : Bool} {error : StoreError}
    (hrelated : related request.generationId pointer.generation)
    (hback : ∀ disk, I disk → I (disk.setPointer
      (pointerPayload digests disk.pointer pointer.generation ""
        (recordedAssetsSha256 disk pointer.generation) none)))
    (hremove : ∀ disk, I disk → I (disk.removeGeneration request.generationId)) :
    Keeps I (abort digests request pointer committed error : Program Disk StoreError α) := by
  have hbegun : related (begunMutation digests request pointer).generationId
      (begunMutation digests request pointer).current := hrelated
  exact keeps_abort_of digests (fun _ => hback) hremove (fun _ h => hI.of_eq h rfl rfl rfl)
    (fun _ h => hI.writeRecord h _ _ _ (relates_of_mutation hbegun (.inr rfl)))
    fun _ h => hI.removeTransaction h _

/-- What the new generation and the pointer do not matter to, a mutation keeps. -/
theorem keeps_mutateSettled (hstart : I start) (hrelated : ∀ pointer, start.pointer = some pointer →
      related request.generationId pointer.generation) (hinsert : ∀ disk files, I disk →
      I { disk with generations := disk.generations.insert request.generationId files })
    (hremove : ∀ disk, I disk → I (disk.removeGeneration request.generationId))
    (hpointer : ∀ disk pointer, I disk → I (disk.setPointer pointer)) (fates : List Fate) :
    I (mutateSettled digests canonicalSource request start fates).state := by
  have hall : Meets (fun disk => disk = start) (mutateSettled digests canonicalSource request)
      (fun _ => I) (fun _ => I) I := by
    refine meets_look_at ?_
    split
    · exact meets_fail fun disk h => h ▸ hstart
    · exact meets_give fun disk h => h ▸ hstart
    · rename_i pointer hadmitted
      have hpair := hrelated pointer (admission_pointer hadmitted)
      have habort : ∀ {α : Type} (committed : Bool) (error : StoreError),
          Keeps I (abort digests request pointer committed error : Program Disk StoreError α) :=
        fun committed error =>
          keeps_abort hI digests hpair (fun disk h => hpointer disk _ h) hremove
      suffices hkeeps : Keeps I _ from
        hkeeps.of_imp fun disk h => h ▸ hstart
      refine keeps_bind (keeps_beginJournal hI digests) fun _ => ?_
      refine meets_bind (R := fun m disk => I disk ∧ related m.generationId m.current) ?_
        fun m => meets_knowing fun hm => ?_
      · refine meets_handle (R := fun _ => I) ?_ fun error => ?_
        · refine meets_bind (meets_prepare hI digests hpair hinsert) fun prepared =>
            meets_knowing fun hprepared => ?_
          refine meets_bind (meets_publishExternals hI digests hprepared) fun m =>
            meets_knowing fun hm => ?_
          exact meets_bind (keeps_commitPointer hI.besideObjects digests fun disk _ _ h =>
            hpointer disk _ h) fun _ => meets_give fun _ h => ⟨h, hm⟩
        · have hfails : Fails (abort digests request pointer false error :
              Program Disk StoreError Mutation) := fails_abort digests
          exact (habort false error).fails hfails
      · exact keeps_handle (keeps_conclude hI digests hm) fun error => habort _ error
  exact hall.left rfl fates

end Steps

end Docx2Typed.History
