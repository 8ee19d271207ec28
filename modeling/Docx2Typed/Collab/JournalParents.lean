import Docx2Typed.Collab.Steps

/-!
# The parents that journals name

A record of a journal names a generation together with its parent.  A mutation writes the one it
makes and the one it starts from; recovery repeats what it has read.  So a relation that holds of
all these pairs goes on to hold.
-/

namespace Docx2Typed.History

open Store
open Library (Fate Program)
open Library.Program

variable {related : String → String → Prop}

/-- Every record of every journal names a generation and a parent that are related. -/
def JournalsRelate (related : String → String → Prop) (disk : Disk) : Prop :=
  ∀ operationId journal phase record, disk.transactions.lookup operationId = some journal →
    journal phase = some (.record record) → RecordRelates related record

section

variable {disk : Disk} (h : JournalsRelate related disk)

include h

theorem JournalsRelate.writeRecord {operationId : String} {phase : Phase} {record : Record}
    (hrecord : RecordRelates related record) :
    JournalsRelate related (disk.writeRecord operationId phase record) := by
  intro operationId' journal phase' record' hlookup hrecord'
  simp only [Disk.writeRecord] at hlookup
  rcases eq_or_ne operationId' operationId with rfl | hne
  · rw [AList.lookup_insert, Option.some.injEq] at hlookup
    subst hlookup
    rcases eq_or_ne phase' phase with rfl | hphase
    · rw [Journal.write, Function.update_self] at hrecord'
      cases hrecord'
      exact hrecord
    · rw [Journal.write, Function.update_of_ne hphase, Disk.journal] at hrecord'
      cases hlies : disk.transactions.lookup operationId' with
      | none =>
        rw [hlies] at hrecord'
        cases hrecord'
      | some journal =>
        rw [hlies] at hrecord'
        exact h _ journal phase' record' hlies hrecord'
  · rw [AList.lookup_insert_ne hne] at hlookup
    exact h _ journal phase' record' hlookup hrecord'

theorem JournalsRelate.removeTransaction (operationId : String) :
    JournalsRelate related (disk.removeTransaction operationId) := by
  intro operationId' journal phase record hlookup hrecord
  rcases eq_or_ne operationId' operationId with rfl | hne
  · rw [Disk.removeTransaction, AList.lookup_erase] at hlookup
    cases hlookup
  · rw [Disk.removeTransaction, AList.lookup_erase_ne hne] at hlookup
    exact h _ journal phase record hlookup hrecord

/-- What is read of a journal stands in it. -/
theorem JournalsRelate.of_read {digests : Digests} {txName : String} {records : List Record}
    (hread : readPhasesSoft digests.semanticSha256 (disk.journal txName) = some records) :
    ∀ record ∈ records, RecordRelates related record := by
  intro record hmem
  have hok : readPhases digests.semanticSha256 (disk.journal txName) = .ok records := by
    cases hphases : readPhases digests.semanticSha256 (disk.journal txName) with
    | error error =>
      rw [readPhasesSoft, hphases] at hread
      cases hread
    | ok records' =>
      rw [readPhasesSoft, hphases] at hread
      rw [Option.some.inj hread]
  rw [← records_eq_of_read hok, Journal.records, List.mem_filterMap] at hmem
  obtain ⟨⟨phase, file⟩, hfile, heq⟩ := hmem
  obtain ⟨phase', -, hentry⟩ := List.mem_filterMap.mp hfile
  obtain ⟨file', hjournal, hpair⟩ := Option.map_eq_some_iff.mp hentry
  cases file with
  | unreadable => cases heq
  | record record' =>
    obtain ⟨-, rfl⟩ := Prod.mk.inj hpair
    obtain rfl := Option.some.inj heq
    cases hlies : disk.transactions.lookup txName with
    | none =>
      rw [Disk.journal, hlies] at hjournal
      cases hjournal
    | some journal =>
      rw [Disk.journal, hlies] at hjournal
      exact h _ journal phase' record' hlies hjournal

end

theorem journalsRelate_kept : Kept related (JournalsRelate related) where
  of_eq h _ _ _ htransactions operationId journal phase record hlookup hrecord :=
    h operationId journal phase record (htransactions ▸ hlookup) hrecord
  service h _ _ _ _ := h
  beginJournal h operationId operationId' journal phase record hlookup hrecord := by
    rcases eq_or_ne operationId' operationId with rfl | hne
    · rw [AList.lookup_insert, Option.some.injEq] at hlookup
      rw [← hlookup] at hrecord
      cases hrecord
    · rw [AList.lookup_insert_ne hne] at hlookup
      exact h _ journal phase record hlookup hrecord
  writeRecord h _ _ _ hrecord := h.writeRecord hrecord
  removeTransaction h operationId := h.removeTransaction operationId
  read h _ _ _ hread := h.of_read hread

/-! ## What journals come to name -/

section Programs

variable (digests : Digests) {start : Disk}

section

variable (hstart : JournalsRelate related start)

include hstart

/-- A mutation names the generation it makes, with the one that the pointer selects. -/
theorem journals_mutateSettled {canonicalSource : Files → Option TargetPath} {request : Request}
    (hrelated : ∀ pointer, start.pointer = some pointer →
      related request.generationId pointer.generation) (fates : List Fate) :
    JournalsRelate related (mutateSettled digests canonicalSource request start fates).state :=
  keeps_mutateSettled journalsRelate_kept digests hstart hrelated (fun _ _ h => h)
    (fun _ h => h) (fun _ _ h => h) fates

/-- Recovery names no pair that it has not read. -/
theorem journals_recoverTx {txName : String} (fates : List Fate) :
    JournalsRelate related (recoverTx digests txName start fates).state :=
  keeps_recoverTx journalsRelate_kept digests hstart (fun _ _ _ _ _ h => h) fates

theorem journals_gcAbandoned (fates : List Fate) :
    JournalsRelate related (gcAbandoned digests start fates).state :=
  keeps_gcAbandoned journalsRelate_kept digests hstart (fun _ _ h => h) fates

end

end Programs

/-- A prepared generation is rolled back where the pointer selects its parent. -/
theorem course_eq_rollBackPrepared {records : List Record} {pointer : Option String}
    {generation : String} (h : course records pointer = .rollBackPrepared generation) :
    pointer ≠ some generation ∧ ∃ prepared ∈ records,
      prepared.body.payload.generation = some generation ∧
        pointer = prepared.body.payload.parent := by
  unfold course at h
  split at h
  · cases h
  · split at h
    · cases h
    · dsimp only at h
      split at h
      · split at h
        · split at h <;> cases h
        · split at h <;> cases h
      · rename_i generation' hgeneration
        split at h
        · split at h <;> cases h
        · rename_i hne
          split at h
          · rename_i hparent
            cases h
            obtain ⟨prepared, hprepared, hnames⟩ := Option.bind_eq_some_iff.mp hgeneration
            rw [hprepared] at hparent
            exact ⟨hne, prepared, List.mem_of_find?_eq_some hprepared, hnames, hparent⟩
          · cases h

end Docx2Typed.History
