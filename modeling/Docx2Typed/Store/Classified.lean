import Docx2Typed.Store.Publication

/-!
# What recovery says of every transaction

A transaction directory may hold any of its records, and any of them may be cut or altered.
`recover_classifies_iff`: recovery goes through all directories and says of each transaction that it
was rolled back, taken forward, settled or needs recovery, exactly when in no directory the records
can be read, are without `prepared`, and end with `external-published` or `generation-committed`.
There `roll_forward` panics, and the transactions behind it are never looked at.
-/

namespace Docx2Typed.Store

open Library (Program Fate)
open Library.Program List

section Classes

variable (digests : Digests)

/-- `roll_forward` is called on records among which is not the one it expects. -/
def LacksPrepared (journal : Journal) : Prop :=
  ∃ records last, readPhasesSoft digests.semanticSha256 journal = some records ∧
    records.getLast? = some last ∧ findPhase records .prepared = none ∧
      (last.hasPhase .externalPublished = true ∨ last.hasPhase .generationCommitted = true)

/-- The records of a journal; one that cannot be read has none. -/
def readRecords (journal : Journal) : List Record :=
  (readPhasesSoft digests.semanticSha256 journal).getD []

/-- The operations that a report on a transaction may name: that of its directory, and those of its
records. -/
def NamesOperation (txName : String) (journal : Journal) (operationId : String) : Prop :=
  operationId = txName ∨ operationId = "" ∨
    ∃ record ∈ readRecords digests journal, record.body.payload.operationId = some operationId

/-- What a summary says of a transaction. -/
inductive Classified (txName : String) (journal : Journal) (summary : Summary) : Prop
  | rolledBack : txName ∈ summary.rolledBack → Classified txName journal summary
  | rolledForward (prepared : Record) :
      findPhase (readRecords digests journal) .prepared = some prepared →
        (prepared.body.payload.operationId.getD "", "completed") ∈ summary.recovered →
          Classified txName journal summary
  | settled (completed : Record) :
      (readRecords digests journal).getLast? = some completed →
        completed.hasPhase .completed = true →
          (completed.body.payload.operationId.getD txName, "completed") ∈ summary.recovered →
            Classified txName journal summary
  | needsRecovery (operationId reason : String) :
      NamesOperation digests txName journal operationId →
        (operationId, reason) ∈ summary.needsRecovery → Classified txName journal summary

/-- Whatever of its steps fail, recovery comes to its end, and its summary is what it says of each
transaction and of what it cleaned. -/
def ClassifiesAll (disk : Disk) : Prop :=
  ∀ fates, Fate.stop ∉ fates → ∃ (own : String → Summary) (cleaned : Summary),
    (recover digests disk fates).ending =
        .returned (((disk.transactions.names.map own).foldr Summary.and {}).and cleaned) ∧
      ∀ txName ∈ disk.transactions.names,
        Classified digests txName (disk.journal txName) (own txName)

end Classes

variable {envelope : Option Envelope} {pointer : Option String} {prepared : Record}
  {record : Record} {records : List Record}

variable {completed : Record} {operationId : String}

section Rules

variable {digests : Digests} {txName : String} {journal : Journal}

theorem Classified.and_right {first second : Summary}
    (h : Classified digests txName journal second) :
    Classified digests txName journal (first.and second) := by
  cases h with
  | rolledBack h => exact .rolledBack (mem_append_right _ h)
  | rolledForward prepared hfind h =>
    exact .rolledForward prepared hfind (mem_append_right _ h)
  | settled completed hlast hphase h =>
    exact .settled completed hlast hphase (mem_append_right _ h)
  | needsRecovery operationId reason hnames h =>
    exact .needsRecovery operationId reason hnames (mem_append_right _ h)

theorem namesOperation_getD (h : record ∈ readRecords digests journal) :
    NamesOperation digests txName journal (record.body.payload.operationId.getD "") := by
  cases hid : record.body.payload.operationId with
  | none => exact .inr (.inl rfl)
  | some operationId => exact .inr (.inr ⟨record, h, hid⟩)

theorem namesOperation_getD_txName (h : record ∈ readRecords digests journal) :
    NamesOperation digests txName journal (record.body.payload.operationId.getD txName) := by
  cases hid : record.body.payload.operationId with
  | none => exact .inl rfl
  | some operationId => exact .inr (.inr ⟨record, h, hid⟩)

theorem namesOperation_recoveredOperation :
    NamesOperation digests txName journal (recoveredOperation (readRecords digests journal)) := by
  rw [recoveredOperation]
  cases hhead : (readRecords digests journal).head? with
  | none => exact .inr (.inl rfl)
  | some record => exact namesOperation_getD (mem_of_mem_head? hhead)

theorem classified_ambiguous {operationId reason : String}
    (h : NamesOperation digests txName journal operationId) :
    Classified digests txName journal (ambiguous operationId reason) :=
  .needsRecovery operationId reason h mem_cons_self

/-! ## The way of a transaction -/

theorem course_eq_panic_iff :
    course records pointer = .panic ↔ ∃ last, records.getLast? = some last ∧
      findPhase records .prepared = none ∧
        (last.hasPhase .externalPublished = true ∨ last.hasPhase .generationCommitted = true) := by
  rw [course]
  cases hlast : records.getLast? with
  | none => simp
  | some last =>
    by_cases hcompleted : last.hasPhase .completed = true
    · have hphase : last.body.phase = some Phase.completed.name := of_decide_eq_true hcompleted
      have hother : last.hasPhase .externalPublished = false ∧
          last.hasPhase .generationCommitted = false := by
        rw [Record.hasPhase, Record.hasPhase, hphase]
        exact ⟨by decide, by decide⟩
      simp [hcompleted, hother]
    · cases hprepared : findPhase records .prepared with
      | none =>
        simp only [hcompleted, Bool.false_eq_true, if_false, Option.bind_none, Bool.or_eq_true,
          Option.some.injEq, exists_eq_left', true_and]
        split
        · next h => simpa using h
        · next h =>
          refine iff_of_false ?_ h
          split <;> exact fun h => by cases h
      | some prepared =>
        simp only [hcompleted, Bool.false_eq_true, if_false, Option.bind_some]
        split
        · split
          · simp
          · split <;> simp
        · split
          · simp
          · split <;> simp

theorem lacksPrepared_iff (h : readPhasesSoft digests.semanticSha256 journal = some records) :
    LacksPrepared digests journal ↔ course records pointer = .panic := by
  rw [course_eq_panic_iff]
  constructor
  · rintro ⟨records', last, hread, hlast⟩
    obtain rfl := Option.some.inj (hread.symm.trans h)
    exact ⟨last, hlast⟩
  · rintro ⟨last, hlast⟩
    exact ⟨records, last, h, hlast⟩

/-! ## Programs that come to a value -/

/-- The program keeps what is known of the disk, and ends with a value of which something holds. -/
def Completes {α : Type} (I : Disk → Prop) (p : Recovering α) (R : α → Prop) : Prop :=
  Ends I p (fun value disk => I disk ∧ R value) fun _ _ => False

section Completes

variable {α β : Type} {I : Disk → Prop}

theorem completes_give {value : α} {R : α → Prop} (h : R value) : Completes I (give value) R :=
  ends_give fun _ hI => ⟨hI, h⟩

theorem completes_look {f : Disk → α} : Completes I (look f) fun _ => True :=
  ends_look fun _ hI => ⟨hI, trivial⟩

theorem completes_attempt {f : Disk → Disk} (h : ∀ disk, I disk → I (f disk)) :
    Completes I (attempt f) fun _ => True :=
  ends_attempt (fun disk hI => ⟨h disk hI, trivial⟩) fun _ hI => ⟨hI, trivial⟩

theorem completes_andThen {p : Recovering α} {f : α → Recovering β} {R : α → Prop} {S : β → Prop}
    (hp : Completes I p R) (hf : ∀ value, R value → Completes I (f value) S) :
    Completes I (andThen p f) S :=
  ends_andThen hp fun value => ends_knowing (hf value)

theorem completes_bind {p : Recovering α} {f : α → Recovering β} {R : α → Prop} {S : β → Prop}
    (hp : Completes I p R) (hf : ∀ value, R value → Completes I (f value) S) :
    Completes I (p >>= f) S :=
  completes_andThen hp hf

/-- What is looked up or attempted may be anything. -/
theorem completes_then {p : Recovering α} {f : α → Recovering β} {S : β → Prop}
    (hp : Completes I p fun _ => True) (hf : ∀ value, Completes I (f value) S) :
    Completes I (andThen p f) S :=
  completes_andThen hp fun value _ => hf value

theorem completes_handle {p : Recovering α} {h : StoreError → Recovering α} {R : α → Prop}
    (hp : Ends I p (fun value disk => I disk ∧ R value) fun _ => I)
    (hh : ∀ error, Completes I (h error) R) : Completes I (handle p h) R :=
  ends_handle hp hh

/-- A step that may fail, and a value behind it. -/
theorem ends_act_give {f : Disk → Disk} {value : α} {R : α → Prop}
    (hf : ∀ disk, I disk → I (f disk)) (h : R value) :
    Ends I (andThen (act ioError f) fun _ => give value)
      (fun value disk => I disk ∧ R value) fun _ => I :=
  ends_andThen (R := fun _ => I) (ends_act hf fun _ hI => hI) fun _ =>
    ends_give fun _ hI => ⟨hI, h⟩

theorem Completes.weaken {p : Recovering α} {R S : α → Prop} (h : Completes I p R)
    (hR : ∀ value, R value → S value) : Completes I p S :=
  Ends.weaken h (fun _ hI => hI) (fun value _ hvalue => ⟨hvalue.1, hR value hvalue.2⟩)
    fun _ _ hfalse => hfalse

end Completes

/-! ## One transaction among the others -/

/-- The transactions still to come are as they were. -/
def Awaiting (start : Disk) (rest : List String) (disk : Disk) : Prop :=
  ∀ name ∈ rest, disk.journal name = start.journal name

section Awaiting

variable {start disk : Disk} {rest : List String}

theorem Awaiting.of_transactions {disk' : Disk} (h : Awaiting start rest disk)
    (heq : disk'.transactions = disk.transactions) : Awaiting start rest disk' := by
  intro name hname
  rw [Disk.journal, heq]
  exact h name hname

theorem Awaiting.writeFile {location : Location} {content : Content}
    (h : Awaiting start rest disk) : Awaiting start rest (disk.writeFile location content) := by
  cases location <;> exact h.of_transactions rfl

theorem Awaiting.writeRecord {phase : Phase} (hnotMem : txName ∉ rest)
    (h : Awaiting start rest disk) :
    Awaiting start rest (disk.writeRecord txName phase record) := by
  intro name hname
  have hne : name ≠ txName := fun heq => hnotMem (heq ▸ hname)
  rw [← h name hname, Disk.journal, Disk.journal]
  exact congrArg (Option.getD · Journal.empty) (AList.lookup_insert_ne hne)

theorem Awaiting.removeTransaction (hnotMem : txName ∉ rest) (h : Awaiting start rest disk) :
    Awaiting start rest (disk.removeTransaction txName) := by
  intro name hname
  have hne : name ≠ txName := fun heq => hnotMem (heq ▸ hname)
  rw [← h name hname, Disk.journal, Disk.journal]
  exact congrArg (Option.getD · Journal.empty) (AList.lookup_erase_ne hne)

theorem ends_materializeRoot {files : Files} :
    Ends (Awaiting start rest) (materializeRoot files) (fun _ => Awaiting start rest)
      fun _ => Awaiting start rest := by
  refine ends_andThen (R := fun _ => Awaiting start rest) (ends_each fun name _ => ?_) fun _ =>
    ends_each fun name _ => ?_
  · split
    · exact ends_give fun _ h => h
    · split
      · exact ends_act (fun _ h => h.writeFile) fun _ h => h
      · exact ends_give fun _ h => h
  · split
    · exact ends_give fun _ h => h
    · refine ends_andThen (R := fun _ => Awaiting start rest) (ends_look fun _ h => h) fun _ => ?_
      split
      · exact ends_act (fun _ h => h.of_transactions rfl) fun _ h => h
      · exact ends_give fun _ h => h

theorem completes_rollBackExternals :
    Completes (Awaiting start rest) (rollBackExternals digests operationId records)
      fun _ => True := by
  have hexternal : ∀ external, Completes (Awaiting start rest)
      (rollBackExternal digests operationId external) fun _ => True := by
    intro external
    refine completes_then completes_look fun disk => ?_
    split
    · split
      · exact completes_give trivial
      · exact completes_handle (ends_act_give (fun _ h => h.of_transactions rfl) trivial) fun _ =>
          completes_give trivial
    · split
      · exact completes_handle (ends_act_give (fun _ h => h.of_transactions rfl) trivial) fun _ =>
          completes_give trivial
      · exact completes_give trivial
  have hcollect : ∀ externals, Completes (Awaiting start rest)
      (collect (rollBackExternal digests operationId) externals) fun _ => True := by
    intro externals
    induction externals with
    | nil => exact completes_give trivial
    | cons external externals ih =>
      exact completes_then (hexternal external) fun _ => completes_then ih fun _ =>
        completes_give trivial
  exact completes_then (hcollect _) fun _ =>
    completes_then (completes_attempt fun _ h => h.of_transactions rfl) fun _ =>
      completes_give trivial

theorem completes_rollBackGeneration (hnotMem : txName ∉ rest) {preparedGen : Option String} :
    Completes (Awaiting start rest) (rollBackGeneration digests txName preparedGen)
      fun summary => txName ∈ summary.rolledBack := by
  have hclose : Completes (Awaiting start rest) (do
      attempt (Disk.removeStaging txName)
      let prevHash ← look fun disk => lastHash digests.semanticSha256 (disk.journal txName)
      let completed := journalRecord digests.semanticSha256 .completed
        { operationId := some txName, outcome := some "rolled-back"
          generation := preparedGen } prevHash
      handle (act ioError (Disk.writeRecord txName .completed completed))
        fun _ => attempt (Disk.writeRecord txName .completed completed)
      attempt (Disk.removeTransaction txName)
      give { rolledBack := [txName] } : Recovering Summary)
        fun summary => txName ∈ summary.rolledBack := by
    refine completes_then (completes_attempt fun _ h => h.of_transactions rfl) fun _ => ?_
    refine completes_then completes_look fun prevHash => ?_
    refine completes_then (completes_handle ?_ fun _ =>
      completes_attempt fun _ h => h.writeRecord hnotMem) fun _ => ?_
    · exact ends_act (fun _ h => ⟨h.writeRecord hnotMem, trivial⟩) fun _ h => h
    · exact completes_then (completes_attempt fun _ h => h.removeTransaction hnotMem) fun _ =>
        completes_give mem_cons_self
  cases preparedGen with
  | none => exact hclose
  | some generation =>
    exact completes_then (completes_attempt fun _ h => h.of_transactions rfl) fun _ => hclose

/-- Half of a repair either goes through or is reported. -/
def RepairReported (operationId : String) (result : Option Summary × Summary) : Prop :=
  result.1 = none → ∃ reason, (operationId, reason) ∈ result.2.needsRecovery

theorem completes_repairLedger {operationId canonical : String} {anchor : Option Place}
    {directory : Bool} :
    Completes (Awaiting start rest) (repairLedger operationId canonical envelope anchor directory)
      (RepairReported operationId) := by
  unfold repairLedger
  split
  · refine completes_then completes_look fun record => ?_
    split
    · refine completes_handle (ends_act_give (fun _ h => h.writeFile) ?_) fun _ =>
        completes_give ?_
      · exact fun h => by cases h
      · exact fun _ => ⟨_, mem_cons_self⟩
    · exact completes_give fun h => by cases h
  · exact completes_give fun h => by cases h

theorem completes_repairEvidence {path : Option Place} :
    Completes (Awaiting start rest) (repairEvidence operationId envelope path)
      (RepairReported operationId) := by
  unfold repairEvidence
  split
  · refine completes_then completes_look fun content => ?_
    split
    · exact completes_give fun h => by cases h
    · refine completes_handle (ends_act_give (fun _ h => h.writeFile) ?_) fun _ =>
        completes_give ?_
      · exact fun h => by cases h
      · exact fun _ => ⟨_, mem_cons_self⟩
  · exact completes_give fun h => by cases h

theorem completes_repairSemanticResult {prepared completed : Option Record} :
    Completes (Awaiting start rest) (repairSemanticResult digests txName prepared completed)
      (RepairReported
        (((completed.or prepared).bind (·.body.payload.operationId)).getD txName)) := by
  refine completes_then completes_look fun records => completes_then completes_look fun anchor => ?_
  refine completes_bind completes_repairLedger fun ledger hledger => ?_
  split
  · exact completes_give hledger
  · refine completes_bind completes_repairEvidence fun evidence hevidence => ?_
    split
    · rename_i hnone
      obtain ⟨reason, hreason⟩ := hevidence hnone
      exact completes_give fun _ => ⟨reason, mem_append_right _ hreason⟩
    · exact completes_give fun h => by cases h

theorem completes_finishCommit (hnotMem : txName ∉ rest) {generation : Option String}
    (hprepared : findPhase (readRecords digests journal) .prepared = some prepared) :
    Completes (Awaiting start rest) (finishCommit digests txName prepared envelope generation)
      (Classified digests txName journal) := by
  have hmem : prepared ∈ readRecords digests journal := mem_of_find?_eq_some hprepared
  refine completes_bind completes_repairSemanticResult fun repaired hrepaired => ?_
  split
  · rename_i hnone
    obtain ⟨reason, hreason⟩ := hrepaired hnone
    exact completes_give (.needsRecovery _ reason (namesOperation_getD_txName hmem) hreason)
  · refine completes_then completes_look fun prevHash => ?_
    refine completes_then (completes_handle (ends_act_give (fun _ h => h.writeRecord hnotMem)
      trivial) fun _ => completes_give trivial) fun closed => ?_
    split
    · exact completes_give (classified_ambiguous (namesOperation_getD hmem)).and_right
    · refine completes_then completes_look fun changed => ?_
      refine completes_then (completes_handle ?_ fun _ =>
        completes_give trivial) fun registered => ?_
      · split
        · exact ends_act_give (fun _ h => h.of_transactions rfl) trivial
        · exact ends_give fun _ h => ⟨h, trivial⟩
      · split
        · exact completes_give (classified_ambiguous (namesOperation_getD hmem)).and_right
        · refine completes_then (completes_attempt fun _ h => h.removeTransaction hnotMem)
            fun _ => ?_
          exact completes_give
            (Classified.rolledForward prepared hprepared mem_cons_self).and_right

theorem completes_settleCompleted (hnotMem : txName ∉ rest)
    (hlast : (readRecords digests journal).getLast? = some completed)
    (hphase : completed.hasPhase .completed = true) :
    Completes (Awaiting start rest) (settleCompleted digests txName completed)
      (Classified digests txName journal) := by
  have hmem : completed ∈ readRecords digests journal := mem_of_getLast? hlast
  refine completes_bind completes_repairSemanticResult fun repaired hrepaired => ?_
  split
  · rename_i hnone
    obtain ⟨reason, hreason⟩ := hrepaired hnone
    exact completes_give (.needsRecovery _ reason (namesOperation_getD_txName hmem) hreason)
  · refine completes_then (completes_attempt fun _ h => h.removeTransaction hnotMem) fun _ => ?_
    exact completes_give
      (Classified.settled completed hlast hphase mem_cons_self).and_right

theorem completes_rollForward (hnotMem : txName ∉ rest)
    (hprepared : findPhase (readRecords digests journal) .prepared = some prepared) :
    Completes (Awaiting start rest)
      (rollForward digests txName (readRecords digests journal) prepared)
      (Classified digests txName journal) := by
  rw [rollForward]
  split
  · exact completes_finishCommit hnotMem hprepared
  · refine completes_then completes_look fun files => ?_
    split
    · exact completes_give (classified_ambiguous namesOperation_recoveredOperation)
    · refine completes_then (completes_handle ?_ fun _ =>
        completes_give trivial) fun materialized => ?_
      · exact ends_andThen ends_materializeRoot fun _ => ends_give fun _ h => ⟨h, trivial⟩
      · split
        · exact completes_finishCommit hnotMem hprepared
        · exact completes_give (classified_ambiguous namesOperation_recoveredOperation)

/-! ## Recovery -/

theorem getLast?_of_settle (h : course records pointer = .settle completed) :
    records.getLast? = some completed ∧ completed.hasPhase .completed = true := by
  rw [course] at h
  grind

theorem findPhase_of_decideExternals
    (hread : readPhasesSoft digests.semanticSha256 journal = some records)
    (h : course records pointer = .decideExternals prepared) :
    findPhase records .prepared = some prepared := by
  obtain ⟨hlast, hphase⟩ := getLast?_of_decideExternals h
  exact findPhase_of_mem (nodup_phases hread) (mem_of_getLast? hlast) hphase

theorem completes_recoverTx (hnotMem : txName ∉ rest)
    (hhas : ¬LacksPrepared digests (start.journal txName)) :
    Ends (Awaiting start (txName :: rest)) (recoverTx digests txName)
      (fun summary disk => Awaiting start rest disk ∧
        Classified digests txName (start.journal txName) summary) fun _ _ => False := by
  refine ends_andThen (R := fun records disk => Awaiting start rest disk ∧
    records = readPhasesSoft digests.semanticSha256 (start.journal txName))
    (ends_look fun disk h => ⟨fun name hname => h name (mem_cons_of_mem txName hname), ?_⟩)
    fun records => ends_knowing fun hread => ?_
  · rw [h txName mem_cons_self]
  · change Completes (Awaiting start rest) _ (Classified digests txName (start.journal txName))
    cases records with
    | none => exact completes_give (classified_ambiguous (.inl rfl))
    | some records =>
      have hrecords : readRecords digests (start.journal txName) = records := by
        rw [readRecords, ← hread, Option.getD_some]
      refine completes_then completes_look fun disk => ?_
      cases hcourse : course records (disk.pointer.map (·.generation)) with
      | rollBack =>
        exact (completes_rollBackGeneration hnotMem).weaken fun _ h => .rolledBack h
      | settle completed =>
        obtain ⟨hlast, hphase⟩ := getLast?_of_settle hcourse
        exact completes_settleCompleted hnotMem (hrecords ▸ hlast) hphase
      | rollForward prepared =>
        have hprepared := findPhase_of_rollForward hcourse
        subst hrecords
        exact completes_rollForward hnotMem hprepared
      | decideExternals prepared =>
        have hprepared := findPhase_of_decideExternals hread.symm hcourse
        subst hrecords
        dsimp only
        split
        · exact completes_rollForward hnotMem hprepared
        · refine completes_then completes_rollBackExternals fun first => ?_
          refine completes_andThen (completes_rollBackGeneration hnotMem) fun second hsecond => ?_
          exact completes_give (Classified.rolledBack hsecond).and_right
        · exact completes_give (classified_ambiguous (.inl rfl)).and_right
      | rollBackPrepared generation =>
        refine completes_then completes_rollBackExternals fun first => ?_
        refine completes_andThen (completes_rollBackGeneration hnotMem) fun second hsecond => ?_
        exact completes_give (Classified.rolledBack hsecond).and_right
      | ambiguous => exact completes_give (classified_ambiguous (.inl rfl))
      | panic => exact absurd ((lacksPrepared_iff hread.symm).mpr hcourse) hhas

theorem fails_recoverTx (hlacks : LacksPrepared digests (start.journal txName)) :
    Ends (Awaiting start (txName :: rest)) (recoverTx digests txName)
      (fun _ _ => False) fun _ _ => True := by
  refine ends_andThen (R := fun records _ =>
    records = readPhasesSoft digests.semanticSha256 (start.journal txName))
    (ends_look fun disk h => ?_) fun records => ?_
  · rw [h txName mem_cons_self]
  · obtain ⟨read, last, hread, hlast⟩ := hlacks
    refine Ends.of_imp (ends_knowing (P := fun _ => True) fun hrecords => ?_) fun _ h =>
      ⟨trivial, h⟩
    obtain rfl : records = some read := hrecords.trans hread
    refine ends_andThen (R := fun _ _ => True) (ends_look fun _ _ => trivial) fun disk => ?_
    have hcourse : course read (disk.pointer.map (·.generation)) = .panic :=
      (lacksPrepared_iff hread).mp ⟨read, last, hread, hlast⟩
    simp only [hcourse]
    exact ends_fail fun _ _ => trivial

theorem ends_collect_recoverTx : ∀ {names : List String}, names.Nodup →
    (∀ txName ∈ names, ¬LacksPrepared digests (start.journal txName)) →
      Ends (Awaiting start names) (collect (recoverTx digests) names)
        (fun summary _ => ∃ own : String → Summary,
          summary = (names.map own).foldr Summary.and {} ∧
            ∀ txName ∈ names, Classified digests txName (start.journal txName) (own txName))
        fun _ _ => False
  | [], _, _ => ends_give fun _ _ => ⟨fun _ => {}, rfl, fun _ h => by cases h⟩
  | txName :: names, hnodup, hhas => by
    obtain ⟨hnotMem, hnames⟩ := nodup_cons.mp hnodup
    refine ends_andThen (completes_recoverTx hnotMem (hhas txName mem_cons_self)) fun first =>
      ends_knowing fun hfirst => ?_
    have hrest := ends_collect_recoverTx hnames fun name hname =>
      hhas name (mem_cons_of_mem txName hname)
    refine ends_andThen hrest fun rest => ends_give ?_
    rintro _ ⟨own, rfl, hown⟩
    have hne : ∀ name ∈ names, name ≠ txName := fun name hname heq => hnotMem (heq ▸ hname)
    refine ⟨Function.update own txName first, ?_, ?_⟩
    · rw [map_cons, foldr_cons, Function.update_self]
      exact congrArg (fun summaries => first.and (List.foldr Summary.and {} summaries))
        (map_congr_left fun name hname => (Function.update_of_ne (hne name hname) _ _).symm)
    · rintro name (_ | ⟨_, hname⟩)
      · rw [Function.update_self]
        exact hfirst
      · rw [Function.update_of_ne (hne name hname)]
        exact hown name hname

theorem fails_collect_recoverTx : ∀ {names : List String}, names.Nodup →
    (∃ txName ∈ names, LacksPrepared digests (start.journal txName)) →
      Ends (Awaiting start names) (collect (recoverTx digests) names)
        (fun _ _ => False) fun _ _ => True
  | [], _, h => by
    obtain ⟨_, hmem, _⟩ := h
    cases hmem
  | txName :: names, hnodup, h => by
    obtain ⟨hnotMem, hnames⟩ := nodup_cons.mp hnodup
    by_cases hlacks : LacksPrepared digests (start.journal txName)
    · exact ends_andThen (fails_recoverTx hlacks) fun _ _ _ hfalse => hfalse.elim
    · obtain ⟨name, hmem, hname⟩ := h
      have hrest : name ∈ names := by
        rcases mem_cons.mp hmem with rfl | hmem
        · exact absurd hname hlacks
        · exact hmem
      refine ends_andThen (R := fun _ => Awaiting start names)
        ((completes_recoverTx hnotMem hlacks).weaken (fun _ h => h) (fun _ _ h => h.1)
          fun _ _ _ => trivial) fun first => ?_
      exact ends_andThen (fails_collect_recoverTx hnames ⟨name, hrest, hname⟩) fun _ _ _ hfalse =>
        hfalse.elim

end Awaiting

theorem ends_gcAbandoned :
    Ends (fun _ => True) (gcAbandoned digests) (fun _ _ => True) fun _ _ => False := by
  have hlook : ∀ {α : Type} {f : Disk → α},
      Ends (fun _ => True) (look f : Recovering α) (fun _ _ => True) fun _ _ => False :=
    ends_look fun _ _ => trivial
  have heach : ∀ {f : String → Disk → Disk} {names : List String},
      Ends (fun _ => True) (each (fun name => attempt (f name)) names : Recovering Unit)
        (fun _ _ => True) fun _ _ => False :=
    ends_each fun _ _ => ends_attempt (fun _ _ => trivial) fun _ _ => trivial
  refine ends_andThen hlook fun abandoned => ends_andThen heach fun _ => ?_
  exact ends_andThen hlook fun leftover => ends_andThen heach fun _ => ends_give fun _ _ => trivial

theorem names_nodup {β : Type} (table : Table β) : table.names.Nodup :=
  (perm_insertionSort _ _).nodup_iff.mpr table.nodupKeys

theorem awaiting_self (disk : Disk) (names : List String) : Awaiting disk names disk :=
  fun _ _ => rfl

/-- Where no journal is without the record that its branch expects. -/
theorem ends_recover {disk : Disk}
    (hhas : ∀ txName ∈ disk.transactions.names, ¬LacksPrepared digests (disk.journal txName)) :
    Ends (· = disk) (recover digests)
      (fun summary _ => ∃ (own : String → Summary) (cleaned : Summary),
        summary = ((disk.transactions.names.map own).foldr Summary.and {}).and cleaned ∧
          ∀ txName ∈ disk.transactions.names,
            Classified digests txName (disk.journal txName) (own txName))
      fun _ _ => False := by
  have hcollect := (ends_collect_recoverTx (names_nodup disk.transactions) hhas).of_imp
    fun state (h : state = disk) => h ▸ awaiting_self _ _
  refine ends_look_at (ends_andThen hcollect fun summary => ?_)
  refine Ends.of_imp (ends_knowing (P := fun _ => True) fun hsummary => ?_) fun _ h => ⟨trivial, h⟩
  obtain ⟨own, rfl, hown⟩ := hsummary
  exact ends_andThen ends_gcAbandoned fun cleaned => ends_give fun _ _ => ⟨own, cleaned, rfl, hown⟩

/-- Where one is, recovery gets no further than to it. -/
theorem fails_recover {disk : Disk}
    (hlacks : ∃ txName ∈ disk.transactions.names, LacksPrepared digests (disk.journal txName)) :
    Ends (· = disk) (recover digests) (fun _ _ => False) fun _ _ => True := by
  have hcollect := (fails_collect_recoverTx (names_nodup disk.transactions) hlacks).of_imp
    fun state (h : state = disk) => h ▸ awaiting_self _ _
  exact ends_look_at (ends_andThen hcollect fun _ _ _ hfalse => hfalse.elim)

theorem recover_classifies_iff (digests : Digests) (disk : Disk) :
    ClassifiesAll digests disk ↔
      ∀ txName ∈ disk.transactions.names, ¬LacksPrepared digests (disk.journal txName) := by
  constructor
  · intro hall txName hname hlacks
    obtain ⟨own, cleaned, hending, -⟩ := hall [] List.not_mem_nil
    have hends := (fails_recover ⟨txName, hname, hlacks⟩ disk [] rfl List.not_mem_nil).2
    rw [hending] at hends
    exact hends
  · intro hhas fates hfates
    have hends := (ends_recover hhas disk fates rfl hfates).2
    cases hending : (recover digests disk fates).ending with
    | returned summary =>
      rw [hending] at hends
      obtain ⟨own, cleaned, rfl, hown⟩ := hends
      exact ⟨own, cleaned, rfl, hown⟩
    | failed error =>
      rw [hending] at hends
      exact hends.elim
    | stopped =>
      rw [hending] at hends
      exact hends.elim

end Rules

/-! ## A record that stands alone -/

/-- A transaction of which only the `generation-committed` record is left. -/
def committedOnly : Disk :=
  { sampleDisk with
    transactions := AList.insert "op-1"
      (Journal.empty.write .generationCommitted (journalRecord phaseDigests.semanticSha256
        .generationCommitted { operationId := some "op-1" } "genesis")) ∅ }

theorem committedOnly_not_classified : ¬ClassifiesAll phaseDigests committedOnly := by
  have hlacks : LacksPrepared phaseDigests (committedOnly.journal "op-1") :=
    ⟨_, _, rfl, rfl, rfl, .inr rfl⟩
  intro hall
  obtain ⟨own, cleaned, hending, -⟩ := hall [] List.not_mem_nil
  have hends := (fails_recover ⟨"op-1", by decide, hlacks⟩ committedOnly [] rfl List.not_mem_nil).2
  rw [hending] at hends
  exact hends

end Docx2Typed.Store
