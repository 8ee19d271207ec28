import Docx2Typed.Library.PrefixCode
import Docx2Typed.Store.Journal
import Mathlib.Tactic.IntervalCases

/-!
# The records of a mutation and the chain they form

The writer of the journal computes the `prev_hash` of each record from the record it has in hand:
`prepared` goes back to `intent`, `completed` to `generation-committed`.  Both
`external-published` and `generation-committed` go back to `prepared`.  The reader asks every
record to go back to the one before it, so a journal that holds both is not accepted any more.

Apart from that a journal is accepted as long as it is what a mutation wrote, and a change is seen
unless it is to the last record and that was sealed again.
-/

namespace Docx2Typed.Store

open List

/-! ## What a mutation writes -/

/-- What `mutate` has in hand when it writes its journal. -/
structure Mutation where
  operationId : String
  canonical : String
  expectedGeneration : String
  inputSha256 : String
  kind : String
  pointerSha256 : String
  generationId : String
  isGeneration : Bool
  current : String
  manifestSha256 : String
  evidencePath : Place
  evidenceSha256 : String
  envelope : Envelope
  envelopeSha256 : String
  ledgerAnchor : Place
  ledgerDirectory : Bool
  externals : List External
  published : List External

/-- What `abort` writes of the error. -/
structure AbortError where
  code : String
  message : String
  reserveReleased : Bool

/-- A record and the phase whose file it stands in. -/
abbrev Entry := Phase × Record

section Writer

variable (semanticSha256 : Body → String) (m : Mutation)

def Mutation.generation : Option String := if m.isGeneration then some m.generationId else none

def Mutation.intent : Record :=
  journalRecord semanticSha256 .intent
    { operationId := some m.operationId, inputSha256 := some m.canonical
      rest := [("expected_generation", m.expectedGeneration),
        ("input_manifest_sha256", m.inputSha256), ("kind", m.kind)] }
    m.pointerSha256

def Mutation.prepared : Record :=
  journalRecord semanticSha256 .prepared
    { operationId := some m.operationId, generation := m.generation, parent := some m.current
      inputSha256 := some m.canonical, evidencePath := some m.evidencePath
      envelope := some m.envelope, ledgerAnchor := some m.ledgerAnchor
      ledgerDirectory := some m.ledgerDirectory, externals := some m.externals
      rest := [("manifest_sha256", m.manifestSha256), ("evidence_sha256", m.evidenceSha256),
        ("envelope_sha256", m.envelopeSha256)] }
    (semanticSha256 (m.intent semanticSha256).body)

def Mutation.externalPublished : Record :=
  journalRecord semanticSha256 .externalPublished
    { operationId := some m.operationId, externals := some m.published }
    (semanticSha256 (m.prepared semanticSha256).body)

def Mutation.generationCommitted : Record :=
  journalRecord semanticSha256 .generationCommitted
    { operationId := some m.operationId, generation := m.generation, parent := some m.current }
    (semanticSha256 (m.prepared semanticSha256).body)

def Mutation.completed : Record :=
  journalRecord semanticSha256 .completed
    { operationId := some m.operationId, generation := m.generation, parent := some m.current
      outcome := some m.envelope.outcome, inputSha256 := some m.canonical
      envelope := some m.envelope }
    (semanticSha256 (m.generationCommitted semanticSha256).body)

/-- The records a mutation writes, in the order it writes them. -/
def Mutation.entries : List Entry :=
  [(.intent, m.intent semanticSha256), (.prepared, m.prepared semanticSha256)] ++
    (if m.externals = [] then []
      else [(.externalPublished, m.externalPublished semanticSha256)]) ++
    [(.generationCommitted, m.generationCommitted semanticSha256),
      (.completed, m.completed semanticSha256)]

/-- The files of a list of records. -/
def filesOf (entries : List Entry) : List (Phase × JournalFile) :=
  entries.map fun entry => (entry.1, .record entry.2)

/-- The directory that holds some files. -/
def journalOf (files : List (Phase × JournalFile)) : Journal := fun phase => files.lookup phase

/-- The record with which `abort` closes a journal. -/
def Mutation.aborted (error : AbortError) (journal : Journal) : Record :=
  journalRecord semanticSha256 .completed
    { operationId := some m.operationId, generation := some m.generationId
      parent := some m.current, outcome := some "failed"
      rest := [("error_code", error.code), ("error_message", error.message),
        ("reserve_released", toString error.reserveReleased)] }
    (lastHash semanticSha256 journal)

/-- The records that can stand in the journal of a mutation: it stops after some of them, or it
fails after some of them and `abort` closes the journal. -/
inductive Mutation.Written : List Entry → Prop
  | stopped (count : Nat) : Written ((m.entries semanticSha256).take count)
  | failed (count : Nat) (error : AbortError) (hpos : 0 < count)
      (hlt : count < (m.entries semanticSha256).length) :
      Written ((m.entries semanticSha256).take count ++
        [(.completed, m.aborted semanticSha256 error
          (journalOf (filesOf ((m.entries semanticSha256).take count))))])

end Writer

/-! ## What the reader accepts -/

variable {expectedPrev : Option String} {journal : Journal} {records : List Record}

section Reader

variable {semanticSha256 : Body → String}

/-- The files that `read_phases` comes to. -/
def Journal.files (journal : Journal) (phases : List Phase) : List (Phase × JournalFile) :=
  phases.filterMap fun phase => (journal phase).map (phase, ·)

/-- The record of a phase is what `read_phases` asks for, after a record with a given hash. -/
structure Follows (semanticSha256 : Body → String) (expectedPrev : Option String) (phase : Phase)
    (record : Record) : Prop where
  shaped : record.wellShaped phase = true
  sealed : record.recordSha256 = some (semanticSha256 record.body)
  link : ∀ expected, expectedPrev = some expected → record.body.prevHash = some expected

/-- Every file holds a record, and each record follows the one before it. -/
inductive Linked (semanticSha256 : Body → String) :
    Option String → List (Phase × JournalFile) → List Record → Prop
  | nil {expectedPrev : Option String} : Linked semanticSha256 expectedPrev [] []
  | cons {expectedPrev : Option String} {phase : Phase} {record : Record}
      {files : List (Phase × JournalFile)} {records : List Record}
      (hfollows : Follows semanticSha256 expectedPrev phase record)
      (hrest : Linked semanticSha256 (some (semanticSha256 record.body)) files records) :
      Linked semanticSha256 expectedPrev ((phase, .record record) :: files) (record :: records)

theorem readPhasesFrom_eq_ok_iff : ∀ {phases : List Phase}
    {expectedPrev : Option String} {records : List Record},
    readPhasesFrom semanticSha256 journal phases expectedPrev = .ok records ↔
      Linked semanticSha256 expectedPrev (journal.files phases) records
  | [], expectedPrev, records => by
    constructor
    · intro h
      obtain rfl : [] = records := by simpa [readPhasesFrom] using h
      exact .nil
    · intro h
      cases h
      rfl
  | phase :: phases, expectedPrev, records => by
    rw [readPhasesFrom]
    cases hfile : journal phase with
    | none =>
      have hfiles : journal.files (phase :: phases) = journal.files phases := by
        simp [Journal.files, hfile]
      rw [hfiles]
      exact readPhasesFrom_eq_ok_iff
    | some file =>
      have hfiles : journal.files (phase :: phases) = (phase, file) :: journal.files phases := by
        simp [Journal.files, hfile]
      rw [hfiles]
      cases file with
      | unreadable =>
        constructor
        · intro h
          cases h
        · intro h
          cases h
      | record record =>
        dsimp only
        constructor
        · intro h
          split at h
          · cases h
          · rename_i hshaped
            split at h
            · cases h
            · rename_i hsealed
              split at h
              · cases h
              · rename_i hlink
                obtain ⟨rest, hrest, h⟩ := bind_eq_ok h
                obtain rfl : record :: rest = records := by simpa [pure, Except.pure] using h
                have hsealed : record.recordSha256 = some (semanticSha256 record.body) :=
                  not_not.mp hsealed
                refine .cons ⟨by simpa using hshaped, hsealed, ?_⟩ ?_
                · rintro expected rfl
                  simpa using hlink
                · rw [← hsealed]
                  exact readPhasesFrom_eq_ok_iff.mp hrest
        · intro h
          cases h with
          | cons hfollows hrest =>
            rw [if_neg (by simp [hfollows.shaped]), if_neg (by simp [hfollows.sealed]), if_neg]
            · rw [hfollows.sealed]
              exact bind_ok (readPhasesFrom_eq_ok_iff.mpr hrest)
            · cases expectedPrev with
              | none => simp
              | some expected => simp [hfollows.link expected rfl]

theorem nodup_phaseOrder : phaseOrder.Nodup := by decide

theorem files_journalOf : ∀ {phases : List Phase} {files : List (Phase × JournalFile)},
    phases.Nodup → (files.map Prod.fst).Sublist phases →
      (journalOf files).files phases = files
  | [], files, _, hsub => by
    have : files = [] := by simpa using hsub
    rw [this]
    rfl
  | phase :: phases, files, hnodup, hsub => by
    obtain ⟨hnotMem, hrestNodup⟩ := nodup_cons.mp hnodup
    cases files with
    | nil => simp [Journal.files, journalOf]
    | cons entry files =>
      obtain ⟨first, file⟩ := entry
      by_cases hfirst : first = phase
      · subst hfirst
        have hsub : (files.map Prod.fst).Sublist phases := by simpa using hsub
        have hrest : (journalOf ((first, file) :: files)).files phases =
            (journalOf files).files phases := by
          refine filterMap_congr fun other hother => ?_
          have hne : other ≠ first := fun h => hnotMem (h ▸ hother)
          simp [journalOf, lookup_cons, beq_false_of_ne hne]
        have hhead : (journalOf ((first, file) :: files)).files (first :: phases) =
            (first, file) :: (journalOf ((first, file) :: files)).files phases := by
          simp [Journal.files, journalOf]
        rw [hhead, hrest, files_journalOf hrestNodup hsub]
      · have hsub : (((first, file) :: files).map Prod.fst).Sublist phases := by
          rcases sublist_cons_iff.mp hsub with h | ⟨rest, h, -⟩
          · exact h
          · exact absurd (List.cons.inj h).1 hfirst
        have hnone : journalOf ((first, file) :: files) phase = none := by
          refine lookup_eq_none_iff.mpr fun entry hentry => ?_
          have hmem := hsub.subset (mem_map_of_mem (f := Prod.fst) hentry)
          simpa using fun h : phase = entry.1 => hnotMem (h ▸ hmem)
        have hskip : (journalOf ((first, file) :: files)).files (phase :: phases) =
            (journalOf ((first, file) :: files)).files phases := by
          simp [Journal.files, hnone]
        rw [hskip, files_journalOf hrestNodup hsub]

/-- The last check of `read_phases` never refuses: the record in the file of `intent` is the first
one read. -/
theorem readPhases_eq_ok_iff :
    readPhases semanticSha256 journal = .ok records ↔
      Linked semanticSha256 none (journal.files phaseOrder) records := by
  have hintent : ∀ first rest, Linked semanticSha256 none (journal.files phaseOrder)
      (first :: rest) → (journal .intent).isSome = true →
        first.body.phase = some Phase.intent.name := by
    intro first rest hlinked hsome
    obtain ⟨file, hfile⟩ := Option.isSome_iff_exists.mp hsome
    have hfiles : journal.files phaseOrder =
        (.intent, file) :: journal.files phaseOrder.tail := by
      simp [Journal.files, phaseOrder, hfile]
    rw [hfiles] at hlinked
    cases hlinked with
    | cons hfollows hrest =>
      have hshaped := hfollows.shaped
      simp only [Record.wellShaped, Bool.and_eq_true, decide_eq_true_eq] at hshaped
      exact hshaped.1.2
  rw [readPhases]
  constructor
  · intro h
    obtain ⟨found, hfound, h⟩ := bind_eq_ok h
    have hlinked := readPhasesFrom_eq_ok_iff.mp hfound
    cases found with
    | nil =>
      obtain rfl : [] = records := by simpa [pure, Except.pure] using h
      exact hlinked
    | cons first rest =>
      dsimp only at h
      split at h
      · cases h
      · obtain rfl : first :: rest = records := by simpa [pure, Except.pure] using h
        exact hlinked
  · intro hlinked
    rw [bind_ok (readPhasesFrom_eq_ok_iff.mpr hlinked)]
    cases records with
    | nil => rfl
    | cons first rest =>
      dsimp only
      rw [if_neg]
      · rfl
      · intro h
        simp only [Bool.and_eq_true, decide_eq_true_eq] at h
        exact h.2 (hintent first rest hlinked h.1)

/-- The hash that a record after some records has to name. -/
def hashAfter (semanticSha256 : Body → String) (expectedPrev : Option String)
    (records : List Record) : Option String :=
  (records.getLast?.map fun last => semanticSha256 last.body).or expectedPrev

theorem linked_append_iff :
    ∀ {front back : List (Phase × JournalFile)} {expectedPrev : Option String}
      {records : List Record},
    Linked semanticSha256 expectedPrev (front ++ back) records ↔
      ∃ first second, records = first ++ second ∧ Linked semanticSha256 expectedPrev front first ∧
        Linked semanticSha256 (hashAfter semanticSha256 expectedPrev first) back second
  | [], back, expectedPrev, records => by
    constructor
    · intro h
      exact ⟨[], records, rfl, .nil, by simpa [hashAfter] using h⟩
    · rintro ⟨first, second, rfl, hfirst, hsecond⟩
      cases hfirst
      simpa [hashAfter] using hsecond
  | entry :: front, back, expectedPrev, records => by
    have hafter : ∀ (record : Record) (first : List Record),
        hashAfter semanticSha256 (some (semanticSha256 record.body)) first =
          hashAfter semanticSha256 expectedPrev (record :: first) := by
      intro record first
      cases first with
      | nil => simp [hashAfter]
      | cons next first =>
        simp [hashAfter, getLast?_eq_some_getLast (cons_ne_nil next first)]
    constructor
    · intro h
      cases h with
      | cons hfollows hrest =>
        obtain ⟨first, second, rfl, hfirst, hsecond⟩ := linked_append_iff.mp hrest
        exact ⟨_ :: first, second, rfl, .cons hfollows hfirst, by rw [← hafter]; exact hsecond⟩
    · rintro ⟨first, second, rfl, hfirst, hsecond⟩
      cases hfirst with
      | cons hfollows hrest =>
        refine .cons hfollows (linked_append_iff.mpr ⟨_, second, rfl, hrest, ?_⟩)
        rw [hafter]
        exact hsecond

/-- The records that are read are those of the files. -/
theorem Linked.files_eq {files : List (Phase × JournalFile)}
    (h : Linked semanticSha256 expectedPrev files records) :
    files.map Prod.snd = records.map .record := by
  induction h with
  | nil => rfl
  | cons hfollows hrest ih => simp [ih]

end Reader

/-! ## How a journal grows -/

variable {phase : Phase}

variable {count : Nat} {record : Record}

section Growth

variable (semanticSha256 : Body → String)

/-- How a record that is written goes back to the last one before it.  The third case is the one
the reader does not follow. -/
inductive GoesBack (entries : List Entry) (phase : Phase) (prevHash : String) : Prop
  | unread (h : prevHash = "genesis")
  | last (before : List Entry) (previous : Entry) (hentries : entries = before ++ [previous])
      (h : prevHash = semanticSha256 previous.2.body)
  | overPublished (before : List Entry) (prepared published : Record)
      (hentries : entries =
        before ++ [(.prepared, prepared), (.externalPublished, published)])
      (hphase : phase = .generationCommitted)
      (h : prevHash = semanticSha256 prepared.body)

/-- The entries of one operation, each written after the ones before it. -/
inductive Grown (operationId : String) : List Entry → Prop
  | first (payload : Payload) (prevHash : String)
      (hid : payload.operationId = some operationId) :
      Grown operationId [(.intent, journalRecord semanticSha256 .intent payload prevHash)]
  | snoc {entries : List Entry} {phase : Phase} {payload : Payload} {prevHash : String}
      (hgrown : Grown operationId entries)
      (hphases : (entries.map Prod.fst ++ [phase]).Sublist phaseOrder)
      (hid : payload.operationId = some operationId)
      (hback : GoesBack semanticSha256 entries phase prevHash) :
      Grown operationId
        (entries ++ [(phase, journalRecord semanticSha256 phase payload prevHash)])

variable {semanticSha256 : Body → String} {operationId : String} {entries : List Entry}

theorem journalRecord_follows {payload : Payload} {prevHash : String}
    (h : ∀ expected, expectedPrev = some expected → prevHash = expected) :
    Follows semanticSha256 expectedPrev phase
      (journalRecord semanticSha256 phase payload prevHash) where
  shaped := by simp [Record.wellShaped, journalRecord]
  sealed := rfl
  link := fun expected hexpected => congrArg some (h expected hexpected)

section

variable (hgrown : Grown semanticSha256 operationId entries)

include hgrown

theorem Grown.mem (hmem : (phase, record) ∈ entries) :
    Follows semanticSha256 none phase record ∧
      record.body.payload.operationId = some operationId := by
  induction hgrown with
  | first payload prevHash hid =>
    obtain ⟨rfl, rfl⟩ := Prod.mk.inj (mem_singleton.mp hmem)
    exact ⟨journalRecord_follows (by simp), hid⟩
  | snoc hgrown hphases hid hback ih =>
    rcases mem_append.mp hmem with hmem | hmem
    · exact ih hmem
    · obtain ⟨rfl, rfl⟩ := Prod.mk.inj (mem_singleton.mp hmem)
      exact ⟨journalRecord_follows (by simp), hid⟩

theorem Grown.sublist : (entries.map Prod.fst).Sublist phaseOrder := by
  induction hgrown with
  | first payload prevHash hid =>
    exact singleton_sublist.mpr (by simp [phaseOrder])
  | snoc hgrown hphases hid hback ih => simpa using hphases

/-- The first record is the intent. -/
theorem Grown.head : ∃ record rest, entries = (.intent, record) :: rest := by
  induction hgrown with
  | first payload prevHash hid => exact ⟨_, [], rfl⟩
  | snoc hgrown hphases hid hback ih =>
    obtain ⟨record, rest, rfl⟩ := ih
    exact ⟨record, rest ++ [_], rfl⟩

theorem Grown.nodup : (entries.map Prod.fst).Nodup :=
  hgrown.sublist.nodup nodup_phaseOrder

theorem Grown.take (hpos : 0 < count) : Grown semanticSha256 operationId (entries.take count) := by
  induction hgrown with
  | first payload prevHash hid =>
    rw [take_of_length_le (by simp; omega)]
    exact .first payload prevHash hid
  | snoc hgrown hphases hid hback ih =>
    rename_i before phase payload prevHash
    by_cases hle : count ≤ before.length
    · rw [take_append_of_le_length hle]
      exact ih
    · rw [take_of_length_le (by simp; omega)]
      exact .snoc hgrown hphases hid hback

/-- The record after another one goes back to it, or is one of the two exceptions. -/
theorem Grown.goesBack :
    ∀ {before after : List Entry} {previous next : Entry},
    entries = before ++ previous :: next :: after →
      ∃ prevHash, next.2.body.prevHash = some prevHash ∧
        GoesBack semanticSha256 (before ++ [previous]) next.1 prevHash := by
  induction hgrown with
  | first payload prevHash hid =>
    intro before after previous next h
    have hlength := congrArg List.length h
    simp at hlength
    omega
  | snoc hgrown hphases hid hback ih =>
    rename_i front phase payload prevHash
    intro before after previous next h
    rcases eq_nil_or_concat' after with rfl | ⟨after, last, rfl⟩
    · have h : front ++ [(phase, journalRecord semanticSha256 phase payload prevHash)] =
          (before ++ [previous]) ++ [next] := by simpa using h
      obtain ⟨rfl, hlast⟩ := append_inj' h rfl
      obtain rfl := List.cons.inj hlast |>.1
      exact ⟨prevHash, rfl, hback⟩
    · have h : front ++ [(phase, journalRecord semanticSha256 phase payload prevHash)] =
          (before ++ previous :: next :: after) ++ [last] := by simpa using h
      obtain ⟨rfl, -⟩ := append_inj' h rfl
      exact ih rfl

theorem files_filesOf : (journalOf (filesOf entries)).files phaseOrder = filesOf entries := by
  refine files_journalOf nodup_phaseOrder ?_
  simpa [filesOf, Function.comp_def] using hgrown.sublist

end

theorem Linked.records_eq (h : Linked semanticSha256 expectedPrev (filesOf entries) records) :
    records = entries.map Prod.snd := by
  have hfiles := h.files_eq
  rw [filesOf, map_map] at hfiles
  have : (entries.map Prod.snd).map JournalFile.record = records.map JournalFile.record := by
    rw [← hfiles, map_map]
    rfl
  exact (map_injective_iff.mpr (fun _ _ h => JournalFile.record.inj h) this).symm

/-- A journal whose records are linked stays so when the next record goes back to the last. -/
theorem Linked.snoc {payload : Payload} {prevHash : String}
    (h : Linked semanticSha256 none (filesOf entries) (entries.map Prod.snd))
    (hback : ∀ last, entries.getLast? = some last → prevHash = semanticSha256 last.2.body) :
    Linked semanticSha256 none
      (filesOf (entries ++ [(phase, journalRecord semanticSha256 phase payload prevHash)]))
      ((entries ++ [(phase, journalRecord semanticSha256 phase payload prevHash)]).map
        Prod.snd) := by
  rw [filesOf, map_append, map_append]
  refine linked_append_iff.mpr ⟨_, _, rfl, h, .cons (journalRecord_follows ?_) .nil⟩
  intro expected hexpected
  rw [hashAfter, getLast?_map] at hexpected
  cases hlast : entries.getLast? with
  | none => simp [hlast] at hexpected
  | some last =>
    rw [hback last hlast]
    simpa [hlast] using hexpected

/-- `abort` chains to the last record where the journal can be read. -/
theorem lastHash_of_linked {before : List Entry} {last : Entry}
    (hgrown : Grown semanticSha256 operationId (before ++ [last]))
    (hlinked : Linked semanticSha256 none (filesOf (before ++ [last]))
      ((before ++ [last]).map Prod.snd)) :
    lastHash semanticSha256 (journalOf (filesOf (before ++ [last]))) =
      semanticSha256 last.2.body := by
  have hread := readPhases_eq_ok_iff.mpr ((files_filesOf hgrown).symm ▸ hlinked)
  have hsealed := (hgrown.mem (show (last.1, last.2) ∈ _ by simp)).1.sealed
  rw [lastHash, readPhasesSoft, hread]
  simp [Except.toOption, hsealed]

theorem lastHash_of_not_linked (hgrown : Grown semanticSha256 operationId entries)
    (hlinked : ¬ Linked semanticSha256 none (filesOf entries) (entries.map Prod.snd)) :
    lastHash semanticSha256 (journalOf (filesOf entries)) = "genesis" := by
  rw [lastHash, readPhasesSoft]
  cases hread : readPhases semanticSha256 (journalOf (filesOf entries)) with
  | error e => simp [Except.toOption]
  | ok records =>
    have h := readPhases_eq_ok_iff.mp hread
    rw [files_filesOf hgrown] at h
    exact absurd (h.records_eq ▸ h) hlinked

end Growth

/-! ## Reading a journal that a mutation wrote -/

variable {record record' : Record}

variable {expectedPrev expectedPrev' : Option String} {file : JournalFile} {phase phase' : Phase}

section Reading

variable {semanticSha256 : Body → String} {m : Mutation} {entries : List Entry}

theorem Mutation.entries_linked (hnone : m.externals = []) :
    Linked semanticSha256 none (filesOf (m.entries semanticSha256))
      ((m.entries semanticSha256).map Prod.snd) := by
  rw [Mutation.entries, if_pos hnone]
  refine .cons (journalRecord_follows (by simp)) ?_
  refine .cons (journalRecord_follows (by rintro _ ⟨⟩; rfl)) ?_
  refine .cons (journalRecord_follows (by rintro _ ⟨⟩; rfl)) ?_
  exact .cons (journalRecord_follows (by rintro _ ⟨⟩; rfl)) .nil

theorem Mutation.entries_grown :
    Grown semanticSha256 m.operationId (m.entries semanticSha256) := by
  have hprepared : Grown semanticSha256 m.operationId
      ([(.intent, m.intent semanticSha256)] ++ [(.prepared, m.prepared semanticSha256)]) :=
    .snoc (.first _ _ rfl) (by simp [phaseOrder]) rfl (.last [] _ rfl rfl)
  by_cases hnone : m.externals = []
  · rw [Mutation.entries, if_pos hnone]
    have hcommitted : Grown semanticSha256 m.operationId
        (([(.intent, m.intent semanticSha256)] ++ [(.prepared, m.prepared semanticSha256)]) ++
          [(.generationCommitted, m.generationCommitted semanticSha256)]) :=
      .snoc hprepared (by simp [phaseOrder]) rfl (.last [_] _ rfl rfl)
    exact .snoc hcommitted (by simp [phaseOrder]) rfl (.last [_, _] _ rfl rfl)
  · rw [Mutation.entries, if_neg hnone]
    have hpublished : Grown semanticSha256 m.operationId
        (([(.intent, m.intent semanticSha256)] ++ [(.prepared, m.prepared semanticSha256)]) ++
          [(.externalPublished, m.externalPublished semanticSha256)]) :=
      .snoc hprepared (by simp [phaseOrder]) rfl (.last [_] _ rfl rfl)
    have hcommitted : Grown semanticSha256 m.operationId
        ((([(.intent, m.intent semanticSha256)] ++ [(.prepared, m.prepared semanticSha256)]) ++
          [(.externalPublished, m.externalPublished semanticSha256)]) ++
          [(.generationCommitted, m.generationCommitted semanticSha256)]) :=
      .snoc hpublished (by simp [phaseOrder]) rfl (.overPublished [_] _ _ rfl rfl rfl)
    exact .snoc hcommitted (by simp [phaseOrder]) rfl (.last [_, _, _] _ rfl rfl)

theorem Mutation.phases_before_completed (hlt : count < (m.entries semanticSha256).length) :
    (((m.entries semanticSha256).take count).map Prod.fst ++ [Phase.completed]).Sublist
      phaseOrder := by
  by_cases hnone : m.externals = []
  · have hlt : count < 4 := by simpa [Mutation.entries, hnone] using hlt
    interval_cases count <;> simp [Mutation.entries, hnone, phaseOrder]
  · have hlt : count < 5 := by simpa [Mutation.entries, hnone] using hlt
    interval_cases count <;> simp [Mutation.entries, hnone, phaseOrder]

theorem Mutation.aborted_goesBack (hpos : 0 < count)
    (hlt : count < (m.entries semanticSha256).length) :
    GoesBack semanticSha256 ((m.entries semanticSha256).take count) .completed
      (lastHash semanticSha256
        (journalOf (filesOf ((m.entries semanticSha256).take count)))) := by
  have hgrown := (@Mutation.entries_grown semanticSha256 m).take hpos
  by_cases hlinked : Linked semanticSha256 none
      (filesOf ((m.entries semanticSha256).take count))
      (((m.entries semanticSha256).take count).map Prod.snd)
  · rcases eq_nil_or_concat' ((m.entries semanticSha256).take count) with
      h | ⟨before, last, h⟩
    · rcases take_eq_nil_iff.mp h with h | h
      · omega
      · simp [h] at hlt
    · rw [h] at hgrown hlinked ⊢
      exact .last before last rfl (lastHash_of_linked hgrown hlinked)
  · exact .unread (lastHash_of_not_linked hgrown hlinked)

theorem Mutation.Written.grown (hwritten : m.Written semanticSha256 entries)
    (hne : entries ≠ []) : Grown semanticSha256 m.operationId entries := by
  cases hwritten with
  | stopped count =>
    refine m.entries_grown.take (Nat.pos_of_ne_zero ?_)
    rintro rfl
    exact hne rfl
  | failed count error hpos hlt =>
    exact .snoc (m.entries_grown.take hpos) (m.phases_before_completed hlt) rfl
      (m.aborted_goesBack hpos hlt)

theorem Mutation.Written.linked (hnone : m.externals = [])
    (hwritten : m.Written semanticSha256 entries) :
    Linked semanticSha256 none (filesOf entries) (entries.map Prod.snd) := by
  have htake : ∀ count, Linked semanticSha256 none
      (filesOf ((m.entries semanticSha256).take count))
      (((m.entries semanticSha256).take count).map Prod.snd) := by
    intro count
    have h := @Mutation.entries_linked semanticSha256 m hnone
    rw [← take_append_drop count (m.entries semanticSha256), filesOf,
      map_append] at h
    obtain ⟨first, second, -, hfirst, -⟩ := linked_append_iff.mp h
    rw [show List.map _ _ = filesOf _ from rfl] at hfirst
    exact hfirst.records_eq ▸ hfirst
  cases hwritten with
  | stopped count => exact htake count
  | failed count error hpos hlt =>
    refine (htake count).snoc fun last hlast => ?_
    obtain ⟨before, h⟩ := getLast?_eq_some_iff.mp hlast
    have hgrown := (@Mutation.entries_grown semanticSha256 m).take hpos
    have hlinked := htake count
    rw [h] at hgrown hlinked ⊢
    exact lastHash_of_linked hgrown hlinked

theorem course_ne_panic {pointer : Option String} (h : ∀ last, records.getLast? = some last →
      last.hasPhase .externalPublished = true ∨ last.hasPhase .generationCommitted = true →
        ∃ prepared ∈ records, prepared.hasPhase .prepared = true) :
    course records pointer ≠ .panic := by
  rw [course]
  cases hlast : records.getLast? with
  | none => simp
  | some last =>
    dsimp only
    split
    · simp
    · cases hprepared : findPhase records .prepared with
      | none =>
        have hnot : ¬ (last.hasPhase .externalPublished = true ∨
            last.hasPhase .generationCommitted = true) := by
          intro hphase
          obtain ⟨prepared, hmem, hprep⟩ := h last hlast hphase
          exact find?_eq_none.mp hprepared prepared hmem hprep
        simp only [Option.bind_none, Bool.or_eq_true, if_neg hnot]
        split <;> simp
      | some prepared =>
        simp only [Option.bind_some]
        split
        · split
          · simp
          · split <;> simp
        · split
          · simp
          · split <;> simp

theorem Mutation.Written.course_ne_panic (hwritten : m.Written semanticSha256 entries)
    (pointer : Option String) : course (entries.map Prod.snd) pointer ≠ .panic := by
  refine Store.course_ne_panic fun last hlast hphase => ?_
  cases hwritten with
  | stopped count =>
    rcases Nat.lt_or_ge count 2 with hlt | hge
    · exfalso
      interval_cases count
      · simp at hlast
      · obtain rfl : m.intent semanticSha256 = last := by simpa [Mutation.entries] using hlast
        revert hphase
        simp [Record.hasPhase, Mutation.intent, journalRecord, Phase.name]
    · obtain ⟨more, rfl⟩ : ∃ more, count = more + 2 := ⟨count - 2, by omega⟩
      exact ⟨m.prepared semanticSha256, by simp [Mutation.entries],
        by simp [Record.hasPhase, Mutation.prepared, journalRecord]⟩
  | failed count error hpos hlt =>
    exfalso
    simp only [map_append, map_cons, map_nil, getLast?_concat,
      Option.some.injEq] at hlast
    subst hlast
    revert hphase
    simp [Record.hasPhase, Mutation.aborted, journalRecord, Phase.name]

/-- `read_phases` refuses the journal. -/
def Refused (semanticSha256 : Body → String) (journal : Journal) : Prop :=
  ∃ error, readPhases semanticSha256 journal = .error error

theorem refused_iff : Refused semanticSha256 journal ↔
    ¬ ∃ records, Linked semanticSha256 none (journal.files phaseOrder) records := by
  simp only [← readPhases_eq_ok_iff, Refused]
  cases readPhases semanticSha256 journal <;> simp

/-- The last record has been replaced by one that is sealed and goes back to the record before
it, and nothing is wrong with the records before it. -/
def Resealed (semanticSha256 : Body → String) (entries : List Entry) (phase : Phase)
    (file : JournalFile) : Prop :=
  ∃ before record altered, entries = before ++ [(phase, record)] ∧ file = .record altered ∧
    Linked semanticSha256 none (filesOf before) (before.map Prod.snd) ∧
    Follows semanticSha256 (hashAfter semanticSha256 none (before.map Prod.snd)) phase altered

/-! ## Changed journals -/

/-- The journal with another file, or none, for a phase. -/
def Journal.exchange (journal : Journal) (phase : Phase) (file : Option JournalFile) : Journal :=
  Function.update journal phase file

theorem exchange_journalOf {before after : List (Phase × JournalFile)} {file file' : JournalFile}
    (hnotMem : phase ∉ before.map Prod.fst) :
    (journalOf (before ++ (phase, file) :: after)).exchange phase (some file') =
      journalOf (before ++ (phase, file') :: after) := by
  have hnone : before.lookup phase = none :=
    lookup_eq_none_iff.mpr fun entry hentry => by
      simpa using fun h : phase = entry.1 => hnotMem (h ▸ mem_map_of_mem hentry)
  funext other
  by_cases hother : other = phase
  · subst hother
    simp [Journal.exchange, journalOf, lookup_append, hnone]
  · simp [Journal.exchange, journalOf, lookup_append, lookup_cons, hother,
      beq_false_of_ne hother]

theorem exchange_journalOf_none {before after : List (Phase × JournalFile)}
    (hbefore : phase ∉ before.map Prod.fst) (hafter : phase ∉ after.map Prod.fst) :
    (journalOf (before ++ (phase, file) :: after)).exchange phase none =
      journalOf (before ++ after) := by
  have hnone : ∀ {files : List (Phase × JournalFile)}, phase ∉ files.map Prod.fst →
      files.lookup phase = none := fun hnotMem =>
    lookup_eq_none_iff.mpr fun entry hentry => by
      simpa using fun h : phase = entry.1 => hnotMem (h ▸ mem_map_of_mem hentry)
  funext other
  by_cases hother : other = phase
  · subst hother
    simp [Journal.exchange, journalOf, lookup_append, hnone hbefore, hnone hafter]
  · simp [Journal.exchange, journalOf, lookup_append, lookup_cons, hother,
      beq_false_of_ne hother]

theorem Phase.name_injective : Function.Injective Phase.name := by
  intro phase other h
  cases phase <;> cases other <;> first | rfl | exact absurd h (by decide)

theorem Follows.phase_eq
    (h : Follows semanticSha256 expectedPrev phase record)
    (h' : Follows semanticSha256 expectedPrev' phase' record') (hbody : record.body = record'.body)
    : phase = phase' := by
  have hshaped := h.shaped
  have hshaped' := h'.shaped
  simp only [Record.wellShaped, Bool.and_eq_true, decide_eq_true_eq] at hshaped hshaped'
  rw [hbody] at hshaped
  exact Phase.name_injective (Option.some.inj (hshaped.1.2.symm.trans hshaped'.1.2))

/-- Two sealed records with one body are one record. -/
theorem Follows.record_eq
    (h : Follows semanticSha256 expectedPrev phase record)
    (h' : Follows semanticSha256 expectedPrev' phase' record') (hbody : record.body = record'.body)
    : record = record' := by
  have hsealed := h.sealed
  have hsealed' := h'.sealed
  obtain ⟨body, sha256⟩ := record
  obtain ⟨body', sha256'⟩ := record'
  subst hbody
  simp only at hsealed hsealed'
  rw [hsealed, hsealed']

/-- What follows a file that has been read goes back to the record in it. -/
theorem Linked.after {before after : List (Phase × JournalFile)} {phase phase' : Phase}
    {file file' : JournalFile} {expectedPrev : Option String} {records : List Record}
    (h : Linked semanticSha256 expectedPrev
      (before ++ (phase, file) :: (phase', file') :: after) records) :
    ∃ expected record record', file = .record record ∧ file' = .record record' ∧
      Follows semanticSha256 expected phase record ∧
      record'.body.prevHash = some (semanticSha256 record.body) := by
  obtain ⟨first, second, -, -, hsecond⟩ := linked_append_iff.mp h
  cases hsecond with
  | cons hfollows hrest =>
    cases hrest with
    | cons hfollows' _ => exact ⟨_, _, _, rfl, rfl, hfollows, hfollows'.link _ rfl⟩

section Without

variable {operationId : String} {before after : List Entry}

/-- The operation writes no phase twice. -/
theorem Grown.phase_notMem (hgrown : Grown semanticSha256 operationId
    (before ++ (phase, record) :: after)) :
    phase ∉ (filesOf before).map Prod.fst ∧ phase ∉ (filesOf after).map Prod.fst := by
  have hnodup := hgrown.nodup
  simp only [map_append, map_cons, nodup_append, nodup_cons] at hnodup
  refine ⟨fun h => hnodup.2.2 phase (by simpa [filesOf] using h) phase (by simp) rfl, ?_⟩
  exact fun h => hnodup.2.1.1 (by simpa [filesOf] using h)

theorem Grown.files_without (hgrown : Grown semanticSha256 operationId
    (before ++ (phase, record) :: after)) :
    ((journalOf (filesOf (before ++ (phase, record) :: after))).exchange phase none).files
      phaseOrder = filesOf before ++ filesOf after := by
  rw [show filesOf (before ++ (phase, record) :: after) =
      filesOf before ++ (phase, .record record) :: filesOf after by simp [filesOf],
    exchange_journalOf_none hgrown.phase_notMem.1 hgrown.phase_notMem.2]
  refine files_journalOf nodup_phaseOrder (.trans ?_ hgrown.sublist)
  simp [filesOf, Function.comp_def]

/-- The records of one attempt link also without the one that publishes, which none goes
back to. -/
theorem Mutation.linked_without_published
    (hstart : before ++ (.externalPublished, record) :: after <+: m.entries semanticSha256)
    (hbefore : before ≠ []) (hafter : after ≠ []) :
    ∃ records, Linked semanticSha256 none
      (((journalOf (filesOf (before ++ (.externalPublished, record) :: after))).exchange
        .externalPublished none).files phaseOrder) records := by
  have hmem : (Phase.externalPublished, record) ∈ m.entries semanticSha256 :=
    hstart.subset (by simp)
  have hsome : m.externals ≠ [] := by
    intro hnone
    simp [Mutation.entries, hnone] at hmem
  have htake := prefix_iff_eq_take.mp hstart
  have hle : (before ++ (.externalPublished, record) :: after).length ≤ 5 := by
    simpa [Mutation.entries, hsome] using hstart.length_le
  have hge : 4 ≤ (before ++ (.externalPublished, record) :: after).length := by
    obtain ⟨first, before, rfl⟩ := exists_cons_of_ne_nil hbefore
    obtain ⟨next, after, rfl⟩ := exists_cons_of_ne_nil hafter
    cases before with
    | nil =>
      exfalso
      obtain ⟨rest, hrest⟩ := hstart
      simp [Mutation.entries, hsome] at hrest
    | cons second before =>
      simp
      omega
  generalize before ++ (.externalPublished, record) :: after = entries at htake hle hge ⊢
  generalize entries.length = count at htake hle hge
  subst htake
  have hcases : count = 4 ∨ count = 5 := by omega
  rcases hcases with rfl | rfl
  · refine ⟨[m.intent semanticSha256, m.prepared semanticSha256,
      m.generationCommitted semanticSha256], ?_⟩
    have hthree : ((journalOf (filesOf ((m.entries semanticSha256).take 4))).exchange
        .externalPublished none).files phaseOrder =
        filesOf [(.intent, m.intent semanticSha256), (.prepared, m.prepared semanticSha256),
          (.generationCommitted, m.generationCommitted semanticSha256)] := by
      rw [Mutation.entries, if_neg hsome]
      rfl
    rw [hthree]
    refine .cons (journalRecord_follows (by simp)) ?_
    refine .cons (journalRecord_follows (by rintro _ ⟨⟩; rfl)) ?_
    exact .cons (journalRecord_follows (by rintro _ ⟨⟩; rfl)) .nil
  · refine ⟨[m.intent semanticSha256, m.prepared semanticSha256,
      m.generationCommitted semanticSha256, m.completed semanticSha256], ?_⟩
    have hfour : ((journalOf (filesOf ((m.entries semanticSha256).take 5))).exchange
        .externalPublished none).files phaseOrder =
        filesOf [(.intent, m.intent semanticSha256), (.prepared, m.prepared semanticSha256),
          (.generationCommitted, m.generationCommitted semanticSha256),
          (.completed, m.completed semanticSha256)] := by
      rw [Mutation.entries, if_neg hsome]
      rfl
    rw [hfour]
    refine .cons (journalRecord_follows (by simp)) ?_
    refine .cons (journalRecord_follows (by rintro _ ⟨⟩; rfl)) ?_
    refine .cons (journalRecord_follows (by rintro _ ⟨⟩; rfl)) ?_
    exact .cons (journalRecord_follows (by rintro _ ⟨⟩; rfl)) .nil

end Without

section Changed

variable {operationId : String} (hfree : Function.Injective semanticSha256)
  (hgenesis : ∀ body, semanticSha256 body ≠ "genesis")

include hfree hgenesis

theorem Grown.refused_altered_iff (hgrown : Grown semanticSha256 operationId entries)
    (hmem : (phase, record) ∈ entries) (hfile : file ≠ .record record) :
    Refused semanticSha256
        ((journalOf (filesOf entries)).exchange phase (some file)) ↔
      ¬ Resealed semanticSha256 entries phase file := by
  obtain ⟨before, after, rfl⟩ := append_of_mem hmem
  have hnodup := hgrown.nodup
  have hfiles : ((journalOf (filesOf (before ++ (phase, record) :: after))).exchange phase
      (some file)).files phaseOrder = filesOf before ++ (phase, file) :: filesOf after := by
    rw [show filesOf (before ++ (phase, record) :: after) =
        filesOf before ++ (phase, .record record) :: filesOf after by simp [filesOf],
      exchange_journalOf hgrown.phase_notMem.1]
    refine files_journalOf nodup_phaseOrder ?_
    simpa [filesOf, Function.comp_def] using hgrown.sublist
  rw [refused_iff, hfiles]
  refine not_congr ⟨?_, ?_⟩
  · rintro ⟨records, hlinked⟩
    cases after with
    | nil =>
      obtain ⟨first, second, -, hfirst, hsecond⟩ := linked_append_iff.mp hlinked
      obtain rfl := hfirst.records_eq
      cases hsecond with
      | cons hfollows hrest => exact ⟨before, record, _, rfl, rfl, hfirst, hfollows⟩
    | cons next after =>
      exfalso
      obtain ⟨expected, altered, record', rfl, hrecord', hfollows, hlink⟩ := hlinked.after
      obtain rfl : next.2 = record' := JournalFile.record.inj hrecord'
      obtain ⟨prevHash, hprev, hback⟩ := hgrown.goesBack rfl
      obtain rfl : prevHash = semanticSha256 altered.body :=
        Option.some.inj (hprev.symm.trans hlink)
      have hrecord := (hgrown.mem hmem).1
      cases hback with
      | unread h => exact hgenesis _ h
      | last front previous hentries h =>
        obtain rfl := (List.cons.inj (append_inj' hentries rfl).2).1
        exact hfile (congrArg _ (hfollows.record_eq hrecord (hfree h)))
      | overPublished front prepared published hentries hphase h =>
        have hentries : before ++ [(phase, record)] =
            (front ++ [(.prepared, prepared)]) ++ [(.externalPublished, published)] := by
          simpa using hentries
        obtain ⟨rfl, hlast⟩ := append_inj' hentries rfl
        obtain ⟨rfl, rfl⟩ := Prod.mk.inj (List.cons.inj hlast).1
        have hprepared := (hgrown.mem (show (Phase.prepared, prepared) ∈ _ by simp)).1
        exact absurd (hfollows.phase_eq hprepared (hfree h)) (by decide)
  · rintro ⟨before', record', altered, hentries, rfl, hlinked, hfollows⟩
    have hafter : after = [] := by
      rcases eq_nil_or_concat' after with rfl | ⟨after, last, rfl⟩
      · rfl
      · exfalso
        have hentries : (before ++ (phase, record) :: after) ++ [last] =
            before' ++ [(phase, record')] := by simpa using hentries
        obtain ⟨-, hlast⟩ := append_inj' hentries rfl
        obtain rfl := (List.cons.inj hlast).1
        simp [nodup_append] at hnodup
    subst hafter
    obtain ⟨rfl, -⟩ := append_inj' hentries rfl
    exact ⟨_, linked_append_iff.mpr ⟨_, _, rfl, hlinked, .cons hfollows .nil⟩⟩

/-- Where a record is missing, the reader goes on only over the one that the writer did not go
back to. -/
theorem Grown.of_accepted_without (hgrown : Grown semanticSha256 operationId entries)
    {before after : List Entry} {missing next : Entry}
    (hentries : entries = before ++ missing :: next :: after) (hbefore : before ≠ [])
    (hlinked : Linked semanticSha256 none (filesOf before ++ filesOf (next :: after)) records) :
    missing.1 = .externalPublished ∧ next.1 = .generationCommitted ∧
      ¬ Linked semanticSha256 none (filesOf (before ++ [missing, next]))
        ((before ++ [missing, next]).map Prod.snd) := by
  obtain ⟨front, last, rfl⟩ := (eq_nil_or_concat' before).resolve_left hbefore
  have hmem : ∀ entry ∈ [last, missing, next], entry ∈ entries := by
    intro entry hentry
    rw [hentries]
    simp only [mem_cons, not_mem_nil, or_false] at hentry
    rcases hentry with rfl | rfl | rfl <;> simp
  have hlast := (hgrown.mem (hmem last (by simp))).1
  have hmissing := (hgrown.mem (hmem missing (by simp))).1
  have hnodup := hgrown.nodup
  have hne : last.1 ≠ missing.1 := by
    have hsub : ([last] ++ [missing]).Sublist entries := by
      rw [hentries]
      exact (sublist_append_right front [last]).append
        (singleton_sublist.mpr (by simp))
    simpa using hnodup.sublist (hsub.map Prod.fst)
  obtain ⟨expected, record, record', hrecord, hrecord', hfollows, hlink⟩ := Linked.after (by
    simpa [filesOf] using hlinked)
  obtain rfl := JournalFile.record.inj hrecord
  obtain rfl := JournalFile.record.inj hrecord'
  obtain ⟨prevHash, hprev, hback⟩ := hgrown.goesBack hentries
  obtain rfl : prevHash = semanticSha256 last.2.body := Option.some.inj (hprev.symm.trans hlink)
  cases hback with
  | unread h => exact absurd h (hgenesis _)
  | last front' previous hentries' h =>
    obtain rfl := (List.cons.inj (append_inj' hentries' rfl).2).1
    exact absurd (hlast.phase_eq hmissing (hfree h)) hne
  | overPublished front' prepared published hentries' hphase h =>
    have hentries' : (front ++ [last]) ++ [missing] =
        (front' ++ [(.prepared, prepared)]) ++ [(.externalPublished, published)] := by
      simpa using hentries'
    obtain ⟨-, hmissing'⟩ := append_inj' hentries' rfl
    obtain rfl := (List.cons.inj hmissing').1
    refine ⟨rfl, hphase, fun hall => ?_⟩
    obtain ⟨_, record, record', hrecord, hrecord', hfollows, hlink'⟩ :=
      @Linked.after _ (filesOf (front ++ [last])) [] _ _ _ _ _ _ (by
        simpa [filesOf] using hall)
    obtain rfl := JournalFile.record.inj hrecord
    obtain rfl := JournalFile.record.inj hrecord'
    have hbody := hfree (Option.some.inj (hlink.symm.trans hlink'))
    exact absurd (hlast.phase_eq hmissing hbody) hne

theorem Mutation.Written.of_accepted_without (hwritten : m.Written semanticSha256 entries)
    {before after : List Entry} {next : Entry}
    (hentries : entries = before ++ (phase, record) :: next :: after) (hbefore : before ≠ [])
    (hlinked : Linked semanticSha256 none (filesOf before ++ filesOf (next :: after)) records) :
    phase = .externalPublished ∧ entries <+: m.entries semanticSha256 := by
  obtain ⟨hphase, hnext, hbroken⟩ := (hwritten.grown (by simp [hentries])).of_accepted_without
    hfree hgenesis hentries hbefore hlinked
  refine ⟨hphase, ?_⟩
  cases hwritten with
  | stopped count => exact List.take_prefix _ _
  | failed count error hpos hlt =>
    exfalso
    -- the record that closes the journal goes back to no record
    generalize hclosing : m.aborted semanticSha256 error
      (journalOf (filesOf ((m.entries semanticSha256).take count))) = closing at *
    have hlast : closing.body.prevHash = some (lastHash semanticSha256
        (journalOf (filesOf ((m.entries semanticSha256).take count)))) := by
      rw [← hclosing]
      rfl
    rcases eq_nil_or_concat' after with rfl | ⟨middle, last, rfl⟩
    · have h : (m.entries semanticSha256).take count ++ [(Phase.completed, closing)] =
          (before ++ [(phase, record)]) ++ [next] := by simpa using hentries
      obtain ⟨-, hnext'⟩ := append_inj' h rfl
      rw [← (List.cons.inj hnext').1] at hnext
      exact absurd hnext (by simp)
    · have h : (m.entries semanticSha256).take count ++ [(Phase.completed, closing)] =
          (before ++ (phase, record) :: next :: middle) ++ [last] := by simpa using hentries
      obtain ⟨hfront, hlast'⟩ := append_inj' h rfl
      obtain rfl := (List.cons.inj hlast').1
      have hnot : ¬ Linked semanticSha256 none
          (filesOf ((m.entries semanticSha256).take count))
          (((m.entries semanticSha256).take count).map Prod.snd) := by
        intro hall
        rw [hfront, show before ++ (phase, record) :: next :: middle =
          (before ++ [(phase, record), next]) ++ middle by simp, filesOf,
          map_append] at hall
        obtain ⟨first, second, -, hfirst, -⟩ := linked_append_iff.mp hall
        rw [show List.map _ _ = filesOf _ from rfl] at hfirst
        exact hbroken (hfirst.records_eq ▸ hfirst)
      have hunread := lastHash_of_not_linked
        ((@Mutation.entries_grown semanticSha256 m).take hpos) hnot
      obtain ⟨front, previous, h⟩ :=
        (eq_nil_or_concat' (next :: middle)).resolve_left (by simp)
      have hsplit : filesOf before ++ filesOf (next :: (middle ++ [(Phase.completed, closing)])) =
          filesOf (before ++ front) ++ (previous.1, .record previous.2) ::
            (Phase.completed, .record closing) :: [] := by
        rw [← cons_append, h]
        simp [filesOf]
      rw [hsplit] at hlinked
      obtain ⟨_, record, record', hrecord, hrecord', -, hlink⟩ := hlinked.after
      obtain rfl := JournalFile.record.inj hrecord'
      rw [hunread] at hlast
      exact hgenesis _ (Option.some.inj (hlast.symm.trans hlink)).symm

theorem Mutation.Written.refused_without_iff (hwritten : m.Written semanticSha256 entries)
    {before after : List Entry} (hentries : entries = before ++ (phase, record) :: after)
    (hbefore : before ≠ []) (hafter : after ≠ []) :
    Refused semanticSha256 ((journalOf (filesOf entries)).exchange phase none) ↔
      ¬ (phase = .externalPublished ∧ entries <+: m.entries semanticSha256) := by
  subst hentries
  have hgrown := hwritten.grown (by simp)
  rw [refused_iff]
  refine not_congr ⟨?_, ?_⟩
  · rintro ⟨records, hlinked⟩
    rw [hgrown.files_without] at hlinked
    obtain ⟨next, after, rfl⟩ := exists_cons_of_ne_nil hafter
    exact hwritten.of_accepted_without hfree hgenesis rfl hbefore hlinked
  · rintro ⟨rfl, hprefix⟩
    exact Mutation.linked_without_published hprefix hbefore hafter

/-- A record of another operation is taken for one of this only where it stands alone. -/
theorem Mutation.Written.refused_foreign_iff {m' : Mutation} {entries' : List Entry}
    (hne : m'.operationId ≠ m.operationId) (hwritten : m.Written semanticSha256 entries)
    (hwritten' : m'.Written semanticSha256 entries') (hmem : (phase, record) ∈ entries)
    (hmem' : (phase, record') ∈ entries') :
    Refused semanticSha256
        ((journalOf (filesOf entries)).exchange phase (some (.record record'))) ↔
      1 < entries.length := by
  have hgrown := hwritten.grown (ne_nil_of_mem hmem)
  have hgrown' := hwritten'.grown (ne_nil_of_mem hmem')
  -- the operations differ, so no body of the one is a body of the other
  have hbodies : ∀ {phase phase' : Phase} {one other : Record}, (phase, one) ∈ entries →
      (phase', other) ∈ entries' → one.body ≠ other.body := by
    intro phase phase' one other hone hother h
    have hid := (hgrown.mem hone).2
    rw [h, (hgrown'.mem hother).2] at hid
    exact hne (Option.some.inj hid)
  rw [hgrown.refused_altered_iff hfree hgenesis hmem fun h =>
    hbodies hmem hmem' (congrArg Record.body (JournalFile.record.inj h)).symm]
  constructor
  · intro h
    by_contra hlt
    obtain ⟨entry, hentry⟩ : ∃ entry, entries = [entry] := by
      have hpos := length_pos_of_mem hmem
      exact length_eq_one_iff.mp (by omega)
    obtain rfl : (phase, record) = entry := by simpa [hentry] using hmem
    refine h ⟨[], record, record', hentry, rfl, .nil, ?_⟩
    exact (hgrown'.mem hmem').1
  · rintro hlt ⟨before, record₀, altered, rfl, haltered, hlinked, hfollows⟩
    obtain rfl := JournalFile.record.inj haltered
    obtain ⟨front, last, rfl⟩ := (eq_nil_or_concat' before).resolve_left (by
      rintro rfl
      simp at hlt)
    have hlink := hfollows.link (semanticSha256 last.2.body) (by simp [hashAfter])
    have hlast : (last.1, last.2) ∈ (front ++ [last]) ++ [(phase, record₀)] := by simp
    obtain ⟨before', after', rfl⟩ := append_of_mem hmem'
    rcases eq_nil_or_concat' before' with rfl | ⟨front', previous, rfl⟩
    · -- the first record of a journal is the intent, and this one is not the first
      obtain ⟨first', rest', h'⟩ := hgrown'.head
      obtain ⟨rfl, -⟩ := Prod.mk.inj (List.cons.inj h').1
      obtain ⟨first, rest, h⟩ := hgrown.head
      have hnodup := hgrown.nodup
      cases front with
      | nil =>
        obtain rfl := (List.cons.inj h).1
        simp at hnodup
      | cons entry front =>
        obtain rfl := (List.cons.inj h).1
        simp at hnodup
    · obtain ⟨prevHash, hprev, hback⟩ := hgrown'.goesBack
        (show _ = front' ++ previous :: (phase, record') :: after' by simp)
      obtain rfl : prevHash = semanticSha256 last.2.body :=
        Option.some.inj (hprev.symm.trans hlink)
      cases hback with
      | unread h => exact hgenesis _ h
      | last front'' previous' hentries h =>
        obtain rfl := (List.cons.inj (append_inj' hentries rfl).2).1
        exact hbodies hlast (show (previous.1, previous.2) ∈ _ by simp) (hfree h)
      | overPublished front'' prepared published hentries hphase h =>
        exact hbodies hlast (show (Phase.prepared, prepared) ∈ _ by
          rw [hentries]
          simp) (hfree h)

end Changed

/-- Whatever of its records a mutation has written, they are read back as written, and recovery
finds a way to take. -/
def Mutation.ReadsBack (semanticSha256 : Body → String) (m : Mutation) : Prop :=
  ∀ entries, m.Written semanticSha256 entries →
    readPhases semanticSha256 (journalOf (filesOf entries)) = .ok (entries.map Prod.snd) ∧
      ∀ pointer, course (entries.map Prod.snd) pointer ≠ .panic

/-- With `external-published` in the journal, `generation-committed` breaks the chain. -/
theorem Mutation.refused_committed (hfree : Function.Injective semanticSha256)
    (hsome : m.externals ≠ []) :
    Refused semanticSha256 (journalOf (filesOf ((m.entries semanticSha256).take 4))) := by
  rw [refused_iff, files_filesOf (m.entries_grown.take (by decide))]
  rintro ⟨records, hlinked⟩
  have hfour : filesOf ((m.entries semanticSha256).take 4) =
      filesOf [(.intent, m.intent semanticSha256), (.prepared, m.prepared semanticSha256)] ++
        (.externalPublished, .record (m.externalPublished semanticSha256)) ::
          (.generationCommitted, .record (m.generationCommitted semanticSha256)) :: [] := by
    rw [Mutation.entries, if_neg hsome]
    rfl
  rw [hfour] at hlinked
  obtain ⟨_, record, record', hrecord, hrecord', -, hlink⟩ := hlinked.after
  obtain rfl := JournalFile.record.inj hrecord
  obtain rfl := JournalFile.record.inj hrecord'
  have hbody : (m.prepared semanticSha256).body = (m.externalPublished semanticSha256).body :=
    hfree (Option.some.inj hlink)
  have hphase := congrArg Body.phase hbody
  simp [Mutation.prepared, Mutation.externalPublished, journalRecord, Phase.name] at hphase

theorem Mutation.readsBack_iff (hfree : Function.Injective semanticSha256) :
    m.ReadsBack semanticSha256 ↔ m.externals = [] := by
  constructor
  · intro h
    by_contra hsome
    obtain ⟨error, herror⟩ := m.refused_committed hfree hsome
    have hread := (h _ (.stopped 4)).1
    rw [herror] at hread
    cases hread
  · intro hnone entries hwritten
    refine ⟨?_, hwritten.course_ne_panic⟩
    rcases eq_or_ne entries [] with rfl | hne
    · rfl
    · rw [readPhases_eq_ok_iff, files_filesOf (hwritten.grown hne)]
      exact hwritten.linked hnone

/-- The journals of a mutation are read back exactly when it publishes no external output.  A
journal with one record changed is refused exactly when the change is not to the last record, or
is not sealed again behind an intact front; a record missing in the middle is noticed unless it is
`external-published`; a record of another operation is noticed unless it stands alone. -/
theorem journal_readsBack_iff (hfree : Function.Injective semanticSha256)
    (hgenesis : ∀ body, semanticSha256 body ≠ "genesis") (m : Mutation) :
    (m.ReadsBack semanticSha256 ↔ m.externals = []) ∧
      ∀ entries, m.Written semanticSha256 entries →
        (∀ phase record file, (phase, record) ∈ entries → file ≠ .record record →
          (Refused semanticSha256
              ((journalOf (filesOf entries)).exchange phase (some file)) ↔
            ¬ Resealed semanticSha256 entries phase file)) ∧
        (∀ before phase record after, entries = before ++ (phase, record) :: after →
          before ≠ [] → after ≠ [] →
            (Refused semanticSha256 ((journalOf (filesOf entries)).exchange phase none) ↔
              ¬ (phase = .externalPublished ∧ entries <+: m.entries semanticSha256))) ∧
        ∀ (m' : Mutation) entries' phase record record', m'.operationId ≠ m.operationId →
          m'.Written semanticSha256 entries' → (phase, record) ∈ entries →
            (phase, record') ∈ entries' →
              (Refused semanticSha256
                  ((journalOf (filesOf entries)).exchange phase (some (.record record'))) ↔
                1 < entries.length) := by
  refine ⟨m.readsBack_iff hfree, fun entries hwritten => ⟨?_, ?_, ?_⟩⟩
  · intro phase record file hmem hfile
    exact (hwritten.grown (List.ne_nil_of_mem hmem)).refused_altered_iff hfree hgenesis hmem hfile
  · intro before phase record after hentries hbefore hafter
    exact hwritten.refused_without_iff hfree hgenesis hentries hbefore hafter
  · intro m' entries' phase record record' hne hwritten' hmem hmem'
    exact hwritten.refused_foreign_iff hfree hgenesis hne hwritten' hmem hmem'

end Reading

/-! ## A mutation with an external output -/

section Spelled

open Library (PrefixCode)

def placeCode : PrefixCode Place :=
  (PrefixCode.pair (.option .text) (.option (.pair .text .text))).map
    (fun
      | .generation name => (some name, none)
      | .root => (none, none)
      | .outside path => (none, some (path.folder, path.fileName)))
    fun a b h => by
      cases a <;> cases b <;> simp_all
      rename_i path path'
      cases path
      cases path'
      simp_all

def externalCode : PrefixCode External :=
  (PrefixCode.pair (.pair .text .text) (.pair .text (.pair .text (.pair (.option .text)
    (.pair (.option (.pair (.option .bool) (.option .text)))
      (.pair (.option .text) (.option .text))))))).map
    (fun e => ((e.target.folder, e.target.fileName), e.staged, e.mode, e.sha256,
      e.expectedBefore.map (fun before => (before.present, before.sha256)), e.backup,
      e.backupSha256))
    fun a b h => by
      obtain ⟨⟨_, _⟩, _, _, _, before, _, _⟩ := a
      obtain ⟨⟨_, _⟩, _, _, _, before', _, _⟩ := b
      cases before <;> cases before' <;> simp_all
      rename_i before before'
      cases before
      cases before'
      simp_all

def envelopeCode : PrefixCode Envelope :=
  (PrefixCode.pair .text (.pair .text (.pair .text (.pair (.option .text) (.pair .text
    (.pair (.list .text) .bool)))))).map
    (fun e => (e.schema, e.operation, e.outcome, e.operationId, e.data, e.evidence, e.shaped))
    fun a b h => by
      cases a
      cases b
      simp_all

def payloadCode : PrefixCode Payload :=
  (PrefixCode.pair (.option .text) (.pair (.option .text) (.pair (.option .text)
    (.pair (.option .text) (.pair (.option envelopeCode) (.pair (.option placeCode)
      (.pair (.option .bool) (.pair (.option placeCode) (.pair (.option (.list externalCode))
        (.pair (.option .text) (.list (.pair .text .text)))))))))))).map
    (fun p => (p.operationId, p.generation, p.parent, p.inputSha256, p.envelope, p.ledgerAnchor,
      p.ledgerDirectory, p.evidencePath, p.externals, p.outcome, p.rest))
    fun a b h => by
      cases a
      cases b
      simp_all

def bodyCode : PrefixCode Body :=
  (PrefixCode.pair (.option .text) (.pair (.option .text) (.pair (.option .text)
    payloadCode))).map
    (fun b => (b.schema, b.phase, b.prevHash, b.payload))
    fun a b h => by
      cases a
      cases b
      simp_all

/-- A body written out, in place of its hash. -/
def spelledBody (body : Body) : String := String.ofList (bodyCode.spell body)

theorem spelledBody_injective : Function.Injective spelledBody := fun _ _ h =>
  bodyCode.spell_injective (String.ofList_injective h)

theorem spelledBody_ne_genesis (body : Body) : spelledBody body ≠ "genesis" := by
  intro h
  have hspell : bodyCode.spell body = "genesis".toList := by
    rw [← h, spelledBody, String.toList_ofList]
  obtain ⟨schema, phase, prevHash, payload⟩ := body
  cases schema <;> exact absurd (List.cons.inj hspell).1 (by decide)

end Spelled

def sampleEnvelope : Envelope where
  schema := "docx2typed-result-1"
  operation := "build"
  outcome := "success"
  operationId := some "op-1"
  data := ""
  evidence := ["run"]

/-- An edit of the workdir: a new generation and nothing outside. -/
def editMutation : Mutation where
  operationId := "op-1"
  canonical := "canonical"
  expectedGeneration := "gen-0"
  inputSha256 := "manifest-0"
  kind := "mutation"
  pointerSha256 := "pointer-0"
  generationId := "gen-1"
  isGeneration := true
  current := "gen-0"
  manifestSha256 := "manifest-1"
  evidencePath := .generation "gen-1"
  evidenceSha256 := "evidence"
  envelope := sampleEnvelope
  envelopeSha256 := "envelope"
  ledgerAnchor := .generation "gen-1"
  ledgerDirectory := true
  externals := []
  published := []

def sampleExternal : External where
  target := { folder := "/out", fileName := "out.docx" }
  staged := "/wd/.docx2typed-store/staging/op-1/out.docx"
  mode := "replace"
  sha256 := some "built"
  expectedBefore := some { present := some false, sha256 := none }

/-- A build: one output outside of the store. -/
def buildMutation : Mutation :=
  { editMutation with
    isGeneration := false, externals := [sampleExternal], published := [sampleExternal] }

theorem editMutation_readsBack : editMutation.ReadsBack spelledBody :=
  (journal_readsBack_iff spelledBody_injective spelledBody_ne_genesis editMutation).1.mpr rfl

/-- A build that has come as far as `generation-committed` leaves a journal that is refused. -/
theorem buildMutation_refused :
    buildMutation.Written spelledBody ((buildMutation.entries spelledBody).take 4) ∧
      Refused spelledBody (journalOf (filesOf ((buildMutation.entries spelledBody).take 4))) :=
  ⟨.stopped 4, buildMutation.refused_committed spelledBody_injective (by decide)⟩

end Docx2Typed.Store
