import Docx2Typed.Collab.Directories
import Docx2Typed.Collab.JournalParents

/-!
# What a frame of the history shows

The trail is copied from generation to generation, and only the closure of a mutation adds to it.
So every record that the pinned trail holds was logged by the mutation that made its generation,
and that generation reads as the closure left it for as long as it lies there.
-/

namespace Docx2Typed.History

open Store List
open Library
open Library.Program

variable {text : RecordText}

/-! ## The trail -/

theorem trailText_of_same {files files' : Files} (h : SameReading files files') :
    trailText files = trailText files' := by
  rw [trailText, trailText, h historyPath (by decide)]

theorem trail_of_same {files files' : Files} (h : SameReading files files') :
    trail text files = trail text files' := by
  rw [trail, trail, trailText_of_same h]

theorem trail_empty : trail text ∅ = [] := rfl

/-- The trail ends with a whole line. -/
def WholeLines (files : Files) : Prop :=
  trailText files = [] ∨ ∃ front, trailText files = front ++ ['\n']

theorem WholeLines.of_same {files files' : Files} (h : SameReading files files')
    (hwhole : WholeLines files) : WholeLines files' := by
  rw [WholeLines, ← trailText_of_same h]
  exact hwhole

theorem trailText_append (record : HistoryRecord) (files : Files) :
    trailText (append text record files) = trailText files ++ (text.write record ++ ['\n']) := by
  rw [trailText, append, AList.lookup_insert]
  exact String.toList_ofList

theorem wholeLines_append (record : HistoryRecord) (files : Files) :
    WholeLines (append text record files) := by
  right
  rw [trailText_append, ← append_assoc]
  exact ⟨_, rfl⟩

variable {files : Files}

/-- A record appended to whole lines is read after those that are there. -/
theorem trail_append (record : HistoryRecord) (h : WholeLines files) :
    trail text (append text record files) = trail text files ++ [record] := by
  have hline : linesFrom (· == '\n') [] (text.write record ++ ['\n']) =
      [text.write record] := by
    refine (linesFrom_line_newline (by decide) [] (fun c hc => ?_)
      (text.carriage record)).trans ?_
    · exact beq_eq_false_iff_ne.mpr fun heq => text.newline record (heq ▸ hc)
    · rw [nil_append, linesFrom_nil, if_pos rfl]
  have hread : [text.write record].filterMap text.read = [record] := by
    rw [filterMap_cons, text.read_write, filterMap_nil]
  rw [trail, trail, trailText_append]
  rcases h with h | ⟨front, h⟩
  · rw [h, nil_append, hline, hread]
    rfl
  · rw [h, append_assoc, singleton_append,
      linesFrom_append_newline (by decide), hline, filterMap_append, hread]

variable {generation : String}

/-- The closure adds its records to the trail, and nothing else. -/
theorem trail_perform : ∀ {acts : List Act} {files final : Files},
    perform text generation acts files = .ok final → WholeLines files →
      WholeLines final ∧ trail text final =
        trail text files ++ (appended text generation acts files).map (·.record)
  | [], files, final, h, hwhole => by
    cases h
    exact ⟨hwhole, (append_nil _).symm⟩
  | .change change :: acts, files, final, h, hwhole => by
    rw [perform] at h
    rw [appended]
    cases hrun : change.run files with
    | error error =>
      rw [hrun] at h
      cases h
    | ok files' =>
      rw [hrun] at h
      have htext : trailText files' = trailText files := by
        rw [trailText, trailText, change.trail_eq hrun]
      have hsame : trail text files' = trail text files := by rw [trail, trail, htext]
      obtain ⟨hfinal, htrail⟩ := trail_perform h (by rw [WholeLines, htext]; exact hwhole)
      exact ⟨hfinal, htrail.trans (by rw [hsame])⟩
  | .append historyId payload :: acts, files, final, h, hwhole => by
    rw [perform] at h
    obtain ⟨hfinal, htrail⟩ := trail_perform h (wholeLines_append _ _)
    refine ⟨hfinal, htrail.trans ?_⟩
    rw [trail_append _ hwhole, appended, append_assoc]
    rfl

theorem generation_of_mem_appended : ∀ {acts : List Act} {files : Files}
    {entry : Appended}, entry ∈ appended text generation acts files →
      entry.record.generation = some generation
  | [], _, _, h => absurd h not_mem_nil
  | .change change :: acts, files, entry, h => by
    rw [appended] at h
    cases hrun : change.run files with
    | error error =>
      rw [hrun] at h
      exact absurd h not_mem_nil
    | ok files' =>
      rw [hrun] at h
      exact generation_of_mem_appended h
  | .append historyId payload :: acts, files, entry, h => by
    rcases mem_cons.mp h with rfl | h
    · rfl
    · exact generation_of_mem_appended h

theorem lookup_overlayIngress {root files : Files} {name : String} (hname : name ∉ ingressFiles) :
    (overlayIngress root files).lookup name = files.lookup name := by
  simp only [ingressFiles, mem_cons, not_mem_nil, or_false, not_or] at hname
  simp only [overlayIngress, ingressFiles, foldl_cons, foldl_nil]
  split <;> split <;> simp only [AList.lookup_insert_ne hname.1, AList.lookup_insert_ne hname.2]

theorem trailText_overlayIngress {root files : Files} :
    trailText (overlayIngress root files) = trailText files := by
  rw [trailText, trailText, lookup_overlayIngress (by decide)]

/-! ## What a run keeps -/

/-- A record of the pinned trail: its generation is there, all that was logged of it was as a frame
reads it there, and stands. -/
structure Held (state : Reviewed) (record : HistoryRecord) (generation : String) : Prop where
  lies : ∃ files, state.disk.generations.lookup generation = some files ∧
    ∀ logged ∈ state.log, logged.record = record → SameReading files logged.files
  isLogged : ∃ logged ∈ state.log, logged.record = record
  stands : ∀ logged ∈ state.log, logged.record = record → logged.stands = true

/-- The files of the generation that the pointer selects. -/
def SelectedFiles (disk : Disk) (generation : String) (files : Files) : Prop :=
  disk.pointer.map (·.generation) = some generation ∧
    disk.generations.lookup generation = some files

structure Traced (text : RecordText) (state : Reviewed) : Prop where
  whole : ∀ selected files, SelectedFiles state.disk selected files → WholeLines files
  held : ∀ selected files record generation, SelectedFiles state.disk selected files →
    record ∈ trail text files → record.generation = some generation →
      Held state record generation
  pointerDrawn : ∀ selected, state.disk.pointer.map (·.generation) = some selected →
    selected ∈ state.drawn
  logDrawn : ∀ logged ∈ state.log, ∃ generation ∈ state.drawn,
    logged.record.generation = some generation

variable {disk : Disk} {pointer : Pointer}

theorem pinned_eq_ok (h : pinned disk = .ok (pointer, files)) :
    SelectedFiles disk pointer.generation files := by
  unfold pinned at h
  split at h
  · cases h
  · rename_i pointer' hpointer
    split at h
    · cases h
    · rename_i files' hfiles
      split at h
      · split at h
        · obtain ⟨rfl, rfl⟩ := Prod.mk.inj (Except.ok.inj h)
          exact ⟨by rw [hpointer]; rfl, hfiles⟩
        · cases h
      · cases h

variable {state : Reviewed}

theorem Traced.reconstructs (h : Traced text state) :
    Reconstructs text state where
  served pointer files historyId record generation hpinned hread hgeneration := by
    have hselected := pinned_eq_ok hpinned
    have hheld := h.held _ files record generation hselected (mem_of_find?_eq_some hread)
      hgeneration
    obtain ⟨files', hlies, hsame⟩ := hheld.lies
    refine ⟨⟨generation, generationManifestSha256 state.disk generation, some historyId, files'⟩,
      ?_, rfl, hheld.isLogged, hsame⟩
    rw [reviewFrame, hpinned]
    simp only [hread, hgeneration, hlies]
  rolledBack logged hlogged hstands pointer files historyId hpinned hread := by
    obtain ⟨generation, -, hgeneration⟩ := h.logDrawn logged hlogged
    have hheld := h.held _ files logged.record generation (pinned_eq_ok hpinned)
      (mem_of_find?_eq_some hread) hgeneration
    rw [hheld.stands logged hlogged rfl] at hstands
    cases hstands

/-! ## Steps that make no generation -/

/-- A record of the pinned trail names the generation. -/
def Cites (text : RecordText) (disk : Disk) (generation : String) : Prop :=
  ∃ selected files record, SelectedFiles disk selected files ∧ record ∈ trail text files ∧
    record.generation = some generation

variable {gone : String → Prop}

/-- What the pointer selects after a step has been there before, or holds nothing. -/
theorem Besides.selectedFiles {start disk : Disk} (h : Besides gone start disk)
    (hpointer : disk.pointer.map (·.generation) = start.pointer.map (·.generation))
    {selected : String} (hselected : SelectedFiles disk selected files) (hgone : ¬ gone selected) :
    SameReading ∅ files ∨ ∃ before, SelectedFiles start selected before ∧
      SameReading before files := by
  have hsame := (h selected hgone).2 files hselected.2
  cases hlies : start.generations.lookup selected with
  | none =>
    rw [hlies] at hsame
    exact .inl hsame
  | some before =>
    rw [hlies] at hsame
    exact .inr ⟨before, ⟨hpointer ▸ hselected.1, hlies⟩, hsame⟩

variable {record : HistoryRecord}

theorem Held.of_besides (h : Held state record generation) (hbesides : Besides gone state.disk disk)
    (hgone : ¬ gone generation) :
    ∃ files, disk.generations.lookup generation = some files ∧
      ∀ logged ∈ state.log, logged.record = record → SameReading files logged.files := by
  obtain ⟨files, hlies, hsame⟩ := h.lies
  obtain ⟨hthere, hreads⟩ := hbesides generation hgone
  obtain ⟨files', hfiles'⟩ := Option.isSome_iff_exists.mp (hthere (by rw [hlies]; rfl))
  refine ⟨files', hfiles', fun logged hlogged heq => ?_⟩
  have hfrom := hreads files' hfiles'
  rw [hlies] at hfrom
  exact hfrom.symm.trans (hsame logged hlogged heq)

/-- A step that leaves the pointer where it was reads the history of the files that were there. -/
theorem Traced.of_selected {after : Reviewed} (h : Traced text state)
    (hbesides : Besides gone state.disk after.disk)
    (hpointer : after.disk.pointer.map (·.generation) = state.disk.pointer.map (·.generation))
    (hselects : ∀ selected, state.disk.pointer.map (·.generation) = some selected → ¬ gone selected)
    (hheld : ∀ record generation, Cites text state.disk generation →
      record.generation = some generation → Held state record generation →
        Held after record generation)
    (hdrawn : ∀ generation ∈ state.drawn, generation ∈ after.drawn)
    (hlog : ∀ logged ∈ after.log, ∃ generation ∈ after.drawn,
      logged.record.generation = some generation) : Traced text after where
  whole selected files hselected := by
    rcases hbesides.selectedFiles hpointer hselected (hselects selected (hpointer ▸ hselected.1))
      with hempty | ⟨before, hbefore, hsame⟩
    · exact WholeLines.of_same hempty (.inl rfl)
    · exact (h.whole selected before hbefore).of_same hsame
  held selected files record generation hselected hrecord hgeneration := by
    rcases hbesides.selectedFiles hpointer hselected (hselects selected (hpointer ▸ hselected.1))
      with hempty | ⟨before, hbefore, hsame⟩
    · rw [← trail_of_same hempty, trail_empty] at hrecord
      exact absurd hrecord not_mem_nil
    · rw [← trail_of_same hsame] at hrecord
      exact hheld record generation ⟨selected, before, record, hbefore, hrecord, hgeneration⟩
        hgeneration (h.held selected before record generation hbefore hrecord hgeneration)
  pointerDrawn selected hselected := hdrawn selected (h.pointerDrawn selected (hpointer ▸ hselected))
  logDrawn := hlog

/-- A step that neither moves the pointer nor removes what its trail names keeps the history. -/
theorem Traced.of_besides (h : Traced text state) (hbesides : Besides gone state.disk disk)
    (hpointer : disk.pointer.map (·.generation) = state.disk.pointer.map (·.generation))
    (hselects : ∀ selected, state.disk.pointer.map (·.generation) = some selected → ¬ gone selected)
    (hcited : ∀ generation, Cites text state.disk generation → ¬ gone generation) :
    Traced text { state with disk } := by
  refine h.of_selected hbesides hpointer hselects (fun record generation hcites _ hheld => ?_)
    (fun _ hdrawn => hdrawn) h.logDrawn
  exact ⟨hheld.of_besides hbesides (hcited generation hcites), hheld.isLogged, hheld.stands⟩

/-! ## Mutations -/

section Mutations

variable {digests : Digests} {canonicalSource : Files → Option TargetPath} {request : Request}
  {acts : List Act} {fates : List Fate} {state : Reviewed}

/-- What the closure does after an append changes nothing that a frame reads. -/
def AppendsLast (text : RecordText) (disk : Disk) (request : Request) (acts : List Act) : Prop :=
  ∀ files final, parentFiles disk = some files →
    perform text request.generationId acts files = .ok final →
      ∀ entry ∈ appended text request.generationId acts files, SameReading final entry.files

theorem generation_of_mem_appendedAt {entry : Appended}
    (h : entry ∈ appendedAt text state.disk request acts) :
    entry.record.generation = some request.generationId := by
  unfold appendedAt at h
  split at h
  · split at h
    · exact generation_of_mem_appended h
    · exact absurd h not_mem_nil
  · exact absurd h not_mem_nil

theorem besides_mutate : Besides (· = request.generationId) state.disk
    (state.step text digests canonicalSource (.mutate request acts fates)).disk := by
  have hstep : Besides (· = (performing text request acts).generationId) state.disk
      (mutateSettled digests canonicalSource (performing text request acts) state.disk
        fates).state :=
    besides_mutateSettled digests fates
  exact hstep

/-- The records of earlier generations keep what was logged of them. -/
theorem Held.of_mutate (h : Held state record generation)
    (hgeneration : record.generation = some generation) (hold : generation ≠ request.generationId) :
    Held (state.step text digests canonicalSource (.mutate request acts fates)) record
      generation := by
  have hbefore : ∀ logged ∈ (state.step text digests canonicalSource
      (.mutate request acts fates)).log, logged.record = record → logged ∈ state.log := by
    intro logged hlogged heq
    rcases mem_append.mp hlogged with hlogged | hlogged
    · exact hlogged
    · obtain ⟨entry, hentry, rfl⟩ := mem_map.mp hlogged
      have hnew := generation_of_mem_appendedAt hentry
      rw [show entry.record = record from heq, hgeneration] at hnew
      exact absurd (Option.some.inj hnew) hold
  obtain ⟨files, hlies, hsame⟩ := h.of_besides besides_mutate hold
  obtain ⟨logged, hlogged, heq⟩ := h.isLogged
  exact ⟨⟨files, hlies, fun logged hlogged heq => hsame logged (hbefore logged hlogged heq) heq⟩,
    ⟨logged, mem_append_left _ hlogged, heq⟩,
    fun logged hlogged heq => h.stands logged (hbefore logged hlogged heq) heq⟩

/-- What the closure of a mutation that has made a generation has left. -/
theorem outcomeAt_performing {outcome : RunOutcome} (hpointer : disk.pointer = some pointer)
    (h : (performing text request acts).outcomeAt pointer disk = some outcome) :
    ∃ parent, disk.generations.lookup pointer.generation = some parent ∧
      parentFiles disk = some (overlayIngress disk.root parent) ∧
      perform text request.generationId acts (overlayIngress disk.root parent) =
        .ok outcome.files := by
  obtain ⟨parent, hparent, hrun⟩ := Option.bind_eq_some_iff.mp h
  refine ⟨parent, hparent, by rw [parentFiles, hpointer, Option.bind_some, hparent]; rfl, ?_⟩
  simp only [performing] at hrun
  cases hperform : perform text request.generationId acts (overlayIngress disk.root parent) with
  | error error =>
    rw [hperform] at hrun
    cases hrun
  | ok final =>
    rw [hperform] at hrun
    dsimp only at hrun
    cases hgiven : request.run final with
    | error error =>
      rw [hgiven] at hrun
      cases hrun
    | ok outcome' =>
      rw [hgiven] at hrun
      obtain rfl := Option.some.inj hrun
      rfl

section

variable (h : Traced text state)

include h

theorem Traced.held_drawn (hheld : Held state record generation)
    (hgeneration : record.generation = some generation) : generation ∈ state.drawn := by
  obtain ⟨logged, hlogged, heq⟩ := hheld.isLogged
  obtain ⟨generation', hdrawn, hrecord⟩ := h.logDrawn logged hlogged
  rw [heq, hgeneration] at hrecord
  exact Option.some.inj hrecord ▸ hdrawn

theorem Traced.logDrawn_mutate :
    ∀ logged ∈ (state.step text digests canonicalSource (.mutate request acts fates)).log,
      ∃ generation ∈ (state.step text digests canonicalSource
        (.mutate request acts fates)).drawn, logged.record.generation = some generation := by
  intro logged hlogged
  rcases mem_append.mp hlogged with hlogged | hlogged
  · obtain ⟨generation, hdrawn, hrecord⟩ := h.logDrawn logged hlogged
    exact ⟨generation, mem_cons_of_mem _ hdrawn, hrecord⟩
  · obtain ⟨entry, hentry, rfl⟩ := mem_map.mp hlogged
    exact ⟨request.generationId, mem_cons_self, generation_of_mem_appendedAt hentry⟩

/-- A mutation that leaves the pointer where it was keeps the history. -/
theorem Traced.of_stays (hdrawn : request.generationId ∉ state.drawn)
    (hpointer : (state.step text digests canonicalSource
      (.mutate request acts fates)).disk.pointer.map (·.generation) =
        state.disk.pointer.map (·.generation)) :
    Traced text (state.step text digests canonicalSource (.mutate request acts fates)) := by
  refine h.of_selected besides_mutate hpointer (fun selected hselected heq => ?_)
    (fun record generation _ hgeneration hheld => ?_) (fun _ => mem_cons_of_mem _)
    h.logDrawn_mutate
  · exact hdrawn (heq ▸ h.pointerDrawn selected hselected)
  · exact hheld.of_mutate hgeneration fun heq => hdrawn (heq ▸ h.held_drawn hheld hgeneration)

/-- So does one that moves it to the generation it has made. -/
theorem Traced.of_made (hdrawn : request.generationId ∉ state.drawn)
    (hlast : AppendsLast text state.disk request acts) (hmakes : request.generation = true)
    (hselects : (state.step text digests canonicalSource
      (.mutate request acts fates)).disk.pointer.map (·.generation) = some request.generationId)
    {parent final : Files} (hpointer : state.disk.pointer = some pointer)
    (hparent : state.disk.generations.lookup pointer.generation = some parent)
    (hrun : parentFiles state.disk = some (overlayIngress state.disk.root parent))
    (hperform : perform text request.generationId acts
      (overlayIngress state.disk.root parent) = .ok final)
    (hleft : LeftAs final request.generationId (state.step text digests canonicalSource
      (.mutate request acts fates)).disk) :
    Traced text (state.step text digests canonicalSource (.mutate request acts fates)) := by
  have hbefore : SelectedFiles state.disk pointer.generation parent :=
    ⟨by rw [hpointer]; rfl, hparent⟩
  have hwhole : WholeLines (overlayIngress state.disk.root parent) := by
    rw [WholeLines, trailText_overlayIngress]
    exact h.whole _ parent hbefore
  obtain ⟨hfinal, htrail⟩ := trail_perform hperform hwhole
  have hparentTrail : trail text (overlayIngress state.disk.root parent) = trail text parent := by
    rw [trail, trail, trailText_overlayIngress]
  have happended : appendedAt text state.disk request acts =
      appended text request.generationId acts (overlayIngress state.disk.root parent) := by
    rw [appendedAt, if_pos hmakes, hrun]
  have hgenerationIs : ∀ {selected files}, SelectedFiles (state.step text digests canonicalSource
      (.mutate request acts fates)).disk selected files → selected = request.generationId :=
    fun hselected => Option.some.inj (hselected.1.symm.trans hselects)
  refine ⟨fun selected files hselected => ?_, fun selected files record generation hselected
    hrecord hgeneration => ?_, fun selected hselected => ?_, h.logDrawn_mutate⟩
  · obtain rfl := hgenerationIs hselected
    exact (hleft files hselected.2).elim (hfinal.of_same ·) (WholeLines.of_same · (.inl rfl))
  · obtain rfl := hgenerationIs hselected
    rcases hleft files hselected.2 with hsame | hempty
    · rw [← trail_of_same hsame, htrail, hparentTrail] at hrecord
      rcases mem_append.mp hrecord with hrecord | hrecord
      · have hheld := h.held _ parent record generation hbefore hrecord hgeneration
        exact hheld.of_mutate hgeneration fun heq => hdrawn (heq ▸ h.held_drawn hheld hgeneration)
      · obtain ⟨entry, hentry, rfl⟩ := mem_map.mp hrecord
        have hnew := generation_of_mem_appended hentry
        obtain rfl := Option.some.inj (hgeneration.symm.trans hnew)
        -- what is logged of this record is logged by this mutation, since its generation is new
        have hlogged : ∀ logged ∈ (state.step text digests canonicalSource
            (.mutate request acts fates)).log, logged.record = entry.record →
              SameReading files logged.files ∧ logged.stands = true := by
          intro logged hlogged heq
          rcases mem_append.mp hlogged with hlogged | hlogged
          · obtain ⟨old, hold, hrecord⟩ := h.logDrawn logged hlogged
            rw [heq, hnew] at hrecord
            exact absurd (Option.some.inj hrecord ▸ hold) hdrawn
          · obtain ⟨entry', hentry', rfl⟩ := mem_map.mp hlogged
            rw [happended] at hentry'
            exact ⟨hsame.symm.trans (hlast _ final hrun hperform entry' hentry'),
              decide_eq_true hselects⟩
        refine ⟨⟨files, hselected.2, fun logged hmem heq => (hlogged logged hmem heq).1⟩, ?_,
          fun logged hmem heq => (hlogged logged hmem heq).2⟩
        exact ⟨_, mem_append_right _ (mem_map.mpr ⟨entry, happended ▸ hentry, rfl⟩), rfl⟩
    · rw [← trail_of_same hempty, trail_empty] at hrecord
      exact absurd hrecord not_mem_nil
  · obtain rfl := Option.some.inj (hselected.symm.trans hselects)
    exact mem_cons_self

end

end Mutations

/-! ## Rollbacks -/

/-- The trail of the parent does not name the generation. -/
def Unnamed (text : RecordText) (disk : Disk) (generation parent : String) : Prop :=
  ∀ files, disk.generations.lookup parent = some files →
    ∀ record ∈ trail text files, record.generation ≠ some generation

/-- A generation that a journal names with its parent came after it. -/
def Later (text : RecordText) (state : Reviewed) (generation parent : String) : Prop :=
  parent ∈ state.drawn ∧ Unnamed text state.disk generation parent

theorem Unnamed.of_fades {start disk : Disk} {generation parent : String}
    (h : Unnamed text start generation parent) {made : String → Prop}
    (hfades : Fades made start disk) (hmade : ¬ made parent) :
    Unnamed text disk generation parent := by
  intro files hfiles record hrecord
  rcases hfades parent hmade files hfiles with hempty | ⟨before, hbefore, hsame⟩
  · rw [← trail_of_same hempty, trail_empty] at hrecord
    exact absurd hrecord not_mem_nil
  · rw [← trail_of_same hsame] at hrecord
    exact h before hbefore record hrecord

theorem JournalsRelate.mono {related related' : String → String → Prop}
    (h : JournalsRelate related disk)
    (himp : ∀ generation parent, related generation parent → related' generation parent) :
    JournalsRelate related' disk :=
  fun _ journal phase record hlookup hrecord _ _ hgeneration hparent =>
    himp _ _ (h _ journal phase record hlookup hrecord _ _ hgeneration hparent)

/-- What the recovery of a transaction rolls back is not named in the pinned trail. -/
theorem not_rollsBack_of_cites {digests : Digests}
    (h : JournalsRelate (Later text state) state.disk) {txName generation : String}
    (hcites : Cites text state.disk generation) :
    ¬ RollsBack digests state.disk txName generation := by
  rintro ⟨records, hread, hcourse⟩
  obtain ⟨-, prepared, hmem, hgeneration, hparent⟩ := course_eq_rollBackPrepared hcourse
  obtain ⟨selected, files, record, hselected, hrecord, hnames⟩ := hcites
  rw [hselected.1] at hparent
  exact ((h.of_read hread) prepared hmem generation selected hgeneration hparent.symm).2 files
    hselected.2 record hrecord hnames

/-! ## Runs -/

variable {acts : List Act} {request : Request}

section Runs

variable {digests : Digests} {canonicalSource : Files → Option TargetPath}

/-- What a run keeps, with what its journals name. -/
structure Sound (text : RecordText) (state : Reviewed) : Prop where
  traced : Traced text state
  journals : JournalsRelate (Later text state) state.disk

/-- The id of a new generation has not been drawn before. -/
def Draws (state : Reviewed) : Event → Prop
  | .mutate request _ _ => request.generationId ∉ state.drawn
  | _ => True

/-- A mutation changes nothing that a frame reads once it has appended, and a collection finds every
generation that the pinned trail names selected by the pointer or named by a journal. -/
def Careful (text : RecordText) (digests : Digests) (state : Reviewed) : Event → Prop
  | .mutate request acts _ => AppendsLast text state.disk request acts
  | .settle _ _ => True
  | .collect _ => ∀ generation, Cites text state.disk generation →
      Selected state.disk generation ∨ Journaled digests state.disk generation

theorem came_mutate {state : Reviewed} {request : Request} {acts : List Act}
    {fates : List Fate} : Came (performing text request acts) state.disk
      (state.step text digests canonicalSource (.mutate request acts fates)).disk := by
  have hstep : Came (performing text request acts) state.disk (mutateSettled digests
      canonicalSource (performing text request acts) state.disk fates).state :=
    came_mutateSettled fates
  exact hstep

theorem Traced.mutate (h : Traced text state) (hdrawn : request.generationId ∉ state.drawn)
    (hlast : AppendsLast text state.disk request acts) (fates : List Fate) :
    Traced text (state.step text digests canonicalSource (.mutate request acts fates)) := by
  rcases @came_mutate text digests canonicalSource state request acts fates with
    hstays | ⟨hmakes, hselects, pointer, outcome, hpointer, houtcome, hleft⟩
  · exact h.of_stays hdrawn hstays
  · obtain ⟨parent, hparent, hrun, hperform⟩ := outcomeAt_performing hpointer houtcome
    exact h.of_made hdrawn hlast hmakes hselects hpointer hparent hrun hperform hleft

theorem journals_mutate (h : Sound text state) (hdrawn : request.generationId ∉ state.drawn)
    (fates : List Fate) :
    JournalsRelate (Later text state) (state.step text digests canonicalSource
      (.mutate request acts fates)).disk := by
  have hpair : ∀ pointer, state.disk.pointer = some pointer →
      Later text state (performing text request acts).generationId pointer.generation := by
    intro pointer hpointer
    have hselects : state.disk.pointer.map (·.generation) = some pointer.generation := by
      rw [hpointer]
      rfl
    refine ⟨h.traced.pointerDrawn _ hselects, fun files hfiles record hrecord hnames => ?_⟩
    have hheld := h.traced.held _ files record _ ⟨hselects, hfiles⟩ hrecord hnames
    exact hdrawn (h.traced.held_drawn hheld hnames)
  have hstep : JournalsRelate (Later text state) (mutateSettled digests canonicalSource
      (performing text request acts) state.disk fates).state :=
    journals_mutateSettled digests h.journals hpair fates
  exact hstep

theorem fades_mutate {fates : List Fate} : Fades (· = request.generationId) state.disk
      (state.step text digests canonicalSource (.mutate request acts fates)).disk := by
  have hstep : Fades (· = (performing text request acts).generationId) state.disk
      (mutateSettled digests canonicalSource (performing text request acts) state.disk
        fates).state := fades_mutateSettled digests fates
  exact hstep

section

variable (h : Sound text state)

include h

theorem Sound.mutate (hdrawn : request.generationId ∉ state.drawn)
    (hlast : AppendsLast text state.disk request acts) (fates : List Fate) :
    Sound text (state.step text digests canonicalSource (.mutate request acts fates)) where
  traced := h.traced.mutate hdrawn hlast fates
  journals := by
    refine (journals_mutate h hdrawn fates).mono fun generation parent hlater => ?_
    exact ⟨mem_cons_of_mem _ hlater.1,
      hlater.2.of_fades fades_mutate fun heq => hdrawn (heq ▸ hlater.1)⟩

theorem Sound.settle (txName : String) (fates : List Fate) :
    Sound text (state.step text digests canonicalSource (.settle txName fates)) where
  traced := by
    refine h.traced.of_besides (besides_recoverTx digests fates)
      (by rw [pointer_recoverTx]) (fun selected hselected hgone => ?_) fun generation hcites =>
        not_rollsBack_of_cites h.journals hcites
    obtain ⟨records, -, hcourse⟩ := hgone
    exact (course_eq_rollBackPrepared hcourse).1 hselected
  journals := by
    have hfades : Fades (fun _ => False) state.disk
        (recoverTx digests txName state.disk fates).state := fades_recoverTx digests fates
    exact (journals_recoverTx digests h.journals fates).mono fun _ _ hlater =>
      ⟨hlater.1, hlater.2.of_fades hfades id⟩

theorem Sound.collect
    (hcareful : ∀ generation, Cites text state.disk generation →
      Selected state.disk generation ∨ Journaled digests state.disk generation) (fates : List Fate)
    :
    Sound text (state.step text digests canonicalSource (.collect fates)) where
  traced := by
    refine h.traced.of_besides (besides_gcAbandoned digests fates)
      (by rw [pointer_gcAbandoned]) (fun selected hselected hgone => ?_) fun generation hcites =>
        not_not.mpr (mem_referenced.mpr (hcareful generation hcites))
    exact hgone (mem_referenced.mpr (.inl hselected))
  journals := by
    have hfades : Fades (fun _ => False) state.disk
        (gcAbandoned digests state.disk fates).state := fades_gcAbandoned digests fates
    exact (journals_gcAbandoned digests h.journals fates).mono fun _ _ hlater =>
      ⟨hlater.1, hlater.2.of_fades hfades id⟩

theorem Sound.step {event : Event} (hdraws : Draws state event)
    (hcareful : Careful text digests state event) :
    Sound text (state.step text digests canonicalSource event) := by
  cases event with
  | mutate request acts fates => exact h.mutate hdraws hcareful fates
  | settle txName fates => exact h.settle txName fates
  | collect fates => exact h.collect hcareful fates

end

/-- A condition holds of every step of a run. -/
def Along (text : RecordText) (digests : Digests) (canonicalSource : Files → Option TargetPath)
    (condition : Reviewed → Event → Prop) : Reviewed → List Event → Prop
  | _, [] => True
  | state, event :: events => condition state event ∧
      Along text digests canonicalSource condition
        (state.step text digests canonicalSource event) events

theorem Along.of_append {condition : Reviewed → Event → Prop} {later : List Event} :
    ∀ {events : List Event} {state : Reviewed},
      Along text digests canonicalSource condition state (events ++ later) →
        Along text digests canonicalSource condition state events
  | [], _, _ => trivial
  | _ :: _, _, h => ⟨h.1, Along.of_append h.2⟩

theorem Sound.run : ∀ {events : List Event} {state : Reviewed}, Sound text state →
    Along text digests canonicalSource Draws state events →
      Along text digests canonicalSource (Careful text digests) state events →
        Sound text (state.run text digests canonicalSource events)
  | [], _, h, _, _ => h
  | event :: events, state, h, hdraws, hcareful => by
    have hstep : Sound text (state.step text digests canonicalSource event) :=
      h.step hdraws.1 hcareful.1
    exact hstep.run hdraws.2 hcareful.2

/-- A store that has just been made: its trail has whole lines, none of which names a generation,
and no transaction is pending. -/
structure Fresh (text : RecordText) (state : Reviewed) : Prop where
  trail : ∀ selected files, SelectedFiles state.disk selected files → WholeLines files ∧
    ∀ record ∈ trail text files, record.generation = none
  drawn : ∀ selected, state.disk.pointer.map (·.generation) = some selected →
    selected ∈ state.drawn
  transactions : state.disk.transactions = ∅
  log : state.log = []

theorem Fresh.sound (h : Fresh text state) : Sound text state where
  traced :=
    { whole := fun selected files hselected => (h.trail selected files hselected).1
      held := fun selected files record generation hselected hrecord hgeneration => by
        rw [(h.trail selected files hselected).2 record hrecord] at hgeneration
        cases hgeneration
      pointerDrawn := h.drawn
      logDrawn := fun logged hlogged => by
        rw [h.log] at hlogged
        exact absurd hlogged not_mem_nil }
  journals operationId journal phase record hlookup := by
    rw [h.transactions, AList.lookup_empty] at hlookup
    cases hlookup

/-- In every run whose mutations append last and whose collections find the generations of the
trail named, every record is served as it was when it was appended, in every state reached. -/
theorem run_reconstructs {start : Reviewed} (hfresh : Fresh text start) {events : List Event}
    (hdraws : Along text digests canonicalSource Draws start events)
    (hcareful : Along text digests canonicalSource (Careful text digests) start events) :
    ∀ before, before <+: events →
      Reconstructs text (start.run text digests canonicalSource before) := by
  rintro before ⟨later, rfl⟩
  exact (Sound.run hfresh.sound hdraws.of_append hcareful.of_append).traced.reconstructs

/-- A collection that finds the generation of a record neither selected nor named by a journal
makes an end of it. -/
theorem not_reconstructs_of_collect {historyId generation : String}
    (hpinned : pinned state.disk = .ok (pointer, files))
    (hread : readHistory text files historyId = some record)
    (hgeneration : record.generation = some generation)
    (hunnamed : ¬ (Selected state.disk generation ∨ Journaled digests state.disk generation)) :
    ¬ Reconstructs text (state.step text digests canonicalSource (.collect [])) := by
  set disk := (gcAbandoned digests state.disk []).state with hdisk
  have hgone : disk.generations.lookup generation = none :=
    gone_of_not_referenced fun h => hunnamed (mem_referenced.mp h)
  have hpointer : disk.pointer = state.disk.pointer := pointer_gcAbandoned digests []
  have hselected := pinned_eq_ok hpinned
  have hfiles : disk.generations.lookup pointer.generation =
      state.disk.generations.lookup pointer.generation :=
    Store.keeps_gcAbandoned (mem_referenced.mpr (.inl hselected.1)) []
  have hpinned' : pinned disk = .ok (pointer, files) := by
    obtain ⟨pointer', hlies, hsame⟩ := Option.map_eq_some_iff.mp hselected.1
    rw [← hpinned, pinned, pinned, hpointer, hlies]
    dsimp only
    rw [hsame, hfiles]
  intro h
  obtain ⟨frame, hframe, -⟩ := h.served pointer files historyId record generation hpinned' hread
    hgeneration
  have hrefused : reviewFrame text disk (some historyId) = .error
      (.store historyGenerationUnavailable
        "the referenced generation is no longer materialized") := by
    rw [reviewFrame, hpinned']
    simp only [hread, hgeneration, hgone]
  exact absurd (hframe.symm.trans hrefused) (by simp)

end Runs

/-! ## Two edits and a recovery -/

section Sample

/-- The escapes of a JSON string that are needed here. -/
def escapeChar (c : Char) : List Char :=
  if c = '\n' then ['\\', 'n']
  else if c = '\r' then ['\\', 'r']
  else if c = '"' then ['\\', '"']
  else if c = '\\' then ['\\', '\\']
  else [c]

def unescapeChar (c : Char) : Char :=
  if c = 'n' then '\n' else if c = 'r' then '\r' else c

/-- The rest of a JSON string, and what follows it; `escaped` after a backslash. -/
def readString : Bool → List Char → Option (List Char × List Char)
  | _, [] => none
  | true, c :: chars => (readString false chars).map fun read => (unescapeChar c :: read.1, read.2)
  | false, c :: chars =>
    if c = '"' then some ([], chars)
    else if c = '\\' then readString true chars
    else (readString false chars).map fun read => (c :: read.1, read.2)

theorem readString_escapeChar (c : Char) (chars : List Char) :
    readString false (escapeChar c ++ chars) =
      (readString false chars).map fun read => (c :: read.1, read.2) := by
  unfold escapeChar
  split_ifs with hline hreturn hquote hback
  · rw [hline]
    rfl
  · rw [hreturn]
    rfl
  · rw [hquote]
    rfl
  · rw [hback]
    rfl
  · rw [singleton_append, readString, if_neg hquote, if_neg hback]

theorem readString_spelled (rest : List Char) : ∀ chars : List Char,
    readString false (chars.flatMap escapeChar ++ '"' :: rest) = some (chars, rest)
  | [] => rfl
  | c :: chars => by
    rw [flatMap_cons, append_assoc, readString_escapeChar, readString_spelled rest chars]
    rfl

theorem not_mem_escapeChar (c : Char) : '\n' ∉ escapeChar c ∧ '\r' ∉ escapeChar c := by
  unfold escapeChar
  split_ifs with hline hreturn hquote hback
  · exact ⟨by decide, by decide⟩
  · exact ⟨by decide, by decide⟩
  · exact ⟨by decide, by decide⟩
  · exact ⟨by decide, by decide⟩
  · rw [mem_singleton, mem_singleton]
    exact ⟨fun h => hline h.symm, fun h => hreturn h.symm⟩

/-- What follows a text at the front. -/
def afterText : List Char → List Char → Option (List Char)
  | [], chars => some chars
  | _ :: _, [] => none
  | c :: text, d :: chars => if c = d then afterText text chars else none

theorem afterText_append (rest : List Char) : ∀ text : List Char,
    afterText text (text ++ rest) = some rest
  | [] => rfl
  | c :: text => by rw [cons_append, afterText, if_pos rfl, afterText_append rest text]

def spellString (s : String) : List Char := s.toList.flatMap escapeChar ++ ['"']

theorem not_mem_spellString (s : String) : '\n' ∉ spellString s ∧ '\r' ∉ spellString s := by
  constructor
  · refine not_mem_append (fun h => ?_) (by decide)
    obtain ⟨c, -, hc⟩ := mem_flatMap.mp h
    exact (not_mem_escapeChar c).1 hc
  · refine not_mem_append (fun h => ?_) (by decide)
    obtain ⟨c, -, hc⟩ := mem_flatMap.mp h
    exact (not_mem_escapeChar c).2 hc

/-- The text in front of the generation, where the record has one, and where it has none. -/
def generationFront : List Char := "\x7b\"generation\":\"".toList
def noGenerationFront : List Char := "\x7b\"generation\":null".toList
def historyIdFront : List Char := ",\"history_id\":\"".toList
def payloadFront : List Char := ",\"payload\":\"".toList

/-- A record as an object of three members. -/
def writeRecord (record : HistoryRecord) : List Char :=
  (match record.generation with
    | some generation => generationFront ++ spellString generation
    | none => noGenerationFront) ++
  (historyIdFront ++ (spellString record.historyId ++
    (payloadFront ++ (spellString record.payload ++ ['\x7d']))))

/-- The two members after the generation. -/
def readMembers (generation : Option String) (chars : List Char) : Option HistoryRecord := do
  let chars ← afterText historyIdFront chars
  let (historyId, chars) ← readString false chars
  let chars ← afterText payloadFront chars
  let (payload, chars) ← readString false chars
  if chars = ['\x7d'] then
    some { historyId := String.ofList historyId, generation, payload := String.ofList payload }
  else none

def readRecord (chars : List Char) : Option HistoryRecord :=
  match afterText noGenerationFront chars with
  | some chars => readMembers none chars
  | none => do
    let chars ← afterText generationFront chars
    let (generation, chars) ← readString false chars
    readMembers (some (String.ofList generation)) chars

theorem readString_spellString (s : String) (rest : List Char) :
    readString false (spellString s ++ rest) = some (s.toList, rest) := by
  rw [spellString, append_assoc]
  exact readString_spelled rest s.toList

theorem readMembers_written (generation : Option String) (historyId payload : String) :
    readMembers generation (historyIdFront ++ (spellString historyId ++
      (payloadFront ++ (spellString payload ++ ['\x7d'])))) =
        some { historyId, generation, payload } := by
  simp only [readMembers, afterText_append, readString_spellString, Option.bind_eq_bind,
    Option.bind_some, if_pos, String.ofList_toList]

theorem readRecord_writeRecord (record : HistoryRecord) :
    readRecord (writeRecord record) = some record := by
  obtain ⟨historyId, generation, payload⟩ := record
  cases generation with
  | none =>
    rw [readRecord, writeRecord]
    dsimp only
    rw [afterText_append]
    exact readMembers_written none historyId payload
  | some generation =>
    rw [readRecord, writeRecord]
    dsimp only
    rw [append_assoc]
    have hnull : ∀ rest, afterText noGenerationFront (generationFront ++ rest) = none :=
      fun rest => rfl
    rw [hnull]
    simp only [afterText_append, readString_spellString, Option.bind_eq_bind, Option.bind_some,
      String.ofList_toList]
    exact readMembers_written (some generation) historyId payload

theorem not_mem_writeRecord (record : HistoryRecord) :
    '\n' ∉ writeRecord record ∧ '\r' ∉ writeRecord record := by
  have hfronts : ∀ front ∈ [generationFront, noGenerationFront, historyIdFront, payloadFront],
      '\n' ∉ front ∧ '\r' ∉ front := by decide
  have happend : ∀ {front rest : List Char}, '\n' ∉ front ∧ '\r' ∉ front →
      '\n' ∉ rest ∧ '\r' ∉ rest → '\n' ∉ front ++ rest ∧ '\r' ∉ front ++ rest :=
    fun hfront hrest => ⟨not_mem_append hfront.1 hrest.1,
      not_mem_append hfront.2 hrest.2⟩
  have hmembers := happend (hfronts historyIdFront (by simp)) (happend
    (not_mem_spellString record.historyId) (happend (hfronts payloadFront (by simp))
      (happend (not_mem_spellString record.payload)
        (show '\n' ∉ ['\x7d'] ∧ '\r' ∉ ['\x7d'] by decide))))
  rw [writeRecord]
  cases record.generation with
  | none => exact happend (hfronts noGenerationFront (by simp)) hmembers
  | some generation =>
    exact happend (happend (hfronts generationFront (by simp)) (not_mem_spellString generation))
      hmembers

/-- Records written out as JSON. -/
def plainText : RecordText where
  write := writeRecord
  read := readRecord
  legacyHistoryId record := "legacy-" ++ record.payload
  read_write := readRecord_writeRecord
  newline record := (not_mem_writeRecord record).1
  carriage record := (not_mem_writeRecord record).2

/-- A store of one generation, whose trail is empty. -/
def reviewedSample : Reviewed where
  disk := sampleDisk
  log := []
  drawn := ["gen-0"]

theorem reviewedSample_fresh : Fresh plainText reviewedSample where
  trail selected files hselected := by
    obtain rfl : "gen-0" = selected := Option.some.inj hselected.1
    obtain rfl := Option.some.inj hselected.2
    exact ⟨.inl rfl, fun record hrecord => absurd hrecord not_mem_nil⟩
  drawn selected hselected := by
    obtain rfl : "gen-0" = selected := Option.some.inj hselected
    exact mem_cons_self
  transactions := rfl
  log := rfl

/-- A patch is staged, with a record of it. -/
def staging : Event := .mutate plainEdit [.append "h-1" "patch-staged"] []

/-- An edit that appends nothing. -/
def laterEdit : Event :=
  .mutate { plainEdit with
    operationId := "op-2", expectedGeneration := "gen-1", generationId := "gen-2" } [] []

theorem staging_careful : Along plainText spelledDigests noSource
    (Careful plainText spelledDigests) reviewedSample [staging, .settle "op-1" []] := by
  refine ⟨fun files final _ hperform entry hentry => ?_, trivial, trivial⟩
  cases hperform
  obtain rfl := mem_singleton.mp hentry
  exact .refl

theorem staging_draws : Along plainText spelledDigests noSource Draws reviewedSample
    [staging, .settle "op-1" []] :=
  ⟨show "gen-1" ∉ ["gen-0"] by decide, trivial, trivial⟩

theorem run_reconstructs_staging : Fresh plainText reviewedSample ∧
    Reconstructs plainText
      (reviewedSample.run plainText spelledDigests noSource [staging, .settle "op-1" []]) :=
  ⟨reviewedSample_fresh,
    run_reconstructs reviewedSample_fresh staging_draws staging_careful _ (List.prefix_refl _)⟩

/-- A recovery after the next edit deletes the generation that the record names. -/
theorem not_reconstructs_collected : Fresh plainText reviewedSample ∧
    Along plainText spelledDigests noSource Draws reviewedSample
      [staging, laterEdit, .collect []] ∧
    ¬ Reconstructs plainText (reviewedSample.run plainText spelledDigests noSource
      [staging, laterEdit, .collect []]) := by
  refine ⟨reviewedSample_fresh, ⟨show "gen-1" ∉ ["gen-0"] by decide,
    show "gen-2" ∉ ["gen-1", "gen-0"] by decide, trivial, trivial⟩, ?_⟩
  set state := reviewedSample.run plainText spelledDigests noSource [staging, laterEdit]
    with hstate
  have hfound : (match pinned state.disk with
      | .ok (_, files) => (readHistory plainText files "h-1").bind (·.generation)
      | .error _ => none) = some "gen-1" := by
    decide +kernel
  have hunnamed : "gen-1" ∉ referenced spelledDigests state.disk := by
    decide +kernel
  cases hpinned : pinned state.disk with
  | error error =>
    rw [hpinned] at hfound
    cases hfound
  | ok selection =>
    obtain ⟨pointer, files⟩ := selection
    rw [hpinned] at hfound
    obtain ⟨record, hread, hgeneration⟩ := Option.bind_eq_some_iff.mp hfound
    have hcollected : ¬ Reconstructs plainText
        (state.step plainText spelledDigests noSource (.collect [])) :=
      not_reconstructs_of_collect hpinned hread hgeneration
        fun h => hunnamed (mem_referenced.mpr h)
    exact hcollected

end Sample

end Docx2Typed.History
