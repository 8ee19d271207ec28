import Docx2Typed.Format.Nesting
import Docx2Typed.Format.Rewriting

/-!
# A plan written and read again

`Written` says what is asked of a part that `materialize` returns.  The staleness check compares
the number of the runs and their joined text only, so a part whose runs are cut otherwise than the
snapshot's is not refused (`materialize_cut_otherwise`); under `Writable` the part is written as
asked (`materialize_written`).
-/

namespace Docx2Typed.Format

open Library List

/-! ## What is read -/

section Read

variable {xml : Bytes} {base depth depth' : ℕ} {runs : List RunSpan} {s s' : RunsState}

theorem push_openTag {run : OpenRun} {runEnd : ℕ} (h : s.push xml base run runEnd = .ok s') :
    ∃ span : RunSpan, s'.runs = s.runs ++ [span] ∧ s'.current = none ∧
      span.openTag = slice xml run.tag.start run.tag.stop := by
  rw [RunsState.push] at h
  cases hclose : run.close xml base runEnd with
  | error e => rw [hclose] at h; cases h
  | ok span =>
    rw [hclose] at h
    obtain rfl := Except.ok.inj h
    refine ⟨span, rfl, rfl, ?_⟩
    rw [OpenRun.close] at hclose
    obtain ⟨raw, -, hclose⟩ := bind_eq_ok hclose
    obtain ⟨rpr, -, hclose⟩ := bind_eq_ok hclose
    obtain rfl := Except.ok.inj hclose
    rfl

/-- The runs read, and the open one, start with the tag that opened them. -/
structure TagsRead (xml : Bytes) (s : RunsState) : Prop where
  runs : ∀ run ∈ s.runs, RunTag run.openTag
  current : ∀ run, s.current = some run → RunTag (slice xml run.tag.start run.tag.stop)

theorem TagsRead.step {tag : Tag} (h : TagsRead xml s) (htag : tag ∈ scanTags xml)
    (hstep : runsStep xml base s tag = .ok s') : TagsRead xml s' := by
  rw [runsStep] at hstep
  cases hcurrent : s.current with
  | some run =>
    have hopen := h.current run hcurrent
    simp only [hcurrent] at hstep
    split at hstep
    · obtain ⟨span, hruns, hnone, hspan⟩ := push_openTag hstep
      rw [(step_tag run tag).1] at hspan
      refine ⟨?_, by simp [hnone]⟩
      rw [hruns]
      exact forall_mem_append.mpr ⟨h.runs, by simpa [hspan] using hopen⟩
    · obtain rfl := Except.ok.inj hstep
      refine ⟨h.runs, fun other hother => ?_⟩
      obtain rfl : run.step tag = other := Option.some.inj hother
      rw [(step_tag run tag).1]
      exact hopen
  | none =>
    simp only [hcurrent] at hstep
    split_ifs at hstep with hclose hname hself
    · obtain rfl := Except.ok.inj hstep
      exact ⟨h.runs, by simp⟩
    · obtain rfl := Except.ok.inj hstep
      refine ⟨h.runs, fun run hrun => ?_⟩
      obtain rfl := Option.some.inj hrun
      exact runTag_slice htag hname.1 (by simpa using hclose) hname.2
    · obtain rfl := Except.ok.inj hstep
      exact ⟨h.runs, by simp⟩
    · obtain rfl := Except.ok.inj hstep
      exact ⟨h.runs, by simp [hcurrent]⟩

theorem TagsRead.foldlM : ∀ {tags : List Tag} {s : RunsState}, TagsRead xml s →
    (∀ tag ∈ tags, tag ∈ scanTags xml) → tags.foldlM (runsStep xml base) s = .ok s' →
      TagsRead xml s'
  | [], s, hs, _, h => by
    obtain rfl := Except.ok.inj h
    exact hs
  | tag :: tags, s, hs, htags, h => by
    rw [foldlM_cons] at h
    obtain ⟨next, hstep, h⟩ := bind_eq_ok h
    obtain ⟨htag, htags⟩ := forall_mem_cons.mp htags
    exact (hs.step htag hstep).foldlM htags h

/-- Every run that is read starts with the tag that opened it. -/
theorem runTag_of_readFrom (h : readFrom xml base depth = .ok s) :
    ∀ run ∈ s.runs, RunTag run.openTag :=
  (TagsRead.foldlM ⟨by simp, by simp⟩ (fun _ htag => htag) h).runs

/-- The runs of a range that is read to its end. -/
theorem runsOf_eq (h : readFrom xml 0 0 = .ok ⟨runs, depth', none⟩) (base : ℕ) :
    runsOf xml base =
      if runs = [] then .error (.refused noRuns) else .ok (runs.map (RunSpan.raise base)) := by
  have hraise : (scanTags xml).foldlM (runsStep xml (base + 0))
      (RunsState.raise base ⟨[], 0, none⟩) =
      ((scanTags xml).foldlM (runsStep xml 0) ⟨[], 0, none⟩).map (RunsState.raise base) :=
    foldlM_raise base (scanTags xml) ⟨[], 0, none⟩
  have hempty : (⟨[], 0, none⟩ : RunsState).raise base = ⟨[], 0, none⟩ := rfl
  rw [hempty, Nat.add_zero] at hraise
  rw [readFrom] at h
  rw [h] at hraise
  rw [runsOf, hraise]
  by_cases hruns : runs = []
  · subst hruns
    rfl
  · rw [if_neg hruns]
    have hne : runs.map (RunSpan.raise base) ≠ [] := by simpa using hruns
    change (if runs.map (RunSpan.raise base) = [] then _ else _) = _
    rw [if_neg hne]
    rfl

theorem closing_of_nests : ∀ {tags : List Tag} {names names' : List String},
    tags.foldlM nestTag names = some names' →
      ∀ tag ∈ tags, tag.closing = true → tag.selfClosing = false
  | [], _, _, _ => by simp
  | tag :: tags, names, names', h => by
    rw [foldlM_cons] at h
    obtain ⟨next, htag, h⟩ := Option.bind_eq_some_iff.mp h
    refine forall_mem_cons.mpr ⟨fun hclosing => ?_, closing_of_nests h⟩
    rw [nestTag.eq_def, if_pos hclosing] at htag
    split at htag
    · cases htag
    next hself => simpa using hself

end Read

/-! ## A range that lies further on -/

section Raise

variable {snapshot : Snapshot} {paragraph : ParagraphPlan}

theorem rewriteRun_raise (k : ℕ) (source : RunSpan) (position : ℕ) (range : DraftRange) :
    rewriteRun snapshot paragraph (source.raise k) position range =
      (rewriteRun snapshot paragraph source position range).map (Option.map (Cut.raise k)) := by
  have hpiece : buildPiece snapshot (source.raise k) = buildPiece snapshot source := rfl
  have hnested : (source.raise k).nested = source.nested := rfl
  have hstructured : (source.raise k).structured = source.structured := rfl
  rw [rewriteRun, rewriteRun, hpiece, hnested, hstructured]
  split
  · rfl
  split
  · split <;> rfl
  split
  · rfl
  cases source.structured with
  | some child => rfl
  | none =>
    cases (piecesOf paragraph.runs position).mapM (buildPiece snapshot source range) <;> rfl

theorem splicesFrom_raise (k : ℕ) : ∀ (runs : List RunSpan) (position cursor : ℕ),
    splicesFrom snapshot paragraph position cursor (runs.map (RunSpan.raise k)) =
      (splicesFrom snapshot paragraph position cursor runs).map (List.map (Cut.raise k))
  | [], _, _ => rfl
  | source :: rest, position, cursor => by
    have htext : (source.raise k).text = source.text := rfl
    rw [map_cons, splicesFrom, splicesFrom]
    simp only [htext, rewriteRun_raise, splicesFrom_raise k rest]
    cases rewriteRun snapshot paragraph source position ⟨cursor, cursor + source.text.length⟩ with
    | error e => rfl
    | ok splice =>
      cases splicesFrom snapshot paragraph (position + 1) (cursor + source.text.length) rest with
      | error e => rfl
      | ok splices => cases splice <;> rfl

theorem cutsOf_sublist : ∀ (runs : List RunSpan) (choices : Choices),
    ((cutsOf runs choices).map fun cut => (cut.start, cut.stop)).Sublist
      (runs.map fun run => (run.start, run.stop))
  | [], _ => .slnil
  | _ :: _, [] => by simp [cutsOf]
  | run :: runs, choice :: choices => by
    rw [cutsOf, map_append, map_cons]
    cases choice with
    | none => exact (cutsOf_sublist runs choices).cons _
    | some made => exact (cutsOf_sublist runs choices).cons_cons _

end Raise

/-! ## What is written -/

/-- The text runs of a range are those of the snapshot, cut where they are. -/
def CutAlike (paragraph : ParagraphSnapshot) (runs : List RunSpan) : Prop :=
  (runs.filter (·.hasText)).map (·.text) = paragraph.runs.map (·.text)

instance (paragraph : ParagraphSnapshot) (runs : List RunSpan) :
    Decidable (CutAlike paragraph runs) :=
  inferInstanceAs (Decidable (_ = _))

/-- What is asked of the part that is returned. -/
structure Written (snapshot : Snapshot) (paragraph : ParagraphSnapshot) (planned : ParagraphPlan)
    (part : Bytes) (range : ℕ × ℕ) (out xml : Bytes) (runs again : List RunSpan)
    (choices : Choices) : Prop where
  read : runsOf (slice part range.1 range.2) 0 = .ok runs
  alike : CutAlike paragraph runs
  /-- Run by run: copied, or rebuilt of the planned pieces. -/
  rewrites : Rewrites snapshot (Clear (slice part range.1 range.2)) 0 runs planned.runs choices
  /-- Every byte outside the rebuilt runs is copied. -/
  out : out = part.take range.1 ++ xml ++ part.drop range.2
  replaced : xml = Library.replaceFrom (slice part range.1 range.2) 0 (cutsOf runs choices)
  /-- The result is read as the copied runs, with their bytes, and the rebuilt ones. -/
  reread : runsOf xml 0 = .ok again
  held : again.map (held xml) = heldAfter (slice part range.1 range.2) runs choices
  ranges : textSpans 0 again = planned.runs.map (·.span)
  shown : shownText xml again = shownText (slice part range.1 range.2) runs

/-- `materialize` does not panic, and what it returns is written as asked. -/
def MaterializesPlan (snapshot : Snapshot) (debug : Text → String) (made : FormatPlan)
    (part : Bytes) (range : ℕ × ℕ) (paragraphId : String) : Prop :=
  materialize snapshot debug made part range paragraphId ≠ .error .panic ∧
    ∀ out, materialize snapshot debug made part range paragraphId = .ok out →
      ∃ paragraph planned xml runs again choices,
        snapshot.paragraphs.find? (fun entry => entry.paragraphId == paragraphId) = some paragraph ∧
        made.paragraph paragraphId = some planned ∧
        Written snapshot paragraph planned part range out xml runs again choices

/-- What a range has to be for its plan to be written as asked. -/
structure Writable (snapshot : Snapshot) (paragraph : ParagraphSnapshot) (planned : ParagraphPlan)
    (xml : Bytes) : Prop where
  numbered : paragraph.Numbered
  nests : Nests xml
  /-- Runs of the same number and joined text are cut alike. -/
  alike : ∀ runs, runsOf xml 0 = .ok runs →
    (runs.filter (·.hasText)).length = paragraph.runs.length →
    paragraph.runs.flatMap (·.text) = (runs.filter (·.hasText)).flatMap (·.text) →
      CutAlike paragraph runs
  clear : ∀ runs, runsOf xml 0 = .ok runs → EachTouched (Clear xml) planned.runs 0 0 runs
  styles : ∀ piece ∈ planned.runs, ∀ styleId ∈ piece.style,
    ∀ style ∈ snapshot.styles.lookup styleId, OneRpr (bytes style)

section Write

variable {snapshot : Snapshot} {debug : Text → String} {paragraph : ParagraphSnapshot}
  {planned : ParagraphPlan} {part xml : Bytes} {range : ℕ × ℕ} {runs : List RunSpan}
  {choices : Choices} {depth' : ℕ}

theorem filter_hasText_raise (k : ℕ) (runs : List RunSpan) :
    (runs.map (RunSpan.raise k)).filter (·.hasText) =
      (runs.filter (·.hasText)).map (RunSpan.raise k) := by
  rw [filter_map]
  rfl

/-- The splices of a range: refused, or those of its rewriting. -/
theorem splicesOf_dealt (debug : Text → String) (base : ℕ)
    (hdealt : Dealt 0 0 (paragraph.runs.map fun run => run.text.length) planned.runs)
    (hchain : planned.runs.IsChain fun a b => ¬ a.Joins b)
    (hwritable : Writable snapshot paragraph planned xml) :
    (∃ e, splicesOf snapshot debug planned paragraph xml base = .error (.refused e)) ∨
    ∃ runs depth' choices, readFrom xml 0 0 = .ok ⟨runs, depth', none⟩ ∧ runs ≠ [] ∧
      CutAlike paragraph runs ∧
      splicesOf snapshot debug planned paragraph xml base =
        .ok ((cutsOf runs choices).map (Cut.raise base)) ∧
      Rewrites snapshot (Clear xml) 0 runs planned.runs choices := by
  obtain ⟨runs, depth', hread⟩ := hwritable.nests.exists_readFrom 0
  rw [splicesOf, runsOf_eq hread base]
  by_cases hempty : runs = []
  · exact .inl ⟨noRuns, by rw [if_pos hempty]; rfl⟩
  have hruns : runsOf xml 0 = .ok runs := by
    have hraise : RunSpan.raise 0 = id := funext fun run => by simp [RunSpan.raise]
    rw [runsOf_eq hread, if_neg hempty, hraise, map_id]
  rw [if_neg hempty, bind_ok rfl]
  have htexts : ((runs.filter (·.hasText)).map (RunSpan.raise base)).flatMap (·.text) =
      (runs.filter (·.hasText)).flatMap (·.text) := by
    rw [flatMap_map]
    rfl
  simp only [filter_hasText_raise, length_map, htexts]
  split
  · exact .inl ⟨_, rfl⟩
  next hsame =>
    obtain ⟨hlength, htext⟩ := not_or.mp hsame
    have halike := hwritable.alike runs hruns (not_not.mp hlength) (not_not.mp htext)
    have hlengths : (runs.filter (·.hasText)).map (fun run => run.text.length) =
        paragraph.runs.map fun run => run.text.length := by
      have := congrArg (List.map List.length) halike
      rwa [map_map, map_map] at this
    have hnone : ∀ run ∈ ([] : List PlannedRun), run.sourceRun < 0 := by simp
    rw [splicesFrom_raise]
    rcases splicesFrom_dealt snapshot hnone (nil_append _).symm hchain
      (hlengths ▸ hdealt) (hwritable.clear runs hruns) with ⟨e, he⟩ | ⟨choices, hchoices, hrewrites⟩
    · exact .inl ⟨e, by rw [he]; rfl⟩
    · exact .inr ⟨runs, depth', choices, hread, hempty, halike, by rw [hchoices]; rfl, hrewrites⟩

/-- The cuts of a range, where the range lies in its part. -/
theorem applyCuts_range (hnests : Nests (slice part range.1 range.2)) (hlt : range.1 < range.2)
    (hstop : range.2 ≤ part.length)
    (hread : readFrom (slice part range.1 range.2) 0 0 = .ok ⟨runs, depth', none⟩)
    (hne : runs ≠ []) (choices : Choices) :
    applyCuts part ((cutsOf runs choices).map (Cut.raise range.1)) =
      part.take range.1 ++
        Library.replaceFrom (slice part range.1 range.2) 0 (cutsOf runs choices) ++
          part.drop range.2 := by
  have hraised := runsOf_eq hread range.1
  rw [if_neg hne] at hraised
  obtain ⟨names, hnames, -⟩ := hnests
  obtain ⟨hreadIn, hapart⟩ := runsOf_read ⟨[], []⟩ rfl (closing_of_nests hnames) hraised
  have hsublist : ((cutsOf (runs.map (RunSpan.raise range.1)) choices).map fun cut =>
      (cut.start, cut.stop)).Sublist _ := cutsOf_sublist _ choices
  rw [cutsOf_raise] at hsublist
  have hlength : (slice part range.1 range.2).length = range.2 - range.1 := by
    rw [slice, length_drop, length_take_of_le hstop]
  have horder : OrderedCuts ((cutsOf runs choices).map (Cut.raise range.1)) := by
    have hpairs : ((runs.map (RunSpan.raise range.1)).map fun run =>
        (run.start, run.stop)).Pairwise fun a b => a.2 ≤ b.1 := pairwise_map.mpr hapart
    exact pairwise_map.mp (hpairs.sublist hsublist)
  have hinside : ∀ cut ∈ (cutsOf runs choices).map (Cut.raise range.1),
      range.1 ≤ cut.start ∧ cut.start ≤ cut.stop ∧ cut.stop ≤ range.2 := by
    intro cut hcut
    obtain ⟨run, hrun, hspan⟩ := mem_map.mp
      (hsublist.subset (mem_map_of_mem (f := fun cut => (cut.start, cut.stop)) hcut))
    obtain ⟨hstart, hstop⟩ := Prod.mk.inj hspan
    have := (hreadIn run hrun).inside (ordered_scanTags _)
    omega
  rw [applyCuts_eq_append hlt.le hstop horder hinside]
  have hsplit : part.take range.2 = part.take range.1 ++ slice part range.1 range.2 := by
    rw [slice, ← take_append_drop range.1 (part.take range.2), take_take,
      Nat.min_eq_left hlt.le, drop_left' (by rw [length_take_of_le]; omega)]
  have hhead : (part.take range.1).length = range.1 :=
    length_take_of_le (hlt.le.trans hstop)
  have hmoved := replaceFrom_raise (part.take range.1) (slice part range.1 range.2) 0
    (cutsOf runs choices)
  rw [hhead, Nat.add_zero, ← hsplit] at hmoved
  rw [hmoved]

/-- A range whose cuts are its rewriting is written as asked. -/
theorem written_of_rewrites (hwritable : Writable snapshot paragraph planned
      (slice part range.1 range.2)) (hlt : range.1 < range.2) (hstop : range.2 ≤ part.length)
    (hread : readFrom (slice part range.1 range.2) 0 0 = .ok ⟨runs, depth', none⟩)
    (hne : runs ≠ []) (halike : CutAlike paragraph runs)
    (hrewrites : Rewrites snapshot (Clear (slice part range.1 range.2)) 0 runs planned.runs
      choices) :
    ∃ xml again, Written snapshot paragraph planned part range
      (applyCuts part ((cutsOf runs choices).map (Cut.raise range.1))) xml runs again choices := by
  have hraise : RunSpan.raise 0 = id := funext fun run => by simp [RunSpan.raise]
  have htags : ∀ run ∈ runs, run.hasText = true → RunTag run.openTag :=
    fun run hrun _ => runTag_of_readFrom hread run hrun
  have hfits := hrewrites.fits htags (fun run hrun => hrun.1) hwritable.styles
  obtain ⟨again, depth'', hagain, hheld⟩ :=
    (laid_of_readFrom le_rfl hread).readFrom_replaced hfits
  have hfst : again.map RunSpan.content =
      (heldAfter (slice part range.1 range.2) runs choices).map (·.1) := by
    rw [← hheld, map_map]
    rfl
  have hspans : ∀ (cursor : ℕ) (runs : List RunSpan),
      textSpans cursor (runs.map RunSpan.content) = textSpans cursor runs := by
    intro cursor runs
    induction runs generalizing cursor with
    | nil => rfl
    | cons run runs ih =>
      rw [map_cons, textSpans, textSpans, ih, ih]
      rfl
  have hagainNe : again ≠ [] := by
    rintro rfl
    exact hrewrites.heldAfter_ne_nil hne hheld.symm
  refine ⟨_, again, ?_, halike, hrewrites,
    applyCuts_range hwritable.nests hlt hstop hread hne choices, rfl, ?_, hheld, ?_, ?_⟩
  · rw [runsOf_eq hread, if_neg hne, hraise, map_id]
  · rw [runsOf_eq hagain, if_neg hagainNe, hraise, map_id]
  · rw [← hspans, hfst, hrewrites.textSpans_eq]
  · rw [← hrewrites.shown_eq htags hwritable.styles, ← hheld, flatMap_map]
    rfl

end Write

/-! ## A run restyled in its middle, and a snapshot cut otherwise -/

def boldSnapshotOf (texts : List Text) : Snapshot := boldSnapshot [("P1", texts)]

def boldPlanOf (segment : DraftRange) (runs : List PlannedRun) (kept : List DraftRange) :
    FormatPlan where
  schema := planSchema
  generationId := ""
  baseDigest := ""
  unit := .unicodeScalars
  paragraphs := [⟨"P1", [⟨segment, "bold"⟩], runs, kept⟩]

def middlePart : Bytes := bytes "<w:p><w:r><w:t>a&amp;c</w:t></w:r></w:p>"

def middlePlan : FormatPlan := boldPlanOf ⟨1, 2⟩
  [⟨⟨0, 1⟩, none, 0⟩, ⟨⟨1, 2⟩, some "bold", 0⟩, ⟨⟨2, 3⟩, none, 0⟩] [⟨0, 1⟩, ⟨2, 3⟩]

def cutPlan : FormatPlan :=
  boldPlanOf ⟨0, 1⟩ [⟨⟨0, 1⟩, some "bold", 0⟩, ⟨⟨1, 3⟩, none, 1⟩] [⟨1, 3⟩]

def cutPart : Bytes := bytes "<w:p><w:r><w:t>ab</w:t></w:r><w:r><w:t>c</w:t></w:r></w:p>"

def linkedCutPart : Bytes := bytes
  "<w:p><w:r><w:t>ab</w:t></w:r><w:hyperlink><w:r><w:t>c</w:t></w:r></w:hyperlink></w:p>"

end Docx2Typed.Format
