import Mathlib.Data.List.Sort
import Docx2Typed.Basic
import Docx2Typed.Library.Segments

/-!
# The format plan

`plan` derives, from a snapshot of some paragraphs and a list of requests "the characters of this
range get this style", what every paragraph becomes: the merged segments, the runs the text is
cut into, and the ranges that must not change.  Ranges count characters.  The field `end` of a
range is called `stop` here.
-/

namespace Docx2Typed.Format

open Library (Segment Tiles steps)
open List

/-! ## Snapshots, requests and plans -/

structure DraftRange where
  start : ℕ
  stop : ℕ
  deriving DecidableEq, Repr

namespace DraftRange

def isEmpty (range : DraftRange) : Bool := range.start ≥ range.stop

def overlaps (range other : DraftRange) : Bool :=
  range.start < other.stop && other.start < range.stop

def touches (range other : DraftRange) : Bool :=
  range.start ≤ other.stop && other.start ≤ range.stop

/-- The smallest range holding both. -/
def union (range other : DraftRange) : DraftRange :=
  ⟨min range.start other.start, max range.stop other.stop⟩

/-- The characters a range holds. -/
def Holds (range : DraftRange) (i : ℕ) : Prop := range.start ≤ i ∧ i < range.stop

end DraftRange

/-- One run as the snapshot found it, with its raw `w:rPr`. -/
structure OriginalRun where
  index : ℕ
  text : Text
  rpr : String
  deriving DecidableEq, Repr

structure ParagraphSnapshot where
  paragraphId : String
  draftText : Text
  runs : List OriginalRun
  deriving DecidableEq, Repr

/-- `styles` maps a style id to its raw `w:rPr`. -/
structure Snapshot where
  generationId : String
  baseDigest : String
  styles : List (String × String)
  paragraphs : List ParagraphSnapshot
  deriving DecidableEq, Repr

inductive FormatIntent where
  | setStyle (paragraphId : String) (range : DraftRange) (styleId : String)
  deriving DecidableEq, Repr

structure ExpectedSegment where
  range : DraftRange
  styleId : String
  deriving DecidableEq, Repr

/-- One output run; with no style it keeps the properties of its source run. -/
structure PlannedRun where
  range : DraftRange
  style : Option String
  sourceRun : ℕ
  deriving DecidableEq, Repr

structure ParagraphPlan where
  paragraphId : String
  segments : List ExpectedSegment
  runs : List PlannedRun
  /-- The ranges the edit may not change. -/
  «protected» : List DraftRange
  deriving DecidableEq, Repr

inductive RangeUnit where
  | unicodeScalars
  deriving DecidableEq, Repr

structure FormatPlan where
  schema : String
  generationId : String
  baseDigest : String
  unit : RangeUnit
  paragraphs : List ParagraphPlan
  deriving DecidableEq, Repr

structure FormatError where
  code : String
  detail : String
  deriving DecidableEq, Repr

def planSchema : String := "docx2typed-format-plan-1"

/-! ## Planning -/

def describeRange (range : DraftRange) : String :=
  "[" ++ toString range.start ++ ", " ++ toString range.stop ++ ")"

def rangeInvalid (paragraph : ParagraphSnapshot) (range : DraftRange) : FormatError where
  code := "format-range-invalid"
  detail := describeRange range ++ " is not a range of " ++ paragraph.paragraphId ++
    ": the paragraph's draft text is " ++ toString paragraph.draftText.length ++
    " character(s) long and a range must be non-empty and inside it"

def styleUnavailable (snapshot : Snapshot) (styleId : String) : FormatError where
  code := "format-style-unavailable"
  detail := styleId ++ " is not a style this document carries; it holds [" ++
    ", ".intercalate ((snapshot.styles.map (·.1)).insertionSort (· ≤ ·)) ++
    "]. A format edit switches between the properties the document already has — " ++
    "it never invents one"

def spansOverlap (paragraph : ParagraphSnapshot) (existing range : DraftRange × String) :
    FormatError where
  code := "format-spans-overlap"
  detail := describeRange existing.1 ++ " and " ++ describeRange range.1 ++ " overlap in " ++
    paragraph.paragraphId ++ " and name different styles (" ++ existing.2 ++ " and " ++ range.2 ++
    "); one character cannot be expected to carry two sets of direct " ++
    "properties. Make them one range, or two that do not overlap"

def runUnmapped (paragraph : ParagraphSnapshot) (start : ℕ) : FormatError where
  code := "format-run-unmapped"
  detail := paragraph.paragraphId ++ " has no run covering character " ++ toString start ++
    "; the snapshot's runs and its draft text disagree"

def paragraphUnknown (paragraphId : String) : FormatError where
  code := "format-paragraph-unknown"
  detail := paragraphId ++ " is not in this document's snapshot"

/-- The ranges requested for a paragraph, checked one by one. -/
def requested (snapshot : Snapshot) (paragraph : ParagraphSnapshot) :
    List FormatIntent → Except FormatError (List (DraftRange × String))
  | [] => .ok []
  | .setStyle paragraphId range styleId :: rest =>
    if paragraphId ≠ paragraph.paragraphId then requested snapshot paragraph rest
    else if range.isEmpty ∨ range.stop > paragraph.draftText.length then
      .error (rangeInvalid paragraph range)
    else if styleId ∉ snapshot.styles.map (·.1) then .error (styleUnavailable snapshot styleId)
    else (requested snapshot paragraph rest).map ((range, styleId) :: ·)

/-- `sort_by_key(|(range, _)| (range.start, range.end))`, which is stable. -/
def sortRequested (requested : List (DraftRange × String)) : List (DraftRange × String) :=
  requested.insertionSort fun a b =>
    a.1.start < b.1.start ∨ a.1.start = b.1.start ∧ a.1.stop ≤ b.1.stop

/-- The merging loop, with the last range merged so far as `existing`. -/
def mergeFrom (paragraph : ParagraphSnapshot) (existing : DraftRange × String) :
    List (DraftRange × String) → Except FormatError (List (DraftRange × String))
  | [] => .ok [existing]
  | range :: rest =>
    if existing.1.overlaps range.1 ∧ existing.2 ≠ range.2 then
      .error (spansOverlap paragraph existing range)
    else if existing.1.touches range.1 ∧ existing.2 = range.2 then
      mergeFrom paragraph (existing.1.union range.1, existing.2) rest
    else (mergeFrom paragraph range rest).map (existing :: ·)

def mergeRequested (paragraph : ParagraphSnapshot) :
    List (DraftRange × String) → Except FormatError (List (DraftRange × String))
  | [] => .ok []
  | range :: rest => mergeFrom paragraph range rest

/-- The edges of the runs after the first `cursor` characters. -/
def runEnds (cursor : ℕ) : List OriginalRun → List ℕ
  | [] => []
  | run :: runs => (cursor + run.text.length) :: runEnds (cursor + run.text.length) runs

/-- The edges of the paragraph, of its segments and of its runs, sorted, each once. -/
def boundaries (paragraph : ParagraphSnapshot) (segments : List ExpectedSegment) : List ℕ :=
  (([0, paragraph.draftText.length] ++
    segments.flatMap (fun segment => [segment.range.start, segment.range.stop]) ++
    runEnds 0 paragraph.runs).insertionSort (· ≤ ·)).destutter (· ≠ ·)

/-- The run holding the `offset`-th character, from a run that starts at `cursor`. -/
def runFrom (offset cursor : ℕ) : List OriginalRun → Option ℕ
  | [] => none
  | run :: runs =>
    if offset ≥ cursor ∧ offset < cursor + run.text.length then some run.index
    else runFrom offset (cursor + run.text.length) runs

/-- The index of the run holding the `offset`-th character, or of the last run. -/
def runAt (paragraph : ParagraphSnapshot) (offset : ℕ) : Option ℕ :=
  (runFrom offset 0 paragraph.runs).or (paragraph.runs.getLast?.map (·.index))

/-- The style of the segment that holds everything between two boundaries. -/
def styleOf (segments : List ExpectedSegment) (start stop : ℕ) : Option String :=
  (segments.find? fun segment =>
    decide (segment.range.start ≤ start) && decide (segment.range.stop ≥ stop)).map (·.styleId)

/-- What stands between two boundaries. -/
def piece (paragraph : ParagraphSnapshot) (segments : List ExpectedSegment) (window : ℕ × ℕ) :
    Except FormatError PlannedRun :=
  match runAt paragraph window.1 with
  | none => .error (runUnmapped paragraph window.1)
  | some sourceRun =>
    .ok ⟨⟨window.1, window.2⟩, styleOf segments window.1 window.2, sourceRun⟩

/-- Adjacent pieces of one source run and one style are one run. -/
def joinFrom (previous : PlannedRun) : List PlannedRun → List PlannedRun
  | [] => [previous]
  | run :: rest =>
    if previous.style = run.style ∧ previous.sourceRun = run.sourceRun ∧
        previous.range.stop = run.range.start then
      joinFrom { previous with range := ⟨previous.range.start, run.range.stop⟩ } rest
    else previous :: joinFrom run rest

def joinRuns : List PlannedRun → List PlannedRun
  | [] => []
  | run :: rest => joinFrom run rest

def plannedRuns (paragraph : ParagraphSnapshot) (segments : List ExpectedSegment) :
    Except FormatError (List PlannedRun) := do
  let windows := (steps (boundaries paragraph segments)).filter fun window => window.1 < window.2
  let pieces ← windows.mapM (piece paragraph segments)
  pure (joinRuns pieces)

/-- What the segments leave out, from `cursor` on. -/
def protectedFrom (length cursor : ℕ) : List ExpectedSegment → List DraftRange
  | [] => if cursor < length then [⟨cursor, length⟩] else []
  | segment :: segments =>
    (if cursor < segment.range.start then [⟨cursor, segment.range.start⟩] else []) ++
      protectedFrom length segment.range.stop segments

/-- What a paragraph with these segments becomes. -/
def planSegments (paragraph : ParagraphSnapshot) (segments : List ExpectedSegment) :
    Except FormatError ParagraphPlan := do
  let runs ← plannedRuns paragraph segments
  pure ⟨paragraph.paragraphId, segments, runs,
    protectedFrom paragraph.draftText.length 0 segments⟩

def planParagraph (snapshot : Snapshot) (intents : List FormatIntent)
    (paragraph : ParagraphSnapshot) : Except FormatError ParagraphPlan := do
  let requested ← requested snapshot paragraph intents
  let merged ← mergeRequested paragraph (sortRequested requested)
  planSegments paragraph (merged.map fun range => ⟨range.1, range.2⟩)

def FormatIntent.paragraphId : FormatIntent → String
  | .setStyle paragraphId _ _ => paragraphId

def plan (snapshot : Snapshot) (intents : List FormatIntent) : Except FormatError FormatPlan := do
  let paragraphs ← snapshot.paragraphs.mapM (planParagraph snapshot intents)
  match intents.find? fun intent =>
      !snapshot.paragraphs.any (·.paragraphId == intent.paragraphId) with
  | some intent => .error (paragraphUnknown intent.paragraphId)
  | none =>
    pure ⟨planSchema, snapshot.generationId, snapshot.baseDigest, .unicodeScalars, paragraphs⟩

/-! ## Requests and what they claim -/

/-- The intent asks for a style at a character of a paragraph. -/
def FormatIntent.Covers (intent : FormatIntent) (paragraphId : String) (i : ℕ) (style : String) :
    Prop :=
  ∃ range, intent = .setStyle paragraphId range style ∧ range.Holds i

/-- Some intent asks for a style at a character of a paragraph. -/
def Asked (intents : List FormatIntent) (paragraphId : String) (i : ℕ) (style : String) : Prop :=
  ∃ intent ∈ intents, intent.Covers paragraphId i style

/-- An intent names a style there is and a range inside its paragraph. -/
def InRange (snapshot : Snapshot) (paragraph : ParagraphSnapshot) (intent : FormatIntent) : Prop :=
  ∀ range styleId, intent = .setStyle paragraph.paragraphId range styleId →
    (range.start < range.stop ∧ range.stop ≤ paragraph.draftText.length) ∧
      styleId ∈ snapshot.styles.map (·.1)

def labelled (range : DraftRange × String) : Segment String := ⟨range.1.start, range.1.stop, range.2⟩

def ExpectedSegment.labelled (segment : ExpectedSegment) : Segment String :=
  ⟨segment.range.start, segment.range.stop, segment.styleId⟩

theorem ExpectedSegment.labelled_injective : Function.Injective ExpectedSegment.labelled := by
  rintro ⟨⟨start, stop⟩, style⟩ ⟨⟨start', stop'⟩, style'⟩ h
  simpa [ExpectedSegment.labelled, and_assoc] using h

section Requested

variable {snapshot : Snapshot} {paragraph : ParagraphSnapshot} {intents : List FormatIntent}
  {ranges ranges' : List (DraftRange × String)} {range existing : DraftRange × String}
  {i : ℕ} {style : String}

/-- The ranges are taken when every intent is in range. -/
theorem requested_eq_ok : ∀ {intents : List FormatIntent} {ranges : List (DraftRange × String)},
    requested snapshot paragraph intents = .ok ranges →
      (∀ intent ∈ intents, InRange snapshot paragraph intent) ∧
        ∀ range, range ∈ ranges ↔ .setStyle paragraph.paragraphId range.1 range.2 ∈ intents
  | [], ranges, h => by
    obtain rfl : ([] : List _) = ranges := Except.ok.inj h
    simp
  | .setStyle paragraphId range styleId :: rest, ranges, h => by
    rw [requested] at h
    split at h
    case isTrue hne =>
      obtain ⟨hvalid, hmem⟩ := requested_eq_ok h
      refine ⟨fun intent hintent => ?_, fun other => ?_⟩
      · rcases mem_cons.mp hintent with rfl | hintent
        · intro range' style' heq
          exact absurd (FormatIntent.setStyle.inj heq).1 hne
        · exact hvalid intent hintent
      · rw [hmem, mem_cons]
        refine ⟨.inr, fun hother => hother.resolve_left fun heq => ?_⟩
        exact hne (FormatIntent.setStyle.inj heq).1.symm
    case isFalse heq =>
      rw [not_not] at heq
      split at h
      · cases h
      case isFalse hrange =>
        split at h
        · cases h
        case isFalse hstyle =>
          cases hrest : requested snapshot paragraph rest with
          | error e => rw [hrest] at h; cases h
          | ok more =>
            rw [hrest] at h
            obtain rfl : (range, styleId) :: more = ranges := Except.ok.inj h
            obtain ⟨hvalid, hmem⟩ := requested_eq_ok hrest
            refine ⟨fun intent hintent => ?_, fun other => ?_⟩
            · rcases mem_cons.mp hintent with rfl | hintent
              · rintro range' style' heq'
                obtain ⟨-, rfl, rfl⟩ := FormatIntent.setStyle.inj heq'
                simp only [DraftRange.isEmpty, decide_eq_true_eq] at hrange
                exact ⟨by omega, not_not.mp hstyle⟩
              · exact hvalid intent hintent
            · rw [mem_cons, mem_cons, hmem, heq, Prod.ext_iff,
                FormatIntent.setStyle.injEq]
              simp only [true_and]

theorem requested_isOk : ∀ {intents : List FormatIntent},
    (∀ intent ∈ intents, InRange snapshot paragraph intent) →
      ∃ ranges, requested snapshot paragraph intents = .ok ranges
  | [], _ => ⟨[], rfl⟩
  | .setStyle paragraphId range styleId :: rest, h => by
    obtain ⟨more, hmore⟩ := requested_isOk fun intent hintent =>
      h intent (mem_cons_of_mem _ hintent)
    rw [requested]
    split
    case isTrue => exact ⟨more, hmore⟩
    case isFalse heq =>
      rw [not_not] at heq
      subst heq
      obtain ⟨hrange, hstyle⟩ := h _ (by simp) range styleId rfl
      rw [if_neg (by simp only [DraftRange.isEmpty, decide_eq_true_eq]; omega),
        if_neg (not_not.mpr hstyle), hmore]
      exact ⟨_, rfl⟩

/-! ## Merging -/

/-- The merging loop unites the ranges with their styles. -/
theorem toOption_mergeFrom : ∀ {ranges : List (DraftRange × String)}
    {existing : DraftRange × String},
    (mergeFrom paragraph existing ranges).toOption.map (·.map labelled) =
      Segment.uniteFrom (labelled existing) (ranges.map labelled)
  | [], _ => rfl
  | range :: rest, existing => by
    rw [mergeFrom, map_cons, Segment.uniteFrom]
    have hover : (existing.1.overlaps range.1 = true ∧ existing.2 ≠ range.2) ↔
        ((labelled existing).start < (labelled range).stop ∧
          (labelled range).start < (labelled existing).stop ∧
          (labelled existing).label ≠ (labelled range).label) := by
      simp [DraftRange.overlaps, labelled, and_assoc]
    have htouch : (existing.1.touches range.1 = true ∧ existing.2 = range.2) ↔
        ((labelled existing).start ≤ (labelled range).stop ∧
          (labelled range).start ≤ (labelled existing).stop ∧
          (labelled existing).label = (labelled range).label) := by
      simp [DraftRange.touches, labelled, and_assoc]
    simp only [hover, htouch]
    split
    · rfl
    · split
      · exact toOption_mergeFrom
      · rw [← toOption_mergeFrom]
        cases mergeFrom paragraph range rest with
        | error e => rfl
        | ok merged => rfl

theorem perm_sortRequested : (sortRequested ranges).Perm ranges := perm_insertionSort _ _

theorem ordered_sortRequested (h : ∀ range ∈ ranges, range.1.start < range.1.stop) :
    Segment.Ordered ((sortRequested ranges).map labelled) := by
  constructor
  · intro s hs
    obtain ⟨range, hrange, rfl⟩ := mem_map.mp hs
    exact h range (perm_sortRequested.mem_iff.mp hrange)
  · rw [pairwise_map]
    let r : DraftRange × String → DraftRange × String → Prop := fun a b =>
      a.1.start < b.1.start ∨ a.1.start = b.1.start ∧ a.1.stop ≤ b.1.stop
    have : Std.Total r := ⟨fun a b => by simp only [r]; omega⟩
    have : IsTrans _ r := ⟨fun a b c hab hbc => by simp only [r] at *; omega⟩
    refine (pairwise_insertionSort r ranges).imp fun {a b} hab => ?_
    rcases hab with hab | hab
    · exact hab.le
    · exact hab.1.le

theorem claims_sortRequested :
    Segment.Claims ((sortRequested ranges).map labelled) i style ↔
      Segment.Claims (ranges.map labelled) i style := by
  simp only [Segment.Claims, mem_map, perm_sortRequested.mem_iff]

/-- Nonempty ranges are merged, to the canonical list of what they claim, exactly when no
character is claimed with two styles. -/
theorem mergeRequested_sortRequested (h : ∀ range ∈ ranges, range.1.start < range.1.stop) :
    (∀ merged, mergeRequested paragraph (sortRequested ranges) = .ok merged →
      Segment.Compatible (ranges.map labelled)) ∧
    (Segment.Compatible (ranges.map labelled) →
      ∃ merged, mergeRequested paragraph (sortRequested ranges) = .ok merged ∧
        Segment.Canonical (merged.map labelled) ∧
        ∀ i style, Segment.Claims (merged.map labelled) i style ↔
          Segment.Claims (ranges.map labelled) i style) := by
  have hordered := ordered_sortRequested h
  have hclaims : ∀ i style, Segment.Claims ((sortRequested ranges).map labelled) i style ↔
      Segment.Claims (ranges.map labelled) i style := fun _ _ => claims_sortRequested
  cases hsort : sortRequested ranges with
  | nil =>
    rw [hsort] at hclaims
    refine ⟨fun _ _ i b c hb => absurd ((hclaims i b).mpr hb) Segment.claims_nil, fun _ => ?_⟩
    exact ⟨[], rfl, ⟨by simp, .nil⟩, hclaims⟩
  | cons first rest =>
    rw [hsort, map_cons] at hordered hclaims
    have hmerge : (mergeFrom paragraph first rest).toOption.map (·.map labelled) =
        Segment.uniteFrom (labelled first) (rest.map labelled) := toOption_mergeFrom
    rw [mergeRequested]
    constructor
    · intro merged hmerged
      rw [hmerged] at hmerge
      exact (Segment.compatible_of_uniteFrom hordered hmerge.symm).of_claims
        fun i b => (hclaims i b).mpr
    · intro hcomp
      obtain ⟨r, hr, hcanonical, hr', -⟩ := Segment.canonical_of_uniteFrom hordered
        (hcomp.of_claims fun i b => (hclaims i b).mp)
      obtain ⟨merged, hmerged, rfl⟩ := exists_ok_of_map (hmerge.trans hr)
      exact ⟨merged, hmerged, hcanonical, fun i b => (hr' i b).trans (hclaims i b)⟩

end Requested

end Docx2Typed.Format
