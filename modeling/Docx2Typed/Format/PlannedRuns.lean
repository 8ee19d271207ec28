import Docx2Typed.Format.Plan

/-!
# What a plan does to a paragraph

The planned runs of a paragraph tile its text, each inside one run of the snapshot, and every
character gets the style that the requests covering it ask for (`planSegments_spec`).  `plan`
succeeds exactly on acceptable requests and its result depends on the set of requests only
(`plan_spec`).
-/

namespace Docx2Typed.Format

open Library List

/-- The runs of a paragraph spell its draft text, and their indices tell them apart. -/
def ParagraphSnapshot.Consistent (paragraph : ParagraphSnapshot) : Prop :=
  paragraph.draftText = paragraph.runs.flatMap (·.text) ∧ (paragraph.runs.map (·.index)).Nodup

def Snapshot.Consistent (snapshot : Snapshot) : Prop :=
  ∀ paragraph ∈ snapshot.paragraphs, paragraph.Consistent

/-- The number of characters of some runs. -/
def textLength (runs : List OriginalRun) : ℕ := (runs.flatMap (·.text)).length

@[simp] theorem textLength_nil : textLength [] = 0 := rfl

@[simp] theorem textLength_cons (run : OriginalRun) (runs : List OriginalRun) :
    textLength (run :: runs) = run.text.length + textLength runs := by
  simp [textLength]

/-- A planned run lies inside the run it names as its source. -/
def PlannedRun.Inside (run : PlannedRun) (runs : List OriginalRun) : Prop :=
  ∃ k, ∃ h : k < runs.length, runs[k].index = run.sourceRun ∧
    textLength (runs.take k) ≤ run.range.start ∧ run.range.stop ≤ textLength (runs.take (k + 1))

def PlannedRun.span (run : PlannedRun) : ℕ × ℕ := (run.range.start, run.range.stop)

/-- The characters of a planned run carry its style: the one the segments claim. -/
def PlannedRun.Styled (run : PlannedRun) (segments : List ExpectedSegment) : Prop :=
  ∀ i, run.range.Holds i → ∀ style,
    run.style = some style ↔ Segment.Claims (segments.map (·.labelled)) i style

section Runs

variable {paragraph : ParagraphSnapshot} {segments : List ExpectedSegment}
  {runs : List OriginalRun} {planned rest : List PlannedRun} {run previous : PlannedRun}
  {offset cursor c a b : ℕ} {window : ℕ × ℕ}

/-! ## Source runs -/

/-- A character of the runs has a run, which stops at one of the run ends. -/
theorem runFrom_eq_some : ∀ {runs : List OriginalRun} {cursor : ℕ}, cursor ≤ offset →
    offset < cursor + textLength runs → ∃ k, ∃ h : k < runs.length,
      runFrom offset cursor runs = some runs[k].index ∧
      cursor + textLength (runs.take k) ≤ offset ∧
      offset < cursor + textLength (runs.take (k + 1)) ∧
      cursor + textLength (runs.take (k + 1)) ∈ runEnds cursor runs
  | [], cursor, hle, hlt => by
    rw [textLength_nil] at hlt
    omega
  | run :: runs, cursor, hle, hlt => by
    rw [textLength_cons] at hlt
    rw [runFrom]
    split
    case isTrue h =>
      refine ⟨0, by simp, rfl, by simpa using hle, ?_, ?_⟩
      · simpa using h.2
      · simp [runEnds]
    case isFalse h =>
      have hle' : cursor + run.text.length ≤ offset := by omega
      have hlt' : offset < cursor + run.text.length + textLength runs := by omega
      obtain ⟨k, hk, hrun, hstart, hstop, hmem⟩ := runFrom_eq_some hle' hlt'
      refine ⟨k + 1, by simpa using hk, by simpa using hrun, ?_, ?_, ?_⟩
      · rw [take_succ_cons, textLength_cons]
        omega
      · rw [take_succ_cons, textLength_cons]
        omega
      · rw [take_succ_cons, textLength_cons, ← Nat.add_assoc]
        exact mem_cons_of_mem _ hmem

theorem le_of_mem_runEnds : ∀ {runs : List OriginalRun} {cursor : ℕ}, c ∈ runEnds cursor runs →
    c ≤ cursor + textLength runs
  | [], _, h => by simp [runEnds] at h
  | run :: runs, cursor, h => by
    rw [textLength_cons]
    rcases mem_cons.mp h with rfl | h
    · omega
    · have hle := le_of_mem_runEnds h
      omega

/-! ## Boundaries -/

theorem mem_boundaries : c ∈ boundaries paragraph segments ↔
    c = 0 ∨ c = paragraph.draftText.length ∨
      (∃ segment ∈ segments, c = segment.range.start ∨ c = segment.range.stop) ∨
      c ∈ runEnds 0 paragraph.runs := by
  rw [boundaries, mem_destutter, mem_insertionSort]
  simp

theorem isChain_boundaries : (boundaries paragraph segments).IsChain (· < ·) :=
  isChain_lt_destutter (pairwise_insertionSort _ _)

theorem le_of_mem_boundaries (hparagraph : paragraph.Consistent)
    (hsegments : Segment.Canonical (segments.map (·.labelled)))
    (hinside : ∀ segment ∈ segments, segment.range.stop ≤ paragraph.draftText.length)
    (hc : c ∈ boundaries paragraph segments) : c ≤ paragraph.draftText.length := by
  rcases mem_boundaries.mp hc with rfl | rfl | ⟨segment, hsegment, rfl | rfl⟩ | hc
  · exact Nat.zero_le _
  · exact le_rfl
  · have hlt : segment.range.start < segment.range.stop :=
      hsegments.1 _ (mem_map_of_mem hsegment)
    exact hlt.le.trans (hinside segment hsegment)
  · exact hinside segment hsegment
  · have hle := le_of_mem_runEnds hc
    rw [hparagraph.1]
    simpa [textLength] using hle

/-- The windows of the boundaries tile the paragraph's text. -/
theorem tiles_boundaries (hparagraph : paragraph.Consistent)
    (hsegments : Segment.Canonical (segments.map (·.labelled)))
    (hinside : ∀ segment ∈ segments, segment.range.stop ≤ paragraph.draftText.length) :
    Tiles 0 (steps (boundaries paragraph segments)) paragraph.draftText.length := by
  have hchain : (boundaries paragraph segments).IsChain (· < ·) := isChain_boundaries
  have hle : ∀ c ∈ boundaries paragraph segments, c ≤ paragraph.draftText.length :=
    fun _ => le_of_mem_boundaries hparagraph hsegments hinside
  have hzero : 0 ∈ boundaries paragraph segments := mem_boundaries.mpr (.inl rfl)
  have hlength : paragraph.draftText.length ∈ boundaries paragraph segments :=
    mem_boundaries.mpr (.inr (.inl rfl))
  cases hb : boundaries paragraph segments with
  | nil => rw [hb] at hzero; simp at hzero
  | cons c cuts =>
    rw [hb] at hchain hle hzero hlength
    obtain rfl : c = 0 := Nat.le_zero.mp (head_le_of_isChain hchain 0 hzero)
    exact tiles_steps hchain hlength hle

/-! ## The pieces between boundaries -/

/-- No segment starts or stops inside a window: the segment that holds the window is the one
that claims its characters. -/
theorem styleOf_eq_some (hsegments : Segment.Canonical (segments.map (·.labelled)))
    (hcuts : ∀ c ∈ boundaries paragraph segments, c ≤ window.1 ∨ window.2 ≤ c) {i : ℕ}
    (hi : window.1 ≤ i ∧ i < window.2) {style : String} :
    styleOf segments window.1 window.2 = some style ↔
      Segment.Claims (segments.map (·.labelled)) i style := by
  have hclaims : ∀ {segment}, segments.find? (fun segment =>
      decide (segment.range.start ≤ window.1) && decide (segment.range.stop ≥ window.2)) =
        some segment → Segment.Claims (segments.map (·.labelled)) i segment.styleId := by
    intro segment hfind
    have hholds := find?_some hfind
    simp only [Bool.and_eq_true, decide_eq_true_eq] at hholds
    refine ⟨segment.labelled, mem_map_of_mem (mem_of_find?_eq_some hfind), ?_, rfl⟩
    exact ⟨hholds.1.trans hi.1, hi.2.trans_le hholds.2⟩
  constructor
  · intro h
    obtain ⟨segment, hfind, rfl⟩ := Option.map_eq_some_iff.mp h
    exact hclaims hfind
  · intro h
    obtain ⟨_, hmem, hcovers, hlabel⟩ := id h
    obtain ⟨segment, hsegment, rfl⟩ := mem_map.mp hmem
    have hstart : segment.range.start ≤ i := hcovers.1
    have hstop : i < segment.range.stop := hcovers.2
    have hcut := hcuts segment.range.start
      (mem_boundaries.mpr (.inr (.inr (.inl ⟨segment, hsegment, .inl rfl⟩))))
    have hcut' := hcuts segment.range.stop
      (mem_boundaries.mpr (.inr (.inr (.inl ⟨segment, hsegment, .inr rfl⟩))))
    cases hfind : segments.find? (fun segment =>
        decide (segment.range.start ≤ window.1) && decide (segment.range.stop ≥ window.2)) with
    | none =>
      have hnone := find?_eq_none.mp hfind segment hsegment
      simp only [Bool.and_eq_true, decide_eq_true_eq] at hnone
      exact absurd ⟨by omega, by omega⟩ hnone
    | some found =>
      rw [styleOf, hfind]
      exact congrArg some (hsegments.compatible i _ _ (hclaims hfind) h)

/-- What a planned run has to be, in a window of the boundaries. -/
def Placed (paragraph : ParagraphSnapshot) (segments : List ExpectedSegment) (run : PlannedRun) :
    Prop :=
  run.Inside paragraph.runs ∧ run.Styled segments

theorem exists_piece (hparagraph : paragraph.Consistent)
    (hsegments : Segment.Canonical (segments.map (·.labelled)))
    (hinside : ∀ segment ∈ segments, segment.range.stop ≤ paragraph.draftText.length)
    (hwindow : window ∈ steps (boundaries paragraph segments)) :
    ∃ run, piece paragraph segments window = .ok run ∧
      run.span = window ∧ Placed paragraph segments run := by
  obtain ⟨hlt, hmem, hcuts⟩ := of_mem_steps isChain_boundaries hwindow
  have hle := le_of_mem_boundaries hparagraph hsegments hinside hmem
  have hlength : paragraph.draftText.length = textLength paragraph.runs := by
    rw [hparagraph.1, textLength]
  have hlt' : window.1 < 0 + textLength paragraph.runs := by omega
  obtain ⟨k, hk, hrun, hstart, hstop, hend⟩ := runFrom_eq_some (Nat.zero_le _) hlt'
  rw [Nat.zero_add] at hstart hstop hend
  have hcut := hcuts _ (mem_boundaries.mpr (.inr (.inr (.inr hend))))
  refine ⟨_, by rw [piece, runAt, hrun]; rfl, rfl, ⟨k, hk, rfl, hstart, ?_⟩, ?_⟩
  · simp only
    omega
  · intro i hi style
    exact styleOf_eq_some hsegments hcuts hi

/-! ## Joining pieces -/

theorem tiles_joinFrom : ∀ {rest : List PlannedRun} {previous : PlannedRun} {a : ℕ},
    Tiles a ((previous :: rest).map (·.span)) b → Tiles a ((joinFrom previous rest).map (·.span)) b
  | [], _, _, h => h
  | run :: rest, previous, a, h => by
    obtain ⟨hstart, hlt, hmeet, hlt', hrest⟩ := h
    rw [joinFrom]
    split
    · refine tiles_joinFrom ⟨hstart, ?_, hrest⟩
      simp only [PlannedRun.span] at *
      omega
    · exact ⟨hstart, hlt, tiles_joinFrom ⟨hmeet, hlt', hrest⟩⟩

/-- Two adjacent runs of one source and one style are together one such run. -/
theorem Placed.join (hparagraph : paragraph.Consistent) (hprevious : Placed paragraph segments previous)
    (hrun : Placed paragraph segments run) (hstyle : previous.style = run.style)
    (hsource : previous.sourceRun = run.sourceRun) (hmeet : previous.range.stop = run.range.start) :
    Placed paragraph segments
      { previous with range := ⟨previous.range.start, run.range.stop⟩ } := by
  obtain ⟨⟨k, hk, hindex, hstart, -⟩, hstyled⟩ := hprevious
  obtain ⟨⟨k', hk', hindex', -, hstop⟩, hstyled'⟩ := hrun
  obtain rfl : k = k' := by
    have hk₁ : k < (paragraph.runs.map (·.index)).length := by simpa using hk
    have hk₂ : k' < (paragraph.runs.map (·.index)).length := by simpa using hk'
    have hsame : (paragraph.runs.map (·.index))[k] = (paragraph.runs.map (·.index))[k'] := by
      simpa using hindex.trans (hsource.trans hindex'.symm)
    exact hparagraph.2.getElem_inj_iff.mp hsame
  refine ⟨⟨k, hk, hindex, hstart, hstop⟩, fun i hi style => ?_⟩
  rcases Nat.lt_or_ge i previous.range.stop with hlt | hge
  · exact hstyled i ⟨hi.1, hlt⟩ style
  · exact hstyle ▸ hstyled' i ⟨hmeet ▸ hge, hi.2⟩ style

theorem placed_joinFrom (hparagraph : paragraph.Consistent) : ∀ {rest : List PlannedRun}
    {previous : PlannedRun}, (∀ run ∈ previous :: rest, Placed paragraph segments run) →
      ∀ run ∈ joinFrom previous rest, Placed paragraph segments run
  | [], _, h => h
  | next :: rest, previous, h => by
    rw [joinFrom]
    split
    case isTrue heq =>
      refine placed_joinFrom hparagraph fun run hrun => ?_
      rcases mem_cons.mp hrun with rfl | hrun
      · exact Placed.join hparagraph (h previous (by simp)) (h next (by simp)) heq.1 heq.2.1 heq.2.2
      · exact h run (by simp [hrun])
    case isFalse =>
      intro run hrun
      rcases mem_cons.mp hrun with rfl | hrun
      · exact h run (by simp)
      · exact placed_joinFrom hparagraph (fun run hrun => h run (mem_cons_of_mem _ hrun))
          run hrun

theorem joinRuns_spec (hparagraph : paragraph.Consistent)
    (htiles : Tiles a (planned.map (·.span)) b)
    (hplaced : ∀ run ∈ planned, Placed paragraph segments run) :
    Tiles a ((joinRuns planned).map (·.span)) b ∧
      ∀ run ∈ joinRuns planned, Placed paragraph segments run := by
  cases planned with
  | nil => exact ⟨htiles, hplaced⟩
  | cons run rest => exact ⟨tiles_joinFrom htiles, placed_joinFrom hparagraph hplaced⟩

/-- The runs planned for a paragraph tile its text, each inside its source run and each
character with the style its segments claim. -/
theorem plannedRuns_spec (hparagraph : paragraph.Consistent)
    (hsegments : Segment.Canonical (segments.map (·.labelled)))
    (hinside : ∀ segment ∈ segments, segment.range.stop ≤ paragraph.draftText.length) :
    ∃ planned, plannedRuns paragraph segments = .ok planned ∧
      Tiles 0 (planned.map (·.span)) paragraph.draftText.length ∧
      ∀ run ∈ planned, Placed paragraph segments run := by
  have htiles := tiles_boundaries hparagraph hsegments hinside
  have hfilter : (steps (boundaries paragraph segments)).filter (fun window =>
      decide (window.1 < window.2)) = steps (boundaries paragraph segments) :=
    filter_eq_self.mpr fun window hwindow =>
      decide_eq_true (of_mem_steps isChain_boundaries hwindow).1
  obtain ⟨pieces, hpieces, hforall⟩ := exists_mapM_eq_ok fun _ hwindow =>
    exists_piece hparagraph hsegments hinside hwindow
  have hspans : pieces.map (·.span) = steps (boundaries paragraph segments) := by
    refine List.forall₂_eq_eq_eq ▸ List.forall₂_map_left_iff.mpr ?_
    exact hforall.flip.imp fun _ _ h => h.1
  have hplaced : ∀ run ∈ pieces, Placed paragraph segments run := by
    intro run hrun
    obtain ⟨_, -, h⟩ := exists_of_forall₂_of_mem hforall hrun
    exact h.2
  obtain ⟨hjoined, hplaced'⟩ := joinRuns_spec hparagraph (hspans ▸ htiles) hplaced
  refine ⟨joinRuns pieces, ?_, hjoined, hplaced'⟩
  rw [plannedRuns, hfilter, bind_ok hpieces]
  rfl

end Runs

/-! ## Requests -/

section Requests

variable {snapshot : Snapshot} {paragraph : ParagraphSnapshot} {intents intents' : List FormatIntent}
  {segments : List ExpectedSegment}

/-- No character of a paragraph is asked to carry two styles. -/
def Agreed (intents : List FormatIntent) (paragraphId : String) : Prop :=
  ∀ i style style', Asked intents paragraphId i style → Asked intents paragraphId i style' →
    style = style'

/-- The segments of a paragraph, as the requests ask for them. -/
structure Requested (intents : List FormatIntent) (paragraph : ParagraphSnapshot)
    (segments : List ExpectedSegment) : Prop where
  canonical : Segment.Canonical (segments.map (·.labelled))
  inside : ∀ segment ∈ segments, segment.range.stop ≤ paragraph.draftText.length
  asked : ∀ i style, Segment.Claims (segments.map (·.labelled)) i style ↔
    Asked intents paragraph.paragraphId i style

/-- The requests determine the segments. -/
theorem Requested.eq {segments' : List ExpectedSegment} (h : Requested intents paragraph segments)
    (h' : Requested intents paragraph segments') : segments = segments' :=
  ExpectedSegment.labelled_injective.list_map <|
    Segment.eq_of_claims h.canonical h'.canonical fun i style =>
      (h.asked i style).trans (h'.asked i style).symm

theorem Requested.congr (hsame : ∀ intent, intent ∈ intents ↔ intent ∈ intents')
    (h : Requested intents paragraph segments) : Requested intents' paragraph segments :=
  ⟨h.canonical, h.inside, fun i style => by simpa only [Asked, hsame] using h.asked i style⟩

theorem claims_requested {ranges : List (DraftRange × String)}
    (hmem : ∀ range, range ∈ ranges ↔ .setStyle paragraph.paragraphId range.1 range.2 ∈ intents)
    (i : ℕ) (style : String) :
    Segment.Claims (ranges.map labelled) i style ↔ Asked intents paragraph.paragraphId i style := by
  constructor
  · rintro ⟨_, hs, hcovers, rfl⟩
    obtain ⟨range, hrange, rfl⟩ := mem_map.mp hs
    exact ⟨_, (hmem range).mp hrange, range.1, rfl, hcovers⟩
  · rintro ⟨_, hintent, range, rfl, hholds⟩
    exact ⟨_, mem_map_of_mem ((hmem (range, style)).mpr hintent), hholds, rfl⟩

theorem stop_le_of_asked (hvalid : ∀ intent ∈ intents, InRange snapshot paragraph intent)
    (hcanonical : Segment.Canonical (segments.map (·.labelled)))
    (hasked : ∀ i style, Segment.Claims (segments.map (·.labelled)) i style →
      Asked intents paragraph.paragraphId i style) :
    ∀ segment ∈ segments, segment.range.stop ≤ paragraph.draftText.length := by
  intro segment hsegment
  have hmem : segment.labelled ∈ segments.map (·.labelled) := mem_map_of_mem hsegment
  have hlt : segment.range.start < segment.range.stop := hcanonical.1 _ hmem
  -- the last character of the segment is asked for, so it is one of the paragraph
  have hcovers : segment.labelled.Covers (segment.range.stop - 1) := by
    constructor <;> simp only [ExpectedSegment.labelled] <;> omega
  obtain ⟨_, hintent, range, rfl, hholds⟩ := hasked _ _ (Segment.claims_of_mem hmem hcovers)
  have hle : range.stop ≤ paragraph.draftText.length :=
    ((hvalid _ hintent) range _ rfl).1.2
  have hlast : segment.range.stop - 1 < range.stop := hholds.2
  omega

/-- A paragraph is planned from the segments its requests ask for, and only when they are in
range and agree. -/
theorem planParagraph_spec (snapshot : Snapshot) (intents : List FormatIntent)
    (paragraph : ParagraphSnapshot) :
    (∀ planned, planParagraph snapshot intents paragraph = .ok planned →
      (∀ intent ∈ intents, InRange snapshot paragraph intent) ∧
        Agreed intents paragraph.paragraphId) ∧
    ((∀ intent ∈ intents, InRange snapshot paragraph intent) →
      Agreed intents paragraph.paragraphId →
      ∃ segments, planParagraph snapshot intents paragraph = planSegments paragraph segments ∧
        Requested intents paragraph segments) := by
  have hnonempty : ∀ {ranges : List (DraftRange × String)},
      (∀ range, range ∈ ranges ↔ .setStyle paragraph.paragraphId range.1 range.2 ∈ intents) →
      (∀ intent ∈ intents, InRange snapshot paragraph intent) →
        ∀ range ∈ ranges, range.1.start < range.1.stop := fun hmem hvalid range hrange =>
    (hvalid _ ((hmem range).mp hrange) _ _ rfl).1.1
  constructor
  · intro planned h
    obtain ⟨ranges, hranges, h⟩ := bind_eq_ok h
    obtain ⟨merged, hmerged, -⟩ := bind_eq_ok h
    obtain ⟨hvalid, hmem⟩ := requested_eq_ok hranges
    have hcomp := (mergeRequested_sortRequested (hnonempty hmem hvalid)).1 merged hmerged
    have hclaims := claims_requested hmem
    exact ⟨hvalid, fun i style style' h h' =>
      hcomp i style style' ((hclaims i style).mpr h) ((hclaims i style').mpr h')⟩
  · intro hvalid hagreed
    obtain ⟨ranges, hranges⟩ := requested_isOk hvalid
    have hmem := (requested_eq_ok hranges).2
    have hclaims := claims_requested hmem
    obtain ⟨merged, hmerged, hcanonical, hmergedClaims⟩ :=
      (mergeRequested_sortRequested (hnonempty hmem hvalid)).2 fun i style style' h h' =>
        hagreed i style style' ((hclaims i style).mp h) ((hclaims i style').mp h')
    have hmap : (merged.map fun range => (⟨range.1, range.2⟩ : ExpectedSegment)).map (·.labelled) =
        merged.map labelled := by
      rw [map_map]
      rfl
    have hasked := fun i style => (hmergedClaims i style).trans (hclaims i style)
    rw [← hmap] at hcanonical hasked
    refine ⟨_, ?_, hcanonical,
      stop_le_of_asked hvalid hcanonical fun i style => (hasked i style).mp, hasked⟩
    rw [planParagraph, bind_ok hranges, bind_ok hmerged]

end Requests

/-! ## The plan -/

/-- What a plan makes of a paragraph: nonempty runs that tile its text, each inside the run it
names as its source, with the style the requests ask for at each of its characters. -/
structure PlannedFrom (intents : List FormatIntent) (paragraph : ParagraphSnapshot)
    (planned : ParagraphPlan) : Prop where
  paragraphId : planned.paragraphId = paragraph.paragraphId
  tiles : Tiles 0 (planned.runs.map (·.span)) paragraph.draftText.length
  inside : ∀ run ∈ planned.runs, run.Inside paragraph.runs
  style : ∀ run ∈ planned.runs, ∀ i, run.range.Holds i → ∀ style,
    run.style = some style ↔ Asked intents paragraph.paragraphId i style

/-- Every intent names a paragraph of the snapshot, a range inside it and a style there is, and
no character is asked to carry two styles. -/
structure Acceptable (snapshot : Snapshot) (intents : List FormatIntent) : Prop where
  known : ∀ intent ∈ intents,
    ∃ paragraph ∈ snapshot.paragraphs, paragraph.paragraphId = intent.paragraphId
  inRange : ∀ paragraph ∈ snapshot.paragraphs, ∀ intent ∈ intents,
    InRange snapshot paragraph intent
  agreed : ∀ paragraph ∈ snapshot.paragraphs, Agreed intents paragraph.paragraphId

section Plan

variable {snapshot : Snapshot} {paragraph : ParagraphSnapshot} {intents intents' : List FormatIntent}
  {segments : List ExpectedSegment}

theorem planSegments_spec (hparagraph : paragraph.Consistent)
    (hsegments : Requested intents paragraph segments) :
    ∃ planned, planSegments paragraph segments = .ok planned ∧
      PlannedFrom intents paragraph planned := by
  obtain ⟨planned, hplanned, htiles, hplaced⟩ :=
    plannedRuns_spec hparagraph hsegments.canonical hsegments.inside
  refine ⟨_, by rw [planSegments, bind_ok hplanned]; rfl, rfl, htiles,
    fun run hrun => (hplaced run hrun).1, fun run hrun i hi style => ?_⟩
  exact ((hplaced run hrun).2 i hi style).trans (hsegments.asked i style)

section

variable (hsame : ∀ intent, intent ∈ intents ↔ intent ∈ intents')

include hsame

theorem Acceptable.congr (h : Acceptable snapshot intents) : Acceptable snapshot intents' :=
  ⟨fun intent hintent => h.known intent ((hsame intent).mpr hintent),
    fun paragraph hparagraph intent hintent =>
      h.inRange paragraph hparagraph intent ((hsame intent).mpr hintent),
    fun paragraph hparagraph => by
      simpa only [Agreed, Asked, hsame] using h.agreed paragraph hparagraph⟩

theorem planParagraph_congr (h : Acceptable snapshot intents)
    (hparagraph : paragraph ∈ snapshot.paragraphs) :
    planParagraph snapshot intents' paragraph = planParagraph snapshot intents paragraph := by
  have h' : Acceptable snapshot intents' := h.congr hsame
  obtain ⟨segments, hplan, hsegments⟩ := (planParagraph_spec snapshot intents paragraph).2
    (h.inRange paragraph hparagraph) (h.agreed paragraph hparagraph)
  obtain ⟨segments', hplan', hsegments'⟩ := (planParagraph_spec snapshot intents' paragraph).2
    (h'.inRange paragraph hparagraph) (h'.agreed paragraph hparagraph)
  rw [hplan, hplan', (hsegments.congr hsame).eq hsegments']

end

theorem find?_unknown : (intents.find? fun intent =>
      !snapshot.paragraphs.any (·.paragraphId == intent.paragraphId)) = none ↔
    ∀ intent ∈ intents,
      ∃ paragraph ∈ snapshot.paragraphs, paragraph.paragraphId = intent.paragraphId := by
  simp [find?_eq_none]

/-- A plan is made of acceptable requests only. -/
theorem acceptable_of_plan {planned : FormatPlan} (h : plan snapshot intents = .ok planned) :
    Acceptable snapshot intents := by
  obtain ⟨paragraphs, hparagraphs, h⟩ := bind_eq_ok h
  have hforall := mapM_eq_ok hparagraphs
  have hspec : ∀ paragraph ∈ snapshot.paragraphs, ∃ planned,
      planParagraph snapshot intents paragraph = .ok planned := by
    intro paragraph hparagraph
    obtain ⟨planned, -, hplanned⟩ := exists_of_forall₂_of_mem hforall.flip hparagraph
    exact ⟨planned, hplanned⟩
  refine ⟨find?_unknown.mp ?_, fun paragraph hparagraph => ?_, fun paragraph hparagraph => ?_⟩
  · cases hfind : intents.find? fun intent =>
        !snapshot.paragraphs.any (·.paragraphId == intent.paragraphId) with
    | none => rfl
    | some intent => rw [hfind] at h; cases h
  · obtain ⟨planned, hplanned⟩ := hspec paragraph hparagraph
    exact ((planParagraph_spec snapshot intents paragraph).1 planned hplanned).1
  · obtain ⟨planned, hplanned⟩ := hspec paragraph hparagraph
    exact ((planParagraph_spec snapshot intents paragraph).1 planned hplanned).2

/-- Acceptable requests on a consistent snapshot are planned as they ask. -/
theorem exists_plan (hsnapshot : snapshot.Consistent) (h : Acceptable snapshot intents) :
    ∃ planned, plan snapshot intents = .ok planned ∧
      List.Forall₂ (PlannedFrom intents) snapshot.paragraphs planned.paragraphs := by
  have hparagraph : ∀ paragraph ∈ snapshot.paragraphs, ∃ planned,
      planParagraph snapshot intents paragraph = .ok planned ∧
        PlannedFrom intents paragraph planned := by
    intro paragraph hparagraph
    obtain ⟨segments, hplan, hsegments⟩ := (planParagraph_spec snapshot intents paragraph).2
      (h.inRange paragraph hparagraph) (h.agreed paragraph hparagraph)
    obtain ⟨planned, hplanned, hfrom⟩ :=
      planSegments_spec (hsnapshot paragraph hparagraph) hsegments
    exact ⟨planned, hplan.trans hplanned, hfrom⟩
  obtain ⟨paragraphs, hparagraphs, hforall⟩ := exists_mapM_eq_ok hparagraph
  refine ⟨⟨planSchema, snapshot.generationId, snapshot.baseDigest, .unicodeScalars, paragraphs⟩,
    ?_, hforall⟩
  rw [plan, bind_ok hparagraphs, find?_unknown.mpr h.known]
  rfl

/-- The plan depends on which requests there are, not on their order or number. -/
theorem plan_congr (hsame : ∀ intent, intent ∈ intents ↔ intent ∈ intents')
    (h : Acceptable snapshot intents) : plan snapshot intents' = plan snapshot intents := by
  have hparagraphs : snapshot.paragraphs.mapM (planParagraph snapshot intents') =
      snapshot.paragraphs.mapM (planParagraph snapshot intents) :=
    mapM_congr fun paragraph hparagraph => planParagraph_congr hsame h hparagraph
  rw [plan, plan, hparagraphs, find?_unknown.mpr h.known,
    find?_unknown.mpr (h.congr hsame).known]

end Plan

/-- Requests on a consistent snapshot are planned exactly when they are acceptable; the plan is
then the one they ask for, and any list of the same requests gives the same plan, or none. -/
theorem plan_spec (snapshot : Snapshot) (hsnapshot : snapshot.Consistent)
    (intents : List FormatIntent) :
    ((∃ planned, plan snapshot intents = .ok planned) ↔ Acceptable snapshot intents) ∧
    (∀ planned, plan snapshot intents = .ok planned →
      List.Forall₂ (PlannedFrom intents) snapshot.paragraphs planned.paragraphs) ∧
    ∀ intents', (∀ intent, intent ∈ intents ↔ intent ∈ intents') →
      (plan snapshot intents').toOption = (plan snapshot intents).toOption := by
  refine ⟨⟨fun ⟨_, h⟩ => acceptable_of_plan h, fun h => ?_⟩, fun planned h => ?_,
    fun intents' hsame => ?_⟩
  · obtain ⟨planned, hplanned, -⟩ := exists_plan hsnapshot h
    exact ⟨planned, hplanned⟩
  · obtain ⟨planned', hplanned', hforall⟩ := exists_plan hsnapshot (acceptable_of_plan h)
    exact Except.ok.inj (hplanned'.symm.trans h) ▸ hforall
  · cases h : plan snapshot intents with
    | ok planned => rw [plan_congr hsame (acceptable_of_plan h), h]
    | error e =>
      cases h' : plan snapshot intents' with
      | error e' => rfl
      | ok planned =>
        have hcongr := plan_congr (fun intent => (hsame intent).symm) (acceptable_of_plan h')
        rw [h, h'] at hcongr
        cases hcongr

/-- Two runs `ab`, `cd` of one paragraph, and one style. -/
def twoRuns : Snapshot where
  generationId := "g"
  baseDigest := "d"
  styles := [("s", "<w:b/>")]
  paragraphs := [⟨"P1", "abcd".toList, [⟨0, "ab".toList, ""⟩, ⟨1, "cd".toList, ""⟩]⟩]

theorem consistent_twoRuns : twoRuns.Consistent := by
  simp [Snapshot.Consistent, ParagraphSnapshot.Consistent, twoRuns]

/-- One style over the boundary of the two runs. -/
theorem plan_spec_twoRuns :
    let intents := [FormatIntent.setStyle "P1" ⟨1, 3⟩ "s", .setStyle "P1" ⟨1, 2⟩ "s"]
    ((∃ planned, plan twoRuns intents = .ok planned) ↔ Acceptable twoRuns intents) ∧
    (∀ planned, plan twoRuns intents = .ok planned →
      List.Forall₂ (PlannedFrom intents) twoRuns.paragraphs planned.paragraphs) ∧
    ∀ intents', (∀ intent, intent ∈ intents ↔ intent ∈ intents') →
      (plan twoRuns intents').toOption = (plan twoRuns intents).toOption :=
  plan_spec twoRuns consistent_twoRuns _

/-- Which refusal is reported depends on the order of the requests. -/
theorem plan_refusal_order :
    twoRuns.Consistent ∧
      plan twoRuns [.setStyle "P1" ⟨0, 9⟩ "s", .setStyle "P1" ⟨0, 1⟩ "t"] ≠
        plan twoRuns [.setStyle "P1" ⟨0, 1⟩ "t", .setStyle "P1" ⟨0, 9⟩ "s"] := by
  refine ⟨consistent_twoRuns, ?_⟩
  decide

end Docx2Typed.Format
