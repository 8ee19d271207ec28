import Docx2Typed.Format.Runs
import Docx2Typed.Prose.Extract

/-!
# A plan over several paragraphs

`apply_format_plan` takes the range of every planned paragraph from the draft part, and
materializes the plan from the last range to the first, each into the part as it is by then.
`applyFormatPlan_eq`: where no two ranges meet this is each paragraph materialized into the draft
part on its own and all results put in place at once.  `exists_runCuts`: nothing but runs of these
ranges is replaced.
-/

namespace Docx2Typed.Format

open Library List

/-! ## Ranges -/

/-- The byte range of a planned paragraph. -/
structure ParagraphRange where
  paragraphId : String
  start : ℕ
  stop : ℕ
  deriving DecidableEq, Repr

def notInPackage (paragraphId : String) : FormatError :=
  ⟨"format-paragraph-unknown", paragraphId ++ " is not in the package"⟩

def noFirstRun (paragraphId : String) : FormatError :=
  ⟨"format-paragraph-unsupported", paragraphId ++ ": no run holds its first text"⟩

def noLastRun (paragraphId : String) : FormatError :=
  ⟨"format-paragraph-unsupported", paragraphId ++ ": no run holds its last text"⟩

/-- From the run that holds the first text to the end of the one that holds the last. -/
def paragraphRange (leaves : List ProseLeaf) (tags : List Tag) (paragraphId : String) :
    Except Failed ParagraphRange :=
  let own := leaves.filter fun leaf => leaf.paragraphId == paragraphId && leaf.partKey == "document"
  if own = [] then .error (.refused (notInPackage paragraphId))
  else
    let first := (own.map (·.textStart)).min?.getD 0
    let last := (own.map (·.textEnd)).max?.getD 0
    let opened := tags.filter fun tag =>
      tag.name == "r" && !tag.closing && decide (tag.start ≤ first)
    match opened.getLast? with
    | none => .error (.refused (noFirstRun paragraphId))
    | some opening =>
      match tags.find? fun tag => tag.name == "r" && tag.closing && decide (last ≤ tag.stop) with
      | none => .error (.refused (noLastRun paragraphId))
      | some closing => .ok ⟨paragraphId, opening.start, closing.stop⟩

/-- `leaves` is the inventory of the draft package, `part` its document. -/
def paragraphRanges (leaves : List ProseLeaf) (part : Bytes) (plan : FormatPlan) :
    Except Failed (List ParagraphRange) :=
  plan.paragraphs.mapM fun planned => paragraphRange leaves (scanTags part) planned.paragraphId

/-- `sort_by_key(|(_, range)| Reverse(range.0))`, which is stable. -/
def backToFront (ranges : List ParagraphRange) : List ParagraphRange :=
  ranges.insertionSort fun a b => b.start ≤ a.start

section Apply

variable (snapshot : Snapshot) (debug : Text → String) (plan : FormatPlan)

def materializeRange (part : Bytes) (range : ParagraphRange) : Except Failed Bytes :=
  materialize snapshot debug plan part (range.start, range.stop) range.paragraphId

/-- The document of the package that is written. -/
def applyFormatPlan (leaves : List ProseLeaf) (part : Bytes) : Except Failed Bytes := do
  let ranges ← paragraphRanges leaves part plan
  (backToFront ranges).foldlM (materializeRange snapshot debug plan) part

/-! ## Each paragraph on its own -/

/-- What stands in place of a range in a part materialized on its own. -/
def paragraphCut (part out : Bytes) (range : ParagraphRange) : Cut UInt8 :=
  ⟨range.start, range.stop,
    (out.drop range.start).take (out.length + (range.stop - range.start) - part.length)⟩

/-- Every range materialized into the part, and the results put in place at once. -/
def materializeApart (part : Bytes) (ranges : List ParagraphRange) : Except Failed Bytes := do
  let cuts ← (backToFront ranges).mapM fun range =>
    (materializeRange snapshot debug plan part range).map fun out => paragraphCut part out range
  pure (replaceAll part cuts.reverse)

end Apply

/-- No range is empty, and no two meet. -/
def RangesApart (ranges : List ParagraphRange) : Prop :=
  (∀ range ∈ ranges, range.start < range.stop) ∧
    ranges.Pairwise fun a b => a.stop ≤ b.start ∨ b.stop ≤ a.start

variable {cuts : List (Cut UInt8)} {paragraph : ParagraphPlan}

section Proofs

variable {snapshot : Snapshot} {debug : Text → String} {plan : FormatPlan} {part current : Bytes}
  {leaves : List ProseLeaf} {ranges : List ParagraphRange} {range : ParagraphRange}

/-- A range starts and ends at tags of the part. -/
theorem paragraphRange_tags {tags : List Tag} {paragraphId : String}
    (h : paragraphRange leaves tags paragraphId = .ok range) :
    (∃ tag ∈ tags, tag.start = range.start) ∧ ∃ tag ∈ tags, tag.stop = range.stop := by
  simp only [paragraphRange] at h
  split at h
  · cases h
  split at h
  · cases h
  next opening hopening =>
    split at h
    · cases h
    next closing hclosing =>
      obtain rfl := Except.ok.inj h
      exact ⟨⟨opening, (mem_filter.mp (mem_of_getLast? hopening)).1, rfl⟩,
        closing, mem_of_find?_eq_some hclosing, rfl⟩

theorem paragraphRanges_tags (h : paragraphRanges leaves part plan = .ok ranges)
    (hrange : range ∈ ranges) :
    (∃ tag ∈ scanTags part, tag.start = range.start) ∧
      ∃ tag ∈ scanTags part, tag.stop = range.stop := by
  obtain ⟨planned, -, hplanned⟩ := exists_of_forall₂_of_mem (mapM_eq_ok h) hrange
  exact paragraphRange_tags hplanned

/-- Sorted ranges that lie apart: the last comes first. -/
theorem backToFront_pairwise (h : RangesApart ranges) :
    (backToFront ranges).Pairwise fun a b => b.stop ≤ a.start := by
  have hperm := perm_insertionSort (fun a b : ParagraphRange => b.start ≤ a.start) ranges
  have hapart := (hperm.pairwise_iff (fun hab => hab.symm)).mpr h.2
  have hsorted := pairwise_insertionSort
    (fun a b : ParagraphRange => b.start ≤ a.start) ranges
  refine (hapart.and hsorted).imp_of_mem ?_
  rintro a b ha hb ⟨hab | hba, hle⟩
  · have := h.1 a (hperm.mem_iff.mp ha)
    have := h.1 b (hperm.mem_iff.mp hb)
    omega
  · exact hba

/-! ### One range -/

/-- The splices of a planned paragraph that lies at `base`. -/
def paragraphSplices (snapshot : Snapshot) (debug : Text → String) (plan : FormatPlan)
    (paragraph : Bytes) (base : ℕ) (paragraphId : String) : Except Failed (List (Cut UInt8)) :=
  match plan.paragraph paragraphId with
  | none => .error (.refused (planMissingParagraph paragraphId))
  | some paragraphPlan =>
    match snapshot.paragraphs.find? fun entry => entry.paragraphId == paragraphId with
    | none => .error (.refused (notInSnapshot paragraphId))
    | some paragraphSnapshot =>
      splicesOf snapshot debug paragraphPlan paragraphSnapshot paragraph base

/-- Only the bytes of the range are read. -/
theorem materializeRange_eq (hlt : range.start < range.stop) (hstop : range.stop ≤ part.length)
    (hcurrent : current.take range.stop = part.take range.stop) :
    materializeRange snapshot debug plan current range =
      (paragraphSplices snapshot debug plan (slice part range.start range.stop) range.start
        range.paragraphId).map (applyCuts current) := by
  have hlength := congrArg List.length hcurrent
  rw [length_take, length_take] at hlength
  have hslice : slice current range.start range.stop = slice part range.start range.stop := by
    rw [slice, slice, hcurrent]
  rw [materializeRange, materialize, paragraphSplices]
  cases plan.paragraph range.paragraphId with
  | none => rfl
  | some paragraphPlan =>
    cases snapshot.paragraphs.find? fun entry => entry.paragraphId == range.paragraphId with
    | none => rfl
    | some paragraphSnapshot =>
      simp only
      rw [if_neg (by omega), hslice]

theorem rewriteRun_span {source : RunSpan} {position : ℕ} {sourceRange : DraftRange}
    {cut : Cut UInt8}
    (h : rewriteRun snapshot paragraph source position sourceRange = .ok (some cut)) :
    cut.start = source.start ∧ cut.stop = source.stop := by
  simp only [rewriteRun] at h
  split at h
  · cases h
  split at h
  · split at h <;> cases h
  split at h
  · cases h
  split at h
  · cases h
  · obtain ⟨built, -, h⟩ := bind_eq_ok h
    obtain rfl := Option.some.inj (Except.ok.inj h)
    exact ⟨rfl, rfl⟩

/-- Runs are replaced, each as a whole, in their order. -/
theorem splicesFrom_sublist : ∀ {runs : List RunSpan}
    {position cursor : ℕ} {cuts : List (Cut UInt8)},
    splicesFrom snapshot paragraph position cursor runs = .ok cuts →
      (cuts.map fun cut => (cut.start, cut.stop)).Sublist
        (runs.map fun run => (run.start, run.stop))
  | [], _, _, cuts, h => by
    obtain rfl := Except.ok.inj h
    exact .slnil
  | source :: rest, position, cursor, cuts, h => by
    rw [splicesFrom] at h
    obtain ⟨cut, hcut, h⟩ := bind_eq_ok h
    obtain ⟨cuts, hcuts, h⟩ := bind_eq_ok h
    obtain rfl := Except.ok.inj h
    have ih := splicesFrom_sublist hcuts
    cases cut with
    | none => exact ih.cons _
    | some cut =>
      obtain ⟨hstart, hstop⟩ := rewriteRun_span hcut
      rw [Option.toList_some, singleton_append, map_cons, map_cons, hstart, hstop]
      exact ih.cons_cons _

/-- A cut that replaces a run of one of the ranges. -/
def RunCut (part : Bytes) (ranges : List ParagraphRange) (cut : Cut UInt8) : Prop :=
  ∃ range ∈ ranges, ∃ runs,
    runsOf (slice part range.start range.stop) range.start = .ok runs ∧
      ∃ run ∈ runs, cut.start = run.start ∧ cut.stop = run.stop

/-- The tags of the part are those of XML: one that closes an element closes nothing else. -/
def ClosingTags (part : Bytes) : Prop :=
  ∀ tag ∈ scanTags part, tag.closing = true → tag.selfClosing = false

instance (part : Bytes) : Decidable (ClosingTags part) :=
  inferInstanceAs (Decidable (∀ tag ∈ scanTags part, _))

/-- The splices of a range are in order, inside it, and replace runs. -/
theorem paragraphSplices_inside (hclosing : ClosingTags (slice part range.start range.stop))
    (h : paragraphSplices snapshot debug plan (slice part range.start range.stop) range.start
      range.paragraphId = .ok cuts) :
    OrderedCuts cuts ∧ ∀ cut ∈ cuts, RunCut part [range] cut ∧
      range.start ≤ cut.start ∧ cut.start ≤ cut.stop ∧ cut.stop ≤ range.stop := by
  rw [paragraphSplices] at h
  split at h
  · cases h
  split at h
  · cases h
  rw [splicesOf] at h
  obtain ⟨runs, hruns, h⟩ := bind_eq_ok h
  simp only at h
  split at h
  · cases h
  obtain ⟨hread, hapart⟩ := runsOf_read ⟨[], []⟩ rfl hclosing hruns
  have hspans := (splicesFrom_sublist h).trans (filter_sublist.map _)
  constructor
  · have hpairs : (runs.map fun run => (run.start, run.stop)).Pairwise fun a b => a.2 ≤ b.1 :=
      pairwise_map.mpr hapart
    exact pairwise_map.mp (hpairs.sublist hspans)
  · intro cut hcut
    obtain ⟨run, hrun, hspan⟩ := mem_map.mp
      (hspans.subset (mem_map_of_mem (f := fun cut => (cut.start, cut.stop)) hcut))
    obtain ⟨hstart, hstop⟩ := Prod.mk.inj hspan
    refine ⟨⟨range, mem_singleton_self _, runs, hruns, run, hrun, hstart.symm, hstop.symm⟩, ?_⟩
    have hinside := (hread run hrun).inside (ordered_scanTags _)
    have hlength : (slice part range.start range.stop).length ≤ range.stop - range.start := by
      rw [slice, length_drop, length_take]
      omega
    omega

/-! ### All ranges -/

/-- What the splices of a range make of the part they are computed from, they make of every part
that agrees with it up to the end of the range. -/
theorem apply_paragraphCut (hlt : range.start < range.stop) (hstop : range.stop ≤ part.length)
    (hcurrent : current.take range.stop = part.take range.stop) (horder : OrderedCuts cuts)
    (hinside : ∀ cut ∈ cuts, range.start ≤ cut.start ∧ cut.start ≤ cut.stop ∧ cut.stop ≤ range.stop)
    : (paragraphCut part (applyCuts part cuts) range).apply current = applyCuts current cuts := by
  have hlength := congrArg List.length hcurrent
  rw [length_take, length_take] at hlength
  set content := Library.replaceFrom (part.take range.stop) range.start cuts with hcontent
  have hcut : paragraphCut part (applyCuts part cuts) range =
      ⟨range.start, range.stop, content⟩ := by
    rw [applyCuts_eq_append hlt.le hstop horder hinside, ← hcontent, paragraphCut]
    congr 1
    have hhead : (part.take range.start).length = range.start := by
      rw [length_take]
      omega
    rw [append_assoc, drop_left' hhead]
    refine take_left' ?_
    simp only [length_append, length_take, length_drop]
    omega
  rw [hcut, applyCuts_eq_append hlt.le (by omega) horder hinside, hcurrent]
  rfl

/-- The ranges still to be materialized, the last first, and the part as it is by then. -/
structure Pending (part : Bytes) (ranges : List ParagraphRange) (current : Bytes) : Prop where
  order : ranges.Pairwise fun a b => b.stop ≤ a.start
  inside : ∀ range ∈ ranges, range.start < range.stop ∧ range.stop ≤ part.length ∧
    ClosingTags (slice part range.start range.stop)
  agree : ∀ range ∈ ranges, current.take range.stop = part.take range.stop

/-- Splices of the first range leave the others as they are. -/
theorem Pending.tail (h : Pending part (range :: ranges) current)
    (hcuts : ∀ cut ∈ cuts, range.start ≤ cut.start) :
    Pending part ranges (applyCuts current cuts) := by
  obtain ⟨hfirst, horder⟩ := pairwise_cons.mp h.order
  refine ⟨horder, fun other hother => h.inside other (mem_cons_of_mem _ hother),
    fun other hother => ?_⟩
  have hbefore := hfirst other hother
  have hagree := h.agree other (mem_cons_of_mem _ hother)
  have hin := h.inside other (mem_cons_of_mem _ hother)
  have hlength := congrArg List.length hagree
  rw [length_take, length_take] at hlength
  rw [take_applyCuts (fun cut hcut => hbefore.trans (hcuts cut hcut)) (by omega), hagree]

theorem foldlM_materializeRange : ∀ {ranges : List ParagraphRange} {current : Bytes},
    Pending part ranges current →
      ranges.foldlM (materializeRange snapshot debug plan) current =
        (ranges.mapM fun range => (materializeRange snapshot debug plan part range).map
          fun out => paragraphCut part out range).map
            fun cuts => applyCuts current cuts.reverse
  | [], current, _ => rfl
  | range :: ranges, current, h => by
    obtain ⟨hlt, hstop, hclosing⟩ := h.inside range mem_cons_self
    have hagree := h.agree range mem_cons_self
    rw [foldlM_cons, mapM_cons, materializeRange_eq hlt hstop hagree,
      materializeRange_eq hlt hstop rfl]
    cases hsplices : paragraphSplices snapshot debug plan (slice part range.start range.stop)
        range.start range.paragraphId with
    | error e => rfl
    | ok cuts =>
      obtain ⟨horder, hinside⟩ := paragraphSplices_inside hclosing hsplices
      have hin : ∀ cut ∈ cuts, range.start ≤ cut.start ∧ cut.start ≤ cut.stop ∧
          cut.stop ≤ range.stop := fun cut hcut => (hinside cut hcut).2
      have ih := foldlM_materializeRange (h.tail fun cut hcut => (hin cut hcut).1)
      have happly := apply_paragraphCut hlt hstop hagree horder hin
      have hrun : ∀ x : Except Failed (List (Cut UInt8)),
          x.map (fun outs => applyCuts (applyCuts current cuts) outs.reverse) =
            (x.map fun outs => paragraphCut part (applyCuts part cuts) range :: outs).map
              fun outs => applyCuts current outs.reverse := by
        intro x
        cases x with
        | error e => rfl
        | ok outs =>
          simp only [Except.map]
          rw [reverse_cons, applyCuts_append, ← happly]
          rfl
      exact ih.trans (hrun _)

/-- What is replaced, whatever the order the ranges are worked in. -/
theorem exists_cuts_of_foldlM {out : Bytes} : ∀ {ranges : List ParagraphRange} {current : Bytes},
    Pending part ranges current →
      ranges.foldlM (materializeRange snapshot debug plan) current = .ok out →
        ∃ cuts, out = applyCuts current cuts ∧ OrderedCuts cuts ∧
          ∀ cut ∈ cuts, RunCut part ranges cut ∧ cut.start ≤ cut.stop ∧
            ∃ range ∈ ranges, cut.stop ≤ range.stop
  | [], current, _, h => by
    obtain rfl := Except.ok.inj h
    exact ⟨[], rfl, .nil, by simp⟩
  | range :: ranges, current, hpending, h => by
    obtain ⟨hlt, hstop, hclosing⟩ := hpending.inside range mem_cons_self
    rw [foldlM_cons] at h
    obtain ⟨next, hnext, h⟩ := bind_eq_ok h
    rw [materializeRange_eq hlt hstop (hpending.agree range mem_cons_self)] at hnext
    cases hsplices : paragraphSplices snapshot debug plan (slice part range.start range.stop)
        range.start range.paragraphId with
    | error e =>
      rw [hsplices] at hnext
      cases hnext
    | ok cuts =>
      rw [hsplices] at hnext
      obtain rfl := Except.ok.inj hnext
      obtain ⟨horder, hinside⟩ := paragraphSplices_inside hclosing hsplices
      have htail := hpending.tail fun cut hcut => (hinside cut hcut).2.1
      obtain ⟨front, rfl, hfront, hcuts⟩ := exists_cuts_of_foldlM htail h
      refine ⟨front ++ cuts, (applyCuts_append _ _ _).symm, ?_, ?_⟩
      · refine pairwise_append.mpr ⟨hfront, horder, fun a ha b hb => ?_⟩
        obtain ⟨-, -, other, hother, hle⟩ := hcuts a ha
        have := (pairwise_cons.mp hpending.order).1 other hother
        have := (hinside b hb).2.1
        omega
      · refine forall_mem_append.mpr ⟨fun cut hcut => ?_, fun cut hcut => ?_⟩
        · obtain ⟨⟨own, hown, hrun⟩, hle, other, hother, hstop⟩ := hcuts cut hcut
          exact ⟨⟨own, mem_cons_of_mem _ hown, hrun⟩, hle, other,
            mem_cons_of_mem _ hother, hstop⟩
        · obtain ⟨⟨own, hown, hrun⟩, -, hle, hstop⟩ := hinside cut hcut
          obtain rfl := mem_singleton.mp hown
          exact ⟨⟨own, mem_cons_self, hrun⟩, hle, own, mem_cons_self, hstop⟩

theorem closingTags_slice (h : ClosingTags part) (hlt : range.start < range.stop)
    (htags : (∃ tag ∈ scanTags part, tag.start = range.start) ∧
      ∃ tag ∈ scanTags part, tag.stop = range.stop) :
    ClosingTags (slice part range.start range.stop) := by
  obtain ⟨before, after, hscan, -, -⟩ := exists_scanTags_slice hlt htags.1 htags.2
  intro tag htag
  have hmem : tag.shift range.start ∈ scanTags part := by
    rw [hscan]
    exact mem_append_left _ (mem_append_right _ (mem_map_of_mem htag))
  exact h (tag.shift range.start) hmem

theorem pending_backToFront (hclosing : ClosingTags part)
    (hranges : paragraphRanges leaves part plan = .ok ranges) (hapart : RangesApart ranges) :
    Pending part (backToFront ranges) part := by
  refine ⟨backToFront_pairwise hapart, fun range hrange => ?_, fun _ _ => rfl⟩
  have hmem := (perm_insertionSort _ ranges).mem_iff.mp hrange
  have htags := paragraphRanges_tags hranges hmem
  have hlt := hapart.1 range hmem
  refine ⟨hlt, ?_, closingTags_slice hclosing hlt htags⟩
  obtain ⟨tag, htag, hstop⟩ := htags.2
  have := (ordered_scanTags part).inside tag htag
  omega

theorem spans_of_mapM
    (h : ranges.mapM (fun range => (materializeRange snapshot debug plan part range).map
      fun out => paragraphCut part out range) = .ok cuts) :
    cuts.map (fun cut => (cut.start, cut.stop)) =
      ranges.map fun range => (range.start, range.stop) := by
  have hcuts := mapM_eq_ok h
  clear h
  induction hcuts with
  | nil => rfl
  | @cons range cut ranges cuts hcut _ ih =>
    cases hout : materializeRange snapshot debug plan part range with
    | error e =>
      rw [hout] at hcut
      cases hcut
    | ok out =>
      rw [hout] at hcut
      obtain rfl := Except.ok.inj hcut
      rw [map_cons, map_cons, ih]
      rfl

/-- Where no two ranges meet, none is materialized at a stale place. -/
theorem applyFormatPlan_eq (hclosing : ClosingTags part)
    (hranges : paragraphRanges leaves part plan = .ok ranges) (hapart : RangesApart ranges) :
    applyFormatPlan snapshot debug plan leaves part =
      materializeApart snapshot debug plan part ranges := by
  have hpending := pending_backToFront hclosing hranges hapart
  rw [applyFormatPlan, bind_ok hranges, foldlM_materializeRange hpending, materializeApart]
  cases hcuts : (backToFront ranges).mapM fun range =>
      (materializeRange snapshot debug plan part range).map
        fun out => paragraphCut part out range with
  | error e => rfl
  | ok cuts =>
    have hspans := spans_of_mapM hcuts
    have horder : OrderedCuts cuts.reverse := by
      have hpairs : ((backToFront ranges).map fun range => (range.start, range.stop)).Pairwise
          fun a b => b.2 ≤ a.1 := pairwise_map.mpr hpending.order
      rw [← hspans, pairwise_map] at hpairs
      exact pairwise_reverse.mpr hpairs
    refine congrArg Except.ok (applyCuts_eq_replaceAll horder fun cut hcut => ?_)
    have hmem := mem_map_of_mem (f := fun cut : Cut UInt8 => (cut.start, cut.stop))
      (mem_reverse.mp hcut)
    rw [hspans] at hmem
    obtain ⟨range, hrange, hspan⟩ := mem_map.mp hmem
    obtain ⟨hstart, hstop⟩ := Prod.mk.inj hspan
    obtain ⟨hlt, hin, -⟩ := hpending.inside range hrange
    constructor <;> omega

/-- Where no two ranges meet, only runs of the planned paragraphs are replaced. -/
theorem exists_runCuts {out : Bytes} (hclosing : ClosingTags part)
    (hranges : paragraphRanges leaves part plan = .ok ranges) (hapart : RangesApart ranges)
    (h : applyFormatPlan snapshot debug plan leaves part = .ok out) :
    ∃ cuts, OrderedCuts cuts ∧ (∀ cut ∈ cuts, RunCut part ranges cut) ∧
      out = replaceAll part cuts := by
  have hpending := pending_backToFront hclosing hranges hapart
  rw [applyFormatPlan, bind_ok hranges] at h
  obtain ⟨cuts, rfl, horder, hcuts⟩ := exists_cuts_of_foldlM hpending h
  refine ⟨cuts, horder, fun cut hcut => ?_, ?_⟩
  · obtain ⟨⟨range, hrange, hrun⟩, -⟩ := hcuts cut hcut
    exact ⟨range, (perm_insertionSort _ ranges).mem_iff.mp hrange, hrun⟩
  · refine applyCuts_eq_replaceAll horder fun cut hcut => ?_
    obtain ⟨-, hle, range, hrange, hstop⟩ := hcuts cut hcut
    have := (hpending.inside range hrange).2.1
    exact ⟨hle, by omega⟩

end Proofs

end Docx2Typed.Format
