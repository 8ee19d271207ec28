import Docx2Typed.Format.Apply

/-!
# Which runs are taken for nested

The range of a planned paragraph starts at its first text run, not at the `w:p`.  A counter that
starts at zero there is one too low for "more than one open element" to mean "not directly in the
paragraph": a run of a hyperlink is taken for a direct child, and so is a first run that stands in
one.  `applyFormatPlan_iff`: the runs are told apart rightly exactly when every run stands either
directly in the paragraph the range starts in, or at least two elements further down.
-/

namespace Docx2Typed.Format

open Library (Cut replaceAll OrderedCuts)
open List

/-- The names of the elements open in front of an offset, innermost first. -/
def openBefore (tags : List Tag) (offset : ℕ) : List String :=
  (tags.filter fun tag => tag.start < offset).foldl enterOpen []

/-- The name of the element that something at an offset stands in. -/
def parentAt (part : Bytes) (offset : ℕ) : Option String :=
  (openBefore (scanTags part) offset).head?

/-- The elements open at an offset, those opened from `start` on apart. -/
def levelsAt (part : Bytes) (start offset : ℕ) : Levels :=
  ((scanTags part).filter fun tag => start ≤ tag.start && tag.start < offset).foldl Levels.enter
    ⟨[], openBefore (scanTags part) start⟩

/-- Outside every element opened since, in a `w:p`; in exactly one, this is a `w:p`; further down,
not in a `w:p`. -/
def Levels.Told (l : Levels) : Prop :=
  match l.inner with
  | [] => l.outer.head? = some "p"
  | [name] => name = "p"
  | name :: _ :: _ => name ≠ "p"

theorem Levels.told_iff (l : Levels) :
    (decide (1 < l.inner.length) = true ↔ l.names.head? ≠ some "p") ↔ l.Told := by
  obtain ⟨inner, outer⟩ := l
  match inner with
  | [] => simp [Told, names]
  | [name] => simp [Told, names]
  | name :: other :: rest => simp [Told, names]

section Proofs

variable {snapshot : Snapshot} {debug : Text → String} {plan : FormatPlan} {part : Bytes}
  {leaves : List ProseLeaf} {ranges : List ParagraphRange} {range : ParagraphRange}
  {runs : List RunSpan} {run : RunSpan}

theorem foldl_enter_shift (k : ℕ) (tags : List Tag) (l : Levels) :
    (tags.map (Tag.shift k)).foldl Levels.enter l = tags.foldl Levels.enter l := by
  rw [foldl_map]
  rfl

/-- What the part has in front of a range, and what the range has in front of a tag. -/
theorem filter_slice {before after inner outer : List Tag} {tag : Tag} {start stop : ℕ}
    (hscan : scanTags part =
      before ++ (inner ++ tag :: outer).map (Tag.shift start) ++ after)
    (hbefore : ∀ t ∈ before, t.stop ≤ start) (hafter : ∀ t ∈ after, stop ≤ t.start)
    (hordered : Ordered 0 (stop - start) (inner ++ tag :: outer)) (hlt : start < stop) :
    (scanTags part).filter (fun t => t.start < start) = before ∧
      (scanTags part).filter (fun t => t.start < start + tag.start) =
        before ++ inner.map (Tag.shift start) ∧
      (scanTags part).filter (fun t => start ≤ t.start && t.start < start + tag.start) =
        inner.map (Tag.shift start) := by
  have htag := hordered.inside tag (by simp)
  obtain ⟨-, htail, hcross⟩ := pairwise_append.mp hordered.apart
  have hfront : ∀ t ∈ before, t.start < start := by
    intro t ht
    have := (ordered_scanTags part).inside t (by rw [hscan]; simp [ht])
    have := hbefore t ht
    omega
  have hinner : ∀ t ∈ inner, t.start < tag.start := by
    intro t ht
    have := hordered.inside t (mem_append_left _ ht)
    have := hcross t ht tag mem_cons_self
    omega
  have houter : ∀ t ∈ tag :: outer, tag.start ≤ t.start := by
    refine forall_mem_cons.mpr ⟨le_rfl, fun t ht => ?_⟩
    have := (pairwise_cons.mp htail).1 t ht
    omega
  have hback : ∀ t ∈ after, start + tag.start < t.start := by
    intro t ht
    have := hafter t ht
    omega
  obtain ⟨rest, hsplit, hrest⟩ : ∃ rest,
      scanTags part = before ++ (inner.map (Tag.shift start) ++ rest) ∧
        ∀ t ∈ rest, start + tag.start ≤ t.start := by
    refine ⟨(tag :: outer).map (Tag.shift start) ++ after, ?_, ?_⟩
    · rw [hscan, map_append, append_assoc, append_assoc]
    · refine forall_mem_append.mpr ⟨fun t ht => ?_, fun t ht => (hback t ht).le⟩
      obtain ⟨u, hu, rfl⟩ := mem_map.mp ht
      exact Nat.add_le_add_left (houter u hu) start
  have hmiddle : ∀ t ∈ inner.map (Tag.shift start),
      start ≤ t.start ∧ t.start < start + tag.start := by
    intro t ht
    obtain ⟨u, hu, rfl⟩ := mem_map.mp ht
    exact ⟨Nat.le_add_right _ _, Nat.add_lt_add_left (hinner u hu) start⟩
  have hall : ∀ {p : Tag → Bool} {l : List Tag}, (∀ t ∈ l, p t = true) → l.filter p = l :=
    filter_eq_self.mpr
  have hnone : ∀ {p : Tag → Bool} {l : List Tag}, (∀ t ∈ l, ¬ p t = true) → l.filter p = [] :=
    filter_eq_nil_iff.mpr
  rw [hsplit]
  simp only [filter_append]
  refine ⟨?_, ?_, ?_⟩
  · rw [hall (by simpa using hfront), hnone (by simpa using fun t ht => (hmiddle t ht).1),
      hnone (by simpa using fun t ht => (Nat.le_add_right _ _).trans (hrest t ht))]
    simp
  · rw [hall (by simpa using fun t ht => (hfront t ht).trans_le (Nat.le_add_right _ _)),
      hall (by simpa using fun t ht => (hmiddle t ht).2), hnone (by simpa using hrest)]
    simp
  · rw [hnone (by simpa using fun t ht hle => absurd (hfront t ht) (by omega)),
      hall (by simpa using hmiddle), hnone (by simpa using fun t ht _ => hrest t ht)]
    simp

/-- The counter of `runs_of` tells how many elements are open since the range starts. -/
theorem run_nested_eq (hclosing : ClosingTags part) (hlt : range.start < range.stop)
    (htags : (∃ tag ∈ scanTags part, tag.start = range.start) ∧
      ∃ tag ∈ scanTags part, tag.stop = range.stop)
    (hruns : runsOf (slice part range.start range.stop) range.start = .ok runs)
    (hrun : run ∈ runs) :
    run.nested = decide (1 < (levelsAt part range.start run.start).inner.length) ∧
      (levelsAt part range.start run.start).names = openBefore (scanTags part) run.start := by
  obtain ⟨before, after, hscan, hbefore, hafter⟩ := exists_scanTags_slice hlt htags.1 htags.2
  obtain ⟨hread, -⟩ := runsOf_read ⟨[], openBefore (scanTags part) range.start⟩ rfl
    (closingTags_slice hclosing hlt htags) hruns
  obtain ⟨inner, tag, outer, htags', hstart, -, hnested⟩ := hread run hrun
  have hordered : Ordered 0 (range.stop - range.start) (inner ++ tag :: outer) := by
    rw [← htags']
    refine ⟨(ordered_scanTags _).apart, fun t ht => ?_⟩
    have := (ordered_scanTags _).inside t ht
    have hlength : (slice part range.start range.stop).length ≤ range.stop - range.start := by
      rw [slice, length_drop, length_take]
      omega
    omega
  rw [htags'] at hscan
  obtain ⟨hat, hrunAt, hsince⟩ := filter_slice hscan hbefore hafter hordered hlt
  have hlevels : levelsAt part range.start run.start =
      inner.foldl Levels.enter ⟨[], openBefore (scanTags part) range.start⟩ := by
    rw [levelsAt, hstart, hsince, foldl_enter_shift]
  refine ⟨by rw [hlevels, hnested], ?_⟩
  rw [hlevels, ← foldl_enter_shift range.start, Levels.names_foldl, openBefore, openBefore, hat,
    hstart, hrunAt, foldl_append]
  rfl

/-- A run is nested when its parent is no `w:p`. -/
def TellsNested (part : Bytes) (ranges : List ParagraphRange) : Prop :=
  ∀ range ∈ ranges, ∀ runs, runsOf (slice part range.start range.stop) range.start = .ok runs →
    ∀ run ∈ runs, run.nested = true ↔ parentAt part run.start ≠ some "p"

/-- The condition on where the runs of the ranges stand. -/
def RunsTold (part : Bytes) (ranges : List ParagraphRange) : Prop :=
  ∀ range ∈ ranges, ∀ runs, runsOf (slice part range.start range.stop) range.start = .ok runs →
    ∀ run ∈ runs, (levelsAt part range.start run.start).Told

/-- A plan is applied as to each paragraph on its own, only runs of planned paragraphs are
replaced, and the nested ones are told from the others. -/
def MeetsClaim (snapshot : Snapshot) (debug : Text → String) (plan : FormatPlan)
    (leaves : List ProseLeaf) (part : Bytes) (ranges : List ParagraphRange) : Prop :=
  applyFormatPlan snapshot debug plan leaves part =
      materializeApart snapshot debug plan part ranges ∧
    (∀ out, applyFormatPlan snapshot debug plan leaves part = .ok out →
      ∃ cuts, OrderedCuts cuts ∧ (∀ cut ∈ cuts, RunCut part ranges cut) ∧
        out = replaceAll part cuts) ∧
    TellsNested part ranges

theorem tellsNested_iff (hclosing : ClosingTags part)
    (hranges : paragraphRanges leaves part plan = .ok ranges) (hapart : RangesApart ranges) :
    TellsNested part ranges ↔ RunsTold part ranges := by
  rw [TellsNested, RunsTold]
  refine forall₂_congr fun range hrange => forall₂_congr fun runs hruns =>
    forall₂_congr fun run hrun => ?_
  obtain ⟨hnested, hnames⟩ := run_nested_eq hclosing (hapart.1 range hrange)
    (paragraphRanges_tags hranges hrange) hruns hrun
  rw [hnested, parentAt, ← hnames, Levels.told_iff]

end Proofs

/-! ## A link, and a text box -/

/-- A leaf as the inventory of a document lists it. -/
def leafAt (paragraphId : String) (text : Text) (textStart : ℕ) : ProseLeaf where
  partKey := "document"
  paragraphId
  leafIndex := 0
  text
  editable := true
  projected := true
  textStart
  textEnd := textStart + (utf8 text).length
  openEnd := textStart
  styleSha256 := ""
  rpr := []
  rprStart := 0
  rprEnd := 0
  runOpenEnd := textStart - 5

/-- Paragraphs with a style for each of their runs, of one character each. -/
def stylesPlan (paragraphs : List (String × List (Option String))) : FormatPlan where
  schema := planSchema
  generationId := ""
  baseDigest := ""
  unit := .unicodeScalars
  paragraphs := paragraphs.map fun paragraph =>
    ⟨paragraph.1, [], paragraph.2.zipIdx.map fun run => ⟨⟨run.2, run.2 + 1⟩, run.1, run.2⟩, []⟩

def boldSnapshot (paragraphs : List (String × List Text)) : Snapshot where
  generationId := ""
  baseDigest := ""
  styles := [("bold", "<w:rPr><w:b/></w:rPr>")]
  paragraphs := paragraphs.map fun paragraph =>
    ⟨paragraph.1, paragraph.2.flatten, paragraph.2.zipIdx.map fun run => ⟨run.2, run.1, ""⟩⟩

def linkedPart : Bytes :=
  bytes "<w:p><w:r><w:t>a</w:t></w:r><w:hyperlink><w:r><w:t>b</w:t></w:r></w:hyperlink></w:p>"

def linkedLeaves : List ProseLeaf := [leafAt "P1" ['a'] 15, leafAt "P1" ['b'] 51]

def linkedPlan : FormatPlan := stylesPlan [("P1", [none, some "bold"])]

def linkedSnapshot : Snapshot := boldSnapshot [("P1", [['a'], ['b']])]

def boxedPart : Bytes :=
  bytes ("<w:p><w:r><w:t>a</w:t></w:r><w:r><w:pict><w:p><w:r><w:t>b</w:t></w:r></w:p></w:pict>" ++
    "</w:r><w:r><w:t>c</w:t></w:r></w:p>")

def boxedLeaves : List ProseLeaf :=
  [leafAt "P1" ['a'] 15, leafAt "P2" ['b'] 56, leafAt "P1" ['c'] 100]

def boxedPlan : FormatPlan := stylesPlan [("P1", [some "bold", none]), ("P2", [some "bold"])]

def boxedSnapshot : Snapshot := boldSnapshot [("P1", [['a'], ['c']]), ("P2", [['b']])]

end Docx2Typed.Format
