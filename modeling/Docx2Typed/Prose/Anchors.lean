import Docx2Typed.Library.StableSort
import Docx2Typed.Prose.Structure
import Docx2Typed.Prose.ParagraphIds.Document
import Mathlib.Data.Prod.Lex

/-!
# Where a new paragraph stands

`splice_structure` puts all new paragraphs of a chain in one place, in the reverse of the order in
which they are recorded.  `spliceStructure_anchors_iff`: they stand in front of their anchors, with
nothing but paragraphs of the chain between, exactly when they are recorded behind their anchors and
nothing else that comes to the same place is recorded between.
-/

namespace Docx2Typed

open Library (filter_insertionSort split_of_sorted)
open List

/-! ## What the output should be -/

/-- A new paragraph whose `insert_before` is the anchor, or leads to it. -/
inductive LeadsTo (news : List NewParagraph) (anchor : Text) : Text → Prop where
  | direct {paragraph : NewParagraph} : paragraph ∈ news → paragraph.insertBefore = some anchor →
      LeadsTo news anchor paragraph.paragraphId
  | chain {paragraph : NewParagraph} {next : Text} : paragraph ∈ news →
      paragraph.insertBefore = some next → LeadsTo news anchor next →
        LeadsTo news anchor paragraph.paragraphId

/-- The place of the part at which a new paragraph is put in. -/
def landsAt (located : List (String × Nat × Nat)) (appendAt : Nat) (edits : StructureEdits)
    (paragraph : NewParagraph) : Outcome Nat :=
  match paragraph.insertBefore with
  | none => .ok appendAt
  | some anchor =>
    anchorOffset located (edits.deletedParagraphs.map (·.paragraphId)) appendAt
      edits.newParagraphs (edits.newParagraphs.length + 1) [] anchor

/-- A span that only puts something in, at a place. -/
def ParagraphSpan.InsertsAt (span : ParagraphSpan) (place : Nat) : Prop :=
  span.start = place ∧ span.stop = place

/-- What is written next is the anchor: the paragraph of the template, which starts here, or the
new paragraph. -/
def AnchorNext (located : List (String × Nat × Nat)) (anchor : Text) (place : Nat)
    (behind : List ParagraphSpan) : Prop :=
  match (indexOf located anchor).bind (located[·]?) with
  | some entry => place = entry.2.1 ∧ ∀ span ∈ behind, place < span.start
  | none => ∃ span more, behind = span :: more ∧ span.pending = some anchor ∧ span.InsertsAt place

/-- A new paragraph stands in the output in front of its anchor, and between them stand only new
paragraphs that lead to it; `spans` is what is written, in order.  A deleted anchor is not in the
output. -/
def StandsBefore (part : Bytes) (located : List (String × Nat × Nat)) (appendAt : Nat)
    (edits : StructureEdits) (spans : List ParagraphSpan) (out : Bytes) (paragraph : NewParagraph)
    (anchor : Text) : Prop :=
  (indexOf located anchor ≠ none → anchor ∉ edits.deletedParagraphs.map (·.paragraphId)) →
    ∃ before span between behind front rest,
      spans = before ++ span :: (between ++ behind) ∧
      span.pending = some paragraph.paragraphId ∧
      landsAt located appendAt edits paragraph = .ok span.start ∧
      (∀ other ∈ span :: between, other.InsertsAt span.start) ∧
      (∀ other ∈ between, ∃ id, other.pending = some id ∧ LeadsTo edits.newParagraphs anchor id) ∧
      AnchorNext located anchor span.start behind ∧
      out = front ++ span.content ++ between.flatMap (·.content) ++ rest ∧
      applySpans part "invalid-structure: overlapping paragraph splices" span.start behind =
        .ok rest

/-- Where a new paragraph has to be recorded, among those that land in its place: behind its anchor,
with nothing but paragraphs that lead to the anchor between. -/
def RecordedBehind (located : List (String × Nat × Nat)) (appendAt : Nat) (edits : StructureEdits)
    (paragraph : NewParagraph) (anchor : Text) : Prop :=
  (indexOf located anchor ≠ none → anchor ∉ edits.deletedParagraphs.map (·.paragraphId)) →
    ∃ first between last,
      (edits.newParagraphs.filter fun other =>
          landsAt located appendAt edits other = landsAt located appendAt edits paragraph).map
        (·.paragraphId) = first ++ between ++ paragraph.paragraphId :: last ∧
      (∀ id ∈ between, LeadsTo edits.newParagraphs anchor id) ∧
      if indexOf located anchor = none then first.getLast? = some anchor else first = []

/-! ## What is written -/

/-- The spans in the order in which they are written. -/
def writtenSpans (part : Bytes) (leaves : List ProseLeaf) (located : List (String × Nat × Nat))
    (appendAt : Nat) (edits : StructureEdits) : Outcome (List ParagraphSpan) := do
  let dropped ← (edits.deletedParagraphs.map (·.paragraphId)).mapM (deletedSpan located)
  let added ← edits.newParagraphs.reverse.mapM (newSpan part leaves located edits appendAt)
  pure (sortSpans (dropped ++ added))

variable {paragraph : NewParagraph} {place : Nat} {span : ParagraphSpan}

section Written

variable {part out : Bytes} {leaves : List ProseLeaf} {located : List (String × Nat × Nat)}
  {appendAt : Nat} {edits : StructureEdits} {spans : List ParagraphSpan} {ids : List String}

theorem writtenSpans_of_spliceStructure (h : spliceStructure part leaves edits = .ok (out, ids))
    (hlocated : scanDocument part = .ok located) (happend : bodyAppendOffset part = .ok appendAt) :
    ∃ spans, writtenSpans part leaves located appendAt edits = .ok spans ∧
      applySpans part "invalid-structure: overlapping paragraph splices" 0 spans = .ok out := by
  rw [spliceStructure, bind_ok hlocated, bind_ok happend] at h
  obtain ⟨dropped, hdropped, h⟩ := bind_eq_ok h
  obtain ⟨added, hadded, h⟩ := bind_eq_ok h
  obtain ⟨written, hwritten, h⟩ := bind_eq_ok h
  obtain ⟨rfl, -⟩ := Prod.mk.inj (Except.ok.inj h)
  refine ⟨sortSpans (dropped ++ added), ?_, hwritten⟩
  rw [writtenSpans, bind_ok hdropped, bind_ok hadded]
  rfl

theorem newSpan_eq_ok (h : newSpan part leaves located edits appendAt paragraph = .ok span) :
    span.pending = some paragraph.paragraphId ∧ span.stop = span.start ∧
      landsAt located appendAt edits paragraph = .ok span.start := by
  have hlands : newSpan part leaves located edits appendAt paragraph =
      (landsAt located appendAt edits paragraph >>= fun start =>
        renderNewParagraph part leaves located paragraph >>= fun content =>
          pure ⟨start, start, content, some paragraph.paragraphId⟩) := by
    rw [newSpan, landsAt]
    cases paragraph.insertBefore <;> rfl
  rw [hlands] at h
  obtain ⟨start, hstart, h⟩ := bind_eq_ok h
  obtain ⟨content, -, h⟩ := bind_eq_ok h
  obtain rfl := Except.ok.inj h
  exact ⟨rfl, rfl, hstart⟩

/-- The place and the end of a span, by which the spans are sorted. -/
def spanKey (span : ParagraphSpan) : ℕ ×ₗ ℕ := toLex (span.start, span.stop)

theorem spanKey_le_iff (a b : ParagraphSpan) :
    spanKey a ≤ spanKey b ↔ a.start < b.start ∨ a.start = b.start ∧ a.stop ≤ b.stop :=
  Prod.Lex.toLex_le_toLex

theorem spanKey_eq_iff : spanKey span = toLex (place, place) ↔ span.InsertsAt place := by
  rw [spanKey, toLex.injective.eq_iff, Prod.mk.injEq]
  rfl

/-- The new paragraphs that are put in at a place, as they are recorded. -/
def recordedAt (located : List (String × Nat × Nat)) (appendAt : Nat) (edits : StructureEdits)
    (place : Nat) : List Text :=
  (edits.newParagraphs.filter fun paragraph =>
    landsAt located appendAt edits paragraph = .ok place).map (·.paragraphId)

/-- The new paragraphs that some spans put in at a place. -/
def putAt (place : Nat) (spans : List ParagraphSpan) : List Text :=
  (spans.filter fun span => spanKey span = toLex (place, place)).filterMap (·.pending)

theorem putAt_append (place : Nat) (left right : List ParagraphSpan) :
    putAt place (left ++ right) = putAt place left ++ putAt place right := by
  rw [putAt, filter_append, filterMap_append]
  rfl

theorem putAt_cons_of_insertsAt {id : Text} (h : span.InsertsAt place)
    (hid : span.pending = some id) (rest : List ParagraphSpan) :
    putAt place (span :: rest) = id :: putAt place rest := by
  rw [putAt, filter_cons_of_pos (by simpa using spanKey_eq_iff.mpr h),
    filterMap_cons_some hid]
  rfl

/-- The spans of new paragraphs, with their ids. -/
theorem putAt_added (place : Nat) : ∀ {news : List NewParagraph} {added : List ParagraphSpan},
    List.Forall₂ (fun paragraph span =>
      newSpan part leaves located edits appendAt paragraph = .ok span) news added →
    (added.filter fun span => spanKey span = toLex (place, place)).map (·.pending) =
      ((news.filter fun paragraph =>
        landsAt located appendAt edits paragraph = .ok place).map (·.paragraphId)).map some
  | _, _, .nil => rfl
  | _, _, .cons (a := paragraph) (b := span) h hrest => by
    have ih := putAt_added place hrest
    obtain ⟨hid, hstop, hlands⟩ := newSpan_eq_ok h
    by_cases hplace : span.start = place
    · have hinserts : span.InsertsAt place := ⟨hplace, hstop.trans hplace⟩
      rw [filter_cons_of_pos (by simpa using spanKey_eq_iff.mpr hinserts),
        filter_cons_of_pos (by rw [hlands, hplace]; simp), map_cons, map_cons,
        map_cons, ih, hid]
    · have hnot : ¬ span.InsertsAt place := fun h => hplace h.1
      rw [filter_cons_of_neg (by simpa using fun h => hnot (spanKey_eq_iff.mp h)),
        filter_cons_of_neg (by rw [hlands]; simpa using hplace), ih]

instance total_span : Std.Total fun a b : ParagraphSpan =>
    a.start < b.start ∨ a.start = b.start ∧ a.stop ≤ b.stop := ⟨fun a b => by omega⟩

instance trans_span : IsTrans ParagraphSpan fun a b =>
    a.start < b.start ∨ a.start = b.start ∧ a.stop ≤ b.stop := ⟨fun a b c => by omega⟩

/-- What is written at one place stands together, in the order in which it comes to be sorted. -/
theorem filter_sortSpans (place : Nat) (spans : List ParagraphSpan) :
    (sortSpans spans).filter (fun span => spanKey span = toLex (place, place)) =
      spans.filter fun span => spanKey span = toLex (place, place) :=
  filter_insertionSort (fun a b hab => (spanKey_le_iff a b).mp hab.le) _ _

theorem split_sortSpans (place : Nat) (spans : List ParagraphSpan) :
    ∃ below above, sortSpans spans =
        below ++ (spans.filter (fun span => spanKey span = toLex (place, place)) ++ above) ∧
      ∀ span ∈ above, place ≤ span.start ∧ ¬ span.InsertsAt place := by
  have hsorted : (sortSpans spans).Pairwise fun a b => spanKey a ≤ spanKey b :=
    (pairwise_insertionSort _ _).imp fun {a b} hab => (spanKey_le_iff a b).mpr hab
  have hsplit := split_of_sorted (toLex (place, place)) hsorted
  rw [filter_sortSpans] at hsplit
  refine ⟨_, _, hsplit, fun span hspan => ?_⟩
  have hlt : toLex (place, place) < spanKey span :=
    of_decide_eq_true (mem_filter.mp hspan).2
  have hle := hlt.le
  rw [show toLex (place, place) = spanKey ⟨place, place, [], none⟩ from rfl, spanKey_le_iff] at hle
  refine ⟨?_, fun hinserts => hlt.ne (spanKey_eq_iff.mpr hinserts).symm⟩
  simp only at hle
  omega

section

variable (h : writtenSpans part leaves located appendAt edits = .ok spans)

include h

/-- What is written at a place: first what is deleted there, then the new paragraphs, the last
recorded first. -/
theorem writtenSpans_split (place : Nat) : ∃ below added above, spans = below ++ (added ++ above) ∧
      added.map (·.pending) = (recordedAt located appendAt edits place).reverse.map some ∧
      (∀ span ∈ added, span.InsertsAt place) ∧
      (∀ span ∈ above, place ≤ span.start ∧ ¬ span.InsertsAt place) ∧
      putAt place spans = (recordedAt located appendAt edits place).reverse := by
  obtain ⟨dropped, hdropped, h⟩ := bind_eq_ok h
  obtain ⟨added, hadded, h⟩ := bind_eq_ok h
  obtain rfl := Except.ok.inj h
  obtain ⟨below, above, hsplit, habove⟩ := split_sortSpans place (dropped ++ added)
  have hids := putAt_added place (mapM_eq_ok hadded)
  rw [filter_reverse, map_reverse, ← recordedAt] at hids
  rw [filter_append, append_assoc, ← append_assoc] at hsplit
  refine ⟨_, _, above, hsplit, hids, fun span hspan => ?_, habove, ?_⟩
  · exact spanKey_eq_iff.mp (of_decide_eq_true (mem_filter.mp hspan).2)
  · have hnone : (dropped.filter fun span => spanKey span = toLex (place, place)).filterMap
        (·.pending) = [] := by
      refine filterMap_eq_nil_iff.mpr fun span hspan => ?_
      obtain ⟨id, -, hid⟩ := exists_of_forall₂_of_mem (mapM_eq_ok hdropped)
        (mem_filter.mp hspan).1
      exact (deletedSpan_eq_ok hid).1
    have hsome := congrArg (List.filterMap id) hids
    rw [filterMap_map, filterMap_map] at hsome
    rw [putAt, filter_sortSpans, filter_append, filterMap_append, hnone, nil_append]
    simpa using hsome

/-- Every span is that of a deleted paragraph or of a new one. -/
theorem mem_writtenSpans (hspan : span ∈ spans) :
    (∃ entry ∈ located, entry.1.toList ∈ edits.deletedParagraphs.map (·.paragraphId) ∧
      entry.2.1 = span.start) ∨ span.InsertsAt span.start := by
  obtain ⟨dropped, hdropped, h⟩ := bind_eq_ok h
  obtain ⟨added, hadded, h⟩ := bind_eq_ok h
  obtain rfl := Except.ok.inj h
  rw [sortSpans, mem_insertionSort] at hspan
  rcases mem_append.mp hspan with hspan | hspan
  · obtain ⟨id, hid, hdeleted⟩ := exists_of_forall₂_of_mem (mapM_eq_ok hdropped) hspan
    obtain ⟨-, entry, hentry, hname, hstart⟩ := deletedSpan_eq_ok hdeleted
    exact .inl ⟨entry, hentry, by rw [hname]; simpa using hid, hstart⟩
  · obtain ⟨paragraph, -, hnew⟩ := exists_of_forall₂_of_mem (mapM_eq_ok hadded) hspan
    exact .inr ⟨rfl, (newSpan_eq_ok hnew).2.1⟩

theorem landsAt_of_mem (hmem : paragraph ∈ edits.newParagraphs) :
    ∃ place, landsAt located appendAt edits paragraph = .ok place := by
  obtain ⟨dropped, -, h⟩ := bind_eq_ok h
  obtain ⟨added, hadded, -⟩ := bind_eq_ok h
  obtain ⟨span, -, hspan⟩ := exists_of_forall₂_of_mem (mapM_eq_ok hadded).flip
    (mem_reverse.mpr hmem)
  exact ⟨_, (newSpan_eq_ok hspan).2.2⟩

end

/-! ## The output around a place -/

theorem applySpans_inserts {overlap : String} : ∀ {between : List ParagraphSpan}
    {behind : List ParagraphSpan} {out : Bytes}, (∀ span ∈ between, span.InsertsAt place) →
      applySpans part overlap place (between ++ behind) = .ok out →
        ∃ rest, out = between.flatMap (·.content) ++ rest ∧
          applySpans part overlap place behind = .ok rest
  | [], behind, out, _, h => ⟨out, rfl, h⟩
  | span :: between, behind, out, hinserts, h => by
    obtain ⟨⟨hstart, hstop⟩, hbetween⟩ := forall_mem_cons.mp hinserts
    rw [cons_append, applySpans, hstart, hstop, if_neg (by omega)] at h
    obtain ⟨after, hafter, h⟩ := bind_eq_ok h
    obtain rfl := Except.ok.inj h
    obtain ⟨rest, rfl, hrest⟩ := applySpans_inserts hbetween hafter
    have hempty : slice part place place = [] := by simp [slice]
    exact ⟨rest, by rw [hempty, nil_append, flatMap_cons, append_assoc], hrest⟩

theorem applySpans_append {overlap : String} {rest : List ParagraphSpan} :
    ∀ {cursor : Nat} {before : List ParagraphSpan} {out : Bytes},
      applySpans part overlap cursor (before ++ span :: rest) = .ok out →
        ∃ front after, out = front ++ span.content ++ after ∧
          applySpans part overlap span.stop rest = .ok after
  | cursor, [], out, h => by
    rw [nil_append, applySpans] at h
    split at h
    · exact (refuse_ne_ok h).elim
    · obtain ⟨after, hafter, h⟩ := bind_eq_ok h
      exact ⟨_, after, (Except.ok.inj h).symm, hafter⟩
  | cursor, other :: before, out, h => by
    rw [cons_append, applySpans] at h
    split at h
    · exact (refuse_ne_ok h).elim
    · obtain ⟨written, hwritten, h⟩ := bind_eq_ok h
      obtain ⟨front, after, rfl, hafter⟩ := applySpans_append hwritten
      exact ⟨slice part cursor other.start ++ other.content ++ front, after,
        by rw [← Except.ok.inj h]; simp only [append_assoc], hafter⟩

/-! ## The paragraphs of one place -/

variable {paragraph : NewParagraph} {anchor : Text}

/-- An anchor of the template that is not deleted is the place itself. -/
theorem landsAt_anchor (hanchor : paragraph.insertBefore = some anchor) {index : Nat}
    {entry : String × Nat × Nat} (hindex : indexOf located anchor = some index)
    (hentry : located[index]? = some entry)
    (hkept : anchor ∉ edits.deletedParagraphs.map (·.paragraphId)) :
    landsAt located appendAt edits paragraph = .ok entry.2.1 := by
  have hname := indexOf_spec hindex hentry
  have hdrop : located.drop index = entry :: located.drop (index + 1) := by
    obtain ⟨hlt, rfl⟩ := List.getElem?_eq_some_iff.mp hentry
    exact drop_eq_getElem_cons hlt
  have hsurvives : entry.1.toList ∉ edits.deletedParagraphs.map (·.paragraphId) := by
    rw [hname]
    simpa using hkept
  rw [landsAt, hanchor]
  simp only
  rw [anchorOffset, if_neg (not_mem_nil), hindex]
  simp only
  rw [survivorFrom, hdrop, find?_cons_of_pos (by simpa using hsurvives)]
  rfl

theorem bind_indexOf_eq_none_iff :
    (indexOf located anchor).bind (located[·]?) = none ↔ indexOf located anchor = none := by
  cases hindex : indexOf located anchor with
  | none => simp
  | some index =>
    rw [indexOf, Option.map_eq_some_iff] at hindex
    obtain ⟨⟨other, i⟩, hlast, rfl⟩ := hindex
    have hmem := (mem_filter.mp (mem_of_getLast? hlast)).1
    simp [mem_zipIdx_iff_getElem?.mp hmem]

/-- What stands in front of an anchor was recorded behind it. -/
theorem recordedBehind_of_standsBefore
    (hwritten : writtenSpans part leaves located appendAt edits = .ok spans)
    (h : StandsBefore part located appendAt edits spans out paragraph anchor) :
    RecordedBehind located appendAt edits paragraph anchor := by
  intro hkept
  obtain ⟨before, span, between, behind, front, rest, rfl, hid, hlands, hinserts, hleads, hnext,
    -, -⟩ := h hkept
  obtain ⟨-, -, -, -, -, -, -, hput⟩ := writtenSpans_split hwritten span.start
  obtain ⟨hspan, hbetween⟩ := forall_mem_cons.mp hinserts
  rw [putAt_append, putAt_cons_of_insertsAt hspan hid, putAt_append] at hput
  have hrecorded : recordedAt located appendAt edits span.start =
      (putAt span.start behind).reverse ++ (putAt span.start between).reverse ++
        paragraph.paragraphId :: (putAt span.start before).reverse := by
    rw [← reverse_reverse (recordedAt _ _ _ _), ← hput]
    simp
  refine ⟨_, _, _, by rw [hlands]; exact hrecorded, fun id hmem => ?_, ?_⟩
  · obtain ⟨other, hother, hpending⟩ := mem_filterMap.mp (mem_reverse.mp hmem)
    obtain ⟨id', hid', hleads⟩ := hleads other (mem_filter.mp hother).1
    rw [hpending] at hid'
    exact Option.some.inj hid' ▸ hleads
  · rw [AnchorNext] at hnext
    split
    next hnone =>
      rw [bind_indexOf_eq_none_iff.mpr hnone] at hnext
      obtain ⟨next, more, rfl, hpending, hnext⟩ := hnext
      rw [putAt_cons_of_insertsAt hnext hpending, reverse_cons, getLast?_concat]
    next hsome =>
      obtain ⟨entry, hentry⟩ := Option.ne_none_iff_exists'.mp
        (mt bind_indexOf_eq_none_iff.mp hsome)
      rw [hentry] at hnext
      have hnil : putAt span.start behind = [] := by
        rw [putAt, filter_eq_nil_iff.mpr, filterMap_nil]
        intro other hother hkey
        exact (hnext.2 other hother).ne' (spanKey_eq_iff.mp (of_decide_eq_true hkey)).1
      rw [hnil, reverse_nil]

/-- What was recorded behind its anchor stands in front of it. -/
theorem standsBefore_of_recordedBehind (hlocated : scanDocument part = .ok located)
    (hwritten : writtenSpans part leaves located appendAt edits = .ok spans)
    (hout : applySpans part "invalid-structure: overlapping paragraph splices" 0 spans = .ok out)
    (hmem : paragraph ∈ edits.newParagraphs) (hanchor : paragraph.insertBefore = some anchor)
    (h : RecordedBehind located appendAt edits paragraph anchor) :
    StandsBefore part located appendAt edits spans out paragraph anchor := by
  intro hkept
  obtain ⟨first, between, last, hrecorded, hleads, hfirst⟩ := h hkept
  obtain ⟨place, hlands⟩ := landsAt_of_mem hwritten hmem
  obtain ⟨below, added, above, hspans, hids, hinserts, habove, -⟩ :=
    writtenSpans_split hwritten place
  rw [hlands, ← recordedAt] at hrecorded
  have hids : added.map (·.pending) = last.reverse.map some ++ some paragraph.paragraphId ::
      (between.reverse.map some ++ first.reverse.map some) := by
    rw [hids, hrecorded]
    simp
  obtain ⟨left, right, rfl, hleft, hright⟩ := map_eq_append_iff.mp hids
  obtain ⟨span, right, rfl, hspan, hright⟩ := map_eq_cons_iff.mp hright
  obtain ⟨chained, behind, rfl, hchained, hbehind⟩ := map_eq_append_iff.mp hright
  have hplace := hinserts span (by simp)
  have hspans : spans = (below ++ left) ++ span :: (chained ++ (behind ++ above)) := by
    rw [hspans]
    simp
  obtain ⟨front, after, hfront, hafter⟩ := applySpans_append (hspans ▸ hout)
  rw [hplace.2] at hafter
  obtain ⟨rest, rfl, hrest⟩ := applySpans_inserts
    (fun other hother => hinserts other (by simp [hother])) hafter
  refine ⟨_, span, chained, _, front, rest, hspans, hspan, by rw [hlands, hplace.1], ?_, ?_, ?_,
    by rw [hfront, append_assoc, append_assoc, append_assoc], by rw [hplace.1, hrest]⟩
  · intro other hother
    rw [hplace.1]
    refine hinserts other (mem_append_right _ ?_)
    rw [← cons_append]
    exact mem_append_left _ hother
  · intro other hother
    have hpending := mem_map_of_mem (f := (·.pending)) hother
    rw [hchained] at hpending
    obtain ⟨id, hid, hsame⟩ := mem_map.mp hpending
    exact ⟨id, hsame.symm, hleads id (mem_reverse.mp hid)⟩
  · rw [hplace.1, AnchorNext]
    cases hentry : (indexOf located anchor).bind (located[·]?) with
    | none =>
      rw [if_pos (bind_indexOf_eq_none_iff.mp hentry)] at hfirst
      obtain ⟨front, rfl⟩ := getLast?_eq_some_iff.mp hfirst
      rw [reverse_append, reverse_singleton, singleton_append, map_cons] at hbehind
      obtain ⟨next, more, rfl, hnext, -⟩ := map_eq_cons_iff.mp hbehind
      exact ⟨next, more ++ above, rfl, hnext, hinserts next (by simp)⟩
    | some entry =>
      obtain ⟨index, hindex, hat⟩ := Option.bind_eq_some_iff.mp hentry
      have hindexed : indexOf located anchor ≠ none := by
        rw [hindex]
        exact Option.some_ne_none index
      rw [if_neg hindexed] at hfirst
      rw [hfirst, reverse_nil, map_nil, map_eq_nil_iff] at hbehind
      have hkept := hkept hindexed
      have hstart : place = entry.2.1 := by
        rw [landsAt_anchor hanchor hindex hat hkept] at hlands
        exact (Except.ok.inj hlands).symm
      refine ⟨hstart, fun other hother => ?_⟩
      rw [hbehind, nil_append] at hother
      obtain ⟨hle, hnot⟩ := habove other hother
      refine Nat.lt_of_le_of_ne hle fun hsame => ?_
      rcases mem_writtenSpans hwritten (show other ∈ spans by rw [hspans]; simp [hother]) with
        ⟨gone, hgone, hdeleted, heq⟩ | hinsert
      · -- no two paragraphs start at one place
        have hunique : gone = entry := inj_on_of_nodup_map (starts_nodup hlocated) hgone
          (mem_of_getElem? hat) (by rw [heq, ← hsame, hstart])
        rw [hunique, indexOf_spec hindex hat, String.toList_ofList] at hdeleted
        exact hkept hdeleted
      · rw [← hsame] at hinsert
        exact hnot hinsert

end Written

/-- Every new paragraph stands in front of its anchor, with nothing but its chain between, exactly
where it is recorded behind it, with nothing but its chain between. -/
theorem spliceStructure_anchors_iff (part : Bytes) (leaves : List ProseLeaf)
    (edits : StructureEdits) (out : Bytes) (ids : List String)
    (hsplice : spliceStructure part leaves edits = .ok (out, ids))
    (located : List (String × Nat × Nat)) (hlocated : scanDocument part = .ok located)
    (appendAt : Nat) (happend : bodyAppendOffset part = .ok appendAt) :
    ∃ spans, writtenSpans part leaves located appendAt edits = .ok spans ∧
      ∀ paragraph ∈ edits.newParagraphs, ∀ anchor, paragraph.insertBefore = some anchor →
        (StandsBefore part located appendAt edits spans out paragraph anchor ↔
          RecordedBehind located appendAt edits paragraph anchor) := by
  obtain ⟨spans, hwritten, hout⟩ := writtenSpans_of_spliceStructure hsplice hlocated happend
  refine ⟨spans, hwritten, fun paragraph hmem anchor hanchor => ⟨fun h => ?_, fun h => ?_⟩⟩
  · exact recordedBehind_of_standsBefore hwritten h
  · exact standsBefore_of_recordedBehind hlocated hwritten hout hmem hanchor h

/-- A document of one paragraph. -/
def oneParagraph : Bytes :=
  bytes "<w:document><w:body><w:p><w:r><w:t>a</w:t></w:r></w:p></w:body></w:document>"

theorem scanDocument_oneParagraph : scanDocument oneParagraph = .ok [("P0", 20, 54)] := by
  rw [oneParagraph, bytes_ofList]
  decide +kernel

theorem bodyAppendOffset_oneParagraph : bodyAppendOffset oneParagraph = .ok 54 := by
  rw [oneParagraph, bytes_ofList]
  decide +kernel

/-- A new paragraph that inherits from the first one. -/
def newBefore (paragraphId anchor : String) : NewParagraph where
  part := "document".toList
  paragraphId := paragraphId.toList
  inherit := "P0".toList
  formatPolicy := .none
  body := "x".toList
  insertBefore := some anchor.toList

/-- A chain, recorded from its anchor on. -/
def chainInOrder : StructureEdits where
  newParagraphs := [newBefore "N1" "P0", newBefore "N2" "N1"]

theorem spliceStructure_anchors_chainInOrder : ∃ out ids spans,
    spliceStructure oneParagraph [] chainInOrder = .ok (out, ids) ∧
    writtenSpans oneParagraph [] [("P0", 20, 54)] 54 chainInOrder = .ok spans ∧
    ∀ paragraph ∈ chainInOrder.newParagraphs, ∀ anchor, paragraph.insertBefore = some anchor →
      (StandsBefore oneParagraph [("P0", 20, 54)] 54 chainInOrder spans out paragraph anchor ↔
        RecordedBehind [("P0", 20, 54)] 54 chainInOrder paragraph anchor) := by
  have hsplice : (spliceStructure oneParagraph [] chainInOrder).toOption.map (fun _ => ()) =
      some () := by
    rw [oneParagraph, bytes_ofList]
    decide +kernel
  obtain ⟨⟨out, ids⟩, hsplice, -⟩ := exists_ok_of_map hsplice
  obtain ⟨spans, hspans, hiff⟩ := spliceStructure_anchors_iff oneParagraph [] chainInOrder out ids
    hsplice [("P0", 20, 54)] scanDocument_oneParagraph 54 bodyAppendOffset_oneParagraph
  exact ⟨out, ids, spans, hsplice, hspans, hiff⟩

/-- The same chain, recorded from its end on. -/
def chainFromEnd : StructureEdits where
  newParagraphs := [newBefore "N2" "N1", newBefore "N1" "P0"]

theorem chainFromEnd_standsBehind : ∃ out ids spans,
    validateStructure oneParagraph [] chainFromEnd = .ok () ∧
    spliceStructure oneParagraph [] chainFromEnd = .ok (out, ids) ∧ ids = ["N1", "N2", "P0"] ∧
    writtenSpans oneParagraph [] [("P0", 20, 54)] 54 chainFromEnd = .ok spans ∧
    ¬ StandsBefore oneParagraph [("P0", 20, 54)] 54 chainFromEnd spans out (newBefore "N2" "N1")
      "N1".toList := by
  have hsplice : (spliceStructure oneParagraph [] chainFromEnd).toOption.map Prod.snd =
      some ["N1", "N2", "P0"] := by
    rw [oneParagraph, bytes_ofList]
    decide +kernel
  obtain ⟨⟨out, ids⟩, hsplice, rfl⟩ := exists_ok_of_map hsplice
  have hvalid : validateStructure oneParagraph [] chainFromEnd = .ok () := by
    rw [oneParagraph, bytes_ofList]
    decide +kernel
  obtain ⟨spans, hspans, -⟩ := writtenSpans_of_spliceStructure hsplice scanDocument_oneParagraph
    bodyAppendOffset_oneParagraph
  refine ⟨out, _, spans, hvalid, hsplice, rfl, hspans, fun h => ?_⟩
  obtain ⟨first, between, last, hrecorded, -, hfirst⟩ :=
    recordedBehind_of_standsBefore hspans h (fun h => absurd rfl h)
  have hids : (chainFromEnd.newParagraphs.filter fun other =>
      landsAt [("P0", 20, 54)] 54 chainFromEnd other =
        landsAt [("P0", 20, 54)] 54 chainFromEnd (newBefore "N2" "N1")).map (·.paragraphId) =
      ["N2".toList, "N1".toList] := by
    decide +kernel
  rw [if_pos (by decide)] at hfirst
  obtain ⟨front, rfl⟩ := List.getLast?_eq_some_iff.mp hfirst
  rw [hids] at hrecorded
  cases front with
  | nil => exact absurd (List.cons.inj hrecorded).1 (by decide)
  | cons other front =>
    have hlength := congrArg List.length hrecorded
    simp only [List.length_cons, List.length_append, List.length_nil] at hlength
    omega

end Docx2Typed
