import Docx2Typed.Format.Laying
import Docx2Typed.Prose.Escaped

/-!
# A rebuilt run read again

The bytes `materialize` builds for a piece of a run are read as one run, with the open tag, the
properties and the text they were built of: `reads_runBytes`.
-/

namespace Docx2Typed.Format

open Library.Utf8 (decodeLossy)
open List

/-! ## The text -/

theorem decodeForms_escapeChar (c : Char) (fuel : ℕ) (rest : Text) :
    decodeForms (fuel + 1) (escapeChar c ++ rest) = c :: decodeForms fuel rest := by
  rcases escapeChar_cases c with ⟨rfl, h⟩ | ⟨rfl, h⟩ | ⟨rfl, h⟩ | ⟨hamp, -, -, h⟩
  · rw [h]
    rfl
  · rw [h]
    rfl
  · rw [h]
    rfl
  · rw [h, singleton_append, decodeForms, if_pos hamp]

theorem decodeForms_xmlEscape : ∀ {fuel : ℕ} {text : Text}, (xmlEscape text).length ≤ fuel →
    decodeForms fuel (xmlEscape text) = text
  | fuel, [], _ => by
    cases fuel <;> rfl
  | fuel, c :: text, h => by
    have hpos : 0 < (escapeChar c).length := by
      rcases escapeChar_cases c with ⟨-, h⟩ | ⟨-, h⟩ | ⟨-, h⟩ | ⟨-, -, -, h⟩ <;> simp [h]
    rw [xmlEscape_cons, length_append] at h
    obtain ⟨fuel, rfl⟩ : ∃ rest, fuel = rest + 1 := ⟨fuel - 1, by omega⟩
    rw [xmlEscape_cons, decodeForms_escapeChar, decodeForms_xmlEscape (by omega)]

/-- The text of a piece is read as it was written. -/
theorem decodeText_encodeText (text : Text) : decodeText (utf8 (encodeText text)) = text := by
  rw [decodeText, utf8, Library.Utf8.decodeLossy_encode]
  exact decodeForms_xmlEscape (Nat.le_refl _)

/-! ## The properties -/

/-- The tags inside an open `w:rPr`, with so many elements open in it, up to its closing tag. -/
def insideRpr : ℕ → List Tag → Bool
  | _, [] => false
  | depth, tag :: rest =>
    if !tag.closing && !tag.selfClosing then insideRpr (depth + 1) rest
    else if tag.selfClosing then insideRpr depth rest
    else
      match depth with
      | 0 => tag.name == "rPr" && rest.isEmpty
      | depth + 1 => insideRpr depth rest

/-- One `w:rPr` element, from its first byte to its last. -/
def rprElement (rpr : Bytes) : Bool :=
  match scanTags rpr with
  | [] => false
  | first :: rest =>
    first.name == "rPr" && !first.closing && !first.selfClosing && first.start == 0 &&
      insideRpr 0 rest && rest.getLast?.map (·.stop) == some rpr.length &&
      rest.all (·.name != "t")

/-- No properties, or one element that holds them. -/
def OneRpr (rpr : Bytes) : Prop := rpr = [] ∨ rprElement rpr = true

instance (rpr : Bytes) : Decidable (OneRpr rpr) := inferInstanceAs (Decidable (_ ∨ _))

variable {xml : Bytes}

/-- The tags inside an open `w:rPr` end its range and touch nothing else. -/
theorem foldlM_insideRpr {base depth start stop : ℕ} {runs : List RunSpan} :
    ∀ {tags : List Tag} {level : ℕ} {run : OpenRun}, insideRpr level tags = true →
      run.innerDepth = level + 2 → run.rpr = some (start, none) →
      tags.getLast?.map (·.stop) = some stop →
        tags.foldlM (runsStep xml base) ⟨runs, depth, some run⟩ =
          .ok ⟨runs, depth, some { run with innerDepth := 1, rpr := some (start, some stop) }⟩
  | [], _, _, h, _, _, _ => by cases h
  | tag :: tags, level, run, h, hdepth, hrpr, hstop => by
    have hlater : tags ≠ [] → tags.getLast?.map (·.stop) = some stop := fun hne => by
      obtain ⟨next, more, rfl⟩ := exists_cons_of_ne_nil hne
      rwa [getLast?_cons_cons] at hstop
    have hnil : ∀ {level}, insideRpr level tags = true → tags ≠ [] := by
      rintro _ h rfl
      cases h
    rw [foldlM_cons, runsStep]
    rw [insideRpr.eq_def] at h
    simp only at h ⊢
    cases hclosing : tag.closing with
    | false =>
      cases hself : tag.selfClosing with
      | false =>
        simp only [hclosing, hself, Bool.not_false, Bool.and_self, if_true] at h
        have hstep : run.step tag = { run with innerDepth := run.innerDepth + 1 } := by
          simp [OpenRun.step, hclosing, hself, hdepth]
        rw [hstep, if_neg (Nat.succ_ne_zero _)]
        exact foldlM_insideRpr h (by simp [hdepth]) hrpr (hlater (hnil h))
      | true =>
        simp only [hclosing, hself, Bool.not_true, Bool.and_false, Bool.false_eq_true, if_false,
          if_true] at h
        have hstep : run.step tag = run := by
          simp [OpenRun.step, hself, hdepth]
        rw [hstep, if_neg (by omega)]
        exact foldlM_insideRpr h hdepth hrpr (hlater (hnil h))
    | true =>
      cases hself : tag.selfClosing with
      | true =>
        simp only [hclosing, hself, Bool.not_true, Bool.and_false, Bool.false_eq_true, if_false,
          if_true] at h
        have hstep : run.step tag = run := by
          simp [OpenRun.step, hself, hdepth]
        rw [hstep, if_neg (by omega)]
        exact foldlM_insideRpr h hdepth hrpr (hlater (hnil h))
      | false =>
        simp only [hclosing, hself, Bool.not_true, Bool.false_and, Bool.false_eq_true,
          if_false] at h
        cases level with
        | zero =>
          obtain ⟨hname, hrest⟩ := Bool.and_eq_true_iff.mp h
          obtain rfl := List.isEmpty_iff.mp hrest
          have hstep : run.step tag =
              { run with innerDepth := 1, rpr := some (start, some tag.stop) } := by
            simp [OpenRun.step, OpenRun.closeChild, hclosing, hself, hdepth, hrpr,
              beq_iff_eq.mp hname]
          obtain rfl : tag.stop = stop := Option.some.inj hstop
          rw [hstep, if_neg Nat.one_ne_zero]
          rfl
        | succ level =>
          have hstep : run.step tag = { run with innerDepth := run.innerDepth - 1 } := by
            simp [OpenRun.step, hclosing, hself, hdepth]
          rw [hstep, if_neg (by simp [hdepth])]
          exact foldlM_insideRpr h (by simp [hdepth]) hrpr (hlater (hnil h))

/-! ## The open tag -/

/-- The open tag of a run, and nothing else. -/
def RunTag (openTag : Bytes) : Prop :=
  WholeXml openTag ∧ scanTags openTag = [⟨"r", 0, openTag.length, false, false⟩]

/-- A tag cut out of a part is the tag it was. -/
theorem runTag_slice {tag : Tag} (h : tag ∈ scanTags xml) (hname : tag.name = "r")
    (hclosing : tag.closing = false) (hself : tag.selfClosing = false) :
    RunTag (slice xml tag.start tag.stop) := by
  obtain ⟨before, after, htags⟩ := append_of_mem h
  have hordered := ordered_scanTags xml
  have hinside := hordered.inside tag h
  rw [htags] at hordered
  obtain ⟨-, hback, hfront⟩ := pairwise_append.mp hordered.apart
  rw [← singleton_append, ← append_assoc] at htags
  obtain ⟨-, hwhole, -, -, hblock, -⟩ := scanTags_cut htags (by omega : tag.start ≤ tag.stop)
    ⟨tag, by simp, rfl⟩ ⟨tag, by simp, rfl⟩
    (fun other hother => hfront other hother tag mem_cons_self) (by simp)
    (fun other hother => (pairwise_cons.mp hback).1 other hother)
  refine ⟨hwhole, ?_⟩
  have hlength : (slice xml tag.start tag.stop).length = tag.stop - tag.start := by
    rw [slice, length_drop, length_take_of_le hinside.2.2]
  obtain ⟨own, hown, hshift⟩ := map_eq_singleton_iff.mp hblock
  rw [hown, hlength]
  have hsame : own = ⟨tag.name, own.start, own.stop, tag.closing, tag.selfClosing⟩ := by
    rw [← hshift]
    rfl
  have hstart : tag.start + own.start = tag.start := congrArg Tag.start hshift
  have hstop : tag.start + own.stop = tag.stop := congrArg Tag.stop hshift
  rw [hsame, hname, hclosing, hself, show own.start = 0 by omega,
    show own.stop = tag.stop - tag.start by omega]

theorem OneRpr.whole {rpr : Bytes} (h : OneRpr rpr) : WholeXml rpr := by
  rcases h with rfl | h
  · exact Library.whole_nil
  rw [rprElement] at h
  split at h
  · cases h
  next first rest htags =>
    simp only [Bool.and_eq_true, beq_iff_eq] at h
    obtain ⟨tag, hlast, hstop⟩ := Option.map_eq_some_iff.mp h.1.2
    have hmem : tag ∈ scanTags rpr := by
      rw [htags]
      exact mem_cons_of_mem _ (mem_of_getLast? hlast)
    have hwhole := Library.whole_take settles_tokenWidth (boundary_of_tag hmem).2
    rwa [hstop, take_length] at hwhole

/-! ## A piece -/

/-- The bytes of one rebuilt run. -/
def runBytes (openTag rpr : Bytes) (text : Text) : Bytes :=
  openTag ++ rpr ++
    bytes (if needsSpacePreservation text then "<w:t xml:space=\"preserve\">" else "<w:t>") ++
    utf8 (encodeText text) ++ bytes "</w:t></w:r>"

/-- What these bytes are read as. -/
def runRead (openTag rpr : Bytes) (text : Text) : RunSpan where
  start := 0
  stop := (runBytes openTag rpr text).length
  openTag := openTag
  rpr := rpr
  text := text
  hasText := true
  nested := false
  structured := none

section Piece

variable {openTag rpr : Bytes} {depth : ℕ}

theorem insideRpr_shift (k : ℕ) : ∀ (tags : List Tag) (level : ℕ),
    insideRpr level (tags.map (Tag.shift k)) = insideRpr level tags
  | [], _ => rfl
  | tag :: tags, level => by
    rw [map_cons, insideRpr.eq_def, insideRpr.eq_def]
    simp only [insideRpr_shift k tags]
    cases level
    · simp [Tag.shift]
    · rfl

/-- The properties of an open run are read whole. -/
theorem foldlM_rpr (k : ℕ) {run : OpenRun} (h : OneRpr rpr) (hdepth : run.innerDepth = 1)
    (hrpr : run.rpr = none) :
    ((scanTags rpr).map (Tag.shift k)).foldlM (runsStep xml 0) ⟨[], depth, some run⟩ =
      .ok ⟨[], depth, some { run with
        rpr := if rpr = [] then none else some (k, some (k + rpr.length)) }⟩ := by
  rcases h with rfl | h
  · obtain ⟨tag, innerDepth, rpr, text, structured, nested⟩ := run
    subst hrpr
    rfl
  have hne : rpr ≠ [] := by
    rintro rfl
    cases h
  rw [rprElement] at h
  split at h
  · cases h
  next first rest htags =>
    simp only [Bool.and_eq_true, Bool.not_eq_true', beq_iff_eq] at h
    obtain ⟨⟨⟨⟨⟨⟨hname, hclosing⟩, hself⟩, hstart⟩, hinside⟩, hlast⟩, -⟩ := h
    have hstep : run.step (first.shift k) =
        { run with innerDepth := 2, rpr := some (k, none) } := by
      simp [OpenRun.step, OpenRun.openChild, Tag.shift, hname, hclosing, hself, hstart, hdepth]
    rw [htags, map_cons, foldlM_cons, runsStep]
    simp only [hstep]
    rw [if_neg (by decide), if_neg hne]
    have hinside : insideRpr 0 (rest.map (Tag.shift k)) = true := by
      rw [insideRpr_shift]
      exact hinside
    have hlast : (rest.map (Tag.shift k)).getLast?.map (·.stop) = some (k + rpr.length) := by
      have hshift := congrArg (Option.map (k + ·)) hlast
      rw [Option.map_map] at hshift
      rw [getLast?_map, Option.map_map]
      exact hshift
    refine (foldlM_insideRpr hinside rfl rfl hlast).trans ?_
    simp [hdepth]

theorem lt_notMem_piece (text : Text) : byte '<' ∉ utf8 (encodeText text) :=
  lt_notMem_utf8_xmlEscape text

theorem scanTags_of_notMem (h : byte '<' ∉ xml) : scanTags xml = [] := by
  have hnone : ∀ {xml : Bytes} (offset : ℕ), byte '<' ∉ xml →
      Library.scan (byte '<') tokenWidth 0 offset xml = [] := by
    intro xml
    induction xml with
    | nil => exact fun _ _ => rfl
    | cons b rest ih =>
      intro offset h
      rw [mem_cons, not_or] at h
      rw [Library.scan_of_ne (Ne.symm h.1), ih _ h.2]
  rw [scanTags, hnone 0 h]
  rfl

theorem slice_middle (u v w : Bytes) : slice (u ++ v ++ w) u.length (u.length + v.length) = v := by
  rw [← length_append, slice, take_left, drop_left]

/-- A tag is whole. -/
theorem whole_of_tokenWidth (hhead : xml.head? = some (byte '<'))
    (hwidth : tokenWidth xml = some xml.length) : WholeXml xml := by
  cases xml with
  | nil => cases hhead
  | cons first rest =>
    obtain rfl : first = byte '<' := Option.some.inj hhead
    exact Library.whole_token settles_tokenWidth hwidth

/-- The tag that opens the text. -/
theorem whole_openText (preserve : Bool) :
    WholeXml (bytes (if preserve then "<w:t xml:space=\"preserve\">" else "<w:t>")) ∧
      scanTags (bytes (if preserve then "<w:t xml:space=\"preserve\">" else "<w:t>")) =
        [⟨"t", 0, (bytes (if preserve then "<w:t xml:space=\"preserve\">" else "<w:t>")).length,
          false, false⟩] := by
  cases preserve
  · exact ⟨whole_of_tokenWidth (by decide) (by decide), by decide⟩
  · exact ⟨whole_of_tokenWidth (by decide) (by decide), by decide⟩

/-- The tags that end the run. -/
theorem whole_closeRun : WholeXml (bytes "</w:t></w:r>") ∧
    scanTags (bytes "</w:t></w:r>") = [⟨"t", 0, 6, true, false⟩, ⟨"r", 6, 12, true, false⟩] := by
  have htext : WholeXml (bytes "</w:t>") := whole_of_tokenWidth (by decide) (by decide)
  have hrun : WholeXml (bytes "</w:r>") := whole_of_tokenWidth (by decide) (by decide)
  exact ⟨htext.append hrun, by decide⟩

/-- The text of an open run and the end of the run. -/
theorem foldlM_text {run : OpenRun} (hdepth : run.innerDepth = 1) (a b c d e : ℕ) :
    List.foldlM (runsStep xml 0) ⟨[], depth, some run⟩
        [⟨"t", a, b, false, false⟩, ⟨"t", c, d, true, false⟩, ⟨"r", d, e, true, false⟩] =
      (OpenRun.close xml 0 { run with innerDepth := 0, text := some (b, some c) } e).map
        fun span => ⟨[span], depth, none⟩ := by
  have hopen : run.step ⟨"t", a, b, false, false⟩ =
      { run with innerDepth := 2, text := some (b, none) } := by
    simp [OpenRun.step, OpenRun.openChild, hdepth]
  have hclose : OpenRun.step { run with innerDepth := 2, text := some (b, none) }
      ⟨"t", c, d, true, false⟩ = { run with innerDepth := 1, text := some (b, some c) } := by
    simp [OpenRun.step, OpenRun.closeChild]
  have hend : OpenRun.step { run with innerDepth := 1, text := some (b, some c) }
      ⟨"r", d, e, true, false⟩ = { run with innerDepth := 0, text := some (b, some c) } := by
    simp [OpenRun.step]
  have hfirst : runsStep xml 0 ⟨[], depth, some run⟩ ⟨"t", a, b, false, false⟩ =
      .ok ⟨[], depth, some { run with innerDepth := 2, text := some (b, none) }⟩ := by
    simp only [runsStep, hopen]
    rfl
  have hsecond : runsStep xml 0
      ⟨[], depth, some { run with innerDepth := 2, text := some (b, none) }⟩
      ⟨"t", c, d, true, false⟩ =
        .ok ⟨[], depth, some { run with innerDepth := 1, text := some (b, some c) }⟩ := by
    simp only [runsStep, hclose]
    rfl
  rw [foldlM_cons, bind_ok hfirst, foldlM_cons, bind_ok hsecond, foldlM_cons,
    runsStep]
  simp only [hend, if_true, RunsState.push, nil_append]
  cases OpenRun.close xml 0 { run with innerDepth := 0, text := some (b, some c) } e <;> rfl

/-- The tags of a rebuilt run, and where its text lies. -/
theorem scanTags_runBytes (htag : RunTag openTag) (hrpr : OneRpr rpr) (text : Text) :
    WholeXml (runBytes openTag rpr text) ∧ ∃ a b c d, scanTags (runBytes openTag rpr text) =
      ⟨"r", 0, openTag.length, false, false⟩ :: (scanTags rpr).map (Tag.shift openTag.length) ++
        [⟨"t", a, b, false, false⟩, ⟨"t", c, d, true, false⟩,
          ⟨"r", d, (runBytes openTag rpr text).length, true, false⟩] ∧
      slice (runBytes openTag rpr text) b c = utf8 (encodeText text) := by
  obtain ⟨htextWhole, htextTags⟩ := whole_openText (needsSpacePreservation text)
  have hmarkup := lt_notMem_piece text
  generalize hopenText : bytes (if needsSpacePreservation text then
    "<w:t xml:space=\"preserve\">" else "<w:t>") = openText at htextWhole htextTags
  generalize hescaped : utf8 (encodeText text) = escaped at hmarkup ⊢
  have hbytes : runBytes openTag rpr text =
      openTag ++ rpr ++ openText ++ escaped ++ bytes "</w:t></w:r>" := by
    rw [runBytes, hopenText, hescaped]
  have hw₂ : WholeXml (openTag ++ rpr) := htag.1.append hrpr.whole
  have hw₃ : WholeXml (openTag ++ rpr ++ openText) := hw₂.append htextWhole
  have hw₄ : WholeXml (openTag ++ rpr ++ openText ++ escaped) :=
    hw₃.append (Library.whole_of_notMem hmarkup)
  have hend : (runBytes openTag rpr text).length =
      (openTag ++ rpr ++ openText ++ escaped).length + 12 := by
    rw [hbytes, length_append]
    rfl
  refine ⟨hbytes ▸ hw₄.append whole_closeRun.1, (openTag ++ rpr).length,
    (openTag ++ rpr ++ openText).length, (openTag ++ rpr ++ openText ++ escaped).length,
    (openTag ++ rpr ++ openText ++ escaped).length + 6, ?_, ?_⟩
  · rw [hend, hbytes, scanTags_append hw₄, whole_closeRun.2, scanTags_append hw₃,
      scanTags_of_notMem hmarkup, scanTags_append hw₂, htextTags, scanTags_append htag.1, htag.2]
    simp [Tag.shift, Nat.add_assoc]
  · have hstop : (openTag ++ rpr ++ openText ++ escaped).length =
        (openTag ++ rpr ++ openText).length + escaped.length := length_append
    rw [hbytes, hstop, slice_middle]

/-- The bytes of a rebuilt run are read as that run. -/
theorem reads_runBytes (htag : RunTag openTag) (hrpr : OneRpr rpr) (text : Text)
    (hdepth : ¬ 1 < depth) :
    Reads (runBytes openTag rpr text) depth [runRead openTag rpr text] depth := by
  obtain ⟨hwhole, a, b, c, d, htags, hslice⟩ := scanTags_runBytes htag hrpr text
  refine ⟨hwhole, ?_, by simp [runRead]⟩
  have hopenSlice : slice (runBytes openTag rpr text) 0 openTag.length = openTag := by
    rw [runBytes, append_assoc, append_assoc, append_assoc, slice, take_left,
      drop_zero]
  have hrprSlice : slice (runBytes openTag rpr text) openTag.length
      (openTag.length + rpr.length) = rpr := by
    rw [runBytes, append_assoc (openTag ++ rpr), append_assoc (openTag ++ rpr),
      slice_middle]
  have hfirst : runsStep (runBytes openTag rpr text) 0 ⟨[], depth, none⟩
      ⟨"r", 0, openTag.length, false, false⟩ =
        .ok ⟨[], depth,
          some ⟨⟨"r", 0, openTag.length, false, false⟩, 1, none, none, none, false⟩⟩ := by
    simp [runsStep, hdepth]
  rw [readFrom, htags, foldlM_append, foldlM_cons, bind_ok hfirst,
    bind_ok (foldlM_rpr openTag.length hrpr rfl rfl)]
  refine (foldlM_text rfl _ _ _ _ _).trans ?_
  have hrange : rangeBytes (runBytes openTag rpr text)
      (if rpr = [] then none else some (openTag.length, some (openTag.length + rpr.length))) =
        .ok rpr := by
    split
    next hnil => rw [hnil]; rfl
    next => rw [rangeBytes, hrprSlice]
  have htext : rangeBytes (runBytes openTag rpr text) (some (b, some c)) =
      .ok (utf8 (encodeText text)) := by
    rw [rangeBytes, hslice]
  rw [OpenRun.close, bind_ok htext, bind_ok hrange, decodeText_encodeText]
  simp only [hopenSlice, Nat.zero_add]
  rfl

/-! ## The visible text -/

/-- The text the `w:t` elements among these tags spell, references and CDATA decoded. -/
def textOf (xml : Bytes) : List Tag → Text
  | [] => []
  | tag :: rest =>
    (if tag.name = "t" ∧ tag.closing = false ∧ tag.selfClosing = false then
      match rest.find? fun other => other.name == "t" && other.closing with
      | some close => decodedText (slice xml tag.stop close.start)
      | none => []
    else []) ++ textOf xml rest

def visibleText (xml : Bytes) : Text := textOf xml (scanTags xml)

theorem textOf_append (rest : List Tag) : ∀ {tags : List Tag},
    (∀ tag ∈ tags, tag.name ≠ "t") → textOf xml (tags ++ rest) = textOf xml rest
  | [], _ => rfl
  | tag :: tags, h => by
    obtain ⟨htag, htags⟩ := forall_mem_cons.mp h
    rw [cons_append, textOf, if_neg fun h => htag h.1, nil_append,
      textOf_append rest htags]

theorem OneRpr.name_ne (h : OneRpr rpr) : ∀ tag ∈ scanTags rpr, tag.name ≠ "t" := by
  rcases h with rfl | h
  · exact fun _ h => by cases h
  rw [rprElement] at h
  split at h
  · cases h
  next first rest htags =>
    simp only [Bool.and_eq_true, beq_iff_eq, all_eq_true, bne_iff_ne] at h
    rw [htags]
    refine forall_mem_cons.mpr ⟨?_, h.2⟩
    rw [h.1.1.1.1.1.1]
    decide

/-- A rebuilt run shows the text it was built of. -/
theorem visibleText_runBytes (htag : RunTag openTag) (hrpr : OneRpr rpr) (text : Text) :
    visibleText (runBytes openTag rpr text) = text := by
  obtain ⟨-, a, b, c, d, htags, hslice⟩ := scanTags_runBytes htag hrpr text
  have hnames : ∀ tag ∈ (⟨"r", 0, openTag.length, false, false⟩ : Tag) ::
      (scanTags rpr).map (Tag.shift openTag.length), tag.name ≠ "t" := by
    refine forall_mem_cons.mpr ⟨show "r" ≠ "t" by decide, fun tag htag => ?_⟩
    obtain ⟨own, hown, rfl⟩ := mem_map.mp htag
    exact hrpr.name_ne own hown
  rw [visibleText, htags, textOf_append _ hnames]
  have htext : decodedText (slice (runBytes openTag rpr text) b c) = text := by
    rw [hslice]
    exact decodedText_xmlEscape text
  simpa [textOf] using htext

end Piece

end Docx2Typed.Format
