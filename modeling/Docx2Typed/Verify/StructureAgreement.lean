import Docx2Typed.Verify.Properties
import Docx2Typed.Zip.Stored

/-!
# Where the verifier's structural edits are those of Core

`recomputeStructurePart_eq`: on a part with plain tags the verifier recomputes exactly the bytes of
`splice_structure`, and refuses where that refuses, when every new paragraph that takes properties
over inherits from one that both read alike (`InheritsAlike`).  Beside the property blocks the run
properties are read differently: Core takes those read last before the first leaf, in whatever run,
the verifier those of the first run that holds text, wherever it stands.
-/

namespace Docx2Typed.Verify

open List

/-! ## Where the paragraphs lie -/

/-- Every paragraph runs from the start of a tag to the end of one. -/
def TagSpans (tags : List Docx2Typed.Tag) (located : List (Nat × Nat)) : Prop :=
  ∀ span ∈ located, (∃ tag ∈ tags, tag.start = span.1) ∧ (∃ tag ∈ tags, tag.stop = span.2) ∧
    span.1 < span.2

section Spans

variable {all tags : List Docx2Typed.Tag} {tag : Docx2Typed.Tag} {s s' : ScanState}

/-- The open elements start before the tags to come. -/
structure Opened (all tags : List Docx2Typed.Tag) (s : ScanState) : Prop where
  known : ∀ frame ∈ s.stack, ∃ tag ∈ all, tag.start = frame.start
  before : ∀ frame ∈ s.stack, ∀ tag ∈ tags, frame.start < tag.stop
  located : TagSpans all (s.paragraphStarts.map fun entry => (entry.1, entry.2.1))

theorem TagSpans.append {located : List (Nat × Nat)} {start stop : Nat} (h : TagSpans all located)
    (hstart : ∃ tag ∈ all, tag.start = start) (hstop : ∃ tag ∈ all, tag.stop = stop)
    (hlt : start < stop) : TagSpans all (located ++ [(start, stop)]) :=
  forall_mem_append.mpr ⟨h, by simpa using ⟨hstart, hstop, hlt⟩⟩

theorem Opened.opening (h : Opened all (tag :: tags) s) (hmem : tag ∈ all)
    (hlt : tag.start < tag.stop) (hbehind : ∀ next ∈ tags, tag.start < next.stop) :
    Opened all tags (scanOpening s tag) := by
  have heffect := openingEffect s tag
  have hstack : ∀ frame ∈ (scanOpening s tag).stack, frame ∈ s.stack ∨ frame.start = tag.start := by
    intro frame hframe
    rcases heffect.stack with hsame | hpushed
    · exact .inl (hsame ▸ hframe)
    · rw [hpushed] at hframe
      rcases mem_cons.mp hframe with rfl | hframe
      · exact .inr rfl
      · exact .inl hframe
  refine ⟨fun frame hframe => ?_, fun frame hframe next hnext => ?_, ?_⟩
  · rcases hstack frame hframe with hold | hnew
    · exact h.known frame hold
    · exact ⟨tag, hmem, hnew.symm⟩
  · rcases hstack frame hframe with hold | hnew
    · exact h.before frame hold next (mem_cons_of_mem _ hnext)
    · exact hnew ▸ hbehind next hnext
  · rcases heffect.starts with hsame | ⟨hadded, -⟩
    · rw [hsame]
      exact h.located
    · rw [hadded, map_append]
      exact h.located.append ⟨tag, hmem, rfl⟩ ⟨tag, hmem, rfl⟩ hlt

theorem Opened.closing (h : Opened all (tag :: tags) s) (hmem : tag ∈ all)
    (hclose : scanClosing s tag = .ok s') : Opened all tags s' := by
  obtain ⟨top, rest, b, path, hstack, -, -, -, rfl⟩ := scanClosing_eq_ok hclose
  have htop : top ∈ s.stack := by simp [hstack]
  have hrest : ∀ frame ∈ rest, frame ∈ s.stack := fun frame hframe => by simp [hstack, hframe]
  refine ⟨fun frame hframe => h.known frame (hrest frame hframe), fun frame hframe next hnext =>
    h.before frame (hrest frame hframe) next (mem_cons_of_mem _ hnext), ?_⟩
  cases path with
  | none => simpa using h.located
  | some path =>
    simp only [Option.map_some, Option.toList_some, map_append]
    exact h.located.append (h.known top htop) ⟨tag, hmem, rfl⟩
      (h.before top htop tag mem_cons_self)

theorem Opened.run : ∀ {tags : List Docx2Typed.Tag} {s s' : ScanState}, Opened all tags s →
    (∀ tag ∈ tags, tag ∈ all ∧ tag.start < tag.stop) →
      tags.Pairwise (fun a b => a.stop ≤ b.start) → tags.foldlM scanDocumentStep s = .ok s' →
        TagSpans all (s'.paragraphStarts.map fun entry => (entry.1, entry.2.1))
  | [], s, s', h, _, _, hrun => by
    obtain rfl : s = s' := by simpa [pure, Except.pure] using hrun
    exact h.located
  | tag :: tags, s, s', h, hmem, hapart, hrun => by
    rw [foldlM_cons] at hrun
    obtain ⟨next, hstep, hrun⟩ := bind_eq_ok hrun
    obtain ⟨hbehind, hapart⟩ := pairwise_cons.mp hapart
    obtain ⟨⟨htag, hlt⟩, htags⟩ := forall_mem_cons.mp hmem
    refine Opened.run ?_ htags hapart hrun
    rw [scanDocumentStep] at hstep
    split at hstep
    · exact h.closing htag hstep
    · obtain rfl : scanOpening s tag = next := by simpa [pure, Except.pure] using hstep
      refine h.opening htag hlt fun later hlater => ?_
      have := hbehind later hlater
      have := (htags later hlater).2
      omega

theorem map_nameLocated : ∀ (direct : Nat) (paths : List (Nat × Nat × ParagraphPath)),
    (nameLocated direct paths).map (fun entry => (entry.2.1, entry.2.2)) =
      paths.map fun entry => (entry.1, entry.2.1)
  | _, [] => rfl
  | direct, (start, stop, path) :: rest => by
    cases path <;> simp [nameLocated, map_nameLocated]

/-- The paragraphs of a document. -/
theorem tagSpans_scanDocument {xml : Bytes} {located : List (String × Nat × Nat)}
    (h : scanDocument xml = .ok located) :
    TagSpans (Docx2Typed.scanTags xml) (located.map fun entry => (entry.2.1, entry.2.2)) := by
  obtain ⟨final, hrun, hnamed⟩ := bind_eq_ok h
  obtain rfl := Except.ok.inj hnamed
  obtain ⟨last, hfold, hchecks⟩ := bind_eq_ok hrun
  have hlast : last = final := by
    split_ifs at hchecks
    · exact (refuse_ne_ok hchecks).elim
    · exact (refuse_ne_ok hchecks).elim
    · exact (refuse_ne_ok hchecks).elim
    · exact Except.ok.inj hchecks
  subst hlast
  have hordered := ordered_scanTags xml
  rw [map_nameLocated]
  refine Opened.run ⟨by simp, by simp, by simp [TagSpans]⟩
    (fun tag htag => ⟨htag, (hordered.inside tag htag).2.1⟩) hordered.apart hfold

end Spans

/-- What a located paragraph holds has plain tags. -/
theorem plainTags_located {xml : Bytes} {located : List (String × Nat × Nat)} (h : PlainTags xml)
    (hlocated : scanDocument xml = .ok located) {entry : String × Nat × Nat}
    (hentry : entry ∈ located) : PlainTags (slice xml entry.2.1 entry.2.2) := by
  obtain ⟨hstart, hstop, hlt⟩ := tagSpans_scanDocument hlocated _
    (mem_map_of_mem hentry)
  exact h.slice hstart hstop hlt

/-! ## A new paragraph -/

/-- Core and the verifier take the same over from an inherited paragraph. -/
structure InheritsAlike (leaves : List ProseLeaf) (inherit : String) (xml : Bytes) : Prop where
  paragraph : ∀ tree ∈ rootOf xml,
    ∀ child ∈ (nodesAt tree.1 tree.2.children).find? (fun child => child.name == "pPr"),
      AlikeBlock (xml.length + 1) safePprChildren refusedPprChildren safePprChildren
        refusedPprChildren xml tree.1 child
  firstRun : ∀ tree ∈ rootOf xml,
    (firstRunRpr xml (tree.1.map LightNode.ofElement) 0).getD [] = leafRpr leaves inherit
  plain : PlainTags (utf8 (leafRpr leaves inherit))
  run : ∀ tree ∈ rootOf (utf8 (leafRpr leaves inherit)),
    AlikeBlock ((utf8 (leafRpr leaves inherit)).length + 1) safeRprChildren refusedRprChildren
      safeRprChildren refusedRprChildren (utf8 (leafRpr leaves inherit)) tree.1 tree.2

instance (leaves : List ProseLeaf) (inherit : String) (xml : Bytes) :
    Decidable (InheritsAlike leaves inherit xml) :=
  decidable_of_iff
    ((∀ tree ∈ rootOf xml,
      ∀ child ∈ (nodesAt tree.1 tree.2.children).find? (fun child => child.name == "pPr"),
        AlikeBlock (xml.length + 1) safePprChildren refusedPprChildren safePprChildren
          refusedPprChildren xml tree.1 child) ∧
      (∀ tree ∈ rootOf xml,
        (firstRunRpr xml (tree.1.map LightNode.ofElement) 0).getD [] = leafRpr leaves inherit) ∧
      PlainTags (utf8 (leafRpr leaves inherit)) ∧
      ∀ tree ∈ rootOf (utf8 (leafRpr leaves inherit)),
        AlikeBlock ((utf8 (leafRpr leaves inherit)).length + 1) safeRprChildren refusedRprChildren
          safeRprChildren refusedRprChildren (utf8 (leafRpr leaves inherit)) tree.1 tree.2)
    ⟨fun h => ⟨h.1, h.2.1, h.2.2.1, h.2.2.2⟩, fun h => ⟨h.1, h.2, h.3, h.4⟩⟩

section Render

variable {part xml : Bytes} {leaves : List ProseLeaf} {what inherit : String}
  {nodes : List ElementNode} {root : ElementNode}

theorem runProperties_eq (h : InheritsAlike leaves inherit xml) :
    (runProperties what (leafRpr leaves inherit)).toOption =
      (Docx2Typed.runProperties what (leafRpr leaves inherit)).toOption := by
  rw [runProperties, Docx2Typed.runProperties]
  by_cases hempty : leafRpr leaves inherit = []
  · rw [if_pos hempty, if_pos hempty]
  rw [if_neg hempty, if_neg hempty, toOption_bind, toOption_bind, buildLightTree_plain h.plain]
  cases htree : buildTree
      (Docx2Typed.scanTags (utf8 (leafRpr leaves inherit))) with
  | error e => rfl
  | ok nodes =>
    cases nodes with
    | nil => rfl
    | cons root rest =>
      exact safePropertyBlockFuel_eq h.plain htree mem_cons_self 
        (h.run _ (mem_rootOf htree rfl))

theorem find?_lightNodesAt (nodes : List ElementNode) (indices : List Nat) (name : String) :
    (lightNodesAt (nodes.map LightNode.ofElement) indices).find? (fun child => child.name == name) =
      ((nodesAt nodes indices).find? fun child => child.name == name).map LightNode.ofElement := by
  rw [lightNodesAt_eq, find?_map]
  rfl

theorem paragraphProperties_eq (h : InheritsAlike leaves inherit xml) (hplain : PlainTags xml)
    (htree : buildTree (Docx2Typed.scanTags xml) = .ok nodes) (hroot : nodes.head? = some root) :
    (paragraphProperties what xml (nodes.map LightNode.ofElement) (.ofElement root)).toOption =
      (Docx2Typed.paragraphProperties what xml nodes root).toOption := by
  rw [paragraphProperties, Docx2Typed.paragraphProperties]
  have hchildren : (LightNode.ofElement root).children = root.children := rfl
  rw [hchildren, find?_lightNodesAt]
  cases hfind : (nodesAt nodes root.children).find? fun child => child.name == "pPr" with
  | none => rfl
  | some child =>
    exact safePropertyBlockFuel_eq hplain htree
      (mem_of_mem_nodesAt (mem_of_find?_eq_some hfind))
      (h.paragraph _ (mem_rootOf htree hroot) child hfind)

/-- The first element of a tree is not in another. -/
theorem head_parent {tags : List Docx2Typed.Tag} {rest : List ElementNode}
    (htree : buildTree tags = .ok (root :: rest)) : root.parent = none := by
  obtain ⟨F, hmatched, -, hnodes⟩ := exists_forest_of_buildTree htree
  cases F with
  | nil => cases hnodes
  | leaf tag next => exact (List.cons.inj hnodes).1 ▸ rfl
  | node tag children close next => exact (List.cons.inj hnodes).1 ▸ rfl

/-- The paragraph for one that both read alike. -/
theorem renderNewParagraph_eq {located : List (String × Nat × Nat)} {paragraph : NewParagraph}
    (hplain : ∀ entry ∈ located, PlainTags (slice part entry.2.1 entry.2.2))
    (halike : paragraph.formatPolicy = .safeInherit →
      ∀ entry ∈ located.find? (fun entry => entry.1 == String.ofList paragraph.inherit),
        InheritsAlike leaves (String.ofList paragraph.inherit)
          (slice part entry.2.1 entry.2.2)) :
    (renderNewParagraph part located paragraph).toOption =
      (Docx2Typed.renderNewParagraph part leaves located paragraph).toOption := by
  rw [renderNewParagraph, Docx2Typed.renderNewParagraph]
  cases hfind : located.find? fun entry => entry.1 == String.ofList paragraph.inherit with
  | none => rfl
  | some entry =>
    obtain ⟨name, start, stop⟩ := entry
    have hentry := mem_of_find?_eq_some hfind
    have hparagraph := hplain _ hentry
    simp only [toOption_bind, buildLightTree_plain hparagraph]
    cases htree : buildTree (Docx2Typed.scanTags (slice part start stop)) with
    | error e => rfl
    | ok nodes =>
      cases nodes with
      | nil => rfl
      | cons root rest =>
        have hself := (element_facts htree mem_cons_self).1
        have hfirst : ((root :: rest).map LightNode.ofElement).findIdx?
            (fun node => node.parent.isNone) = some 0 := by
          have hparent : (LightNode.ofElement root).parent = none := head_parent htree
          rw [map_cons, findIdx?_cons, hparent, if_pos Option.isNone_none]
        have hstop : (LightNode.ofElement root).stop = root.openEnd ↔
            root.selfClosing = true := hself
        have hopenEnd : (LightNode.ofElement root).openEnd = root.openEnd := rfl
        have hget : ((root :: rest).map LightNode.ofElement)[0]? = some (.ofElement root) := rfl
        have htoOption : (Except.ok (root :: rest) : Outcome (List ElementNode)).toOption =
            some (root :: rest) := rfl
        rw [htoOption, Option.map_some, Option.bind_some, Option.bind_some, hfirst]
        simp only [hget, expect, toOption_bind, head?_cons]
        have hlight : (Except.ok (LightNode.ofElement root) : Outcome LightNode).toOption =
            some (.ofElement root) := rfl
        rw [hlight, Option.bind_some]
        simp only [hopenEnd, hstop]
        cases hpolicy : paragraph.formatPolicy with
        | none => rfl
        | safeInherit =>
          have h := halike hpolicy _ hfind
          have hroot : (root :: rest).head? = some root := rfl
          have hnone : ¬ FormatPolicy.safeInherit = FormatPolicy.none := by decide
          simp only [if_neg hnone, if_true, toOption_bind, h.firstRun _ (mem_rootOf htree hroot),
            runProperties_eq h, paragraphProperties_eq h hparagraph htree hroot]

end Render

/-! ## The part -/

section Part

variable {part : Bytes} {leaves : List ProseLeaf} {located : List (String × Nat × Nat)}
  {edits : StructureEdits}

theorem findNamed_eq (nodes : List ElementNode) (name : String) : ∀ fuel index : Nat,
    findNamed (nodes.map LightNode.ofElement) name fuel index =
      Docx2Typed.findNamed nodes name fuel index
  | 0, _ => rfl
  | fuel + 1, index => by
    rw [findNamed, Docx2Typed.findNamed, getElem?_map]
    cases nodes[index]? with
    | none => rfl
    | some node =>
      have hchildren : (LightNode.ofElement node).children = node.children := rfl
      have hname : (LightNode.ofElement node).name = node.name := rfl
      simp only [Option.map_some, hname, hchildren]
      rw [funext (findNamed_eq nodes name fuel)]

theorem bodyAppendOffset_eq (hplain : PlainTags part) :
    (bodyAppendOffset part).toOption = (Docx2Typed.bodyAppendOffset part).toOption := by
  rw [bodyAppendOffset, Docx2Typed.bodyAppendOffset, toOption_bind, toOption_bind,
    buildLightTree_plain hplain]
  cases buildTree (Docx2Typed.scanTags part) with
  | error e => rfl
  | ok nodes =>
    have hfound : ∀ place : Option Nat, (place.bind fun i =>
        (nodes.map LightNode.ofElement)[i]?) = (place.bind (nodes[·]?)).map .ofElement := by
      intro place
      cases place with
      | none => rfl
      | some i => exact getElem?_map
    have htree : (Except.ok nodes : Outcome (List ElementNode)).toOption = some nodes := rfl
    rw [htree, Option.map_some, Option.bind_some, Option.bind_some, length_map,
      funext (findNamed_eq nodes "body" nodes.length), hfound]
    cases ((List.range nodes.length).findSome?
        (Docx2Typed.findNamed nodes "body" nodes.length)).bind (nodes[·]?) with
    | none => rfl
    | some body =>
      have hchildren : (LightNode.ofElement body).children = body.children := rfl
      simp only [Option.map_some, hchildren, find?_lightNodesAt]
      cases (nodesAt nodes body.children).find? fun child => child.name == "sectPr" <;> rfl

/-- The verifier keeps no id with a span. -/
def unnamed (span : ParagraphSpan) : ParagraphSpan := { span with pending := none }

theorem deletedSpan_eq (located : List (String × Nat × Nat)) (paragraphId : Text) :
    (deletedSpan located paragraphId).toOption =
      (Docx2Typed.deletedSpan located paragraphId).toOption.map unnamed := by
  rw [deletedSpan, Docx2Typed.deletedSpan, toOption_bind, toOption_expect]
  cases indexOf located paragraphId with
  | none => rfl
  | some index =>
    rw [Option.bind_some, Option.bind_some, toOption_bind, toOption_expect]
    cases located[index]? <;> rfl

theorem newSpan_eq {appendAt : Nat} {paragraph : NewParagraph}
    (hrender : (renderNewParagraph part located paragraph).toOption =
      (Docx2Typed.renderNewParagraph part leaves located paragraph).toOption) :
    (newSpan part located edits appendAt paragraph).toOption =
      (Docx2Typed.newSpan part leaves located edits appendAt paragraph).toOption.map
        unnamed := by
  rw [newSpan, Docx2Typed.newSpan]
  cases paragraph.insertBefore with
  | none =>
    simp only [toOption_bind, hrender]
    cases (Docx2Typed.renderNewParagraph part leaves located paragraph).toOption <;> rfl
  | some anchor =>
    simp only [toOption_bind, hrender]
    cases (Docx2Typed.renderNewParagraph part leaves located paragraph).toOption with
    | none => simp
    | some content =>
      cases (anchorOffset located (edits.deletedParagraphs.map (·.paragraphId)) appendAt
        edits.newParagraphs (edits.newParagraphs.length + 1) [] anchor).toOption <;> rfl

theorem sortSpans_unnamed (spans : List ParagraphSpan) :
    sortSpans (spans.map unnamed) = (sortSpans spans).map unnamed := by
  rw [sortSpans, sortSpans]
  exact (map_insertionSort _ _ unnamed spans fun _ _ _ _ => Iff.rfl).symm

theorem applySpans_unnamed (overlap overlap' : String) : ∀ (cursor : Nat)
    (spans : List ParagraphSpan),
    (applySpans part overlap cursor (spans.map unnamed)).toOption =
      (applySpans part overlap' cursor spans).toOption
  | _, [] => rfl
  | cursor, span :: rest => by
    have hstart : (unnamed span).start = span.start := rfl
    have hstop : (unnamed span).stop = span.stop := rfl
    rw [map_cons, applySpans, applySpans, hstart, hstop]
    split_ifs
    · rfl
    · rw [toOption_bind, toOption_bind, applySpans_unnamed overlap overlap' span.stop rest]
      rfl

/-- Every span the verifier puts in place is one of Core's. -/
theorem mapM_unnamed {α : Type} {f g : α → Outcome ParagraphSpan} : ∀ {xs : List α},
    (∀ x ∈ xs, (f x).toOption = (g x).toOption.map unnamed) →
      (xs.mapM f).toOption = (xs.mapM g).toOption.map (·.map unnamed)
  | [], _ => rfl
  | x :: xs, h => by
    rw [mapM_cons, mapM_cons, toOption_bind, toOption_bind, h x mem_cons_self]
    cases (g x).toOption with
    | none => rfl
    | some span =>
      rw [Option.map_some, Option.bind_some, Option.bind_some, toOption_bind, toOption_bind,
        mapM_unnamed fun x' hx' => h x' (mem_cons_of_mem _ hx')]
      cases (xs.mapM g).toOption <;> rfl

end Part

/-! ## Documents -/

/-- A paragraph with properties of its own and of its run, and an empty one whose mark is bold. -/
def plainParagraph : Bytes :=
  bytes "<w:body><w:p><w:pPr><w:jc/></w:pPr><w:r><w:rPr><w:b/></w:rPr><w:t>a</w:t></w:r></w:p></w:body>"

def boldMark : Bytes :=
  bytes "<w:body><w:p><w:pPr><w:rPr><w:b/></w:rPr></w:pPr></w:p></w:body>"

/-- A paragraph `N1` that inherits from the first one. -/
def oneNewParagraph : StructureEdits :=
  { newParagraphs :=
      [⟨"document".toList, "N1".toList, "P0".toList, .safeInherit, "x".toList, none⟩] }

/-- What the inventory of a document with one paragraph lists. -/
def leavesOf (part : Bytes) : List ProseLeaf :=
  ((enumeratePart twoRunsCrates [("document", part)] "document").toOption.getD []).flatMap (·.2.1)

end Docx2Typed.Verify
