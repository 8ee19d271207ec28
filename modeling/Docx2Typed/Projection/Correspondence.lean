import Docx2Typed.Projection.Agreement
import Docx2Typed.Zip.Stored
import Mathlib.Data.List.Perm.Basic

/-!
# Inventory and projection, package by package

The projection zips the locator's paragraphs with the inventory's entries, visits them in byte
order and registers them in the locator's order again.  So the two lists of paragraphs agree entry
by entry, and a paragraph's leaves and segments correspond as far as its styles are carried right.
-/

namespace Docx2Typed

open List

/-! ## The leaves of one entry -/

/-- The inventory's entries with their leaves; each takes as many as it counts. -/
def splitLeaves : List ParagraphEntry → List ProseLeaf → List (ParagraphEntry × List ProseLeaf)
  | [], _ => []
  | entry :: rest, leaves =>
    (entry, leaves.take entry.leafCount) :: splitLeaves rest (leaves.drop entry.leafCount)

/-- The paragraphs both sides list; comments are a registry of their own in the projection. -/
def sharedParagraphs (inventory : ProseInventory) : List (ParagraphEntry × List ProseLeaf) :=
  (splitLeaves inventory.paragraphs inventory.leaves).filter (·.1.partKey ≠ "comments")

/-- One paragraph of the inventory and one of the projection. -/
structure ParagraphAgrees (crates : Crates) (listed : ParagraphEntry × List ProseLeaf)
    (projected : ProjectionParagraph) : Prop where
  part : projected.part = listed.1.partKey
  paragraphId : projected.paragraphId = listed.1.paragraphId
  segments : List.Forall₂ (Matches crates) (listed.2.filter (·.text ≠ [])) projected.segments
  tiles : Tiles 0 projected.segments listed.1.visibleText.length

/-- The inventory and the projection agree paragraph by paragraph. -/
def PackageAgrees (crates : Crates) (inventory : ProseInventory)
    (projection : List ProjectionParagraph) : Prop :=
  List.Forall₂ (ParagraphAgrees crates) (sharedParagraphs inventory) projection

/-- At every non-empty text of a part, the rPr read last in the paragraph has a canonical form, and
the style of that form is the style of the text's own run. -/
def PartStylesCarried (crates : Crates) (partKey : String) (xml : Bytes) : Prop :=
  ∀ nodes located, buildTree (scanTags xml) = .ok nodes →
    locateParagraphs partKey xml = .ok located → ∀ place ∈ located, ∀ node,
      findParagraphNode nodes place.2.1 place.2.2 = some node →
        ∀ text ∈ paragraphTexts ⟨crates, xml, nodes⟩ node, StyleCarried crates text

def PackageStylesCarried (crates : Crates) (package : Bytes) : Prop :=
  ∀ parts, partXmlMembers crates package = .ok parts →
    ∀ partKey ∈ partKeysOf parts, partKey ≠ "comments" →
      ∀ xml, parts.lookup partKey = some xml → PartStylesCarried crates partKey xml

/-! ## Back to the locator's order -/

/-- Answers to numbered questions, put in any order, come back in order when sorted by number. -/
theorem forall₂_zipIdx_insertionSort {α β : Type} {R : α × Nat → Nat × β → Prop}
    (hindex : ∀ x y, R x y → y.1 = x.2) {xs : List α} {order : List (α × Nat)}
    {answers : List (Nat × β)} (horder : order.Perm xs.zipIdx)
    (h : List.Forall₂ R order answers) :
    List.Forall₂ R xs.zipIdx (answers.insertionSort fun a b => a.1 ≤ b.1) := by
  obtain ⟨sorted, hsorted, hperm⟩ := List.perm_comp_forall₂ horder.symm h
  have hnumbers : sorted.map (·.1) = List.range' 0 xs.length := by
    rw [← zipIdx_map_snd 0 xs, eq_comm, ← List.forall₂_eq_eq_eq, List.forall₂_map_left_iff,
      List.forall₂_map_right_iff]
    exact hsorted.imp fun x y hxy => (hindex x y hxy).symm
  have hlt : sorted.Pairwise fun a b => a.1 < b.1 := by
    rw [← pairwise_map, hnumbers]
    exact pairwise_lt_range'
  have hinjective : ∀ a b, a ∈ sorted → b ∈ answers.insertionSort (fun a b => a.1 ≤ b.1) →
      a.1 ≤ b.1 → b.1 ≤ a.1 → a = b := by
    intro a b ha hb hab hba
    rw [mem_insertionSort, ← hperm.mem_iff] at hb
    have hnodup : (sorted.map (·.1)).Nodup := by
      rw [hnumbers]
      exact nodup_range'
    exact inj_on_of_nodup_map hnodup ha hb (Nat.le_antisymm hab hba)
  have heq : sorted = answers.insertionSort fun a b => a.1 ≤ b.1 :=
    List.Perm.eq_of_pairwise hinjective (hlt.imp fun h => Nat.le_of_lt h)
      (pairwise_insertionSort _ _)
      (hperm.trans (perm_insertionSort _ _).symm)
  rw [← heq]
  exact hsorted

theorem forall₂_append_iff {α β : Type} {R : α → β → Prop} : ∀ {xs : List α} {ys : List β}
    {xs' : List α} {ys' : List β}, xs.length = ys.length →
    (List.Forall₂ R (xs ++ xs') (ys ++ ys') ↔ List.Forall₂ R xs ys ∧ List.Forall₂ R xs' ys')
  | [], [], _, _, _ => by simp
  | x :: xs, y :: ys, xs', ys', h => by
    rw [cons_append, cons_append, List.forall₂_cons, List.forall₂_cons,
      forall₂_append_iff (Nat.succ.inj h), and_assoc]

/-! ## One located paragraph on both sides -/

section Part

variable {crates : Crates} {partKey : String} {xml : Bytes} {nodes : List ElementNode}

/-- A paragraph of the projection, as the walk over one located paragraph leaves it. -/
structure Projects (crates : Crates) (partKey : String) (xml : Bytes) (nodes : List ElementNode)
    (input : (ParagraphEntry × String × Nat × Nat) × Nat)
    (output : Nat × ProjectionParagraph) : Prop where
  index : output.1 = input.2
  part : output.2.part = partKey
  paragraphId : output.2.paragraphId = input.1.2.1
  walked : ∃ node walker s, findParagraphNode nodes input.1.2.2.1 input.1.2.2.2 = some node ∧
    walker.toPartTree = ⟨crates, xml, nodes⟩ ∧ walker.paragraphEditable = input.1.1.editable ∧
    s.segments = [] ∧ s.offset = 0 ∧
    output.2.segments = (visitContainer walker nodes.length s node).segments

theorem projectLocated_projects {revKeys : List ((Nat × Nat) × String)} :
    ∀ {order : List ((ParagraphEntry × String × Nat × Nat) × Nat)} {openComments : List Text}
      {styles : List String} {projected : List (Nat × ProjectionParagraph)}
      {styles' : List String},
      projectLocated ⟨⟨crates, xml, nodes⟩, partKey, revKeys⟩ order openComments styles =
        .ok (projected, styles') →
      List.Forall₂ (Projects crates partKey xml nodes) order projected
  | [], _, _, _, _, h => by
    obtain ⟨rfl, rfl⟩ := Prod.mk.inj (Except.ok.inj h)
    exact .nil
  | ((entry, id, start, stop), i) :: rest, openComments, styles, projected, styles', h => by
    rw [projectLocated] at h
    obtain hnode | ⟨node, hnode⟩ :=
      Option.eq_none_or_eq_some (findParagraphNode nodes start stop)
    · simp only [hnode] at h
      exact (refuse_ne_ok h).elim
    · simp only [hnode] at h
      obtain ⟨⟨others, last⟩, hothers, h⟩ := bind_eq_ok h
      obtain ⟨rfl, rfl⟩ := Prod.mk.inj (Except.ok.inj h)
      refine .cons ⟨rfl, rfl, rfl, node, _, _, hnode, rfl, rfl, ?_, ?_, rfl⟩
        (projectLocated_projects hothers)
      · rfl
      · rfl

/-- The two walks over one located paragraph. -/
theorem paragraphAgrees_iff {located : String × Nat × Nat} {found : Enumerated}
    {output : Nat × ProjectionParagraph} {i : Nat}
    (hfound : enumerateParagraph crates partKey xml nodes located = .ok found)
    (hprojects : Projects crates partKey xml nodes ((found.1, located), i) output) :
    ParagraphAgrees crates (found.1, found.2.1) output.2 ↔
      ∀ node, findParagraphNode nodes located.2.1 located.2.2 = some node →
        ∀ text ∈ paragraphTexts ⟨crates, xml, nodes⟩ node, StyleCarried crates text := by
  obtain ⟨node, hnode, hextract, hpart, hid, heditable, -, hvisible⟩ :=
    enumerateParagraph_eq_ok hfound
  obtain ⟨-, hpart', hid', node', walker, s, hnode', htree, heditable', hs, hoffset, hsegments⟩ :=
    hprojects
  obtain rfl : node' = node := Option.some.inj (hnode'.symm.trans hnode)
  have hwalks : WalksParagraph ⟨⟨crates, xml, nodes⟩, partKey, located.1⟩ node' walker :=
    ⟨htree, by rw [heditable', heditable, hextract]⟩
  have hlength : nodes.length = walker.nodes.length := by rw [htree]
  rw [hlength] at hsegments
  have hmatches := matches_iff hwalks hs crates
  rw [← hextract, ← hsegments] at hmatches
  constructor
  · intro h node hnode
    obtain rfl : node' = node := Option.some.inj (hnode'.symm.trans hnode)
    exact hmatches.mp h.segments
  · intro h
    refine ⟨hpart'.trans hpart.symm, hid'.trans hid.symm, hmatches.mpr (h node' hnode'), ?_⟩
    rw [hvisible, hextract, hsegments]
    exact visitContainer_tiles hwalks hs hoffset

/-- The two walks over some located paragraphs. -/
theorem paragraphsAgree_iff : ∀ {located : List (String × Nat × Nat)} {found : List Enumerated}
    {answers : List (Nat × ProjectionParagraph)} {n : Nat},
    List.Forall₂ (fun place entry =>
      enumerateParagraph crates partKey xml nodes place = .ok entry) located found →
    List.Forall₂ (Projects crates partKey xml nodes)
      (((found.map (·.1)).zip located).zipIdx n) answers →
    (List.Forall₂ (ParagraphAgrees crates) (found.map fun entry => (entry.1, entry.2.1))
        (answers.map (·.2)) ↔
      ∀ place ∈ located, ∀ node, findParagraphNode nodes place.2.1 place.2.2 = some node →
        ∀ text ∈ paragraphTexts ⟨crates, xml, nodes⟩ node, StyleCarried crates text)
  | [], _, _, _, .nil, h => by
    cases h
    simp
  | place :: located, entry :: found, answers, n, .cons hentry hfound, h => by
    rw [map_cons, zip_cons_cons, zipIdx_cons, List.forall₂_cons_left_iff] at h
    obtain ⟨answer, rest, hanswer, hrest, rfl⟩ := h
    rw [map_cons, map_cons, List.forall₂_cons, paragraphAgrees_iff hentry hanswer,
      paragraphsAgree_iff hfound hrest, forall_mem_cons]

end Part

/-! ## One part on both sides -/

section Parts

variable {crates : Crates} {parts : PartMap}
  {revisionKeys : String → Bytes → List ((Nat × Nat) × String)}

theorem of_mem_enumeratePart {partKey : String} {found : List Enumerated}
    (h : enumeratePart crates parts partKey = .ok found) {entry : Enumerated}
    (hentry : entry ∈ found) :
    entry.1.partKey = partKey ∧ entry.1.leafCount = entry.2.1.length := by
  obtain ⟨xml, nodes, located, -, -, -, hentries⟩ := enumeratePart_eq_ok h
  obtain ⟨place, -, hplace⟩ := exists_of_forall₂_of_mem hentries hentry
  obtain ⟨-, -, -, hkey, -, -, hcount, -⟩ := enumerateParagraph_eq_ok hplace
  exact ⟨hkey, hcount⟩

/-- The projection of a part takes the part's entries off the front, and agrees with them as far
as the styles are carried right. -/
theorem projectPart_agrees_iff {partKey : String} {found : List Enumerated}
    (hfound : enumeratePart crates parts partKey = .ok found) {others entries : List ParagraphEntry}
    {styles styles' : List String} {projected : List ProjectionParagraph}
    (hprojected : projectPart crates revisionKeys parts (found.map (·.1) ++ others) styles partKey =
      .ok (projected, entries, styles')) :
    entries = others ∧ found.length = projected.length ∧
      (List.Forall₂ (ParagraphAgrees crates) (found.map fun entry => (entry.1, entry.2.1)) projected ↔
        ∀ xml, parts.lookup partKey = some xml → PartStylesCarried crates partKey xml) := by
  obtain ⟨xml, nodes, located, hxml, hnodes, hlocated, hentries⟩ := enumeratePart_eq_ok hfound
  have hlength : located.length = (found.map (·.1)).length := by
    rw [length_map]
    exact hentries.length_eq
  rw [projectPart] at hprojected
  simp only [hxml] at hprojected
  obtain ⟨nodes', hnodes', hprojected⟩ := bind_eq_ok hprojected
  obtain rfl : nodes = nodes' := Except.ok.inj (hnodes.symm.trans hnodes')
  obtain ⟨located', hlocated', hprojected⟩ := bind_eq_ok hprojected
  obtain rfl : located = located' := Except.ok.inj (hlocated.symm.trans hlocated')
  have henough : ¬ (found.map (·.1) ++ others).length < located.length := by
    rw [length_append]
    omega
  rw [if_neg henough] at hprojected
  obtain ⟨⟨answers, last⟩, hanswers, hprojected⟩ := bind_eq_ok hprojected
  have hzip : (found.map (·.1) ++ others).zip located = (found.map (·.1)).zip located := by
    have h : (found.map (·.1) ++ others).zip (located ++ []) = _ := zip_append hlength.symm
    rwa [append_nil, zip_nil_right, append_nil] at h
  rw [hzip] at hanswers
  split at hprojected
  · simp only [pure, Except.pure, Except.ok.injEq, Prod.mk.injEq] at hprojected
    obtain ⟨rfl, rfl, -⟩ := hprojected
    have hsorted := forall₂_zipIdx_insertionSort (fun _ _ h => h.index)
      (perm_insertionSort _ _) (projectLocated_projects hanswers)
    refine ⟨?_, ?_, (paragraphsAgree_iff hentries hsorted).trans ?_⟩
    · rw [hlength, drop_left]
    · have h := hsorted.length_eq
      rw [length_zipIdx, length_zip, hlength, Nat.min_self, length_map] at h
      rw [length_map, h]
    · constructor
      · intro h xml' hxml' nodes' located' hnodes' hlocated'
        obtain rfl := Option.some.inj (hxml.symm.trans hxml')
        obtain rfl := Except.ok.inj (hnodes.symm.trans hnodes')
        obtain rfl := Except.ok.inj (hlocated.symm.trans hlocated')
        exact h
      · exact fun h => h xml hxml nodes located hnodes hlocated
  · exact (refuse_ne_ok hprojected).elim

/-- The parts one after the other; comments, which come last, are passed over. -/
theorem projectParts_agrees_iff : ∀ {partKeys : List String} {found : List (List Enumerated)}
    {styles : List String} {projected : List ProjectionParagraph},
    List.Forall₂ (fun partKey paragraphs => enumeratePart crates parts partKey = .ok paragraphs)
      partKeys found →
    "comments" ∉ partKeys.dropLast →
    projectParts crates revisionKeys parts partKeys (found.flatten.map (·.1)) styles = .ok projected →
    (List.Forall₂ (ParagraphAgrees crates)
        ((found.flatten.map fun entry => (entry.1, entry.2.1)).filter (·.1.partKey ≠ "comments"))
        projected ↔
      ∀ partKey ∈ partKeys, partKey ≠ "comments" → ∀ xml, parts.lookup partKey = some xml →
        PartStylesCarried crates partKey xml)
  | [], _, _, _, .nil, _, h => by
    obtain rfl := Except.ok.inj h
    simp
  | partKey :: rest, paragraphs :: found, styles, projected, .cons hpart hrest, hlast, h => by
    rw [projectParts] at h
    rw [flatten_cons, map_append, filter_append]
    have hkeys : ∀ entry ∈ paragraphs, entry.1.partKey = partKey :=
      fun entry hentry => (of_mem_enumeratePart hpart hentry).1
    by_cases hcomments : partKey = "comments"
    · -- nothing stands behind the comments
      obtain rfl : rest = [] := by
        cases rest with
        | nil => rfl
        | cons next rest => exact absurd (by simp [hcomments]) hlast
      cases hrest
      rw [if_pos hcomments] at h
      obtain rfl := Except.ok.inj h
      have hnone : (paragraphs.map fun entry => (entry.1, entry.2.1)).filter
          (·.1.partKey ≠ "comments") = [] := by
        rw [filter_eq_nil_iff]
        intro listed hlisted
        obtain ⟨entry, hentry, rfl⟩ := mem_map.mp hlisted
        simp [hkeys entry hentry, hcomments]
      rw [hnone]
      simp [hcomments]
    · rw [if_neg hcomments, flatten_cons, map_append] at h
      obtain ⟨⟨front, entries, styles'⟩, hfront, h⟩ := bind_eq_ok h
      obtain ⟨back, hback, h⟩ := bind_eq_ok h
      obtain rfl := Except.ok.inj h
      obtain ⟨rfl, hlength, hagree⟩ := projectPart_agrees_iff hpart hfront
      have hlast' : "comments" ∉ rest.dropLast := by
        cases rest with
        | nil => simp
        | cons next rest => exact fun h => hlast (mem_cons_of_mem _ h)
      have hall : (paragraphs.map fun entry => (entry.1, entry.2.1)).filter
          (·.1.partKey ≠ "comments") = paragraphs.map fun entry => (entry.1, entry.2.1) := by
        rw [filter_eq_self]
        intro listed hlisted
        obtain ⟨entry, hentry, rfl⟩ := mem_map.mp hlisted
        simp [hkeys entry hentry, hcomments]
      rw [hall, forall₂_append_iff (by rwa [length_map]), hagree,
        projectParts_agrees_iff hrest hlast' hback, forall_mem_cons]
      simp [hcomments]

theorem comments_last (parts : PartMap) : "comments" ∉ (partKeysOf parts).dropLast := by
  have hheader : "comments" ∉ (parts.map (·.1)).filter fun key =>
      "header".toList.isPrefixOf key.toList := by
    rw [mem_filter]
    exact fun h => absurd h.2 (by decide)
  have hfooter : "comments" ∉ (parts.map (·.1)).filter fun key =>
      "footer".toList.isPrefixOf key.toList := by
    rw [mem_filter]
    exact fun h => absurd h.2 (by decide)
  have hsplit : partKeysOf parts = ((parts.map (·.1)).filter (fun key =>
        "header".toList.isPrefixOf key.toList) ++ ["document"] ++
      (parts.map (·.1)).filter (fun key => "footer".toList.isPrefixOf key.toList) ++
      ["endnotes", "footnotes"].filter (parts.map (·.1)).contains) ++
      ["comments"].filter (parts.map (·.1)).contains := by
    rw [partKeysOf, append_assoc _ (List.filter _ ["endnotes", "footnotes"]), ← filter_append]
    rfl
  rw [hsplit, filter_singleton]
  have hfront : "comments" ∉ (parts.map (·.1)).filter (fun key =>
        "header".toList.isPrefixOf key.toList) ++ ["document"] ++
      (parts.map (·.1)).filter (fun key => "footer".toList.isPrefixOf key.toList) ++
      ["endnotes", "footnotes"].filter (parts.map (·.1)).contains := by
    simp only [mem_append, not_or]
    exact ⟨⟨⟨hheader, by decide⟩, hfooter⟩, fun h => absurd (mem_filter.mp h).1 (by decide)⟩
  cases (parts.map (·.1)).contains "comments" with
  | true =>
    rw [cond_true, dropLast_concat]
    exact hfront
  | false =>
    rw [cond_false, append_nil]
    exact fun h => hfront (mem_of_mem_dropLast h)

/-- Each entry takes its own leaves back. -/
theorem splitLeaves_enumerated : ∀ {paragraphs : List Enumerated},
    (∀ entry ∈ paragraphs, entry.1.leafCount = entry.2.1.length) →
      splitLeaves (paragraphs.map (·.1)) (paragraphs.flatMap (·.2.1)) =
        paragraphs.map fun entry => (entry.1, entry.2.1)
  | [], _ => rfl
  | entry :: rest, h => by
    obtain ⟨hentry, hrest⟩ := forall_mem_cons.mp h
    rw [map_cons, flatMap_cons, splitLeaves, hentry, take_left, drop_left,
      splitLeaves_enumerated hrest, map_cons]

end Parts

/-! ## The package -/

/-- On a package both accept, the inventory and the projection agree exactly when every rPr is
carried to a text of the same style. -/
theorem packageAgrees_iff (crates : Crates)
    (revisionKeys : String → Bytes → List ((Nat × Nat) × String)) (package : Bytes)
    (inventory : ProseInventory) (projection : List ProjectionParagraph)
    (hinventory : enumeratePackage crates package = .ok inventory)
    (hprojection : projectDocument crates revisionKeys package = .ok projection) :
    PackageAgrees crates inventory projection ↔ PackageStylesCarried crates package := by
  obtain ⟨inventory', hinventory', hprojection⟩ := bind_eq_ok hprojection
  obtain rfl := Except.ok.inj (hinventory.symm.trans hinventory')
  obtain ⟨parts, hparts, hprojection⟩ := bind_eq_ok hprojection
  obtain ⟨parts', hparts', hinventory⟩ := bind_eq_ok hinventory
  obtain rfl := Except.ok.inj (hparts.symm.trans hparts')
  split at hinventory
  · cases hinventory
  obtain ⟨found, hfound, hinventory⟩ := bind_eq_ok hinventory
  obtain rfl := Except.ok.inj hinventory
  have hfound := mapM_eq_ok hfound
  have hcounts : ∀ entry ∈ found.flatten, entry.1.leafCount = entry.2.1.length := by
    intro entry hentry
    obtain ⟨paragraphs, hparagraphs, hentry⟩ := List.mem_flatten.mp hentry
    obtain ⟨partKey, -, hpart⟩ := exists_of_forall₂_of_mem hfound hparagraphs
    exact (of_mem_enumeratePart hpart hentry).2
  rw [PackageAgrees, sharedParagraphs, splitLeaves_enumerated hcounts,
    projectParts_agrees_iff hfound (comments_last parts) hprojection]
  constructor
  · intro h parts' hparts'
    obtain rfl := Except.ok.inj (hparts.symm.trans hparts')
    exact h
  · exact fun h => h parts hparts

/-! ## Two packages -/

/-- One bold run. -/
def boldDocument : Bytes :=
  bytes "<w:document><w:body><w:p><w:r><w:rPr><w:b/></w:rPr><w:t>a</w:t></w:r></w:p></w:body></w:document>"

def boldCrates : Crates := storedCrates 0x316d81ba boldDocument

def boldPackage : Bytes := storedDocument 0x316d81ba boldDocument

/-- The bold leaf of the paragraph. -/
def boldLeaf : ProseLeaf where
  partKey := "document"
  paragraphId := "P0"
  leafIndex := 0
  text := ['a']
  editable := true
  projected := true
  textStart := 56
  textEnd := 57
  openEnd := 56
  styleSha256 := "25b75fd7d6adc78382cd610630d3ef50e95ee5accd1c694b951d024b4260c2f2"
  rpr := "<w:rPr><w:b/></w:rPr>".toList
  rprStart := 30
  rprEnd := 51
  runOpenEnd := 30

def boldInventory : ProseInventory where
  partKeys := ["document"]
  paragraphs := [⟨"document", "P0", ['a'], true, 1, 0⟩]
  leaves := [boldLeaf]

def boldSegment : Segment where
  start := 0
  stop := 1
  text := ['a']
  styleId := "s_7bcd5993147ef730"
  revision := none
  commentIds := []
  editable := true
  visibility := ⟨true, true, true⟩

def boldProjection : List ProjectionParagraph :=
  [⟨"document", "P0", true, 1, 0, 20, 75, [boldSegment]⟩]

theorem enumeratePackage_bold : enumeratePackage boldCrates boldPackage = .ok boldInventory := by
  rw [boldCrates, boldPackage, boldDocument, bytes_ofList]
  decide +kernel

theorem projectDocument_bold :
    projectDocument boldCrates (fun _ _ => []) boldPackage = .ok boldProjection := by
  rw [boldCrates, boldPackage, boldDocument, bytes_ofList]
  decide +kernel

theorem packageAgrees_bold : PackageStylesCarried boldCrates boldPackage := by
  have hstyle : styleIdForRpr boldCrates boldLeaf.rpr = .ok boldSegment.styleId := by
    decide +kernel
  refine (packageAgrees_iff _ _ _ _ _ enumeratePackage_bold projectDocument_bold).mp ?_
  have hmatches : Matches boldCrates boldLeaf boldSegment := ⟨rfl, rfl, hstyle⟩
  refine .cons ⟨rfl, rfl, ?_, ?_⟩ .nil
  · exact .cons hmatches .nil
  · exact ⟨rfl, rfl, by decide, rfl⟩

/-- A bold run and a plain one: the plain leaf is recorded with the bold rPr. -/
def boldThenPlain : Bytes :=
  bytes "<w:document><w:body><w:p><w:r><w:rPr><w:b/></w:rPr><w:t>a</w:t></w:r><w:r><w:t>b</w:t></w:r></w:p></w:body></w:document>"

theorem boldThenPlain_disagrees :
    ¬ ∀ crates revisionKeys package inventory projection,
      enumeratePackage crates package = .ok inventory →
      projectDocument crates revisionKeys package = .ok projection →
      PackageAgrees crates inventory projection := by
  intro h
  let crates := storedCrates 0x2423ccbb boldThenPlain
  let package := storedDocument 0x2423ccbb boldThenPlain
  let plainLeaf : ProseLeaf :=
    { boldLeaf with
      leafIndex := 1, text := ['b'], textStart := 79, textEnd := 80, openEnd := 79
      rprStart := 0, rprEnd := 0, runOpenEnd := 74 }
  let plainSegment : Segment :=
    { boldSegment with start := 1, stop := 2, text := ['b'], styleId := "s_9f5c04f8681ebd4e" }
  have hinventory : enumeratePackage crates package =
      .ok ⟨["document"], [⟨"document", "P0", ['a', 'b'], true, 2, 0⟩], [boldLeaf, plainLeaf], []⟩ := by
    simp only [crates, package]
    rw [boldThenPlain, bytes_ofList]
    decide +kernel
  have hprojection : projectDocument crates (fun _ _ => []) package =
      .ok [⟨"document", "P0", true, 2, 0, 20, 98, [boldSegment, plainSegment]⟩] := by
    simp only [crates, package]
    rw [boldThenPlain, bytes_ofList]
    decide +kernel
  have hagrees := h _ _ _ _ _ hinventory hprojection
  have hstyle : styleIdForRpr crates plainLeaf.rpr = .ok plainSegment.styleId := by
    obtain ⟨hparagraph, -⟩ := List.forall₂_cons.mp hagrees
    obtain ⟨-, hrest⟩ := List.forall₂_cons.mp hparagraph.segments
    obtain ⟨hplain, -⟩ := List.forall₂_cons.mp hrest
    exact hplain.style
  exact absurd hstyle (by decide +kernel)

end Docx2Typed
