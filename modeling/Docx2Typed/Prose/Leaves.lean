import Docx2Typed.Prose.Extract
import Mathlib.Data.List.Forall2

/-!
# What a leaf records

Every leaf the inventory reports carries the address it was found under and stands for one text
element of its part, and its text is what its byte range decodes to.
-/

namespace Docx2Typed

open List

/-- The leaf is one of the paragraph, and its text is that of its range. -/
structure Reads (ctx : ParagraphContext) (leaf : ProseLeaf) : Prop where
  partKey : leaf.partKey = ctx.partKey
  paragraphId : leaf.paragraphId = ctx.paragraphId
  text : leaf.text = decodedText (slice ctx.xml leaf.textStart leaf.textEnd)
  element : ∃ node ∈ ctx.nodes, leaf.openEnd = node.openEnd ∧
    (leaf.textStart, leaf.textEnd) = textRange node

theorem slice_self (xml : Bytes) (i : Nat) : slice xml i i = [] :=
  drop_eq_nil_of_le (length_take_le _ _)

theorem Reads.text_eq_nil {ctx : ParagraphContext} {leaf : ProseLeaf} (h : Reads ctx leaf)
    (hrange : leaf.textStart = leaf.textEnd) : leaf.text = [] := by
  rw [h.text, hrange, slice_self]
  rfl

theorem mem_of_mem_nodesAt {nodes : List ElementNode} {indices : List Nat} {node : ElementNode}
    (h : node ∈ nodesAt nodes indices) : node ∈ nodes := by
  obtain ⟨i, -, hi⟩ := mem_filterMap.mp h
  exact mem_of_getElem? hi

section Walk

variable {ctx : ParagraphContext}

theorem processRunChild_reads {run : ElementNode} {inGap : Bool} {s : RunState}
    {child : ElementNode} (hchild : child ∈ ctx.nodes)
    (h : ∀ leaf ∈ s.paragraph.leaves, Reads ctx leaf) :
    ∀ leaf ∈ (processRunChild ctx run inGap s child).paragraph.leaves, Reads ctx leaf := by
  rw [processRunChild]
  split
  · exact h
  · split
    · intro leaf hleaf
      rcases mem_append.mp hleaf with hleaf | hleaf
      · exact h leaf hleaf
      · obtain rfl := mem_singleton.mp hleaf
        exact ⟨rfl, rfl, rfl, child, hchild, rfl, rfl⟩
    · split
      · exact h
      · exact h

theorem processRun_reads {inGap : Bool} {s : ExtractState} {run : ElementNode}
    (h : ∀ leaf ∈ s.leaves, Reads ctx leaf) :
    ∀ leaf ∈ (processRun ctx inGap s run).leaves, Reads ctx leaf := by
  have hfold : ∀ (children : List ElementNode) (s : RunState), (∀ child ∈ children, child ∈ ctx.nodes) →
      (∀ leaf ∈ s.paragraph.leaves, Reads ctx leaf) →
        ∀ leaf ∈ (children.foldl (processRunChild ctx run inGap) s).paragraph.leaves,
          Reads ctx leaf := by
    intro children
    induction children with
    | nil => exact fun _ _ h => h
    | cons child rest ih =>
      intro s hmem h
      obtain ⟨hchild, hrest⟩ := forall_mem_cons.mp hmem
      exact ih _ hrest (processRunChild_reads hchild h)
  rw [processRun]
  split
  · exact hfold _ { paragraph := s } (fun _ => mem_of_mem_nodesAt) h
  · exact hfold _ { paragraph := s } (fun _ => mem_of_mem_nodesAt) h

theorem processContainer_reads : ∀ (fuel : Nat) (inGap : Bool) (s : ExtractState)
    (node : ElementNode), (∀ leaf ∈ s.leaves, Reads ctx leaf) →
      ∀ leaf ∈ (processContainer ctx fuel inGap s node).leaves, Reads ctx leaf
  | 0, _, _, _, h => h
  | fuel + 1, inGap, s, node, h => by
    rw [processContainer]
    generalize nodesAt ctx.nodes node.children = children
    induction children generalizing s with
    | nil => exact h
    | cons child rest ih =>
      refine ih _ ?_
      rw [processChild]
      split
      · exact processRun_reads h
      · split
        · exact processContainer_reads fuel _ s child h
        · split
          · exact h
          · exact h

end Walk

theorem extractParagraph_reads (ctx : ParagraphContext) (node : ElementNode) :
    ∀ leaf ∈ (extractParagraph ctx node).1, Reads ctx leaf := by
  have h : ∀ leaf ∈ (processContainer ctx ctx.nodes.length false {} node).leaves, Reads ctx leaf :=
    processContainer_reads _ _ _ _ (by simp)
  simp only [extractParagraph]
  split
  · exact h
  · intro leaf hleaf
    obtain ⟨original, hmem, rfl⟩ := mem_map.mp hleaf
    obtain ⟨hkey, hid, htext, helement⟩ := h original hmem
    exact ⟨hkey, hid, htext, helement⟩

/-! ## The inventory of a package -/

/-- What the inventory lists for a located paragraph. -/
abbrev Enumerated := ParagraphEntry × List ProseLeaf × List OpaqueBlock

section Part

variable {crates : Crates} {partKey : String} {xml : Bytes} {nodes : List ElementNode}

/-- An enumerated paragraph: its node, and what was extracted from it. -/
theorem enumerateParagraph_eq_ok {located : String × Nat × Nat} {found : Enumerated}
    (h : enumerateParagraph crates partKey xml nodes located = .ok found) :
    ∃ node, findParagraphNode nodes located.2.1 located.2.2 = some node ∧
      found.2 = extractParagraph ⟨⟨crates, xml, nodes⟩, partKey, located.1⟩ node ∧
      found.1.partKey = partKey ∧ found.1.paragraphId = located.1 ∧
      found.1.editable = decide (found.2.2 = []) ∧ found.1.leafCount = found.2.1.length ∧
      found.1.visibleText =
        (found.2.1.filter fun leaf => leaf.textStart != leaf.textEnd).flatMap (·.text) := by
  rw [enumerateParagraph] at h
  obtain hnode | ⟨node, hnode⟩ :=
    Option.eq_none_or_eq_some (findParagraphNode nodes located.2.1 located.2.2)
  · rw [hnode] at h
    exact (refuse_ne_ok h).elim
  · rw [hnode] at h
    obtain rfl := Except.ok.inj h
    exact ⟨node, hnode, rfl, rfl, rfl, rfl, rfl, rfl⟩

end Part

section Package

variable {crates : Crates} {parts : PartMap}

theorem enumeratePart_eq_ok {partKey : String} {found : List Enumerated}
    (h : enumeratePart crates parts partKey = .ok found) :
    ∃ xml nodes located, parts.lookup partKey = some xml ∧ buildTree (scanTags xml) = .ok nodes ∧
      locateParagraphs partKey xml = .ok located ∧
      List.Forall₂ (fun place entry =>
        enumerateParagraph crates partKey xml nodes place = .ok entry) located found := by
  obtain ⟨xml, hxml, h⟩ := bind_eq_ok h
  obtain ⟨nodes, hnodes, h⟩ := bind_eq_ok h
  obtain ⟨located, hlocated, h⟩ := bind_eq_ok h
  exact ⟨xml, nodes, located, expect_eq_ok_iff.mp hxml, hnodes, hlocated, mapM_eq_ok h⟩

/-- A leaf of the inventory is read from a text element of its part. -/
theorem enumerateParts_leaf {inventory : ProseInventory}
    (h : enumerateParts crates parts = .ok inventory) {leaf : ProseLeaf}
    (hleaf : leaf ∈ inventory.leaves) :
    ∃ xml nodes, parts.lookup leaf.partKey = some xml ∧ buildTree (scanTags xml) = .ok nodes ∧
      Reads ⟨⟨crates, xml, nodes⟩, leaf.partKey, leaf.paragraphId⟩ leaf := by
  obtain ⟨found, hfound, h⟩ := bind_eq_ok h
  obtain rfl := Except.ok.inj h
  obtain ⟨entry, hentry, hleaf⟩ := mem_flatMap.mp hleaf
  obtain ⟨paragraphs, hparagraphs, hentry⟩ := mem_flatten.mp hentry
  obtain ⟨partKey, -, hpart⟩ := exists_of_forall₂_of_mem (mapM_eq_ok hfound) hparagraphs
  obtain ⟨xml, nodes, located, hxml, hnodes, -, hentries⟩ := enumeratePart_eq_ok hpart
  obtain ⟨place, -, hplace⟩ := exists_of_forall₂_of_mem hentries hentry
  obtain ⟨node, -, hextract, -⟩ := enumerateParagraph_eq_ok hplace
  rw [hextract] at hleaf
  have hreads := extractParagraph_reads _ _ leaf hleaf
  obtain rfl : leaf.partKey = partKey := hreads.partKey
  obtain hid : leaf.paragraphId = place.1 := hreads.paragraphId
  rw [← hid] at hreads
  exact ⟨xml, nodes, hxml, hnodes, hreads⟩

end Package

end Docx2Typed
