import Docx2Typed.Prose.Structure
import Docx2Typed.Prose.Leaves
import Docx2Typed.XmlWalker.Tree

/-!
# What a new paragraph inherits

`safe_property_block` takes a block of properties through an allowlist.  `carriedBlock` is what a
block should come to; `renderNewParagraph_carries_iff` says when a new paragraph comes to that.  The
lists of the paragraph's own properties are handed down to the properties of its mark, so of those
only the few pass that are in both lists.
-/

namespace Docx2Typed

open List

/-! ## Blocks that are let through -/

section Block

variable (allow refused : List String)

/-- Every property is in one of the lists. -/
def Listed (nodes : List ElementNode) (node : ElementNode) : Prop :=
  ∀ child ∈ nodesAt nodes node.children, child.name ∈ allow ∨ child.name ∈ refused

/-- The root of an element that is read by itself. -/
def ParsesAs (xml : Bytes) (nodes : List ElementNode) (root : ElementNode) : Prop :=
  buildTree (scanTags xml) = .ok nodes ∧ nodes.head? = some root

/-- What a child of a `numPr` may be. -/
def NumPrPasses (nodes : List ElementNode) (child : ElementNode) : Prop :=
  ∀ reference ∈ nodesAt nodes child.children,
    reference.name ∈ keptNumPrChildren ∨ reference.name ∈ droppedNumPrChildren

/-- The checks that a block passes, child by child. -/
def BlockPasses : Nat → Bytes → List ElementNode → ElementNode → Prop
  | 0, _, _, _ => False
  | fuel + 1, xml, nodes, node => ∀ child ∈ nodesAt nodes node.children,
    child.name ∈ refused ∨
    (child.name = "rPr" ∧ ∃ inner,
      buildTree (scanTags (slice xml child.openStart child.stop)) = .ok inner ∧
        ∀ root, inner.head? = some root →
          BlockPasses fuel (slice xml child.openStart child.stop) inner root) ∨
    (child.name = "numPr" ∧ NumPrPasses nodes child) ∨
    (child.name ≠ "rPr" ∧ child.name ≠ "numPr" ∧ child.name ∈ allow)

/-! ## What a block should come to -/

/-- A block without the children that are refused. -/
def carriedBlock (carry : ElementNode → Bytes) (xml : Bytes) (nodes : List ElementNode)
    (node : ElementNode) : Bytes :=
  slice xml node.openStart node.openEnd ++
    ((nodesAt nodes node.children).filter (·.name ∉ refused)).flatMap carry ++
    (if node.selfClosing then [] else slice xml node.closeStart node.stop)

end Block

/-- The bytes of an element. -/
def verbatim (xml : Bytes) (node : ElementNode) : Bytes := slice xml node.openStart node.stop

/-- The properties of a run. -/
def carriedRun (xml : Bytes) (nodes : List ElementNode) (node : ElementNode) : Bytes :=
  carriedBlock refusedRprChildren (verbatim xml) xml nodes node

/-- The properties of a run, or of a paragraph mark, that are read by themselves. -/
def carriedElement (xml : Bytes) : Bytes :=
  match buildTree (scanTags xml) with
  | .error _ => []
  | .ok nodes =>
    match nodes.head? with
    | some root => carriedRun xml nodes root
    | none => []

/-- A reference to the numbering, without the revisions within. -/
def carriedNumPr (xml : Bytes) (nodes : List ElementNode) (child : ElementNode) : Bytes :=
  if child.selfClosing then verbatim xml child
  else
    slice xml child.openStart child.openEnd ++
      ((nodesAt nodes child.children).filter (·.name ∉ droppedNumPrChildren)).flatMap
        (verbatim xml) ++
      slice xml child.closeStart child.stop

/-- One property of a paragraph; those of its mark are those of a run. -/
def carriedChild (xml : Bytes) (nodes : List ElementNode) (child : ElementNode) : Bytes :=
  if child.name = "rPr" then carriedElement (verbatim xml child)
  else if child.name = "numPr" then carriedNumPr xml nodes child
  else verbatim xml child

/-- The properties of a paragraph. -/
def carriedParagraph (xml : Bytes) (nodes : List ElementNode) (node : ElementNode) : Bytes :=
  carriedBlock refusedPprChildren (carriedChild xml nodes) xml nodes node

variable {carry : ElementNode → Bytes} {child : ElementNode} {fuel : Nat} {name : String}
  {node : ElementNode} {nodes : List ElementNode} {xml : Bytes}

section Blocks

variable {allow refused : List String} {what : String}

theorem numPrChild_ok_iff {xml : Bytes} {child : ElementNode} :
    (∃ out, numPrChild what xml child = .ok out) ↔
      child.name ∈ keptNumPrChildren ∨ child.name ∈ droppedNumPrChildren := by
  rw [numPrChild]
  split
  next hkept => exact iff_of_true ⟨_, rfl⟩ (.inl hkept)
  next hkept =>
    split
    next hdropped => exact iff_of_true ⟨_, rfl⟩ (.inr hdropped)
    next hdropped =>
      refine iff_of_false (fun ⟨out, h⟩ => refuse_ne_ok h) ?_
      rintro (h | h)
      · exact hkept h
      · exact hdropped h

theorem propertyChild_ok_iff {recurse : Bytes → List ElementNode → ElementNode → Outcome Bytes} :
    (∃ out, propertyChild allow refused what recurse xml nodes child = .ok out) ↔
      child.name ∈ refused ∨
      (child.name = "rPr" ∧ ∃ inner,
        buildTree (scanTags (slice xml child.openStart child.stop)) = .ok inner ∧
          ∀ root, inner.head? = some root →
            ∃ out, recurse (slice xml child.openStart child.stop) inner root = .ok out) ∨
      (child.name = "numPr" ∧ NumPrPasses nodes child) ∨
      (child.name ≠ "rPr" ∧ child.name ≠ "numPr" ∧ child.name ∈ allow) := by
  rw [propertyChild]
  by_cases hrefused : child.name ∈ refused
  · rw [if_pos hrefused]
    exact iff_of_true ⟨_, rfl⟩ (.inl hrefused)
  rw [if_neg hrefused, or_iff_right hrefused]
  by_cases hrpr : child.name = "rPr"
  · have hnum : child.name ≠ "numPr" := by
      rw [hrpr]
      decide
    simp only [hrpr, if_true, true_and, ne_eq, not_true, false_and, or_false]
    rw [or_iff_left (fun h => absurd h.1 (by decide))]
    constructor
    · rintro ⟨out, h⟩
      obtain ⟨inner, hinner, h⟩ := bind_eq_ok h
      refine ⟨inner, hinner, fun root hroot => ⟨out, ?_⟩⟩
      rwa [hroot] at h
    · rintro ⟨inner, hinner, h⟩
      rw [bind_ok hinner]
      cases hroot : inner.head? with
      | none => exact ⟨_, rfl⟩
      | some root => exact h root hroot
  rw [if_neg hrpr, or_iff_right (fun h => hrpr h.1)]
  by_cases hnum : child.name = "numPr"
  · rw [if_pos hnum, or_iff_left (fun h => h.2.1 hnum), and_iff_right hnum, NumPrPasses]
    simp only [← @numPrChild_ok_iff what xml]
    rw [← mapM_ok_iff]
    constructor
    · rintro ⟨out, h⟩
      obtain ⟨kept, hkept, -⟩ := bind_eq_ok h
      exact ⟨kept, hkept⟩
    · rintro ⟨kept, hkept⟩
      rw [bind_ok hkept]
      split <;> exact ⟨_, rfl⟩
  rw [if_neg hnum, or_iff_right (fun h => hnum h.1), and_iff_right hrpr, and_iff_right hnum]
  split
  next hallow => exact iff_of_false (fun ⟨out, h⟩ => refuse_ne_ok h) hallow
  next hallow => exact iff_of_true ⟨_, rfl⟩ (not_not.mp hallow)

theorem safePropertyBlockFuel_ok_iff : ∀ {fuel : Nat} {xml : Bytes} {nodes : List ElementNode}
    {node : ElementNode},
    (∃ out, safePropertyBlockFuel allow refused what fuel xml nodes node = .ok out) ↔
      BlockPasses allow refused fuel xml nodes node
  | 0, _, _, _ => iff_of_false (fun ⟨_, h⟩ => by cases h) id
  | fuel + 1, xml, nodes, node => by
    have hchildren : (∃ out, safePropertyBlockFuel allow refused what (fuel + 1) xml nodes node =
        .ok out) ↔ ∃ children, (nodesAt nodes node.children).mapM
          (propertyChild allow refused what (safePropertyBlockFuel allow refused what fuel) xml
            nodes) = .ok children := by
      rw [safePropertyBlockFuel]
      constructor
      · rintro ⟨out, h⟩
        obtain ⟨children, hchildren, -⟩ := bind_eq_ok h
        exact ⟨children, hchildren⟩
      · rintro ⟨children, hchildren⟩
        exact ⟨_, by rw [bind_ok hchildren]; rfl⟩
    rw [hchildren, mapM_ok_iff, BlockPasses]
    simp only [propertyChild_ok_iff, safePropertyBlockFuel_ok_iff]

theorem flatten_map_ite : ∀ nodes : List ElementNode,
    (nodes.map fun child => if child.name ∈ refused then [] else carry child).flatten =
      (nodes.filter (·.name ∉ refused)).flatMap carry
  | [] => rfl
  | child :: rest => by
    rw [map_cons, flatten_cons, flatten_map_ite rest]
    by_cases hrefused : child.name ∈ refused
    · rw [if_pos hrefused, filter_cons_of_neg (by simpa using hrefused), nil_append]
    · rw [if_neg hrefused, filter_cons_of_pos (by simpa using hrefused), flatMap_cons]

theorem safePropertyBlockFuel_eq_carriedBlock {refused' : List String}
    (h : ∀ child ∈ nodesAt nodes node.children,
      propertyChild allow refused what (safePropertyBlockFuel allow refused what fuel) xml nodes
        child = .ok (if child.name ∈ refused' then [] else carry child)) :
    safePropertyBlockFuel allow refused what (fuel + 1) xml nodes node =
      .ok (carriedBlock refused' carry xml nodes node) := by
  rw [safePropertyBlockFuel, bind_ok (mapM_eq_map h), flatten_map_ite]
  rfl

/-! ## The properties of a run -/

section

variable (h : name ∈ safeRprChildren ∨ name ∈ refusedRprChildren)

include h

theorem plain_of_listedRpr : name ≠ "rPr" ∧ name ≠ "numPr" := by
  have hall : ∀ name ∈ safeRprChildren ++ refusedRprChildren, name ≠ "rPr" ∧ name ≠ "numPr" := by
    decide
  exact hall name (mem_append.mpr h)

/-- The lists of the paragraph agree with those of the run where they decide. -/
theorem refusedRpr_of_refusedPpr (hrefused : name ∈ refusedPprChildren) :
    name ∈ refusedRprChildren := by
  have hall : ∀ name ∈ safeRprChildren ++ refusedRprChildren, name ∈ refusedPprChildren →
      name ∈ refusedRprChildren := by
    decide
  exact hall name (mem_append.mpr h) hrefused

end

theorem not_refusedRpr_of_safePpr (h : name ∈ safePprChildren) : name ∉ refusedRprChildren := by
  have hall : ∀ name ∈ safePprChildren, name ∉ refusedRprChildren := by decide
  exact hall name h

section

variable (hlisted : Listed safeRprChildren refusedRprChildren nodes node)

include hlisted

theorem runBlock_eq :
    safePropertyBlockFuel safeRprChildren refusedRprChildren what (fuel + 1) xml nodes node =
      .ok (carriedRun xml nodes node) := by
  refine safePropertyBlockFuel_eq_carriedBlock fun child hchild => ?_
  obtain ⟨hrpr, hnum⟩ := plain_of_listedRpr (hlisted child hchild)
  rw [propertyChild, if_neg hrpr, if_neg hnum]
  by_cases hrefused : child.name ∈ refusedRprChildren
  · rw [if_pos hrefused, if_pos hrefused]
  · rw [if_neg hrefused, if_neg hrefused,
      if_neg (not_not.mpr ((hlisted child hchild).resolve_right hrefused))]
    rfl

/-- The properties of a mark pass where they are in the lists of the paragraph as well. -/
theorem markBlock_eq (hpasses : Listed safePprChildren refusedPprChildren nodes node) :
    safePropertyBlockFuel safePprChildren refusedPprChildren what (fuel + 1) xml nodes node =
      .ok (carriedRun xml nodes node) := by
  refine safePropertyBlockFuel_eq_carriedBlock fun child hchild => ?_
  obtain ⟨hrpr, hnum⟩ := plain_of_listedRpr (hlisted child hchild)
  rw [propertyChild, if_neg hrpr, if_neg hnum]
  by_cases hrefused : child.name ∈ refusedPprChildren
  · rw [if_pos hrefused, if_pos (refusedRpr_of_refusedPpr (hlisted child hchild) hrefused)]
  · have hallow := (hpasses child hchild).resolve_right hrefused
    rw [if_neg hrefused, if_neg (not_refusedRpr_of_safePpr hallow), if_neg (not_not.mpr hallow)]
    rfl

theorem markBlock_ok_iff :
    (∃ out, safePropertyBlockFuel safePprChildren refusedPprChildren what (fuel + 1) xml nodes
      node = .ok out) ↔ Listed safePprChildren refusedPprChildren nodes node := by
  refine ⟨fun h child hchild => ?_, fun h => ⟨_, markBlock_eq hlisted h⟩⟩
  obtain ⟨hrpr, hnum⟩ := plain_of_listedRpr (hlisted child hchild)
  rcases safePropertyBlockFuel_ok_iff.mp h child hchild with h | h | h | h
  · exact .inr h
  · exact absurd h.1 hrpr
  · exact absurd h.1 hnum
  · exact .inl h.2.2

end

/-! ## The properties of a paragraph -/

/-- What is made of one property of a paragraph. -/
def takenChild (xml : Bytes) (nodes : List ElementNode) (child : ElementNode) : Bytes :=
  if child.name = "rPr" then carriedElement (verbatim xml child)
  else if child.name = "numPr" then
    if child.selfClosing then [] else carriedNumPr xml nodes child
  else verbatim xml child

theorem takenChild_eq (h : child.name = "numPr" → child.selfClosing = false) :
    takenChild xml nodes child = carriedChild xml nodes child := by
  rw [takenChild, carriedChild]
  by_cases hnum : child.name = "numPr"
  · rw [h hnum]
    rfl
  · rw [if_neg hnum, if_neg hnum]

theorem takenChild_or (xml : Bytes) (nodes : List ElementNode) (child : ElementNode) :
    takenChild xml nodes child = carriedChild xml nodes child ∨ takenChild xml nodes child = [] := by
  by_cases h : child.name = "numPr" → child.selfClosing = false
  · exact .inl (takenChild_eq h)
  · obtain ⟨hnum, hself⟩ := Classical.not_imp.mp h
    have hrpr : child.name ≠ "rPr" := by
      rw [hnum]
      decide
    rw [Bool.not_eq_false] at hself
    right
    rw [takenChild, if_neg hrpr, if_pos hnum, if_pos hself]

theorem length_flatMap_le {f g : ElementNode → Bytes} : ∀ {nodes : List ElementNode},
    (∀ node ∈ nodes, f node = g node ∨ f node = []) →
      (nodes.flatMap f).length ≤ (nodes.flatMap g).length ∧
        ((nodes.flatMap f).length = (nodes.flatMap g).length →
          ∀ node ∈ nodes, (f node).length = (g node).length)
  | [], _ => ⟨Nat.le_refl _, by simp⟩
  | node :: rest, h => by
    obtain ⟨hnode, hrest⟩ := forall_mem_cons.mp h
    obtain ⟨hle, heq⟩ := length_flatMap_le hrest
    have hhere : (f node).length ≤ (g node).length := by
      rcases hnode with hnode | hnode
      · rw [hnode]
      · rw [hnode]
        exact Nat.zero_le _
    rw [flatMap_cons, flatMap_cons, length_append, length_append]
    refine ⟨by omega, fun hsame => forall_mem_cons.mpr ⟨by omega, heq (by omega)⟩⟩

theorem length_flatMap_eq_iff {f g : ElementNode → Bytes}
    (h : ∀ node ∈ nodes, f node = g node ∨ f node = []) :
    (nodes.flatMap f).length = (nodes.flatMap g).length ↔
      ∀ node ∈ nodes, (f node).length = (g node).length := by
  refine ⟨(length_flatMap_le h).2, fun hall => ?_⟩
  rw [length_flatMap, length_flatMap]
  exact congrArg List.sum (map_congr_left hall)

/-- The properties of a mark are all known as those of a run. -/
def MarkListed (xml : Bytes) (child : ElementNode) : Prop :=
  child.name = "rPr" → ∀ inner mark, ParsesAs (verbatim xml child) inner mark →
    Listed safeRprChildren refusedRprChildren inner mark

/-- What is asked of a `numPr` and of the properties of a mark. -/
def ChildPasses (xml : Bytes) (nodes : List ElementNode) (child : ElementNode) : Prop :=
  (child.name = "numPr" → NumPrPasses nodes child) ∧
  (child.name = "rPr" → ∃ inner, buildTree (scanTags (verbatim xml child)) = .ok inner ∧
    ∀ mark, inner.head? = some mark → Listed safePprChildren refusedPprChildren inner mark)

theorem plain_of_refusedPpr (h : name ∈ refusedPprChildren) : name ≠ "rPr" ∧ name ≠ "numPr" := by
  have hall : ∀ name ∈ refusedPprChildren, name ≠ "rPr" ∧ name ≠ "numPr" := by decide
  exact hall name h

theorem numPrChild_eq (h : child.name ∈ keptNumPrChildren ∨ child.name ∈ droppedNumPrChildren) :
    numPrChild what xml child =
      .ok (if child.name ∈ droppedNumPrChildren then [] else verbatim xml child) := by
  have hapart : ∀ name ∈ keptNumPrChildren, name ∉ droppedNumPrChildren := by decide
  rw [numPrChild]
  by_cases hkept : child.name ∈ keptNumPrChildren
  · rw [if_pos hkept, if_neg (hapart _ hkept)]
    rfl
  · have hdropped := h.resolve_left hkept
    rw [if_neg hkept, if_pos hdropped, if_pos hdropped]

section Child

variable {fuel : Nat} {xml : Bytes} {nodes : List ElementNode} {child : ElementNode}

section

variable (hlisted : child.name ∈ safePprChildren ∨ child.name ∈ refusedPprChildren)

include hlisted

theorem pprChild_ok_iff (hmark : MarkListed xml child) :
    (∃ out, propertyChild safePprChildren refusedPprChildren what
      (safePropertyBlockFuel safePprChildren refusedPprChildren what (fuel + 1)) xml nodes child =
        .ok out) ↔ ChildPasses xml nodes child := by
  rw [propertyChild_ok_iff, ChildPasses]
  by_cases hrefused : child.name ∈ refusedPprChildren
  · obtain ⟨hrpr, hnum⟩ := plain_of_refusedPpr hrefused
    exact iff_of_true (.inl hrefused) ⟨fun h => absurd h hnum, fun h => absurd h hrpr⟩
  have hsafe := hlisted.resolve_right hrefused
  rw [or_iff_right hrefused]
  by_cases hrpr : child.name = "rPr"
  · have hnum : child.name ≠ "numPr" := by
      rw [hrpr]
      decide
    rw [or_iff_left (fun h => h.elim (fun h => hnum h.1) fun h => h.1 hrpr),
      and_iff_right hrpr, and_iff_right (fun h => absurd h hnum)]
    have hread : ∀ inner, buildTree (scanTags (verbatim xml child)) = .ok inner →
        ∀ mark, inner.head? = some mark →
          ((∃ out, safePropertyBlockFuel safePprChildren refusedPprChildren what (fuel + 1)
            (slice xml child.openStart child.stop) inner mark = .ok out) ↔
              Listed safePprChildren refusedPprChildren inner mark) :=
      fun inner hinner mark hhead => markBlock_ok_iff (hmark hrpr inner mark ⟨hinner, hhead⟩)
    constructor
    · rintro ⟨inner, hinner, h⟩ -
      exact ⟨inner, hinner, fun mark hhead => (hread inner hinner mark hhead).mp (h mark hhead)⟩
    · intro h
      obtain ⟨inner, hinner, h⟩ := h hrpr
      exact ⟨inner, hinner, fun mark hhead => (hread inner hinner mark hhead).mpr (h mark hhead)⟩
  rw [or_iff_right (fun h => hrpr h.1), and_iff_left (fun h => absurd h hrpr)]
  by_cases hnum : child.name = "numPr"
  · rw [or_iff_left (fun h => h.2.1 hnum), and_iff_right hnum]
    exact ⟨fun h _ => h, fun h => h hnum⟩
  · exact iff_of_true (.inr ⟨hrpr, hnum, hsafe⟩) fun h => absurd h hnum

theorem pprChild_eq (hmark : MarkListed xml child) (hpasses : ChildPasses xml nodes child) :
    propertyChild safePprChildren refusedPprChildren what
        (safePropertyBlockFuel safePprChildren refusedPprChildren what (fuel + 1)) xml nodes child =
      .ok (if child.name ∈ refusedPprChildren then [] else takenChild xml nodes child) := by
  rw [propertyChild]
  by_cases hrefused : child.name ∈ refusedPprChildren
  · rw [if_pos hrefused, if_pos hrefused]
  rw [if_neg hrefused, if_neg hrefused, takenChild]
  by_cases hrpr : child.name = "rPr"
  · obtain ⟨inner, hinner, hpass⟩ := hpasses.2 hrpr
    have hcarried : carriedElement (verbatim xml child) =
        match inner.head? with
        | some mark => carriedRun (verbatim xml child) inner mark
        | none => [] := by
      rw [carriedElement, hinner]
    rw [if_pos hrpr, if_pos hrpr, hcarried]
    rw [verbatim] at hinner
    rw [bind_ok hinner]
    cases hhead : inner.head? with
    | none => rfl
    | some mark => exact markBlock_eq (hmark hrpr inner mark ⟨hinner, hhead⟩) (hpass mark hhead)
  rw [if_neg hrpr, if_neg hrpr]
  by_cases hnum : child.name = "numPr"
  · have hreferences : (nodesAt nodes child.children).mapM (numPrChild what xml) =
        .ok ((nodesAt nodes child.children).map fun reference =>
          if reference.name ∈ droppedNumPrChildren then [] else verbatim xml reference) :=
      mapM_eq_map fun reference hreference => numPrChild_eq (hpasses.1 hnum reference hreference)
    rw [if_pos hnum, if_pos hnum, bind_ok hreferences, flatten_map_ite, carriedNumPr]
    cases child.selfClosing <;> rfl
  · rw [if_neg hnum, if_neg hnum,
      if_neg (not_not.mpr (hlisted.resolve_right hrefused))]
    rfl

end

end Child

end Blocks

/-! ## The new paragraph -/

/-- The properties of a paragraph, if it has any. -/
def pprOf (nodes : List ElementNode) (root : ElementNode) : Option ElementNode :=
  (nodesAt nodes root.children).find? fun child => child.name == "pPr"

/-- The opening tag of the inherited paragraph, kept open. -/
def openingOf (inherit : Bytes) (root : ElementNode) : Bytes :=
  if root.selfClosing then (inherit.take root.openEnd).dropLast else inherit.take root.openEnd

/-- What the new paragraph should carry of the paragraph's properties and of the run's. -/
def carriedPpr (inherit : Bytes) (nodes : List ElementNode) (root : ElementNode) : Bytes :=
  match pprOf nodes root with
  | some ppr => carriedParagraph inherit nodes ppr
  | none => []

def carriedRpr (rpr : Text) : Bytes := if rpr = [] then [] else carriedElement (utf8 rpr)

/-- What must not be carried at any depth. -/
def revisionNames : List String :=
  ["sectPr", "pPrChange", "rPrChange", "ins", "del", "moveFrom", "moveTo"]

def FreeOfRevisions (properties : Bytes) : Prop :=
  ∀ tag ∈ scanTags properties, tag.name ∉ revisionNames

/-- Every property of the inherited paragraph, of its mark and of its first run is in a list. -/
structure AllListed (inherit : Bytes) (nodes : List ElementNode) (root : ElementNode)
    (rpr : Text) : Prop where
  paragraph : ∀ ppr, pprOf nodes root = some ppr →
    Listed safePprChildren refusedPprChildren nodes ppr
  mark : ∀ ppr, pprOf nodes root = some ppr → ∀ child ∈ nodesAt nodes ppr.children,
    MarkListed inherit child
  run : rpr ≠ [] → ∀ inner run, ParsesAs (utf8 rpr) inner run →
    Listed safeRprChildren refusedRprChildren inner run

section Inherited

variable (part : Bytes) (leaves : List ProseLeaf) (located : List (String × Nat × Nat))
  (paragraph : NewParagraph) (inherit : Bytes) (nodes : List ElementNode) (root : ElementNode)

/-- Where every property is in a list, the new paragraph carries what is allowed and nothing that is
refused; a property in no list is refused. -/
def CarriesProperties : Prop :=
  let rpr := leafRpr leaves (String.ofList paragraph.inherit)
  (AllListed inherit nodes root rpr →
    renderNewParagraph part leaves located paragraph =
        .ok (paragraphBytes (openingOf inherit root) (carriedPpr inherit nodes root)
          (carriedRpr rpr) paragraph.body) ∧
      FreeOfRevisions (carriedPpr inherit nodes root) ∧
      (paragraph.body ≠ [] → FreeOfRevisions (carriedRpr rpr))) ∧
  (¬ AllListed inherit nodes root rpr →
    ¬ ∃ out, renderNewParagraph part leaves located paragraph = .ok out)

/-- The mark's properties are in the lists of the paragraph too, each `numPr` has references and
nothing else, and no revision stands within what is carried; where a property is in no list, a
block has one that does not pass. -/
def PropertiesPass : Prop :=
  let rpr := leafRpr leaves (String.ofList paragraph.inherit)
  (AllListed inherit nodes root rpr →
    (∀ ppr, pprOf nodes root = some ppr → ∀ child ∈ nodesAt nodes ppr.children,
      ChildPasses inherit nodes child ∧ (child.name = "numPr" → child.selfClosing = false)) ∧
    (rpr ≠ [] → ∃ inner, buildTree (scanTags (utf8 rpr)) = .ok inner) ∧
    FreeOfRevisions (carriedPpr inherit nodes root) ∧
    (paragraph.body ≠ [] → FreeOfRevisions (carriedRpr rpr))) ∧
  (¬ AllListed inherit nodes root rpr →
    ¬ ((∀ ppr, pprOf nodes root = some ppr →
        BlockPasses safePprChildren refusedPprChildren (inherit.length + 1) inherit nodes ppr) ∧
      (rpr ≠ [] → ∃ inner, buildTree (scanTags (utf8 rpr)) = .ok inner ∧
        ∀ run, inner.head? = some run →
          BlockPasses safeRprChildren refusedRprChildren ((utf8 rpr).length + 1) (utf8 rpr) inner
            run)))

end Inherited

section Render

variable {part : Bytes} {leaves : List ProseLeaf} {located : List (String × Nat × Nat)}
  {paragraph : NewParagraph} {inherit : Bytes} {nodes : List ElementNode} {root : ElementNode}
  {what : String} {rpr : Text}

theorem paragraphProperties_ok_iff :
    (∃ out, paragraphProperties what inherit nodes root = .ok out) ↔
      ∀ ppr, pprOf nodes root = some ppr →
        BlockPasses safePprChildren refusedPprChildren (inherit.length + 1) inherit nodes ppr := by
  rw [paragraphProperties, ← pprOf]
  cases pprOf nodes root with
  | none => exact iff_of_true ⟨_, rfl⟩ (by simp)
  | some ppr =>
    simp only [Option.some.injEq, forall_eq']
    exact safePropertyBlockFuel_ok_iff

theorem runProperties_ok_iff :
    (∃ out, runProperties what rpr = .ok out) ↔
      (rpr ≠ [] → ∃ inner, buildTree (scanTags (utf8 rpr)) = .ok inner ∧
        ∀ run, inner.head? = some run →
          BlockPasses safeRprChildren refusedRprChildren ((utf8 rpr).length + 1) (utf8 rpr) inner
            run) := by
  rw [runProperties]
  by_cases hempty : rpr = []
  · rw [if_pos hempty]
    exact iff_of_true ⟨_, rfl⟩ fun h => absurd hempty h
  rw [if_neg hempty]
  constructor
  · rintro ⟨out, h⟩ -
    obtain ⟨inner, hinner, h⟩ := bind_eq_ok h
    refine ⟨inner, hinner, fun run hrun => ?_⟩
    rw [hrun] at h
    exact safePropertyBlockFuel_ok_iff.mp ⟨out, h⟩
  · intro h
    obtain ⟨inner, hinner, h⟩ := h hempty
    rw [bind_ok hinner]
    cases hrun : inner.head? with
    | none => exact ⟨_, rfl⟩
    | some run => exact safePropertyBlockFuel_ok_iff.mpr (h run hrun)

/-- The run's properties come through whole where they are all listed. -/
theorem runProperties_eq (hlisted : rpr ≠ [] → ∀ inner run, ParsesAs (utf8 rpr) inner run →
      Listed safeRprChildren refusedRprChildren inner run)
    (hread : rpr ≠ [] → ∃ inner, buildTree (scanTags (utf8 rpr)) = .ok inner) :
    runProperties what rpr = .ok (carriedRpr rpr) := by
  rw [runProperties, carriedRpr]
  by_cases hempty : rpr = []
  · rw [if_pos hempty, if_pos hempty]
  obtain ⟨inner, hinner⟩ := hread hempty
  rw [if_neg hempty, if_neg hempty, bind_ok hinner, carriedElement, hinner]
  simp only
  cases hrun : inner.head? with
  | none => rfl
  | some run => exact runBlock_eq (hlisted hempty inner run ⟨hinner, hrun⟩)

/-- What is made of the properties of a paragraph. -/
def takenPpr (inherit : Bytes) (nodes : List ElementNode) (root : ElementNode) : Bytes :=
  match pprOf nodes root with
  | some ppr => carriedBlock refusedPprChildren (takenChild inherit nodes) inherit nodes ppr
  | none => []

section Paragraph

variable (hnodes : buildTree (scanTags inherit) = .ok nodes)
  (hall : AllListed inherit nodes root rpr)

include hnodes

theorem pprOf_mem {ppr : ElementNode} (h : pprOf nodes root = some ppr) :
    ppr ∈ nodes ∧ ∃ k, inherit.length = k + 1 := by
  have hmem := mem_of_mem_nodesAt (mem_of_find?_eq_some h)
  have hlies := (buildTree_geometry hnodes).1 ppr hmem
  have hopen := hlies.openTag
  have hcontent := hlies.content
  have hclose := hlies.closeTag
  have hstop := hlies.stop
  exact ⟨hmem, inherit.length - 1, by omega⟩

include hall

theorem paragraphProperties_listed_ok_iff :
    (∃ out, paragraphProperties what inherit nodes root = .ok out) ↔
      ∀ ppr, pprOf nodes root = some ppr → ∀ child ∈ nodesAt nodes ppr.children,
        ChildPasses inherit nodes child := by
  rw [paragraphProperties, ← pprOf]
  cases hppr : pprOf nodes root with
  | none => exact iff_of_true ⟨_, rfl⟩ (by simp)
  | some ppr =>
    obtain ⟨-, k, hk⟩ := pprOf_mem hnodes hppr
    simp only [Option.some.injEq, forall_eq']
    have hblock : (∃ out, safePropertyBlock safePprChildren refusedPprChildren what inherit nodes
        ppr = .ok out) ↔ ∃ children, (nodesAt nodes ppr.children).mapM (propertyChild
          safePprChildren refusedPprChildren what (safePropertyBlockFuel safePprChildren
            refusedPprChildren what (k + 1)) inherit nodes) = .ok children := by
      rw [safePropertyBlock, hk, safePropertyBlockFuel]
      constructor
      · rintro ⟨out, h⟩
        obtain ⟨children, hchildren, -⟩ := bind_eq_ok h
        exact ⟨children, hchildren⟩
      · rintro ⟨children, hchildren⟩
        exact ⟨_, by rw [bind_ok hchildren]; rfl⟩
    rw [hblock, mapM_ok_iff]
    exact forall₂_congr fun child hchild =>
      pprChild_ok_iff (hall.paragraph ppr hppr child hchild) (hall.mark ppr hppr child hchild)

theorem paragraphProperties_listed_eq
    (hpasses : ∀ ppr, pprOf nodes root = some ppr → ∀ child ∈ nodesAt nodes ppr.children,
      ChildPasses inherit nodes child) :
    paragraphProperties what inherit nodes root = .ok (takenPpr inherit nodes root) := by
  rw [paragraphProperties, ← pprOf, takenPpr]
  cases hppr : pprOf nodes root with
  | none => rfl
  | some ppr =>
    obtain ⟨-, k, hk⟩ := pprOf_mem hnodes hppr
    simp only
    rw [safePropertyBlock, hk]
    exact safePropertyBlockFuel_eq_carriedBlock fun child hchild =>
      pprChild_eq (hall.paragraph ppr hppr child hchild) (hall.mark ppr hppr child hchild)
        (hpasses ppr hppr child hchild)

omit hall

theorem length_verbatim_pos (h : node ∈ nodes) : 0 < (verbatim inherit node).length := by
  have hlies := (buildTree_geometry hnodes).1 node h
  have hopen := hlies.openTag
  have hcontent := hlies.content
  have hclose := hlies.closeTag
  have hstop := hlies.stop
  rw [verbatim, slice, length_drop, length_take]
  omega

/-- Only a `numPr` that closes itself is lost. -/
theorem length_takenPpr_eq_iff :
    (takenPpr inherit nodes root).length = (carriedPpr inherit nodes root).length ↔
      ∀ ppr, pprOf nodes root = some ppr → ∀ child ∈ nodesAt nodes ppr.children,
        child.name = "numPr" → child.selfClosing = false := by
  rw [takenPpr, carriedPpr]
  cases hppr : pprOf nodes root with
  | none => simp
  | some ppr =>
    simp only [Option.some.injEq, forall_eq']
    rw [carriedParagraph, carriedBlock, carriedBlock]
    simp only [length_append, Nat.add_right_cancel_iff, Nat.add_left_cancel_iff]
    rw [length_flatMap_eq_iff fun child _ => takenChild_or inherit nodes child]
    constructor
    · intro h child hchild hnum
      have hkept : child ∈ (nodesAt nodes ppr.children).filter (·.name ∉ refusedPprChildren) := by
        refine mem_filter.mpr ⟨hchild, decide_eq_true fun hrefused => ?_⟩
        exact (plain_of_refusedPpr hrefused).2 hnum
      have hlength := h child hkept
      have hrpr : child.name ≠ "rPr" := by
        rw [hnum]
        decide
      by_contra hself
      rw [Bool.not_eq_false] at hself
      rw [takenChild, carriedChild, if_neg hrpr, if_neg hrpr, if_pos hnum, if_pos hnum, if_pos hself,
        carriedNumPr, if_pos hself] at hlength
      exact (length_verbatim_pos hnodes (mem_of_mem_nodesAt hchild)).ne hlength
    · intro h child hchild
      rw [takenChild_eq (h child (mem_filter.mp hchild).1)]

omit hnodes

theorem takenPpr_eq
    (h : ∀ ppr, pprOf nodes root = some ppr → ∀ child ∈ nodesAt nodes ppr.children,
      child.name = "numPr" → child.selfClosing = false) :
    takenPpr inherit nodes root = carriedPpr inherit nodes root := by
  rw [takenPpr, carriedPpr]
  cases hppr : pprOf nodes root with
  | none => rfl
  | some ppr =>
    simp only
    rw [carriedParagraph, carriedBlock, carriedBlock]
    congr 2
    refine flatMap_congr fun child hchild => ?_
    exact takenChild_eq (h ppr hppr child (mem_filter.mp hchild).1)

end Paragraph

/-- The paragraph, once its properties are read. -/
theorem renderNewParagraph_eq {id : String} {start stop : Nat}
    (hfound : (located.find? fun entry => entry.1 == String.ofList paragraph.inherit) =
      some (id, start, stop))
    (hnodes : buildTree (scanTags (slice part start stop)) = .ok nodes)
    (hroot : nodes.head? = some root) (hpolicy : paragraph.formatPolicy = .safeInherit) :
    renderNewParagraph part leaves located paragraph = (do
      let ppr ← paragraphProperties (propertiesOf paragraph.inherit) (slice part start stop) nodes
        root
      let rpr ← runProperties (propertiesOf paragraph.inherit)
        (leafRpr leaves (String.ofList paragraph.inherit))
      pure (paragraphBytes (openingOf (slice part start stop) root) ppr rpr paragraph.body)) := by
  rw [renderNewParagraph, hfound]
  simp only
  rw [bind_ok hnodes, hroot]
  simp only [hpolicy, if_true]
  rfl

theorem length_paragraphBytes (opening ppr ppr' rpr : Bytes) (body : Text)
    (h : paragraphBytes opening ppr rpr body = paragraphBytes opening ppr' rpr body) :
    ppr.length = ppr'.length := by
  have hlength := congrArg List.length h
  rw [paragraphBytes, paragraphBytes] at hlength
  simp only [length_append] at hlength
  omega

/-- Where all properties are listed, the paragraph comes out whole when each of them passes. -/
theorem renderNewParagraph_listed_iff
    (hrender : renderNewParagraph part leaves located paragraph = (do
      let ppr ← paragraphProperties what inherit nodes root
      let rpr ← runProperties what rpr
      pure (paragraphBytes (openingOf inherit root) ppr rpr paragraph.body)))
    (hnodes : buildTree (scanTags inherit) = .ok nodes)
    (hall : AllListed inherit nodes root rpr) :
    renderNewParagraph part leaves located paragraph =
        .ok (paragraphBytes (openingOf inherit root) (carriedPpr inherit nodes root)
          (carriedRpr rpr) paragraph.body) ↔
      (∀ ppr, pprOf nodes root = some ppr → ∀ child ∈ nodesAt nodes ppr.children,
        ChildPasses inherit nodes child ∧ (child.name = "numPr" → child.selfClosing = false)) ∧
      (rpr ≠ [] → ∃ inner, buildTree (scanTags (utf8 rpr)) = .ok inner) := by
  rw [hrender]
  constructor
  · intro h
    obtain ⟨ppr, hppr, h⟩ := bind_eq_ok h
    obtain ⟨run, hrun, h⟩ := bind_eq_ok h
    have hread : rpr ≠ [] → ∃ inner, buildTree (scanTags (utf8 rpr)) = .ok inner := fun hne =>
      (runProperties_ok_iff.mp ⟨run, hrun⟩ hne).imp fun inner hinner => hinner.1
    have hpasses := (paragraphProperties_listed_ok_iff hnodes hall).mp ⟨ppr, hppr⟩
    rw [paragraphProperties_listed_eq hnodes hall hpasses] at hppr
    rw [runProperties_eq hall.run hread] at hrun
    obtain rfl := Except.ok.inj hppr
    obtain rfl := Except.ok.inj hrun
    have hlength := length_paragraphBytes _ _ _ _ _ (Except.ok.inj h)
    have hkept := (length_takenPpr_eq_iff hnodes).mp hlength
    exact ⟨fun ppr hppr child hchild => ⟨hpasses ppr hppr child hchild, hkept ppr hppr child hchild⟩,
      hread⟩
  · rintro ⟨h, hread⟩
    have hppr := @paragraphProperties_listed_eq inherit nodes root what rpr hnodes hall
      fun ppr hppr child hchild => (h ppr hppr child hchild).1
    rw [bind_ok hppr, bind_ok (runProperties_eq hall.run hread),
      takenPpr_eq fun ppr hppr child hchild => (h ppr hppr child hchild).2]
    rfl

end Render

/-- A new paragraph inherits what it should exactly where the properties pass. -/
theorem renderNewParagraph_carries_iff (part : Bytes) (leaves : List ProseLeaf)
    (located : List (String × Nat × Nat)) (paragraph : NewParagraph) (id : String)
    (start stop : Nat) (nodes : List ElementNode) (root : ElementNode)
    (hfound : (located.find? fun entry => entry.1 == String.ofList paragraph.inherit) =
      some (id, start, stop))
    (hnodes : buildTree (scanTags (slice part start stop)) = .ok nodes)
    (hroot : nodes.head? = some root) (hpolicy : paragraph.formatPolicy = .safeInherit) :
    CarriesProperties part leaves located paragraph (slice part start stop) nodes root ↔
      PropertiesPass leaves paragraph (slice part start stop) nodes root := by
  have hrender := @renderNewParagraph_eq part leaves located paragraph nodes root id start stop
    hfound hnodes hroot hpolicy
  refine and_congr (imp_congr_right fun hall => ?_) (imp_congr_right fun _ => not_congr ?_)
  · rw [renderNewParagraph_listed_iff hrender hnodes hall, and_assoc]
  · rw [← @paragraphProperties_ok_iff _ _ _ (propertiesOf paragraph.inherit),
      ← @runProperties_ok_iff (propertiesOf paragraph.inherit), hrender]
    constructor
    · rintro ⟨out, h⟩
      obtain ⟨ppr, hppr, h⟩ := bind_eq_ok h
      obtain ⟨rpr, hrpr, -⟩ := bind_eq_ok h
      exact ⟨⟨ppr, hppr⟩, rpr, hrpr⟩
    · rintro ⟨⟨ppr, hppr⟩, rpr, hrpr⟩
      exact ⟨_, by rw [bind_ok hppr, bind_ok hrpr]; rfl⟩

/-- A paragraph that inherits from `P0`. -/
def inheriting : NewParagraph :=
  ⟨"document".toList, "N1".toList, "P0".toList, .safeInherit, "x".toList, none⟩

/-- A centred paragraph of one run. -/
def centred : Bytes := bytes "<w:p><w:pPr><w:jc/></w:pPr><w:r><w:t>a</w:t></w:r></w:p>"

theorem renderNewParagraph_carries_centred : ∃ nodes root,
    buildTree (scanTags (slice centred 0 56)) = .ok nodes ∧ nodes.head? = some root ∧
    (CarriesProperties centred [] [("P0", 0, 56)] inheriting (slice centred 0 56) nodes root ↔
      PropertiesPass [] inheriting (slice centred 0 56) nodes root) := by
  have hnodes : (buildTree (scanTags (slice centred 0 56))).toOption.map
      (fun nodes => nodes.head?.isSome) = some true := by
    decide +kernel
  obtain ⟨nodes, hnodes, hroot⟩ := exists_ok_of_map hnodes
  obtain ⟨root, hroot⟩ := Option.isSome_iff_exists.mp hroot
  exact ⟨nodes, root, hnodes, hroot, renderNewParagraph_carries_iff centred [] [("P0", 0, 56)]
    inheriting "P0" 0 56 nodes root (by decide) hnodes hroot rfl⟩

/-- A paragraph with a bold mark. -/
def boldMarkParagraph : Bytes := bytes "<w:p><w:pPr><w:rPr><w:b/></w:rPr></w:pPr></w:p>"

theorem boldMarkParagraph_refused : ∃ nodes root,
    buildTree (scanTags (slice boldMarkParagraph 0 47)) = .ok nodes ∧ nodes.head? = some root ∧
    AllListed (slice boldMarkParagraph 0 47) nodes root [] ∧
    (∀ out, renderNewParagraph boldMarkParagraph [] [("P0", 0, 47)] inheriting ≠ .ok out) ∧
    ¬ CarriesProperties boldMarkParagraph [] [("P0", 0, 47)] inheriting
      (slice boldMarkParagraph 0 47) nodes root := by
  have hnodes : (buildTree (scanTags (slice boldMarkParagraph 0 47))).toOption.map (fun nodes =>
      nodes.head?.map fun root => (pprOf nodes root).map fun ppr =>
        (nodesAt nodes ppr.children).map fun child =>
          (child.name, verbatim (slice boldMarkParagraph 0 47) child)) =
        some (some (some [("rPr", bytes "<w:rPr><w:b/></w:rPr>")])) := by
    decide +kernel
  have hinner : (buildTree (scanTags (bytes "<w:rPr><w:b/></w:rPr>"))).toOption.map (fun inner =>
      inner.head?.map fun mark => (nodesAt inner mark.children).map (·.name)) =
        some (some ["b"]) := by
    decide +kernel
  have hrefused : (renderNewParagraph boldMarkParagraph [] [("P0", 0, 47)] inheriting).toOption =
      none := by
    decide +kernel
  obtain ⟨nodes, hnodes, hroot⟩ := exists_ok_of_map hnodes
  obtain ⟨root, hroot, hppr⟩ := Option.map_eq_some_iff.mp hroot
  obtain ⟨ppr, hppr, hchildren⟩ := Option.map_eq_some_iff.mp hppr
  obtain ⟨inner, hinner, hmark⟩ := exists_ok_of_map hinner
  obtain ⟨mark, hmark, hnames⟩ := Option.map_eq_some_iff.mp hmark
  have hchild : ∀ child ∈ nodesAt nodes ppr.children, (child.name, verbatim
      (slice boldMarkParagraph 0 47) child) = ("rPr", bytes "<w:rPr><w:b/></w:rPr>") := by
    intro child hchild
    have hmem := List.mem_map_of_mem (f := fun child : ElementNode =>
      (child.name, verbatim (slice boldMarkParagraph 0 47) child)) hchild
    rw [hchildren] at hmem
    exact List.mem_singleton.mp hmem
  have hall : AllListed (slice boldMarkParagraph 0 47) nodes root [] := by
    refine ⟨fun other hother child hmem => ?_, fun other hother child hmem _ inner' mark' hreads => ?_,
      fun h => absurd rfl h⟩
    · obtain rfl := Option.some.inj (hppr.symm.trans hother)
      rw [(Prod.mk.inj (hchild child hmem)).1]
      exact .inl (by decide)
    · obtain rfl := Option.some.inj (hppr.symm.trans hother)
      rw [(Prod.mk.inj (hchild child hmem)).2] at hreads
      obtain ⟨hinner', hhead⟩ := hreads
      obtain rfl := Except.ok.inj (hinner.symm.trans hinner')
      obtain rfl := Option.some.inj (hmark.symm.trans hhead)
      intro property hproperty
      have hmem := List.mem_map_of_mem (f := fun child : ElementNode => child.name) hproperty
      rw [hnames] at hmem
      rw [List.mem_singleton.mp hmem]
      exact .inl (by decide)
  have hnot : ∀ out, renderNewParagraph boldMarkParagraph [] [("P0", 0, 47)] inheriting ≠ .ok out :=
    fun out hout => by
      rw [hout] at hrefused
      cases hrefused
  exact ⟨nodes, root, hnodes, hroot, hall, hnot, fun h => hnot _ (h.1 hall).1⟩

end Docx2Typed
