import Docx2Typed.Prose.Leaves
import Docx2Typed.Verify.LightTree

/-!
# Property blocks in Core and in the verifier

`safePropertyBlockFuel_eq`: the verifier takes the same bytes over from a property block as Core,
where nothing in it is read differently (`AlikeBlock`).  Two things are:

* the properties of a paragraph mark (`w:rPr` in `w:pPr`), which Core takes through the lists for
  paragraph properties and the verifier through those for run properties;
* an empty `numPr`, which Core drops and the verifier keeps.
-/

namespace Docx2Typed.Verify

open Library (Forest)
open List

/-! ## Elements of a tree -/

/-- Where an element ends, and that only one that closes itself ends with its start tag. -/
theorem nodesOf_stop : ∀ {F : Forest Docx2Typed.Tag} {lo hi : Nat} {parent : Option Nat}
    {base : Nat}, F.Matched Docx2Typed.Tag.bracket → Ordered lo hi F.tokens →
      ∀ node ∈ nodesOf parent base F, (∃ tag ∈ F.tokens, tag.stop = node.stop) ∧
        (node.stop = node.openEnd ↔ node.selfClosing = true)
  | .nil, _, _, _, _, _, _ => fun _ h => by cases h
  | .leaf tag next, lo, hi, parent, base, ⟨htag, hnext⟩, h => by
    obtain ⟨-, hself⟩ := bracket_single htag
    refine forall_mem_cons.mpr ⟨⟨⟨tag, mem_cons_self, ?_⟩, ?_⟩, fun node hnode => ?_⟩
    · simp [Docx2Typed.Tag.toNode, hself]
    · simp [Docx2Typed.Tag.toNode, hself]
    · obtain ⟨⟨closing, hclosing, hstop⟩, hiff⟩ := nodesOf_stop hnext h.tail node hnode
      exact ⟨⟨closing, mem_cons_of_mem _ hclosing, hstop⟩, hiff⟩
  | .node tag children close next, lo, hi, parent, base, ⟨htag, hchildren, hnext⟩, h => by
    obtain ⟨name, hopens, -⟩ := htag
    obtain ⟨-, hself, -⟩ := bracket_opens hopens
    obtain ⟨hinner, houter⟩ := h.content
    have hclose : close ∈ children.tokens ++ close :: next.tokens :=
      mem_append_right _ mem_cons_self
    have hbehind := (pairwise_cons.mp h.apart).1 close hclose
    have hin := (h.inside close (mem_cons_of_mem _ hclose)).2.1
    refine forall_mem_cons.mpr ⟨⟨⟨close, mem_cons_of_mem _ hclose, rfl⟩, ?_⟩, ?_⟩
    · have hopenEnd : (elementNode parent base tag children close).openEnd = tag.stop := rfl
      have hstop : (elementNode parent base tag children close).stop = close.stop := rfl
      have hselfClosing : (elementNode parent base tag children close).selfClosing =
          tag.selfClosing := rfl
      rw [hopenEnd, hstop, hselfClosing, hself]
      exact iff_of_false (by omega) (by simp)
    · refine forall_mem_append.mpr ⟨fun node hnode => ?_, fun node hnode => ?_⟩
      · obtain ⟨⟨closing, hmem, hstop⟩, hiff⟩ := nodesOf_stop hchildren hinner node hnode
        exact ⟨⟨closing, mem_cons_of_mem _ (mem_append_left _ hmem), hstop⟩, hiff⟩
      · obtain ⟨⟨closing, hmem, hstop⟩, hiff⟩ := nodesOf_stop hnext houter node hnode
        exact ⟨⟨closing, mem_cons_of_mem _ (mem_append_right _
          (mem_cons_of_mem _ hmem)), hstop⟩, hiff⟩

variable {nodes : List ElementNode} {xml : Bytes}

/-- An element of a part with plain tags: what it holds has plain tags. -/
theorem element_facts {node : ElementNode} (htree : buildTree (Docx2Typed.scanTags xml) = .ok nodes)
    (hnode : node ∈ nodes) :
    (node.stop = node.openEnd ↔ node.selfClosing = true) ∧
      (PlainTags xml → PlainTags (slice xml node.openStart node.stop)) := by
  have hlies := (buildTree_geometry htree).1 node hnode
  obtain ⟨F, hmatched, htokens, rfl⟩ := exists_forest_of_buildTree htree
  have hordered : Ordered 0 xml.length F.tokens := by
    rw [htokens]
    exact ordered_scanTags xml
  obtain ⟨hstop, hiff⟩ := nodesOf_stop hmatched hordered node hnode
  obtain ⟨tag, htag, hstart, -⟩ := exists_tag_of_mem_nodesOf hnode
  refine ⟨hiff, fun hplain => ?_⟩
  rw [htokens] at htag hstop
  have hopen := hlies.openTag
  have hcontent := hlies.content
  have hclose := hlies.closeTag
  exact hplain.slice ⟨tag, htag, hstart.symm⟩ hstop (by omega)

/-- The trees of a part with plain tags. -/
theorem buildLightTree_plain (hplain : PlainTags xml) :
    (buildLightTree (scanTags xml)).toOption =
      (buildTree (Docx2Typed.scanTags xml)).toOption.map (·.map LightNode.ofElement) := by
  rw [scanTags_eq hplain]
  exact buildLightTree_eq _

theorem lightNodesAt_eq (nodes : List ElementNode) (indices : List Nat) :
    lightNodesAt (nodes.map LightNode.ofElement) indices =
      (nodesAt nodes indices).map LightNode.ofElement := by
  rw [lightNodesAt, nodesAt, map_filterMap]
  refine filterMap_congr fun i _ => ?_
  rw [getElem?_map]

/-! ## Properties -/

/-- What a list of outcomes is, errors apart. -/
theorem toOption_mapM {α β : Type} (f : α → Outcome β) : ∀ xs : List α,
    (xs.mapM f).toOption = xs.mapM fun x => (f x).toOption
  | [] => rfl
  | x :: xs => by
    rw [mapM_cons, mapM_cons, toOption_bind]
    refine congrArg _ (funext fun y => ?_)
    rw [toOption_bind, toOption_mapM f xs]
    rfl

/-- The tree of the bytes of an element, with the element itself. -/
def rootOf (xml : Bytes) : Option (List ElementNode × ElementNode) :=
  (buildTree (Docx2Typed.scanTags xml)).toOption.bind fun nodes =>
    nodes.head?.map fun root => (nodes, root)

theorem mem_rootOf {root : ElementNode} (htree : buildTree (Docx2Typed.scanTags xml) = .ok nodes)
    (hroot : nodes.head? = some root) : (nodes, root) ∈ rootOf xml := by
  rw [rootOf, htree, Option.mem_def]
  exact congrArg (Option.map fun root => (nodes, root)) hroot

/-- Core takes a child of a property block through the lists `allow` and `refused` as the verifier
does through `allow'` and `refused'`. -/
structure AlikeChild (inner : ElementNode → Prop) (allow refused allow' refused' : List String)
    (child : ElementNode) : Prop where
  dropped : child.name ∈ refused ↔ child.name ∈ refused'
  kept : child.name ∉ refused → child.name ≠ "rPr" → child.name ≠ "numPr" →
    (child.name ∈ allow ↔ child.name ∈ allow')
  numbering : child.name ∉ refused → child.name = "numPr" → child.selfClosing = false
  mark : child.name ∉ refused → child.name = "rPr" → inner child

instance (inner : ElementNode → Prop) [DecidablePred inner]
    (allow refused allow' refused' : List String) (child : ElementNode) :
    Decidable (AlikeChild inner allow refused allow' refused' child) :=
  have : Decidable (child.name ∉ refused → child.name ≠ "rPr" → child.name ≠ "numPr" →
    (child.name ∈ allow ↔ child.name ∈ allow')) := inferInstance
  have : Decidable (child.name ∉ refused → child.name = "rPr" → inner child) := inferInstance
  decidable_of_iff
    ((child.name ∈ refused ↔ child.name ∈ refused') ∧
      (child.name ∉ refused → child.name ≠ "rPr" → child.name ≠ "numPr" →
        (child.name ∈ allow ↔ child.name ∈ allow')) ∧
      (child.name ∉ refused → child.name = "numPr" → child.selfClosing = false) ∧
      (child.name ∉ refused → child.name = "rPr" → inner child))
    ⟨fun h => ⟨h.1, h.2.1, h.2.2.1, h.2.2.2⟩, fun h => ⟨h.1, h.2, h.3, h.4⟩⟩

/-- The children of a block, and of the blocks in it. -/
def AlikeBlock : Nat → List String → List String → List String → List String → Bytes →
    List ElementNode → ElementNode → Prop
  | 0, _, _, _, _, _, _, _ => True
  | fuel + 1, allow, refused, allow', refused', xml, nodes, node =>
    ∀ child ∈ nodesAt nodes node.children, AlikeChild (fun child =>
      ∀ tree ∈ rootOf (slice xml child.openStart child.stop),
        AlikeBlock fuel allow refused safeRprChildren refusedRprChildren
          (slice xml child.openStart child.stop) tree.1 tree.2)
      allow refused allow' refused' child

def decideAlikeBlock : ∀ (fuel : Nat) (allow refused allow' refused' : List String) (xml : Bytes)
    (nodes : List ElementNode) (node : ElementNode),
    Decidable (AlikeBlock fuel allow refused allow' refused' xml nodes node)
  | 0, _, _, _, _, _, _, _ => .isTrue trivial
  | fuel + 1, allow, refused, allow', refused', xml, nodes, node =>
    have := decideAlikeBlock fuel
    inferInstanceAs (Decidable (∀ child ∈ nodesAt nodes node.children, AlikeChild (fun child =>
      ∀ tree ∈ rootOf (slice xml child.openStart child.stop),
        AlikeBlock fuel allow refused safeRprChildren refusedRprChildren
          (slice xml child.openStart child.stop) tree.1 tree.2)
      allow refused allow' refused' child))

instance (fuel : Nat) (allow refused allow' refused' : List String) (xml : Bytes)
    (nodes : List ElementNode) (node : ElementNode) :
    Decidable (AlikeBlock fuel allow refused allow' refused' xml nodes node) :=
  decideAlikeBlock fuel allow refused allow' refused' xml nodes node

theorem mapM_ofElement {β : Type} (f : LightNode → Outcome β) (nodes : List ElementNode)
    (indices : List Nat) :
    ((lightNodesAt (nodes.map LightNode.ofElement) indices).mapM f).toOption =
      (nodesAt nodes indices).mapM fun node => (f (.ofElement node)).toOption := by
  rw [lightNodesAt_eq, toOption_mapM, mapM_map]
  rfl

/-- One child, where the blocks in it are taken alike. -/
theorem propertyChild_eq {allow refused allow' refused' : List String} {what : String}
    {child : ElementNode} {inner : ElementNode → Prop}
    {recurse : Bytes → List ElementNode → ElementNode → Outcome Bytes}
    {recurse' : Bytes → List LightNode → LightNode → Outcome Bytes}
    (halike : AlikeChild inner allow refused allow' refused' child)
    (hplain : PlainTags (slice xml child.openStart child.stop))
    (hself : child.stop = child.openEnd ↔ child.selfClosing = true)
    (hrecurse : inner child → ∀ innerNodes root,
      buildTree (Docx2Typed.scanTags (slice xml child.openStart child.stop)) = .ok innerNodes →
        innerNodes.head? = some root →
          (recurse' (slice xml child.openStart child.stop) (innerNodes.map LightNode.ofElement)
              (.ofElement root)).toOption =
            (recurse (slice xml child.openStart child.stop) innerNodes root).toOption) :
    (propertyChild allow' refused' what recurse' xml (nodes.map LightNode.ofElement)
        (.ofElement child)).toOption =
      (Docx2Typed.propertyChild allow refused what recurse xml nodes child).toOption := by
  have hname : (LightNode.ofElement child).name = child.name := rfl
  rw [propertyChild, Docx2Typed.propertyChild, hname]
  by_cases hrefused : child.name ∈ refused
  · rw [if_pos hrefused, if_pos (halike.dropped.mp hrefused)]
  rw [if_neg hrefused, if_neg fun h => hrefused (halike.dropped.mpr h)]
  by_cases hmark : child.name = "rPr"
  · rw [if_pos hmark, if_pos hmark]
    simp only [toOption_bind]
    have htree := buildLightTree_plain hplain
    have hslice : slice xml (LightNode.ofElement child).openStart (LightNode.ofElement child).stop =
        slice xml child.openStart child.stop := rfl
    rw [hslice, htree]
    cases hinner : buildTree (Docx2Typed.scanTags (slice xml child.openStart child.stop)) with
    | error e => rfl
    | ok innerNodes =>
      cases innerNodes with
      | nil => rfl
      | cons root rest => exact hrecurse (halike.mark hrefused hmark) _ _ hinner rfl
  rw [if_neg hmark, if_neg hmark]
  by_cases hnumPr : child.name = "numPr"
  · rw [if_pos hnumPr, if_pos hnumPr]
    have hclosing := halike.numbering hrefused hnumPr
    have hne : ¬ (LightNode.ofElement child).stop = (LightNode.ofElement child).openEnd := by
      intro h
      rw [hself.mp h] at hclosing
      cases hclosing
    have hchildren : (LightNode.ofElement child).children = child.children := rfl
    rw [toOption_bind, toOption_bind, hchildren, mapM_ofElement, toOption_mapM]
    refine congrArg _ (funext fun kept => ?_)
    rw [if_neg hne, if_neg (by simp [hclosing])]
    rfl
  rw [if_neg hnumPr, if_neg hnumPr]
  have hkept := halike.kept hrefused hmark hnumPr
  by_cases hallow : child.name ∈ allow
  · rw [if_neg (not_not.mpr (hkept.mp hallow)), if_neg (not_not.mpr hallow)]
    rfl
  · rw [if_pos fun h => hallow (hkept.mpr h), if_pos hallow]
    rfl

/-- One block. -/
theorem safePropertyBlockFuel_eq {what : String} : ∀ {fuel : Nat}
    {allow refused allow' refused' : List String} {xml : Bytes} {nodes : List ElementNode}
    {node : ElementNode}, PlainTags xml → buildTree (Docx2Typed.scanTags xml) = .ok nodes →
      node ∈ nodes → AlikeBlock fuel allow refused allow' refused' xml nodes node →
        (safePropertyBlockFuel what fuel allow' refused' xml (nodes.map LightNode.ofElement)
            (.ofElement node)).toOption =
          (Docx2Typed.safePropertyBlockFuel allow refused what fuel xml nodes node).toOption
  | 0, _, _, _, _, _, _, _, _, _, _, _ => rfl
  | fuel + 1, allow, refused, allow', refused', xml, nodes, node, hplain, htree, hnode, halike => by
    have hself := (element_facts htree hnode).1
    have hchildren : (nodesAt nodes node.children).mapM (fun child =>
        (propertyChild allow' refused' what
          (safePropertyBlockFuel what fuel safeRprChildren refusedRprChildren) xml
          (nodes.map LightNode.ofElement) (.ofElement child)).toOption) =
        (nodesAt nodes node.children).mapM fun child =>
          (Docx2Typed.propertyChild allow refused what
            (Docx2Typed.safePropertyBlockFuel allow refused what fuel) xml nodes
            child).toOption := by
      refine mapM_congr fun child hchild => ?_
      obtain ⟨hclosing, hinside⟩ := element_facts htree (mem_of_mem_nodesAt hchild)
      refine propertyChild_eq (halike child hchild) (hinside hplain) hclosing ?_
      intro hinner innerNodes root hroot hhead
      exact safePropertyBlockFuel_eq (hinside hplain) hroot (mem_of_mem_head? hhead)
        (hinner _ (mem_rootOf hroot hhead))
    rw [safePropertyBlockFuel, Docx2Typed.safePropertyBlockFuel, toOption_bind, toOption_bind]
    have hindices : (LightNode.ofElement node).children = node.children := rfl
    rw [hindices, mapM_ofElement, hchildren, toOption_mapM]
    refine congrArg _ (funext fun children => ?_)
    have hstop : ((LightNode.ofElement node).stop = (LightNode.ofElement node).openEnd) ↔
        node.selfClosing = true := hself
    simp only [toOption_pure, hstop]
    rfl

end Docx2Typed.Verify
