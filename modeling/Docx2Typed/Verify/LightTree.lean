import Docx2Typed.Verify.Slices
import Docx2Typed.Verify.Structure
import Docx2Typed.XmlWalker.Tree

/-!
# The verifier's tree

Over the same tags `build_light_tree` and `build_tree` accept alike and build the same elements
(`buildLightTree_eq`).
-/

namespace Docx2Typed.Verify

open List

/-! ## Outcomes up to their errors -/

section Outcome

variable {ε α β : Type}

theorem toOption_bind (x : Except ε α) (f : α → Except ε β) :
    (x >>= f).toOption = x.toOption.bind fun a => (f a).toOption := by
  cases x <;> rfl

theorem toOption_expect (x : Option α) : (expect x).toOption = x := by
  cases x <;> rfl

theorem toOption_pure (a : α) : (pure a : Except ε α).toOption = some a := rfl

theorem toOption_refuse (message : String) : (refuse message : Outcome α).toOption = none := rfl

end Outcome

/-! ## The two trees -/

def LightNode.ofElement (node : ElementNode) : LightNode :=
  ⟨node.name, node.openStart, node.openEnd, node.closeStart, node.stop, node.parent, node.children⟩

/-- Nodes that differ in the end of an open element only. -/
structure Similar (stack : List Nat) (i : Nat) (node : ElementNode) (light : LightNode) : Prop where
  same : light = { LightNode.ofElement node with stop := light.stop }
  stop : i ∉ stack → light.stop = node.stop

/-- The states of the two passes. -/
structure SimilarTrees (core : List ElementNode × List Nat) (light : List LightNode × List Nat) :
    Prop where
  stack : light.2 = core.2
  length : light.1.length = core.1.length
  nodes : ∀ i node light', core.1[i]? = some node → light.1[i]? = some light' →
    Similar core.2 i node light'

section Trees

variable {core : List ElementNode × List Nat} {light : List LightNode × List Nat}
  {nodes : List ElementNode} {lights : List LightNode} {tag : Docx2Typed.Tag}

theorem Similar.name {stack : List Nat} {i : Nat} {node : ElementNode} {light : LightNode}
    (h : Similar stack i node light) : light.name = node.name := by
  rw [h.same]
  rfl

theorem SimilarTrees.getElem? (h : SimilarTrees core light) (i : Nat) :
    (∃ node light', core.1[i]? = some node ∧ light.1[i]? = some light' ∧
      Similar core.2 i node light') ∨ core.1[i]? = none ∧ light.1[i]? = none := by
  by_cases hi : i < core.1.length
  · have hi' : i < light.1.length := h.length.symm ▸ hi
    have hcore := getElem?_eq_getElem hi
    have hlight := getElem?_eq_getElem hi'
    exact .inl ⟨_, _, hcore, hlight, h.nodes i _ _ hcore hlight⟩
  · exact .inr ⟨getElem?_eq_none (by omega), getElem?_eq_none (by rw [h.length]; omega)⟩

/-- A closing tag ends the innermost open element. -/
theorem SimilarTrees.close {top : Nat} {rest : List Nat}
    (h : SimilarTrees (nodes, top :: rest) (lights, top :: rest)) (hclosing : tag.closing = true) :
    Option.Rel SimilarTrees (buildStep (nodes, top :: rest) tag).toOption
      (buildLightStep (lights, top :: rest) (.ofCore tag)).toOption := by
  simp only [buildStep, buildLightStep, Tag.ofCore_closing, hclosing, if_true, toOption_bind,
    toOption_expect]
  rcases h.getElem? top with ⟨node, light, hnode, hlight, hsimilar⟩ | ⟨hnode, hlight⟩
  · simp only at hnode hlight
    simp only [hnode, hlight, Option.bind_some, hsimilar.name, Tag.ofCore_name]
    by_cases hname : node.name = tag.name
    · rw [if_neg (not_not.mpr hname), if_neg (not_not.mpr hname)]
      refine .some ⟨rfl, by simpa using h.length, fun i node' light' hnode' hlight' => ?_⟩
      simp only [getElem?_set] at hnode' hlight'
      by_cases hi : top = i
      · subst hi
        rw [if_pos rfl] at hnode' hlight'
        split_ifs at hnode' hlight'
        obtain rfl := Option.some.inj hnode'
        obtain rfl := Option.some.inj hlight'
        exact ⟨by rw [hsimilar.same]; rfl, fun _ => rfl⟩
      · rw [if_neg hi] at hnode' hlight'
        have hold := h.nodes i node' light' hnode' hlight'
        exact ⟨hold.same, fun hrest => hold.stop (by simp [hrest, Ne.symm hi])⟩
    · rw [if_pos hname, if_pos hname]
      exact .none
  · simp only at hnode hlight
    simp only [hnode, hlight, Option.bind_none]
    exact .none

theorem SimilarTrees.link {stack : List Nat} (h : SimilarTrees (nodes, stack) (lights, stack)) :
    (lightLink stack nodes.length lights).length = nodes.length ∧
      ∀ i node light, (Docx2Typed.link stack [nodes.length] nodes)[i]? = some node →
        (lightLink stack nodes.length lights)[i]? = some light → Similar stack i node light := by
  have hlength : lights.length = nodes.length := h.length
  cases stack with
  | nil => exact ⟨hlength, h.nodes⟩
  | cons top rest =>
    refine ⟨by simpa [lightLink] using hlength, fun i node light hnode hlight => ?_⟩
    rw [Docx2Typed.link, getElem?_modify] at hnode
    rw [lightLink, getElem?_modify] at hlight
    rcases h.getElem? i with ⟨node', light', hnode', hlight', hsimilar⟩ | ⟨hnode', -⟩
    · simp only at hnode' hlight'
      rw [hnode'] at hnode
      rw [hlight'] at hlight
      obtain rfl := Option.some.inj hnode
      obtain rfl := Option.some.inj hlight
      split_ifs with htop
      · exact ⟨by rw [hsimilar.same]; rfl, hsimilar.stop⟩
      · exact hsimilar
    · simp only at hnode'
      rw [hnode'] at hnode
      cases hnode

/-- An opening tag adds an element. -/
theorem SimilarTrees.open {stack : List Nat} (h : SimilarTrees (nodes, stack) (lights, stack))
    (hclosing : tag.closing = false) :
    Option.Rel SimilarTrees (buildStep (nodes, stack) tag).toOption
      (buildLightStep (lights, stack) (.ofCore tag)).toOption := by
  have hlength : lights.length = nodes.length := h.length
  rw [buildStep_open hclosing]
  simp only [buildLightStep, Tag.ofCore_closing, hclosing, Bool.false_eq_true, if_false,
    toOption_pure, Tag.ofCore_selfClosing, hlength]
  obtain ⟨hlen, hnodes⟩ := h.link
  refine .some ⟨rfl, by simp [hlen], fun i node light hnode hlight => ?_⟩
  simp only [getElem?_append, length_link, hlen] at hnode hlight
  split_ifs at hnode hlight with hi
  · have hold := hnodes i node light hnode hlight
    refine ⟨hold.same, fun hstack => hold.stop fun hmem => hstack ?_⟩
    split_ifs
    · exact hmem
    · exact mem_cons_of_mem _ hmem
  · rw [getElem?_singleton] at hnode hlight
    split_ifs at hnode hlight with hzero
    obtain rfl := Option.some.inj hnode
    obtain rfl := Option.some.inj hlight
    refine ⟨rfl, fun hstack => ?_⟩
    cases hself : tag.selfClosing with
    | true => simp [Docx2Typed.Tag.toNode, Tag.toLightNode, hself, Tag.ofCore]
    | false =>
      have hindex : i = nodes.length := by omega
      simp [hself, hindex] at hstack

theorem SimilarTrees.step (h : SimilarTrees core light) (tag : Docx2Typed.Tag) :
    Option.Rel SimilarTrees (buildStep core tag).toOption
      (buildLightStep light (.ofCore tag)).toOption := by
  obtain ⟨nodes, stack⟩ := core
  obtain ⟨lights, stack'⟩ := light
  obtain rfl : stack' = stack := h.stack
  cases hclosing : tag.closing with
  | false => exact h.open hclosing
  | true =>
    cases stack' with
    | nil =>
      simp only [buildStep, buildLightStep, Tag.ofCore_closing, hclosing, if_true, toOption_refuse]
      exact .none
    | cons top rest => exact h.close hclosing

theorem SimilarTrees.foldlM : ∀ {tags : List Docx2Typed.Tag} {core : List ElementNode × List Nat}
    {light : List LightNode × List Nat}, SimilarTrees core light →
      Option.Rel SimilarTrees (tags.foldlM buildStep core).toOption
        ((tags.map Tag.ofCore).foldlM buildLightStep light).toOption
  | [], _, _, h => .some h
  | tag :: rest, core, light, h => by
    rw [map_cons, foldlM_cons, foldlM_cons, toOption_bind, toOption_bind]
    have hstep := h.step tag
    generalize (buildStep core tag).toOption = x at hstep ⊢
    generalize (buildLightStep light (.ofCore tag)).toOption = y at hstep ⊢
    cases hstep with
    | none => exact .none
    | some hnext => exact hnext.foldlM

/-- The trees of one list of tags. -/
theorem buildLightTree_eq (tags : List Docx2Typed.Tag) :
    (buildLightTree (tags.map Tag.ofCore)).toOption =
      (buildTree tags).toOption.map (·.map LightNode.ofElement) := by
  have hempty : SimilarTrees ([], []) ([], []) := ⟨rfl, rfl, by simp⟩
  have hfold : Option.Rel SimilarTrees (tags.foldlM buildStep ([], [])).toOption
      ((tags.map Tag.ofCore).foldlM buildLightStep ([], [])).toOption := hempty.foldlM
  rw [buildLightTree, buildTree, toOption_bind, toOption_bind]
  generalize (tags.foldlM buildStep ([], [])).toOption = x at hfold ⊢
  generalize ((tags.map Tag.ofCore).foldlM buildLightStep ([], [])).toOption = y at hfold ⊢
  cases hfold with
  | none => rfl
  | @some core light h =>
    obtain ⟨nodes, stack⟩ := core
    obtain ⟨lights, stack'⟩ := light
    obtain rfl : stack' = stack := h.stack
    cases stack' with
    | cons top rest =>
      simp only [Option.bind_some, toOption_bind, toOption_refuse]
      simp [toOption_refuse]
    | nil =>
      simp only [Option.bind_some, if_true, toOption_pure, Option.map_some, Option.some.injEq]
      refine ext_getElem? fun i => ?_
      rw [getElem?_map]
      rcases h.getElem? i with ⟨node, light, hnode, hlight, hsimilar⟩ | ⟨hnode, hlight⟩
      · simp only at hnode hlight
        rw [hnode, hlight, Option.map_some, hsimilar.same, hsimilar.stop (by simp)]
        rfl
      · simp only at hnode hlight
        rw [hnode, hlight]
        rfl

end Trees

end Docx2Typed.Verify
