import Docx2Typed.XmlWalker.Lexing

/-!
# Where tags and elements stand

The nodes of an accepted part are a forest: every element opens and closes with a tag of the part,
its children are listed in order, apart from each other and inside its content.
-/

namespace Docx2Typed

open Library (Forest)
open List

/-! ## A block of nodes -/

/-- The nodes stand in the whole list from `base` on. -/
def Sits (all : List ElementNode) (base : Nat) (block : List ElementNode) : Prop :=
  ∃ before after, all = before ++ (block ++ after) ∧ before.length = base

variable {node : ElementNode}

section Sits

variable {all : List ElementNode} {base : Nat} {block more : List ElementNode}

theorem Sits.head (h : Sits all base (node :: block)) : all[base]? = some node := by
  obtain ⟨before, after, rfl, rfl⟩ := h
  rw [getElem?_append_right le_rfl, Nat.sub_self]
  rfl

theorem Sits.tail (h : Sits all base (node :: block)) : Sits all (base + 1) block := by
  obtain ⟨before, after, rfl, rfl⟩ := h
  exact ⟨before ++ [node], after, by simp, by simp⟩

theorem Sits.left (h : Sits all base (block ++ more)) : Sits all base block := by
  obtain ⟨before, after, rfl, rfl⟩ := h
  exact ⟨before, more ++ after, by simp, rfl⟩

theorem Sits.right (h : Sits all base (block ++ more)) :
    Sits all (base + block.length) more := by
  obtain ⟨before, after, rfl, rfl⟩ := h
  exact ⟨before ++ block, after, by simp, by simp⟩

theorem Sits.mem (h : Sits all base block) {i : Nat} (hlow : base ≤ i)
    (hhigh : i < base + block.length) (hget : all[i]? = some node) : node ∈ block := by
  obtain ⟨before, after, rfl, rfl⟩ := h
  rw [getElem?_append_right hlow, getElem?_append_left (by omega)] at hget
  exact mem_of_getElem? hget

end Sits

/-! ## Elements side by side -/

/-- The elements of two numbers stand one behind the other. -/
def ElementsApart (all : List ElementNode) (j k : Nat) : Prop :=
  j < k ∧ ∀ a b, all[j]? = some a → all[k]? = some b → a.stop ≤ b.openStart

theorem rootsOf_bounds : ∀ {F : Forest Tag} {base j : Nat}, j ∈ rootsOf base F →
    base ≤ j ∧ j < base + F.size
  | .nil, _, _, h => by simp [rootsOf] at h
  | .leaf tag next, base, j, h => by
    rw [Forest.size]
    rcases mem_cons.mp h with rfl | h
    · omega
    · have := rootsOf_bounds h
      omega
  | .node tag children close next, base, j, h => by
    rw [Forest.size]
    rcases mem_cons.mp h with rfl | h
    · omega
    · have := rootsOf_bounds h
      omega

variable {all : List ElementNode}

/-- The top elements of a forest. -/
theorem rootsOf_lie : ∀ {F : Forest Tag} {lo hi base : Nat}
    {parent : Option Nat}, F.Matched Tag.bracket → Ordered lo hi F.tokens →
      Sits all base (nodesOf parent base F) → ∀ j ∈ rootsOf base F,
        ∃ node, all[j]? = some node ∧ node.parent = parent ∧ node.Lies lo hi
  | .nil, _, _, _, _, _, _, _ => by simp [rootsOf]
  | .leaf tag next, lo, hi, base, parent, h, ho, hs => by
    have hall : ∀ node ∈ nodesOf parent base (.leaf tag next), node.Lies lo hi := nodesOf_lie h ho
    have hnode := hall _ mem_cons_self
    have hin := ho.inside tag mem_cons_self
    refine forall_mem_cons.mpr ⟨⟨_, hs.head, rfl, hnode⟩, fun j hj => ?_⟩
    obtain ⟨node, hget, hparent, hlies⟩ := rootsOf_lie h.2 ho.tail hs.tail j hj
    exact ⟨node, hget, hparent, hlies.mono (by omega) le_rfl⟩
  | .node tag children close next, lo, hi, base, parent, h, ho, hs => by
    have hall : ∀ node ∈ nodesOf parent base (.node tag children close next), node.Lies lo hi :=
      nodesOf_lie h ho
    have hnode := hall _ mem_cons_self
    have hclose := ho.inside close (mem_cons_of_mem _
      (mem_append_right _ mem_cons_self))
    refine forall_mem_cons.mpr ⟨⟨_, hs.head, rfl, hnode⟩, fun j hj => ?_⟩
    have hnext := hs.tail.right
    rw [length_nodesOf] at hnext
    obtain ⟨node, hget, hparent, hlies⟩ := rootsOf_lie h.2.2 ho.content.2 hnext j hj
    exact ⟨node, hget, hparent, hlies.mono (by omega) le_rfl⟩

theorem rootsOf_apart : ∀ {F : Forest Tag} {lo hi base : Nat}
    {parent : Option Nat}, F.Matched Tag.bracket → Ordered lo hi F.tokens →
      Sits all base (nodesOf parent base F) → (rootsOf base F).Pairwise (ElementsApart all)
  | .nil, _, _, _, _, _, _, _ => .nil
  | .leaf tag next, lo, hi, base, parent, h, ho, hs => by
    refine .cons (fun j hj => ⟨?_, fun a b ha hb => ?_⟩) (rootsOf_apart h.2 ho.tail hs.tail)
    · have := rootsOf_bounds hj
      omega
    · obtain ⟨node, hget, -, hlies⟩ := rootsOf_lie h.2 ho.tail hs.tail j hj
      obtain rfl := Option.some.inj (hs.head.symm.trans ha)
      obtain rfl := Option.some.inj (hget.symm.trans hb)
      have hself := (bracket_single h.1).2
      simpa [Tag.toNode, hself] using hlies.start
  | .node tag children close next, lo, hi, base, parent, h, ho, hs => by
    have hnext := hs.tail.right
    rw [length_nodesOf] at hnext
    refine .cons (fun j hj => ⟨?_, fun a b ha hb => ?_⟩) (rootsOf_apart h.2.2 ho.content.2 hnext)
    · have := rootsOf_bounds hj
      omega
    · obtain ⟨node, hget, -, hlies⟩ := rootsOf_lie h.2.2 ho.content.2 hnext j hj
      obtain rfl := Option.some.inj (hs.head.symm.trans ha)
      obtain rfl := Option.some.inj (hget.symm.trans hb)
      exact hlies.start

/-! ## The forest -/

/-- What an element of a part is, by its number. -/
structure ElementNode.InForest (tags : List Tag) (all : List ElementNode) (i : Nat)
    (node : ElementNode) : Prop where
  range : node.openStart < node.openEnd ∧ node.openEnd ≤ node.closeStart ∧
    node.closeStart ≤ node.stop
  opened : ∃ tag ∈ tags, tag.closing = false ∧ tag.name = node.name ∧
    tag.selfClosing = node.selfClosing ∧ tag.start = node.openStart ∧ tag.stop = node.openEnd
  selfClosed : node.selfClosing = true → node.closeStart = node.openEnd ∧ node.stop = node.openEnd ∧
    node.children = []
  closed : node.selfClosing = false → ∃ tag ∈ tags, tag.closing = true ∧ tag.name = node.name ∧
    tag.start = node.closeStart ∧ tag.stop = node.stop
  children : ∀ j ∈ node.children, i < j ∧ ∃ child, all[j]? = some child ∧ child.parent = some i ∧
    node.openEnd ≤ child.openStart ∧ child.stop ≤ node.closeStart
  apart : node.children.Pairwise (ElementsApart all)
  parent : ∀ p, node.parent = some p → p < i ∧ ∃ above, all[p]? = some above ∧ i ∈ above.children

theorem inForest_nodesOf {tags : List Tag} : ∀ {F : Forest Tag}
    {lo hi base : Nat} {parent : Option Nat}, F.Matched Tag.bracket → Ordered lo hi F.tokens →
      (∀ tag ∈ F.tokens, tag ∈ tags) → Sits all base (nodesOf parent base F) →
      (∀ p, parent = some p → p < base ∧ ∃ above, all[p]? = some above ∧
        ∀ j ∈ rootsOf base F, j ∈ above.children) →
      ∀ i node, base ≤ i → i < base + F.size → all[i]? = some node → node.InForest tags all i
  | .nil, _, _, _, _, _, _, _, _, _ => by
    intro i node hlow hhigh
    rw [Forest.size] at hhigh
    omega
  | .leaf tag next, lo, hi, base, parent, h, ho, htags, hs, hparent => by
    intro i node hlow hhigh hget
    rw [Forest.size] at hhigh
    rcases Nat.eq_or_lt_of_le hlow with rfl | hlow
    · obtain rfl := Option.some.inj (hs.head.symm.trans hget)
      obtain ⟨hclosing, hself⟩ := bracket_single h.1
      have hin := ho.inside tag mem_cons_self
      refine ⟨⟨hin.2.1, le_rfl, ?_⟩,
        ⟨tag, htags tag mem_cons_self, hclosing, rfl, rfl, rfl, rfl⟩,
        fun _ => ⟨rfl, ?_, rfl⟩, fun hopen => ?_, by simp [Tag.toNode], .nil, fun p hp => ?_⟩
      · simp [Tag.toNode, hself]
      · simp [Tag.toNode, hself]
      · exact absurd (hself.symm.trans hopen) (by simp)
      · obtain ⟨hlt, above, habove, hroots⟩ := hparent p hp
        exact ⟨hlt, above, habove, hroots _ mem_cons_self⟩
    · have hnextTags : ∀ t ∈ next.tokens, t ∈ tags := fun t ht =>
        htags t (mem_cons_of_mem _ ht)
      refine inForest_nodesOf h.2 ho.tail hnextTags hs.tail ?_ i node hlow (by omega) hget
      intro p hp
      obtain ⟨hlt, above, habove, hroots⟩ := hparent p hp
      exact ⟨by omega, above, habove, fun j hj => hroots j (mem_cons_of_mem _ hj)⟩
  | .node tag children close next, lo, hi, base, parent, h, ho, htags, hs, hparent => by
    intro i node hlow hhigh hget
    rw [Forest.size] at hhigh
    obtain ⟨⟨name, hopens, hcloses⟩, hchildren, hnext⟩ := h
    obtain ⟨hinner, houter⟩ := ho.content
    have hchildSits := hs.tail.left
    have hnextSits := hs.tail.right
    rw [length_nodesOf] at hnextSits
    have hchildTags : ∀ t ∈ children.tokens, t ∈ tags := fun t ht =>
      htags t (mem_cons_of_mem _ (mem_append_left _ ht))
    have hnextTags : ∀ t ∈ next.tokens, t ∈ tags := fun t ht =>
      htags t (mem_cons_of_mem _ (mem_append_right _ (mem_cons_of_mem _ ht)))
    rcases Nat.eq_or_lt_of_le hlow with rfl | hlow
    · obtain rfl := Option.some.inj (hs.head.symm.trans hget)
      obtain ⟨hclosing, hself, hname⟩ := bracket_opens hopens
      obtain ⟨hclosing', hname'⟩ := bracket_closes hcloses
      have hin := ho.inside tag mem_cons_self
      have hclose := ho.inside close (mem_cons_of_mem _
        (mem_append_right _ mem_cons_self))
      have hbetween := (pairwise_cons.mp ho.apart).1 close
        (mem_append_right _ mem_cons_self)
      refine ⟨⟨hin.2.1, hbetween, hclose.2.1.le⟩,
        ⟨tag, htags tag mem_cons_self, hclosing, rfl, rfl, rfl, rfl⟩, fun hclosed => ?_,
        fun _ => ⟨close, htags close (mem_cons_of_mem _ (mem_append_right _
          mem_cons_self)), hclosing', hname'.trans hname.symm, rfl, rfl⟩, fun j hj => ?_,
        rootsOf_apart hchildren hinner hchildSits, fun p hp => ?_⟩
      · exact absurd (hself.symm.trans hclosed) (by simp)
      · have hbounds := rootsOf_bounds hj
        obtain ⟨child, hchild, hup, hlies⟩ := rootsOf_lie hchildren hinner hchildSits j hj
        exact ⟨by omega, child, hchild, hup, hlies.start, hlies.stop⟩
      · obtain ⟨hlt, above, habove, hroots⟩ := hparent p hp
        exact ⟨hlt, above, habove, hroots _ mem_cons_self⟩
    by_cases hinside : i < base + 1 + children.size
    · refine inForest_nodesOf hchildren hinner hchildTags hchildSits ?_ i node hlow hinside hget
      intro p hp
      obtain rfl := Option.some.inj hp
      exact ⟨by omega, _, hs.head, fun j hj => hj⟩
    · refine inForest_nodesOf hnext houter hnextTags hnextSits ?_ i node (by omega) (by omega) hget
      intro p hp
      obtain ⟨hlt, above, habove, hroots⟩ := hparent p hp
      exact ⟨by omega, above, habove, fun j hj => hroots j (mem_cons_of_mem _ hj)⟩

/-- The nodes are a forest over the tags of a part. -/
structure IsForest (tags : List Tag) (all : List ElementNode) : Prop where
  element : ∀ (i : Nat) (node : ElementNode), all[i]? = some node → node.InForest tags all i
  roots : ∃ roots : List Nat, roots.Pairwise (ElementsApart all) ∧
    ∀ (i : Nat) (node : ElementNode), all[i]? = some node → (node.parent = none ↔ i ∈ roots)

theorem parent_of_mem_nodesOf_some : ∀ {F : Forest Tag} {p base : Nat} {node : ElementNode},
    node ∈ nodesOf (some p) base F → node.parent ≠ none
  | .nil, _, _, _, h => by cases h
  | .leaf tag next, p, base, node, h => by
    rcases mem_cons.mp h with rfl | h
    · exact Option.some_ne_none p
    · exact parent_of_mem_nodesOf_some h
  | .node tag children close next, p, base, node, h => by
    rcases mem_cons.mp h with rfl | h
    · exact Option.some_ne_none p
    · exact (mem_append.mp h).elim parent_of_mem_nodesOf_some parent_of_mem_nodesOf_some

theorem mem_rootsOf : ∀ {F : Forest Tag} {base : Nat},
    Sits all base (nodesOf none base F) → ∀ i node, base ≤ i → i < base + F.size →
      all[i]? = some node → (node.parent = none ↔ i ∈ rootsOf base F)
  | .nil, _, _ => by
    intro i node hlow hhigh
    rw [Forest.size] at hhigh
    omega
  | .leaf tag next, base, hs => by
    intro i node hlow hhigh hget
    rw [Forest.size] at hhigh
    rw [rootsOf, mem_cons]
    rcases Nat.eq_or_lt_of_le hlow with rfl | hlow
    · obtain rfl := Option.some.inj (hs.head.symm.trans hget)
      exact ⟨fun _ => .inl rfl, fun _ => rfl⟩
    · rw [mem_rootsOf hs.tail i node hlow (by omega) hget]
      exact ⟨.inr, fun h => h.resolve_left (by omega)⟩
  | .node tag children close next, base, hs => by
    intro i node hlow hhigh hget
    rw [Forest.size] at hhigh
    rw [rootsOf, mem_cons]
    have hnext := hs.tail.right
    rw [length_nodesOf] at hnext
    rcases Nat.eq_or_lt_of_le hlow with rfl | hlow
    · obtain rfl := Option.some.inj (hs.head.symm.trans hget)
      exact ⟨fun _ => .inl rfl, fun _ => rfl⟩
    by_cases hinside : i < base + 1 + children.size
    · have hmem := hs.tail.left.mem hlow (by rwa [length_nodesOf]) hget
      refine ⟨fun h => absurd h (parent_of_mem_nodesOf_some hmem), ?_⟩
      rintro (rfl | h)
      · omega
      · have := (rootsOf_bounds h).1
        omega
    · rw [mem_rootsOf hnext i node (by omega) (by omega) hget]
      exact ⟨.inr, fun h => h.resolve_left (by omega)⟩

theorem isForest_of_buildTree {xml : Bytes} {nodes : List ElementNode}
    (h : buildTree (scanTags xml) = .ok nodes) : IsForest (scanTags xml) nodes := by
  obtain ⟨F, hmatched, htokens, rfl⟩ := exists_forest_of_buildTree h
  have hordered : Ordered 0 xml.length F.tokens := by
    rw [htokens]
    exact ordered_scanTags xml
  have hsits : Sits (nodesOf none 0 F) 0 (nodesOf none 0 F) := ⟨[], [], by simp, rfl⟩
  have hsize : ∀ {i : Nat} {node : ElementNode}, (nodesOf none 0 F)[i]? = some node →
      i < 0 + F.size := by
    intro i node hget
    obtain ⟨hlt, -⟩ := List.getElem?_eq_some_iff.mp hget
    rwa [length_nodesOf, ← Nat.zero_add F.size] at hlt
  constructor
  · intro i node hget
    refine inForest_nodesOf hmatched hordered (fun tag htag => ?_) hsits ?_ i node (Nat.zero_le i)
      (hsize hget) hget
    · rwa [← htokens]
    · intro p hp
      cases hp
  · refine ⟨rootsOf 0 F, rootsOf_apart hmatched hordered hsits, fun i node hget => ?_⟩
    exact mem_rootsOf hsits i node (Nat.zero_le i) (hsize hget) hget

/-! ## The whole -/

end Docx2Typed
