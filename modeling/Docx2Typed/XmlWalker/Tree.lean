import Docx2Typed.XmlWalker.Compose
import Docx2Typed.Library.Forest
import Mathlib.Data.List.Forall2

/-!
# The element tree as a forest

`build_tree` numbers the elements of a part in the order of their start tags.  The tags it accepts
spell a forest, and its nodes are that forest in preorder; so two elements of a tree lie apart, or
one lies in the content of the other.
-/

namespace Docx2Typed

open Library List

/-- What a tag does to the open elements; local names have to match. -/
def Tag.bracket (tag : Tag) : Bracket String :=
  if tag.closing then .closes tag.name
  else if tag.selfClosing then .single
  else .opens tag.name

theorem Tag.bracket_eq_opens (tag : Tag) (hclosing : tag.closing = false)
    (hself : tag.selfClosing = false) : tag.bracket = .opens tag.name := by
  simp [bracket, hclosing, hself]

theorem Tag.bracket_eq_closes (tag : Tag) (hclosing : tag.closing = true) :
    tag.bracket = .closes tag.name := by
  simp [bracket, hclosing]

/-- The numbers of the top elements of a forest. -/
def rootsOf : Nat → Forest Tag → List Nat
  | _, .nil => []
  | base, .leaf _ next => base :: rootsOf (base + 1) next
  | base, .node _ children _ next => base :: rootsOf (base + 1 + children.size) next

/-- The node of an element whose numbers are known. -/
def elementNode (parent : Option Nat) (base : Nat) (tag : Tag) (children : Forest Tag)
    (close : Tag) : ElementNode :=
  { tag.toNode parent with
    closeStart := close.start
    stop := close.stop
    children := rootsOf (base + 1) children }

/-- The nodes of a forest, numbered from `base` on. -/
def nodesOf : Option Nat → Nat → Forest Tag → List ElementNode
  | _, _, .nil => []
  | parent, base, .leaf tag next => tag.toNode parent :: nodesOf parent (base + 1) next
  | parent, base, .node tag children close next =>
    elementNode parent base tag children close ::
      (nodesOf (some base) (base + 1) children ++ nodesOf parent (base + 1 + children.size) next)

theorem length_nodesOf : ∀ (parent : Option Nat) (base : Nat) (F : Forest Tag),
    (nodesOf parent base F).length = F.size
  | _, _, .nil => rfl
  | parent, base, .leaf _ next => by
    rw [nodesOf, length_cons, length_nodesOf, Forest.size]
  | parent, base, .node _ children _ next => by
    rw [nodesOf, length_cons, length_append, length_nodesOf, length_nodesOf, Forest.size]

/-! ## The tree of a forest -/

/-- New children of the innermost open element. -/
def link (stack roots : List Nat) (nodes : List ElementNode) : List ElementNode :=
  match stack with
  | [] => nodes
  | top :: _ => nodes.modify top fun node => { node with children := node.children ++ roots }

/-- The innermost open element is one of the nodes. -/
def TopIn (stack : List Nat) (nodes : List ElementNode) : Prop :=
  ∀ top ∈ stack.head?, top < nodes.length

@[simp] theorem length_link (stack roots : List Nat) (nodes : List ElementNode) :
    (link stack roots nodes).length = nodes.length := by
  cases stack with
  | nil => rfl
  | cons top rest => exact length_modify _ _ _

theorem link_nil (stack : List Nat) (nodes : List ElementNode) : link stack [] nodes = nodes := by
  cases stack with
  | nil => rfl
  | cons top rest =>
    rw [link]
    apply ext_getElem?
    intro i
    rw [getElem?_modify]
    cases nodes[i]? with
    | none => rfl
    | some node =>
      split
      · simp
      · rfl

theorem modify_append {α : Type} {f : α → α} {i : Nat} {xs : List α} (h : i < xs.length)
    (ys : List α) : (xs ++ ys).modify i f = xs.modify i f ++ ys := by
  apply ext_getElem?
  intro j
  rw [getElem?_modify, getElem?_append, getElem?_append, length_modify]
  by_cases hj : j < xs.length
  · rw [if_pos hj, if_pos hj, getElem?_modify]
  · rw [if_neg hj, if_neg hj]
    cases ys[j - xs.length]? with
    | none => rfl
    | some y =>
      have hij : i ≠ j := by omega
      simp [hij]

theorem modify_concat {α : Type} (f : α → α) (x : α) :
    ∀ xs : List α, (xs ++ [x]).modify xs.length f = xs ++ [f x]
  | [] => rfl
  | y :: ys => congrArg (y :: ·) (modify_concat f x ys)

theorem set_middle {α : Type} (x y : α) (ys : List α) :
    ∀ xs : List α, (xs ++ x :: ys).set xs.length y = xs ++ y :: ys
  | [] => rfl
  | z :: zs => congrArg (z :: ·) (set_middle x y ys zs)

variable {nodes : List ElementNode}

theorem link_append {stack : List Nat} (h : TopIn stack nodes) (roots : List Nat)
    (more : List ElementNode) :
    link stack roots (nodes ++ more) = link stack roots nodes ++ more := by
  cases stack with
  | nil => rfl
  | cons top rest => exact modify_append (h top rfl) more

theorem link_link (stack roots roots' : List Nat) (nodes : List ElementNode) :
    link stack roots' (link stack roots nodes) = link stack (roots ++ roots') nodes := by
  cases stack with
  | nil => rfl
  | cons top rest =>
    rw [link, link, link, modify_modify_eq]
    congr 1
    funext node
    simp [append_assoc]

variable {tag : Tag}

theorem buildStep_open (h : tag.closing = false) (nodes : List ElementNode) (stack : List Nat) :
    buildStep (nodes, stack) tag =
      .ok (link stack [nodes.length] nodes ++ [tag.toNode stack.head?],
        if tag.selfClosing then stack else nodes.length :: stack) := by
  simp only [buildStep, h, Bool.false_eq_true, if_false]
  rfl

variable {node : ElementNode}

theorem buildStep_close (h : tag.closing = true) {top : Nat} {rest : List Nat}
    (hnode : nodes[top]? = some node) (hname : node.name = tag.name) :
    buildStep (nodes, top :: rest) tag =
      .ok (nodes.set top { node with closeStart := tag.start, stop := tag.stop }, rest) := by
  simp only [buildStep, h, if_true, hnode, expect, bind, Except.bind, hname, ne_eq,
    not_true_eq_false, if_false]
  rfl

variable {name : String}

theorem bracket_opens (h : tag.bracket = .opens name) :
    tag.closing = false ∧ tag.selfClosing = false ∧ tag.name = name := by
  cases hclosing : tag.closing <;> cases hself : tag.selfClosing <;>
    simp_all [Tag.bracket]

theorem bracket_closes (h : tag.bracket = .closes name) : tag.closing = true ∧ tag.name = name := by
  cases hclosing : tag.closing <;> cases hself : tag.selfClosing <;>
    simp_all [Tag.bracket]

theorem bracket_single (h : tag.bracket = .single) :
    tag.closing = false ∧ tag.selfClosing = true := by
  cases hclosing : tag.closing <;> cases hself : tag.selfClosing <;>
    simp_all [Tag.bracket]

theorem foldlM_buildStep : ∀ {F : Forest Tag}, F.Matched Tag.bracket →
    ∀ (nodes : List ElementNode) (stack : List Nat), TopIn stack nodes →
      F.tokens.foldlM buildStep (nodes, stack) =
        .ok (link stack (rootsOf nodes.length F) nodes ++ nodesOf stack.head? nodes.length F, stack)
  | .nil, _, nodes, stack, _ => by
    rw [rootsOf, link_nil, nodesOf, append_nil]
    rfl
  | .leaf tag next, ⟨htag, hnext⟩, nodes, stack, htop => by
    obtain ⟨hclosing, hself⟩ := bracket_single htag
    have htop' : TopIn stack (link stack [nodes.length] nodes) := by simpa [TopIn] using htop
    have htop'' : TopIn stack (link stack [nodes.length] nodes ++ [tag.toNode stack.head?]) := by
      intro top h
      have := htop' top h
      rw [length_append]
      omega
    rw [Forest.tokens_leaf, foldlM_cons, buildStep_open hclosing, hself, if_pos rfl, bind_ok rfl,
      foldlM_buildStep hnext _ _ htop'', link_append htop', link_link, length_append,
      length_link, append_assoc]
    rfl
  | .node tag children close next, ⟨⟨name, htag, hclose⟩, hchildren, hnext⟩, nodes, stack, htop => by
    obtain ⟨hclosing, hself, hname⟩ := bracket_opens htag
    obtain ⟨hcloses, hname'⟩ := bracket_closes hclose
    have htop' : TopIn stack (link stack [nodes.length] nodes) := by simpa [TopIn] using htop
    -- the element is open: its children are linked to it
    set opened := link stack [nodes.length] nodes with hopened
    have hlength : opened.length = nodes.length := length_link _ _ _
    have hin : TopIn (nodes.length :: stack) (opened ++ [tag.toNode stack.head?]) := by
      intro top h
      obtain rfl := Option.some.inj h
      rw [length_append, hlength, length_singleton]
      omega
    have hinner : link (nodes.length :: stack) (rootsOf (nodes.length + 1) children)
        (opened ++ [tag.toNode stack.head?]) =
        opened ++ [{ tag.toNode stack.head? with children := rootsOf (nodes.length + 1) children }] := by
      rw [link, ← hlength, modify_concat]
      rfl
    set inside := nodesOf (some nodes.length) (nodes.length + 1) children with hinside
    -- the close tag completes it
    have hclose : buildStep (opened ++
          [{ tag.toNode stack.head? with children := rootsOf (nodes.length + 1) children }] ++ inside,
          nodes.length :: stack) close =
        .ok (opened ++ elementNode stack.head? nodes.length tag children close :: inside, stack) := by
      rw [append_assoc, singleton_append]
      rw [buildStep_close hcloses (by rw [← hlength, getElem?_append_right (by omega)]; simp; rfl)
        (hname.trans hname'.symm), ← hlength, set_middle]
      rfl
    have htop'' : TopIn stack (opened ++
        elementNode stack.head? nodes.length tag children close :: inside) := by
      intro top h
      have := htop' top h
      rw [length_append]
      omega
    rw [Forest.tokens_node, foldlM_cons, buildStep_open hclosing, hself, bind_ok rfl,
      foldlM_append, ← hopened]
    simp only [Bool.false_eq_true, if_false]
    rw [foldlM_buildStep hchildren _ _ hin, bind_ok rfl, length_append, hlength,
      length_singleton, foldlM_cons, hinner, head?_cons, ← hinside, hclose, bind_ok rfl,
      foldlM_buildStep hnext _ _ htop'', link_append htop', hopened, link_link]
    simp only [length_append, length_cons, length_link, hinside, length_nodesOf,
      append_assoc, cons_append]
    rw [show nodes.length + (children.size + 1) = nodes.length + 1 + children.size by omega]
    rfl

/-- The stack of names beside the stack of node numbers. -/
def Named (nodes : List ElementNode) (stack : List Nat) (names : List String) : Prop :=
  List.Forall₂ (fun top name => nodes[top]?.map ElementNode.name = some name) stack names

theorem Named.mono {nodes nodes' : List ElementNode} {stack : List Nat} {names : List String}
    (h : Named nodes stack names)
    (hnames : ∀ (i : Nat) (name : String), nodes[i]?.map ElementNode.name = some name → nodes'[i]?.map ElementNode.name = some name) :
    Named nodes' stack names :=
  h.imp fun top name => hnames top name

theorem names_link (stack roots : List Nat) (nodes : List ElementNode) (i : Nat) :
    (link stack roots nodes)[i]?.map ElementNode.name = nodes[i]?.map ElementNode.name := by
  cases stack with
  | nil => rfl
  | cons top rest =>
    rw [link, getElem?_modify]
    cases nodes[i]? with
    | none => rfl
    | some node =>
      by_cases h : top = i
      · simp [h]
      · simp [h]

theorem names_append {nodes more : List ElementNode} {i : Nat}
    (h : nodes[i]?.map ElementNode.name = some name) :
    (nodes ++ more)[i]?.map ElementNode.name = some name := by
  obtain ⟨node, hnode, -⟩ := Option.map_eq_some_iff.mp h
  obtain ⟨hi, -⟩ := List.getElem?_eq_some_iff.mp hnode
  rwa [getElem?_append_left hi]

/-- A step of the tree is a step of the bracket machine. -/
theorem nestStep_of_buildStep {state state' : List ElementNode × List Nat} {names : List String}
    (h : buildStep state tag = .ok state') (hnamed : Named state.1 state.2 names) :
    ∃ names', nestStep Tag.bracket names tag = some names' ∧ Named state'.1 state'.2 names' := by
  obtain ⟨nodes, stack⟩ := state
  cases hclosing : tag.closing with
  | true =>
    have hbracket : tag.bracket = .closes tag.name := by simp [Tag.bracket, hclosing]
    cases hnamed with
    | nil =>
      simp only [buildStep, hclosing, if_true] at h
      exact (refuse_ne_ok h).elim
    | @cons top name rest names htop hrest =>
      simp only [buildStep, hclosing, if_true] at h
      obtain ⟨node, hnode, h⟩ := bind_eq_ok h
      rw [expect_eq_ok_iff] at hnode
      split at h
      · exact (refuse_ne_ok h).elim
      next hname =>
        obtain rfl := Except.ok.inj h
        rw [hnode, Option.map_some, Option.some.injEq] at htop
        rw [not_not] at hname
        refine ⟨names, ?_, hrest.imp fun i name hi => ?_⟩
        · rw [← htop, hname]
          exact nestStep_of_closes hbracket
        · by_cases hi' : i = top
          · subst hi'
            rw [hnode] at hi
            obtain ⟨hlt, -⟩ := List.getElem?_eq_some_iff.mp hnode
            simpa [getElem?_set_self hlt] using hi
          · rwa [getElem?_set_ne (Ne.symm hi')]
  | false =>
    rw [buildStep_open hclosing] at h
    obtain rfl := Except.ok.inj h
    have hold : Named (link stack [nodes.length] nodes ++ [tag.toNode stack.head?]) stack names :=
      Named.mono hnamed fun i name hi => names_append (by rwa [names_link])
    cases hsingle : tag.selfClosing with
    | true =>
      refine ⟨names, nestStep_of_single (by simp [Tag.bracket, hclosing, hsingle]), ?_⟩
      simpa [hsingle] using hold
    | false =>
      refine ⟨tag.name :: names,
        nestStep_of_opens (by simp [Tag.bracket, hclosing, hsingle]), ?_⟩
      simp only [Bool.false_eq_true, if_false]
      refine .cons ?_ hold
      rw [← length_link stack [nodes.length] nodes]
      simp [Tag.toNode]

/-- The tree of a part is a forest in preorder. -/
theorem exists_forest_of_buildTree {tags : List Tag} (h : buildTree tags = .ok nodes) :
    ∃ F : Forest Tag, F.Matched Tag.bracket ∧ F.tokens = tags ∧ nodes = nodesOf none 0 F := by
  have hrun : ∀ (tags : List Tag) (state state' : List ElementNode × List Nat) (names : List String),
      tags.foldlM buildStep state = .ok state' → Named state.1 state.2 names →
        ∃ names', nest Tag.bracket names tags = some names' ∧ Named state'.1 state'.2 names' := by
    intro tags
    induction tags with
    | nil =>
      intro state state' names h hnamed
      obtain rfl := Except.ok.inj h
      exact ⟨names, rfl, hnamed⟩
    | cons tag rest ih =>
      intro state state' names h hnamed
      rw [foldlM_cons] at h
      obtain ⟨middle, hstep, h⟩ := bind_eq_ok h
      obtain ⟨names', hnest, hnamed'⟩ := nestStep_of_buildStep hstep hnamed
      obtain ⟨names'', hnest', hnamed''⟩ := ih _ _ _ h hnamed'
      exact ⟨names'', by rw [nest_cons, hnest]; exact hnest', hnamed''⟩
  obtain ⟨⟨built, stack⟩, hfold, h⟩ := bind_eq_ok h
  cases stack with
  | cons top rest =>
    obtain ⟨node, -, h⟩ := bind_eq_ok h
    exact (refuse_ne_ok h).elim
  | nil =>
    obtain rfl := Except.ok.inj h
    obtain ⟨names, hnest, hnamed⟩ := hrun tags _ _ [] hfold .nil
    cases hnamed
    obtain ⟨F, hmatched, htokens⟩ := exists_forest_of_nest hnest
    refine ⟨F, hmatched, htokens, ?_⟩
    have := foldlM_buildStep hmatched [] [] (by simp [TopIn])
    rw [htokens, hfold] at this
    simpa [link] using this

/-! ## Where the elements lie -/

/-- Tags that stand one behind the other in `[lo, hi)`. -/
structure Ordered (lo hi : Nat) (tags : List Tag) : Prop where
  apart : tags.Pairwise fun a b => a.stop ≤ b.start
  inside : ∀ tag ∈ tags, lo ≤ tag.start ∧ tag.start < tag.stop ∧ tag.stop ≤ hi

theorem ordered_scanTags (xml : Bytes) : Ordered 0 xml.length (scanTags xml) := by
  obtain ⟨hapart, hinside⟩ := scanAt_ordered 0 xml
  refine ⟨hapart, fun tag htag => ?_⟩
  have := hinside tag htag
  omega

theorem Ordered.tail {lo hi : Nat} {tags : List Tag} (h : Ordered lo hi (tag :: tags)) :
    Ordered tag.stop hi tags := by
  obtain ⟨hhead, htail⟩ := pairwise_cons.mp h.apart
  refine ⟨htail, fun t ht => ?_⟩
  have := h.inside t (mem_cons_of_mem _ ht)
  have := hhead t ht
  omega

/-- What stands between an open tag and its close. -/
theorem Ordered.content {lo hi : Nat} {tag close : Tag} {inner outer : List Tag}
    (h : Ordered lo hi (tag :: (inner ++ close :: outer))) :
    Ordered tag.stop close.start inner ∧ Ordered close.stop hi outer := by
  have htail := h.tail
  obtain ⟨hinner, houter, hcross⟩ := pairwise_append.mp htail.apart
  refine ⟨⟨hinner, fun t ht => ?_⟩, ?_⟩
  · have := htail.inside t (mem_append_left _ ht)
    have := hcross t ht close mem_cons_self
    omega
  · refine ⟨(pairwise_cons.mp houter).2, fun t ht => ?_⟩
    have := htail.inside t (mem_append_right _ (mem_cons_of_mem _ ht))
    have := (pairwise_cons.mp houter).1 t ht
    omega

/-- An element that lies in `[lo, hi)`. -/
structure ElementNode.Lies (lo hi : Nat) (node : ElementNode) : Prop where
  start : lo ≤ node.openStart
  openTag : node.openStart < node.openEnd
  content : node.openEnd ≤ node.closeStart
  closeTag : node.closeStart ≤ node.stop
  stop : node.stop ≤ hi

theorem ElementNode.Lies.mono {lo hi lo' hi' : Nat} (h : node.Lies lo hi) (hlo : lo' ≤ lo)
    (hhi : hi ≤ hi') : node.Lies lo' hi' :=
  ⟨hlo.trans h.start, h.openTag, h.content, h.closeTag, h.stop.trans hhi⟩

/-- A later element lies behind an earlier one, or in its content. -/
def ElementNode.Before (a b : ElementNode) : Prop :=
  a.stop ≤ b.openStart ∨ a.children ≠ [] ∧ a.openEnd ≤ b.openStart ∧ b.stop ≤ a.closeStart

theorem rootsOf_ne_nil {F : Forest Tag} {parent : Option Nat} {base base' : Nat}
    (h : node ∈ nodesOf parent base F) : rootsOf base' F ≠ [] := by
  cases F with
  | nil => cases h
  | leaf tag next => exact cons_ne_nil _ _
  | node tag children close next => exact cons_ne_nil _ _

theorem nodesOf_lie : ∀ {F : Forest Tag} {lo hi : Nat} {parent : Option Nat} {base : Nat},
    F.Matched Tag.bracket → Ordered lo hi F.tokens → ∀ node ∈ nodesOf parent base F, node.Lies lo hi
  | .nil, _, _, _, _, _, _ => fun _ h => by cases h
  | .leaf tag next, lo, hi, parent, base, ⟨htag, hnext⟩, h => by
    obtain ⟨-, hself⟩ := bracket_single htag
    have hin := h.inside tag mem_cons_self
    refine forall_mem_cons.mpr ⟨?_, fun node hnode => ?_⟩
    · have hstop : (tag.toNode parent).stop = tag.stop := by simp [Tag.toNode, hself]
      exact ⟨hin.1, hin.2.1, Nat.le_refl _, by rw [hstop]; exact Nat.le_refl _,
        by rw [hstop]; exact hin.2.2⟩
    · exact (nodesOf_lie hnext h.tail node hnode).mono (by omega) (Nat.le_refl _)
  | .node tag children close next, lo, hi, parent, base, ⟨_, hchildren, hnext⟩, h => by
    have hin := h.inside tag mem_cons_self
    have hclose := h.inside close (mem_cons_of_mem _
      (mem_append_right _ mem_cons_self))
    have hbetween := (pairwise_cons.mp h.apart).1 close
      (mem_append_right _ mem_cons_self)
    obtain ⟨hinner, houter⟩ := h.content
    refine forall_mem_cons.mpr ⟨⟨hin.1, hin.2.1, hbetween, hclose.2.1.le, hclose.2.2⟩, ?_⟩
    refine forall_mem_append.mpr ⟨fun node hnode => ?_, fun node hnode => ?_⟩
    · exact (nodesOf_lie hchildren hinner node hnode).mono (by omega) (by omega)
    · exact (nodesOf_lie hnext houter node hnode).mono (by omega) (Nat.le_refl _)

theorem nodesOf_before : ∀ {F : Forest Tag} {lo hi : Nat} {parent : Option Nat} {base : Nat},
    F.Matched Tag.bracket → Ordered lo hi F.tokens →
      (nodesOf parent base F).Pairwise ElementNode.Before
  | .nil, _, _, _, _, _, _ => .nil
  | .leaf tag next, lo, hi, parent, base, ⟨htag, hnext⟩, h => by
    obtain ⟨-, hself⟩ := bracket_single htag
    refine .cons (fun node hnode => .inl ?_) (nodesOf_before hnext h.tail)
    have hstop : (tag.toNode parent).stop = tag.stop := by simp [Tag.toNode, hself]
    rw [hstop]
    exact (nodesOf_lie hnext h.tail node hnode).start
  | .node tag children close next, lo, hi, parent, base, ⟨_, hchildren, hnext⟩, h => by
    obtain ⟨hinner, houter⟩ := h.content
    have hclose := h.inside close (mem_cons_of_mem _
      (mem_append_right _ mem_cons_self))
    refine .cons (forall_mem_append.mpr ⟨fun node hnode => .inr ?_, fun node hnode => .inl ?_⟩) ?_
    · have hlies := nodesOf_lie hchildren hinner node hnode
      exact ⟨rootsOf_ne_nil hnode, hlies.start, hlies.stop⟩
    · exact (nodesOf_lie hnext houter node hnode).start
    · refine pairwise_append.mpr
        ⟨nodesOf_before hchildren hinner, nodesOf_before hnext houter, fun a ha b hb => .inl ?_⟩
      have := (nodesOf_lie hchildren hinner a ha).stop
      have := (nodesOf_lie hnext houter b hb).start
      omega

/-- The elements of a part: each lies in it, and a later one behind or inside an earlier one. -/
theorem buildTree_geometry {xml : Bytes} (h : buildTree (scanTags xml) = .ok nodes) :
    (∀ node ∈ nodes, node.Lies 0 xml.length) ∧ nodes.Pairwise ElementNode.Before := by
  obtain ⟨F, hmatched, htokens, rfl⟩ := exists_forest_of_buildTree h
  have hordered : Ordered 0 xml.length F.tokens := by
    rw [htokens]
    exact ordered_scanTags xml
  exact ⟨nodesOf_lie hmatched hordered, nodesOf_before hmatched hordered⟩

/-- Every element starts with a tag of its forest. -/
theorem exists_tag_of_mem_nodesOf : ∀ {F : Forest Tag} {parent : Option Nat} {base : Nat}
    {node : ElementNode}, node ∈ nodesOf parent base F →
      ∃ tag ∈ F.tokens, node.openStart = tag.start ∧ node.openEnd = tag.stop ∧ node.name = tag.name
  | .nil, _, _, _, h => by cases h
  | .leaf tag next, parent, base, node, h => by
    rcases mem_cons.mp h with rfl | h
    · exact ⟨tag, mem_cons_self, rfl, rfl, rfl⟩
    · obtain ⟨tag', htag, hplace⟩ := exists_tag_of_mem_nodesOf h
      exact ⟨tag', mem_cons_of_mem _ htag, hplace⟩
  | .node tag children close next, parent, base, node, h => by
    rcases mem_cons.mp h with rfl | h
    · exact ⟨tag, mem_cons_self, rfl, rfl, rfl⟩
    · rcases mem_append.mp h with h | h
      · obtain ⟨tag', htag, hplace⟩ := exists_tag_of_mem_nodesOf h
        exact ⟨tag', mem_cons_of_mem _ (mem_append_left _ htag), hplace⟩
      · obtain ⟨tag', htag, hplace⟩ := exists_tag_of_mem_nodesOf h
        exact ⟨tag', mem_cons_of_mem _ (mem_append_right _ (mem_cons_of_mem _ htag)),
          hplace⟩

/-- An element of a part starts at a `<`. -/
theorem head_drop_openStart {xml : Bytes} (h : buildTree (scanTags xml) = .ok nodes)
    (hnode : node ∈ nodes) : (xml.drop node.openStart).head? = some (byte '<') := by
  obtain ⟨F, -, htokens, rfl⟩ := exists_forest_of_buildTree h
  obtain ⟨tag, htag, hstart, -⟩ := exists_tag_of_mem_nodesOf hnode
  rw [htokens, scanTags_eq_scanAt] at htag
  obtain ⟨before, after, hsplit⟩ := append_of_mem htag
  obtain ⟨a, token, b, rfl, -, htoken, -, hplace, -⟩ := exists_split_of_scanAt hsplit
  rw [hstart, hplace, Nat.zero_add, drop_left]
  exact htoken.head_append b

end Docx2Typed
