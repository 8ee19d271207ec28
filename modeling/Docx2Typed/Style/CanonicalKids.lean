import Docx2Typed.Style.CanonicalSpelling
import Docx2Typed.Style.Opened

/-!
# The canonical form, child by child

The canonical form of a fragment is made of that of its root and those of its children, and a child
has the same one wherever it stands: `canonicalKids_eq` reads it off the bytes of the child alone.
-/

namespace Docx2Typed

open Library List
open Library.Utf8 (decodeLossy)

/-! ## Elements of a forest -/

/-- The canonical form of an element that lies here, with these children. -/
def canonSpan (raw : Bytes) (openStart openEnd stop : Nat) (children : List Canon) :
    Option Canon :=
  let name := decodeLossy (((slice raw openStart openEnd).drop 1).takeWhile fun b =>
    !(isAsciiWhitespace b || b == byte '>' || b == byte '/'))
  (rprAttributes (localOf name) (canonicalAttributePairs (slice raw openStart stop))).map
    fun attributes => canonElement name (sortPairs attributes) (sortByText canonPythonRepr children)

theorem canonicalElement_succ (raw : Bytes) (nodes : List ElementNode) (fuel : Nat)
    (node : ElementNode) : canonicalElement raw nodes (fuel + 1) node =
      canonSpan raw node.openStart node.openEnd node.stop
        ((node.children.filterMap fun i => nodes[i]?).filterMap
          (canonicalElement raw nodes fuel)) := by
  rw [canonicalElement, canonSpan]
  dsimp only [elementQname]
  generalize rprAttributes _ _ = read
  cases read with
  | none => rfl
  | some attributes => rfl

/-- The elements of a forest, by their names and canonical forms. -/
def canonForest (raw : Bytes) : Forest Tag → List (String × Option Canon)
  | .nil => []
  | .leaf t next => (t.name, canonSpan raw t.start t.stop t.stop []) :: canonForest raw next
  | .node o children c next =>
    (o.name, canonSpan raw o.start o.stop c.stop ((canonForest raw children).filterMap Prod.snd)) ::
      canonForest raw next

theorem canonForest_append (raw : Bytes) (F G : Forest Tag) :
    canonForest raw (F.append G) = canonForest raw F ++ canonForest raw G := by
  induction F with
  | nil => rfl
  | leaf t next ih => exact congrArg (List.cons _) ih
  | node o children c next _ ih => exact congrArg (List.cons _) ih

/-- The nodes numbered by the roots of a forest have the canonical forms of its elements. -/
theorem canon_nodes_rootsOf {raw : Bytes} : ∀ {K : Forest Tag} {parent : Option Nat}
    {base fuel : Nat} {nodes front back : List ElementNode}, K.Matched Tag.bracket →
      front.length = base → K.size ≤ fuel → nodes = front ++ (nodesOf parent base K ++ back) →
        ((rootsOf base K).filterMap fun i => nodes[i]?).map
          (fun node => (node.name, canonicalElement raw nodes fuel node)) = canonForest raw K
  | .nil, _, _, _, _, _, _, _, _, _, _ => rfl
  | .leaf t next, parent, base, fuel, nodes, front, back, hK, h, hfuel, hnodes => by
    have hlength : (front ++ [t.toNode parent]).length = base + 1 := by simp [h]
    rw [Forest.size] at hfuel
    obtain ⟨fuel, rfl⟩ : ∃ n, fuel = n + 1 := ⟨fuel - 1, by omega⟩
    have hsplit : nodes =
        (front ++ [t.toNode parent]) ++ (nodesOf parent (base + 1) next ++ back) := by
      rw [hnodes, nodesOf, append_assoc]
      rfl
    have hnext := @canon_nodes_rootsOf raw next parent (base + 1) (fuel + 1) nodes _ back hK.2
      hlength (by omega) hsplit
    have hhead : nodes[base]? = some (t.toNode parent) := by
      rw [hnodes, ← h, getElem?_append_right le_rfl, Nat.sub_self]
      rfl
    have hstop : (t.toNode parent).stop = t.stop := by simp [Tag.toNode, (bracket_single hK.1).2]
    rw [rootsOf, filterMap_cons, hhead]
    refine congrArg₂ List.cons (Prod.ext rfl ?_) hnext
    show canonicalElement raw nodes (fuel + 1) (t.toNode parent) = _
    rw [canonicalElement_succ, hstop]
    rfl
  | .node o children c next, parent, base, fuel, nodes, front, back, hK, h, hfuel, hnodes => by
    rw [Forest.size] at hfuel
    obtain ⟨fuel, rfl⟩ : ∃ n, fuel = n + 1 := ⟨fuel - 1, by omega⟩
    set own := elementNode parent base o children c with hown
    have hinside : (front ++ [own]).length = base + 1 := by simp [h]
    have hlength : (front ++ own :: nodesOf (some base) (base + 1) children).length =
        base + 1 + children.size := by
      rw [length_append, length_cons, length_nodesOf, h]
      omega
    have hchildren := @canon_nodes_rootsOf raw children (some base) (base + 1) fuel nodes _
      (nodesOf parent (base + 1 + children.size) next ++ back) hK.2.1 hinside (by omega) (by
        rw [hnodes, nodesOf]
        simp [hown])
    have hnext := @canon_nodes_rootsOf raw next parent (base + 1 + children.size) (fuel + 1) nodes _
      back hK.2.2 hlength (by omega) (by
        rw [hnodes, nodesOf]
        simp [hown])
    have hhead : nodes[base]? = some own := by
      rw [hnodes, ← h, getElem?_append_right le_rfl, Nat.sub_self, hown, nodesOf, h]
      rfl
    rw [rootsOf, filterMap_cons, hhead]
    refine congrArg₂ List.cons (Prod.ext rfl ?_) hnext
    show canonicalElement raw nodes (fuel + 1) own = _
    rw [canonicalElement_succ, ← hchildren, filterMap_map]
    rfl

/-- An element that stands further on has the same canonical form. -/
theorem canonForest_moved (front back : Bytes) {written : Bytes} : ∀ {F : Forest Tag},
    (∀ t ∈ F.tokens, t.stop ≤ written.length) →
      canonForest (front ++ (written ++ back)) (movedForest front.length F) = canonForest written F
  | .nil, _ => rfl
  | .leaf t next, h => by
    rw [Forest.tokens_leaf, forall_mem_cons] at h
    rw [movedForest, canonForest, canonForest, canonForest_moved front back h.2]
    have hslice : slice (front ++ (written ++ back)) (t.moved front.length).start
        (t.moved front.length).stop = slice written t.start t.stop := by
      show slice _ (front.length + t.start) (front.length + t.stop) = _
      rw [slice_append_right, slice_append_left _ _ h.1]
    rw [canonSpan, canonSpan, hslice]
    rfl
  | .node o children c next, h => by
    rw [Forest.tokens_node, forall_mem_cons, forall_mem_append, forall_mem_cons] at h
    obtain ⟨ho, hchildren, hc, hnext⟩ := h
    rw [movedForest, canonForest, canonForest, canonForest_moved front back hnext,
      canonForest_moved front back hchildren]
    have hopen : slice (front ++ (written ++ back)) (o.moved front.length).start
        (o.moved front.length).stop = slice written o.start o.stop := by
      show slice _ (front.length + o.start) (front.length + o.stop) = _
      rw [slice_append_right, slice_append_left _ _ ho]
    have hwhole : slice (front ++ (written ++ back)) (o.moved front.length).start
        (c.moved front.length).stop = slice written o.start c.stop := by
      show slice _ (front.length + o.start) (front.length + c.stop) = _
      rw [slice_append_right, slice_append_left _ _ hc]
    rw [canonSpan, canonSpan, hopen, hwhole]
    rfl

/-! ## Children by their bytes -/

/-- The canonical form of an element by itself. -/
def canonOf (written : Bytes) : Option Canon :=
  match buildTree (scanTags written) with
  | .ok nodes => nodes.head?.bind (canonicalElement written nodes nodes.length)
  | .error _ => none

theorem IsElement.canonForest {written : Bytes} {name : String} {bare : Bool} {F : Forest Tag}
    (hF : F.Matched Tag.bracket) (htokens : F.tokens = scanTags written)
    (hspans : topSpans F = [⟨0, written.length, name, bare⟩]) :
    canonForest written F = [(name, canonOf written)] := by
  have hcanon := @canon_nodes_rootsOf written F none 0 F.size (nodesOf none 0 F) [] [] hF rfl le_rfl
    (by simp)
  have hof : canonOf written = (nodesOf none 0 F).head?.bind
      (canonicalElement written (nodesOf none 0 F) F.size) := by
    rw [canonOf, ← htokens, buildTree_tokens hF]
    show (nodesOf none 0 F).head?.bind (canonicalElement _ _ (nodesOf none 0 F).length) = _
    rw [length_nodesOf]
  cases F with
  | nil => cases hspans
  | leaf t next =>
    obtain ⟨hspan, hnext⟩ := List.cons.inj hspans
    cases next with
    | nil =>
      rw [← hcanon, hof]
      have hname : t.name = name := congrArg ElementSpan.name hspan
      rw [← hname]
      rfl
    | leaf _ _ => cases hnext
    | node _ _ _ _ => cases hnext
  | node o children c next =>
    obtain ⟨hspan, hnext⟩ := List.cons.inj hspans
    cases next with
    | nil =>
      rw [← hcanon, hof]
      have hname : o.name = name := congrArg ElementSpan.name hspan
      rw [← hname]
      rfl
    | leaf _ _ => cases hnext
    | node _ _ _ _ => cases hnext

/-- The elements of a row have the canonical forms that they have by themselves. -/
theorem exists_canonForest_of_items : ∀ {items : List Item}, (∀ x ∈ items, x.Reads) →
    ∀ front back : Bytes, ∃ K : Forest Tag, K.Matched Tag.bracket ∧
      scanAt front.length (itemsBytes items) = K.tokens ∧
      canonForest (front ++ (itemsBytes items ++ back)) K =
        items.map fun x => (x.name, canonOf x.written)
  | [], _, front, _ => ⟨.nil, trivial, scanAt_plain plain_nil front.length, rfl⟩
  | x :: items, h, front, back => by
    have hx := h x mem_cons_self
    obtain ⟨F, hF, htokens, hspans⟩ := hx.element.forest
    obtain ⟨K, hK, hscan, hcanon⟩ := exists_canonForest_of_items
      (fun y hy => h y (mem_cons_of_mem x hy)) (front ++ (x.gap ++ x.written)) back
    have hfront : Complete (x.gap ++ x.written) := hx.gap.append hx.element.complete
    refine ⟨(movedForest (front ++ x.gap).length F).append K,
      (matched_movedForest _ hF).append hK, ?_, ?_⟩
    · show scanAt front.length ((x.gap ++ x.written) ++ itemsBytes items) = _
      rw [hfront, ← length_append, hscan, hx.gap, scanAt_eq_map front.length, hx.noTag,
        map_nil, nil_append, scanAt_eq_map, ← htokens, Forest.tokens_append,
        tokens_movedForest, length_append]
    · have hwithin : ∀ t ∈ F.tokens, t.stop ≤ x.written.length := fun t ht => by
        rw [htokens] at ht
        exact ((ordered_scanTags x.written).inside t ht).2.2
      have hmoved := canonForest_moved (front ++ x.gap) (itemsBytes items ++ back) hwithin
      have hbytes : front ++ (itemsBytes (x :: items) ++ back) =
          (front ++ x.gap) ++ (x.written ++ (itemsBytes items ++ back)) := by
        simp [itemsBytes]
      have hbytes' : front ++ (itemsBytes (x :: items) ++ back) =
          (front ++ (x.gap ++ x.written)) ++ (itemsBytes items ++ back) := by
        simp [itemsBytes]
      rw [canonForest_append, hbytes, hmoved, ← hbytes, hbytes', hcanon,
        IsElement.canonForest hF htokens hspans]
      rfl

/-- A child has the canonical form that its bytes have by themselves. -/
theorem RprFragment.canon_children {raw : Bytes} {f : RprFragment}
    (h : RprFragment.ofBytes raw = .ok f) :
    f.children.map (fun child =>
        (child.name, canonicalElement f.bytes f.nodes f.nodes.length child)) =
      f.kids.map fun kid => (kid.name, canonOf kid.written) := by
  obtain ⟨nodes, hnodes, h⟩ := bind_eq_ok h
  obtain ⟨root, hroot, h⟩ := bind_eq_ok h
  split at h
  · exact absurd h refuse_ne_ok
  obtain rfl := Except.ok.inj h
  obtain ⟨F, hF, htokens, rfl⟩ := exists_forest_of_buildTree hnodes
  rcases rootNode_nodesOf_eq_ok hroot with ⟨t, rfl, rfl⟩ | ⟨o, K, c, rfl, rfl⟩
  · rfl
  · obtain ⟨-, hK, -⟩ := hF
    have hshape : scanAt 0 raw = [] ++ o :: (K.tokens ++ [c]) := by
      rw [← scanTags_eq_scanAt, ← htokens]
      rfl
    obtain ⟨lead, opening, inner, hraw, hlead, hopening, -, hstart, hstop, -, hinside⟩ :=
      exists_split_of_scanAt hshape
    obtain ⟨items, v, hinner, hreads, hspans, hrest⟩ := exists_items hK hinside
    have hend : o.stop = (lead ++ opening).length := by
      rw [hstop, hstart, length_append, Nat.zero_add]
    have hbytes : raw = (lead ++ opening) ++ (itemsBytes items ++ v) := by
      rw [hraw, hinner, append_assoc]
    have hsits : nodesOf none 0 (.node o K c .nil) =
        [elementNode none 0 o K c] ++ (nodesOf (some 0) 1 K ++ []) := by
      simp [nodesOf]
    have hroots := @span_nodes_rootsOf K (some 0) 1 [elementNode none 0 o K c] [] hK rfl
    have hkids : RprFragment.kids
        { bytes := raw
          nodes := nodesOf none 0 (.node o K c .nil)
          root := elementNode none 0 o K c
          children := (elementNode none 0 o K c).children.filterMap fun i =>
            (nodesOf none 0 (.node o K c .nil))[i]? } = items.map Item.child := by
      refine RprFragment.kids_eq hbytes ?_
      rw [← hend, ← hspans, ← hroots, ← hsits]
      rfl
    obtain ⟨K', hK', hscan, hcanon⟩ := exists_canonForest_of_items hreads (lead ++ opening) v
    have hsame : K = K' := by
      obtain ⟨hcomplete, -⟩ := exists_forest_of_items hreads o.stop
      have htokens' : K.tokens ++ [c] = K'.tokens ++ [c] := by
        rw [← hinside, hinner, hcomplete, hrest, hend, hscan]
      exact Forest.Matched.eq_of_tokens hK hK' (append_cancel_right htokens')
    have hnodes' := @canon_nodes_rootsOf raw K (some 0) 1 (nodesOf none 0 (.node o K c .nil)).length
      (nodesOf none 0 (.node o K c .nil)) [elementNode none 0 o K c] [] hK rfl
      (by rw [length_nodesOf, Forest.size]; omega) hsits
    rw [hkids, map_map]
    refine hnodes'.trans ?_
    rw [hsame, hbytes, hcanon]
    rfl

/-! ## Fragments -/

/-- The children in their canonical form, without the format history. -/
def RprFragment.canonicalKids (f : RprFragment) : List Canon :=
  (f.children.filter (·.name ≠ "rPrChange")).filterMap
    (canonicalElement f.bytes f.nodes f.nodes.length)

def RprFragment.canonicalAttributes (f : RprFragment) : List (Text × Text) :=
  sortPairs ((canonicalAttributePairs (slice f.bytes f.root.openStart f.root.stop)).filter
    (!isRsid ·.1))

/-- The canonical form of a fragment with more children. -/
def RprFragment.canonicalWith (f : RprFragment) (more : List Canon) : Text :=
  canonicalJson (canonElement (elementQname f.bytes f.root) f.canonicalAttributes
    (sortByText canonPythonRepr (f.canonicalKids ++ more)))

/-- `canonical_rpr_json`, of a text given as its bytes. -/
def canonicalRpr (rpr : Bytes) : Outcome Text := do
  let fragment ← RprFragment.read rpr
  pure (fragment.canonicalWith [])

theorem canonicalRpr_utf8 (rpr : Text) : canonicalRpr (utf8 rpr) = canonicalRprJson rpr := by
  rw [canonicalRpr, canonicalRprJson, RprFragment.read_utf8]
  cases RprFragment.parse rpr with
  | error error => rfl
  | ok fragment =>
    show Except.ok (canonicalJson (canonElement _ _ (sortByText _ (_ ++ [])))) = _
    rw [append_nil]
    rfl

theorem canonicalRpr_eq_ok_iff {rpr : Bytes} {canonical : Text} :
    canonicalRpr rpr = .ok canonical ↔
      ∃ f, RprFragment.read rpr = .ok f ∧ f.canonicalWith [] = canonical := by
  rw [canonicalRpr]
  cases RprFragment.read rpr with
  | error error =>
    constructor
    · intro h
      cases h
    · rintro ⟨f, h, -⟩
      cases h
  | ok f =>
    constructor
    · intro h
      exact ⟨f, rfl, Except.ok.inj h⟩
    · rintro ⟨g, h, rfl⟩
      rw [← Except.ok.inj h]
      rfl

/-- The canonical children are those of the bytes of each child. -/
theorem RprFragment.canonicalKids_eq {rpr : Bytes} {f : RprFragment}
    (h : RprFragment.read rpr = .ok f) : f.canonicalKids =
      (f.kids.filter (·.name ≠ "rPrChange")).filterMap fun kid => canonOf kid.written := by
  have hpairs := RprFragment.canon_children h
  have hleft : f.canonicalKids = ((f.children.map fun child =>
      (child.name, canonicalElement f.bytes f.nodes f.nodes.length child)).filter
        (·.1 ≠ "rPrChange")).filterMap Prod.snd := by
    rw [filter_map, filterMap_map]
    rfl
  rw [hleft, hpairs, filter_map, filterMap_map]
  rfl

theorem canonElement_inj {name name' : Text} {attributes attributes' : List (Text × Text)}
    {children children' : List Canon} :
    canonElement name attributes children = canonElement name' attributes' children' ↔
      name = name' ∧ attributes = attributes' ∧ children = children' := by
  constructor
  · intro h
    simp only [canonElement, Canon.seq.injEq, List.cons.injEq, Canon.text.injEq, and_true,
      true_and] at h
    obtain ⟨hname, hattributes, hchildren⟩ := h
    refine ⟨hname, ?_, hchildren⟩
    have hinj : Function.Injective fun pair : Text × Text =>
        Canon.seq [.text pair.1, .text pair.2] := fun a b hab => by
      simp only [Canon.seq.injEq, List.cons.injEq, Canon.text.injEq, and_true] at hab
      exact Prod.ext hab.1 hab.2
    exact map_injective_iff.mpr hinj hattributes
  · rintro ⟨rfl, rfl, rfl⟩
    rfl

/-- Fragments are canonically equal when their roots are alike and their children are the same in
any order. -/
theorem RprFragment.canonicalWith_eq_iff {f g : RprFragment} {more more' : List Canon} :
    f.canonicalWith more = g.canonicalWith more' ↔
      elementQname f.bytes f.root = elementQname g.bytes g.root ∧
        f.canonicalAttributes = g.canonicalAttributes ∧
          (f.canonicalKids ++ more).Perm (g.canonicalKids ++ more') := by
  rw [canonicalWith, canonicalWith, canonicalJson_injective.eq_iff, canonElement_inj,
    sortByText_eq_iff]

/-- Two styles have one canonical form exactly when their roots are written alike and their
properties, but for recorded changes, are the same in any order. -/
theorem canonicalRpr_eq_iff {rpr rpr' : Bytes} {f g : RprFragment}
    (hf : RprFragment.read rpr = .ok f) (hg : RprFragment.read rpr' = .ok g) :
    canonicalRpr rpr = canonicalRpr rpr' ↔
      elementQname f.bytes f.root = elementQname g.bytes g.root ∧
        f.canonicalAttributes = g.canonicalAttributes ∧
        ((f.kids.filter (·.name ≠ "rPrChange")).filterMap fun kid => canonOf kid.written).Perm
          ((g.kids.filter (·.name ≠ "rPrChange")).filterMap fun kid => canonOf kid.written) := by
  have hform : canonicalRpr rpr = .ok (f.canonicalWith []) :=
    canonicalRpr_eq_ok_iff.mpr ⟨f, hf, rfl⟩
  have hform' : canonicalRpr rpr' = .ok (g.canonicalWith []) :=
    canonicalRpr_eq_ok_iff.mpr ⟨g, hg, rfl⟩
  rw [hform, hform', Except.ok.injEq, RprFragment.canonicalWith_eq_iff, append_nil,
    append_nil, RprFragment.canonicalKids_eq hf, RprFragment.canonicalKids_eq hg]

theorem boldItalic_canonicalRpr : ∃ f g,
    RprFragment.read (bytes "<w:rPr><w:b/><w:i/></w:rPr>") = .ok f ∧
    RprFragment.read (bytes "<w:rPr><w:i/><w:b/></w:rPr>") = .ok g ∧
    f.canonicalAttributes = g.canonicalAttributes ∧
    ((f.kids.filter (·.name ≠ "rPrChange")).filterMap fun kid => canonOf kid.written).Perm
      ((g.kids.filter (·.name ≠ "rPrChange")).filterMap fun kid => canonOf kid.written) := by
  have hform : canonicalRpr (bytes "<w:rPr><w:b/><w:i/></w:rPr>") =
      .ok "[\"w:rPr\",[],\"\",[[\"w:b\",[],\"\",[]],[\"w:i\",[],\"\",[]]]]".toList := by
    decide +kernel
  have hsame : canonicalRpr (bytes "<w:rPr><w:b/><w:i/></w:rPr>") =
      canonicalRpr (bytes "<w:rPr><w:i/><w:b/></w:rPr>") := by
    decide +kernel
  obtain ⟨f, hf, -⟩ := canonicalRpr_eq_ok_iff.mp hform
  obtain ⟨g, hg, -⟩ := canonicalRpr_eq_ok_iff.mp (hsame.symm.trans hform)
  exact ⟨f, g, hf, hg, ((canonicalRpr_eq_iff hf hg).mp hsame).2⟩

end Docx2Typed
