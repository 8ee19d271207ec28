import Docx2Typed.Style.Restyled
import Docx2Typed.XmlWalker.Elements

/-!
# The rebuilt fragment read again

A fragment is a start tag, a row of elements and an end tag, and so is what `restyled` makes of it.
`ofBytes_restyled`: the row of the result is that of the fragment, less the children with the name,
and with the element in front of the first child that comes later in the schema.
-/

namespace Docx2Typed

open Library List
open Library.Utf8 (decodeLossy)

/-! ## The children of a fragment -/

def ElementNode.span (node : ElementNode) : ElementSpan :=
  ⟨node.openStart, node.stop, node.name, node.children.isEmpty⟩

theorem isEmpty_rootsOf (base : Nat) (K : Forest Tag) :
    (rootsOf base K).isEmpty = K.tokens.isEmpty := by
  cases K with
  | nil => rfl
  | leaf t next => rfl
  | node o children c next => rfl

/-- The nodes numbered by the roots of a forest are its elements. -/
theorem span_nodes_rootsOf : ∀ {K : Forest Tag} {parent : Option Nat} {base : Nat}
    {front back : List ElementNode}, K.Matched Tag.bracket → front.length = base →
      ((rootsOf base K).filterMap fun i => (front ++ (nodesOf parent base K ++ back))[i]?).map
        ElementNode.span = topSpans K
  | .nil, _, _, _, _, _, _ => rfl
  | .leaf t next, parent, base, front, back, hK, h => by
    have hlength : (front ++ [t.toNode parent]).length = base + 1 := by simp [h]
    have hnext := @span_nodes_rootsOf next parent _ _ back hK.2 hlength
    rw [append_assoc, singleton_append] at hnext
    have hhead : (front ++ (t.toNode parent :: (nodesOf parent (base + 1) next ++ back)))[base]? =
        some (t.toNode parent) := by
      rw [← h, getElem?_append_right le_rfl, Nat.sub_self, getElem?_cons_zero]
    have hspan : (t.toNode parent).span = ⟨t.start, t.stop, t.name, true⟩ := by
      simp [ElementNode.span, Tag.toNode, (bracket_single hK.1).2]
    rw [rootsOf, nodesOf, cons_append, filterMap_cons, hhead]
    exact congrArg₂ List.cons hspan hnext
  | .node o children c next, parent, base, front, back, hK, h => by
    set own := elementNode parent base o children c
    have hlength : (front ++ own :: nodesOf (some base) (base + 1) children).length =
        base + 1 + children.size := by
      rw [length_append, length_cons, length_nodesOf, h]
      omega
    have hnext := @span_nodes_rootsOf next parent _ _ back hK.2.2 hlength
    rw [append_assoc, cons_append] at hnext
    have hhead : (front ++ (own :: (nodesOf (some base) (base + 1) children ++
        (nodesOf parent (base + 1 + children.size) next ++ back))))[base]? = some own := by
      rw [← h, getElem?_append_right le_rfl, Nat.sub_self, getElem?_cons_zero]
    have hspan : own.span = ⟨o.start, c.stop, o.name, children.tokens.isEmpty⟩ := by
      simp only [own, ElementNode.span, elementNode, isEmpty_rootsOf]
      rfl
    rw [rootsOf, nodesOf, cons_append, append_assoc, filterMap_cons, hhead]
    exact congrArg₂ List.cons hspan hnext

/-- Only the elements that nothing is around have no parent. -/
theorem filter_nodesOf_some : ∀ (p base : Nat) (K : Forest Tag),
    (nodesOf (some p) base K).filter (·.parent.isNone) = []
  | _, _, .nil => rfl
  | p, base, .leaf t next => by
    rw [nodesOf, filter_cons_of_neg (by simp [Tag.toNode]), filter_nodesOf_some]
  | p, base, .node o children c next => by
    rw [nodesOf, filter_cons_of_neg (by simp [elementNode, Tag.toNode]), filter_append,
      filter_nodesOf_some, filter_nodesOf_some, append_nil]

theorem rootNode_nodesOf_eq_ok {F : Forest Tag} {root : ElementNode}
    (h : rootNode (nodesOf none 0 F) = .ok root) :
    (∃ t, F = .leaf t .nil ∧ root = t.toNode none) ∨
      ∃ o children c, F = .node o children c .nil ∧ root = elementNode none 0 o children c := by
  have hnil : ∀ {base : Nat} {K : Forest Tag},
      (nodesOf none base K).filter (·.parent.isNone) = [] → K = .nil := by
    intro base K hK
    cases K with
    | nil => rfl
    | leaf t next => simp [nodesOf, Tag.toNode] at hK
    | node o children c next => simp [nodesOf, elementNode, Tag.toNode] at hK
  cases F with
  | nil => exact absurd h refuse_ne_ok
  | leaf t next =>
    rw [rootNode, nodesOf, filter_cons_of_pos (by rfl)] at h
    split at h
    next root' heq =>
      obtain ⟨rfl, hrest⟩ := List.cons.inj heq
      obtain rfl := Except.ok.inj h
      exact .inl ⟨t, by rw [hnil hrest], rfl⟩
    next => exact absurd h refuse_ne_ok
  | node o children c next =>
    rw [rootNode, nodesOf, filter_cons_of_pos (by rfl), filter_append,
      filter_nodesOf_some, nil_append] at h
    split at h
    next root' heq =>
      obtain ⟨rfl, hrest⟩ := List.cons.inj heq
      obtain rfl := Except.ok.inj h
      exact .inr ⟨o, children, c, by rw [hnil hrest], rfl⟩
    next => exact absurd h refuse_ne_ok

/-! ## A fragment in pieces -/

/-- The fragment is a start tag, a row of items, and what follows them up to the end tag. -/
structure RprFragment.Rows (f : RprFragment) (lead opening : Bytes) (items : List Item)
    (tail rear : Bytes) : Prop where
  bytes : f.bytes = lead ++ (opening ++ (itemsBytes items ++ (tail ++ rear)))
  openStart : f.root.openStart = lead.length
  openEnd : f.root.openEnd = (lead ++ opening).length
  reads : ∀ x ∈ items, x.Reads
  whole : Complete tail
  noTag : scanTags tail = []
  spans : f.children.map ElementNode.span = itemSpans (lead ++ opening).length items
  stop : (if f.root.selfClosing then f.root.openEnd else f.root.closeStart) =
    (lead ++ (opening ++ (itemsBytes items ++ tail))).length
  token : IsToken opening
  parsed : ∃ o : Tag, parseTag opening o.start o.stop = some o ∧ o.name = "rPr" ∧
    o.closing = false ∧ o.rawName = f.root.rawName

variable {f : RprFragment}

theorem RprFragment.exists_rows {raw : Bytes} (h : RprFragment.ofBytes raw = .ok f) :
    ∃ lead opening items tail rear,
      f.Rows lead opening items tail rear := by
  obtain ⟨nodes, hnodes, h⟩ := bind_eq_ok h
  obtain ⟨root, hroot, h⟩ := bind_eq_ok h
  split at h
  · exact absurd h refuse_ne_ok
  next hname =>
    rw [not_not] at hname
    obtain rfl := Except.ok.inj h
    obtain ⟨F, hF, htokens, rfl⟩ := exists_forest_of_buildTree hnodes
    rcases rootNode_nodesOf_eq_ok hroot with ⟨t, rfl, rfl⟩ | ⟨o, children, c, rfl, rfl⟩
    · -- a self-closing root
      obtain ⟨lead, opening, rear, hraw, hlead, hopening, -, hstart, hstop, hparse, -⟩ :=
        exists_split_of_scanAt (show scanAt 0 raw = [] ++ t :: [] from htokens.symm)
      have hself := (bracket_single hF.1).2
      rw [Nat.zero_add] at hstart
      refine ⟨lead, opening, [], [], rear, hraw, hstart, ?_, by simp, complete_plain plain_nil, rfl,
        rfl, ?_, hopening, t, hparse, hname, (bracket_single hF.1).1, rfl⟩
      · show t.stop = _
        rw [hstop, hstart, length_append]
      · show (if t.selfClosing then t.stop else t.stop) = _
        rw [ite_self, hstop, hstart]
        simp [itemsBytes]
    · obtain ⟨hbracket, hchildren, -⟩ := hF
      have hshape : scanAt 0 raw = [] ++ o :: (children.tokens ++ [c]) := by
        rw [← scanTags_eq_scanAt, ← htokens]
        rfl
      obtain ⟨lead, opening, inner, hraw, hlead, hopening, -, hstart, hstop, hparse, hinside⟩ :=
        exists_split_of_scanAt hshape
      obtain ⟨items, v, hinner, hreads, hspans, hrest⟩ := exists_items hchildren hinside
      obtain ⟨tail, closing, after, hv, htail, -, hnone, hcstart, -, -, -⟩ :=
        exists_split_of_scanAt (show scanAt _ v = [] ++ c :: [] from hrest)
      rw [Nat.zero_add] at hstart
      obtain ⟨name, hopens, hcloses⟩ := hbracket
      have hself : o.selfClosing = false := (bracket_opens hopens).2.1
      have hend : o.stop = (lead ++ opening).length := by
        rw [hstop, hstart, length_append]
      refine ⟨lead, opening, items, tail, closing ++ after, ?_, hstart, hend, hreads, htail, ?_, ?_,
        ?_, hopening, o, hparse, hname, (bracket_opens hopens).1, rfl⟩
      · rw [hraw, hinner, hv]
      · simpa [scanAt_eq_map] using hnone
      · rw [← hend, ← hspans]
        have hroots := @span_nodes_rootsOf children (some 0) 1
          [elementNode none 0 o children c] [] hchildren rfl
        simpa [nodesOf, elementNode] using hroots
      · show (if o.selfClosing then o.stop else c.start) = _
        rw [hself, if_neg Bool.false_ne_true, hcstart, hend]
        simp only [length_append]
        omega

/-! ## What the rebuilding writes -/

/-- The row of the rebuilt fragment, and the bytes left in front of its end; `carry` are the bytes
written since the last element. -/
def rebuiltItems (name : String) (element : Option Bytes) (carry : Bytes) :
    List Item → List Item × Bytes
  | [] =>
    match element with
    | some text => ([⟨carry, text, name, true⟩], [])
    | none => ([], carry)
  | x :: items =>
    if x.name = name then rebuiltItems name element (carry ++ x.gap) items
    else
      let kept := fun element gap =>
        let r := rebuiltItems name element [] items
        ({ x with gap := gap } :: r.1, r.2)
      match element with
      | some text =>
        if rprSchemaPosition name < rprSchemaPosition x.name then
          let r := kept none []
          (⟨carry ++ x.gap, text, name, true⟩ :: r.1, r.2)
        else kept (some text) (carry ++ x.gap)
      | none => kept none (carry ++ x.gap)

theorem slice_from (a b c : Bytes) {start stop : Nat} (hstart : start = a.length)
    (hstop : stop = a.length + b.length) : slice (a ++ (b ++ c)) start stop = b := by
  have h := slice_append_right a (b ++ c) 0 b.length
  rw [Nat.add_zero] at h
  rw [hstart, hstop, h, slice, take_left, drop_zero]

section Fold

variable {f : RprFragment} {name : String} {element : Option Bytes}

/-- One child that is kept. -/
theorem rebuildStep_kept {s : RprFragment.Rebuild} {child : ElementNode} (h : child.name ≠ name) :
    f.rebuildStep name element s child =
      if s.placed = false ∧ element.isSome = true ∧
          rprSchemaPosition name < rprSchemaPosition child.name then
        { out := s.out ++ slice f.bytes s.cursor child.openStart ++ element.getD [] ++
            slice f.bytes child.openStart child.stop
          cursor := child.stop, lastKeptEnd := child.stop, placed := true }
      else
        { s with
          out := s.out ++ slice f.bytes s.cursor child.stop
          cursor := child.stop, lastKeptEnd := child.stop } := by
  unfold RprFragment.rebuildStep
  rw [if_neg h]
  cases element with
  | none => simp
  | some text =>
    by_cases hplaces : s.placed = false ∧ rprSchemaPosition name < rprSchemaPosition child.name
    · simp [hplaces.1, hplaces.2]
    · rw [if_neg (fun hall => hplaces ⟨hall.1, hall.2.2⟩)]
      simp only [hplaces, if_false]

theorem foldl_rebuildStep {rear tail : Bytes} : ∀ {items : List Item} {children : List ElementNode}
    {A : Bytes} (O carry : Bytes) (s : RprFragment.Rebuild),
    f.bytes = A ++ (itemsBytes items ++ (tail ++ rear)) →
    children.map ElementNode.span = itemSpans A.length items → s.cursor = A.length →
    s.lastKeptEnd ≤ s.cursor → s.out = O ++ carry →
      ((children.foldl (f.rebuildStep name element) s).place f element).out ++
          slice f.bytes ((children.foldl (f.rebuildStep name element) s).place f element).cursor
            (A ++ (itemsBytes items ++ tail)).length =
        O ++ (itemsBytes (rebuiltItems name (if s.placed then none else element) carry items).1 ++
          ((rebuiltItems name (if s.placed then none else element) carry items).2 ++ tail))
  | [], children, A, O, carry, s, hbytes, hspans, hcursor, hlast, hout => by
    obtain rfl : children = [] := map_eq_nil_iff.mp hspans
    have htail : slice f.bytes s.cursor (A.length + tail.length) = tail := by
      rw [hbytes]
      exact slice_from A tail rear hcursor rfl
    rw [foldl_nil]
    cases element with
    | none => simp [RprFragment.Rebuild.place, htail, hout, rebuiltItems, itemsBytes]
    | some text =>
      cases hplaced : s.placed with
      | true => simp [RprFragment.Rebuild.place, hplaced, htail, hout, rebuiltItems, itemsBytes]
      | false =>
        have hself : slice f.bytes s.cursor s.cursor = [] :=
          drop_eq_nil_of_le (length_take_le _ _)
        simp [RprFragment.Rebuild.place, hplaced, htail, hout, rebuiltItems, itemsBytes,
          Nat.max_eq_right hlast, hself]
  | x :: items, children, A, O, carry, s, hbytes, hspans, hcursor, hlast, hout => by
    obtain ⟨child, children, rfl, hchild, hspans⟩ := map_eq_cons_iff.mp hspans
    simp only [ElementNode.span, ElementSpan.mk.injEq] at hchild
    obtain ⟨hstart, hstop, hname, -⟩ := hchild
    have hA : (A ++ (x.gap ++ x.written)).length = child.stop := by
      rw [hstop, length_append]
    have hbytes' : f.bytes =
        (A ++ (x.gap ++ x.written)) ++ (itemsBytes items ++ (tail ++ rear)) := by
      rw [hbytes]
      simp [itemsBytes]
    have hend : (A ++ (itemsBytes (x :: items) ++ tail)).length =
        ((A ++ (x.gap ++ x.written)) ++ (itemsBytes items ++ tail)).length := by
      simp [itemsBytes]
    have hspans' : children.map ElementNode.span =
        itemSpans (A ++ (x.gap ++ x.written)).length items := by
      rw [hspans]
      simp only [length_append]
    have hgap : slice f.bytes s.cursor child.openStart = x.gap := by
      rw [hbytes, itemsBytes, flatMap_cons, append_assoc, append_assoc]
      exact slice_from A x.gap _ hcursor hstart
    have hwritten : slice f.bytes child.openStart child.stop = x.written := by
      rw [hbytes, itemsBytes, flatMap_cons, append_assoc, append_assoc,
        ← append_assoc A]
      refine slice_from (A ++ x.gap) x.written _ ?_ ?_
      · rw [hstart, length_append]
      · rw [hstop]
        simp only [length_append]
        omega
    have hboth : slice f.bytes s.cursor child.stop = x.gap ++ x.written := by
      rw [hbytes, itemsBytes, flatMap_cons, append_assoc]
      exact slice_from A (x.gap ++ x.written) _ hcursor hstop
    have hle : s.cursor ≤ child.stop := by
      rw [hcursor, hstop]
      omega
    rw [hend, foldl_cons, rebuiltItems]
    by_cases hsame : x.name = name
    · -- taken out
      have hstep : f.rebuildStep name element s child =
          { s with
            out := s.out ++ slice f.bytes s.cursor child.openStart
            cursor := child.stop } := by
        unfold RprFragment.rebuildStep
        rw [if_pos (hname.trans hsame)]
      rw [if_pos hsame, hstep]
      exact foldl_rebuildStep O (carry ++ x.gap) _ hbytes' hspans' hA.symm (hlast.trans hle)
        (by rw [hgap, hout, append_assoc])
    rw [if_neg hsame, rebuildStep_kept (fun h => hsame (hname.symm.trans h)), hname]
    by_cases hplaces : s.placed = false ∧ element.isSome = true ∧
        rprSchemaPosition name < rprSchemaPosition x.name
    · -- the element goes in front of this child
      have hrest := foldl_rebuildStep (O ++ (carry ++ x.gap ++ element.getD [] ++ x.written)) []
        { out := s.out ++ slice f.bytes s.cursor child.openStart ++ element.getD [] ++
            slice f.bytes child.openStart child.stop
          cursor := child.stop, lastKeptEnd := child.stop, placed := true }
        hbytes' hspans' hA.symm le_rfl (by simp [hgap, hwritten, hout])
      rw [if_pos hplaces, hrest]
      obtain ⟨hplaced, hsome, hlt⟩ := hplaces
      obtain ⟨text, rfl⟩ := Option.isSome_iff_exists.mp hsome
      simp [hplaced, hlt, itemsBytes]
    · rw [if_neg hplaces]
      have hrest := foldl_rebuildStep (O ++ (carry ++ x.gap ++ x.written)) []
        { s with
          out := s.out ++ slice f.bytes s.cursor child.stop
          cursor := child.stop, lastKeptEnd := child.stop }
        hbytes' hspans' hA.symm le_rfl (by simp [hboth, hout])
      rw [hrest]
      cases hplaced : s.placed with
      | true => simp [itemsBytes]
      | false =>
        cases element with
        | none => simp [itemsBytes]
        | some text =>
          have hnot : ¬ rprSchemaPosition name < rprSchemaPosition x.name := fun hlt =>
            hplaces ⟨hplaced, rfl, hlt⟩
          simp [hnot, itemsBytes]

end Fold

/-- The bytes in front of the first child are not kept. -/
def withoutFirstGap : List Item → List Item
  | [] => []
  | x :: items => { x with gap := [] } :: items

/-- The row of the rebuilt fragment. -/
def newItems (name : String) (element : Option Bytes) (items : List Item) : List Item × Bytes :=
  rebuiltItems name element [] (withoutFirstGap items)

variable {items : List Item}

theorem RprFragment.restyled_of_region {tail : Bytes} (A rear : Bytes) (name : String)
    (element : Option Bytes) (hbytes : f.bytes = A ++ (itemsBytes items ++ (tail ++ rear)))
    (hspans : f.children.map ElementNode.span = itemSpans A.length items)
    (hstart : f.childrenRegion.1 = A.length)
    (hstop : f.childrenRegion.2 = (A ++ (itemsBytes items ++ tail)).length) :
    f.restyled name element = f.openForm ++ (itemsBytes (rebuiltItems name element [] items).1 ++
      ((rebuiltItems name element [] items).2 ++ tail)) ++ f.closeForm := by
  have hfold : ∀ start : Bytes,
      ((f.children.foldl (f.rebuildStep name element)
          ⟨start, f.childrenRegion.1, f.childrenRegion.1, false⟩).place f element).out ++
        slice f.bytes ((f.children.foldl (f.rebuildStep name element)
          ⟨start, f.childrenRegion.1, f.childrenRegion.1, false⟩).place f element).cursor
            (A ++ (itemsBytes items ++ tail)).length =
        start ++ (itemsBytes (rebuiltItems name element [] items).1 ++
          ((rebuiltItems name element [] items).2 ++ tail)) := fun start =>
    foldl_rebuildStep start [] ⟨start, f.childrenRegion.1, f.childrenRegion.1, false⟩ hbytes hspans
      hstart le_rfl (append_nil start).symm
  rw [← hfold, ← hstop]
  rfl

theorem RprFragment.Rows.restyled_eq {lead opening tail rear : Bytes}
    (h : f.Rows lead opening items tail rear) (name : String) (element : Option Bytes) :
    f.restyled name element = f.openForm ++ (itemsBytes (newItems name element items).1 ++
      ((newItems name element items).2 ++ tail)) ++ f.closeForm := by
  have hstop : f.childrenRegion.2 = (lead ++ (opening ++ (itemsBytes items ++ tail))).length :=
    h.stop
  cases items with
  | nil =>
    have hchildren : f.children = [] := map_eq_nil_iff.mp h.spans
    refine f.restyled_of_region _ rear name element ((h.bytes).trans (append_assoc _ _ _).symm)
      h.spans ?_ ?_
    · rw [RprFragment.childrenRegion, hchildren]
      exact h.openEnd
    · rw [hstop, ← append_assoc lead]
      rfl
  | cons x items =>
    obtain ⟨child, children, hchildren, hchild, -⟩ := map_eq_cons_iff.mp h.spans
    refine f.restyled_of_region ((lead ++ opening) ++ x.gap) rear name element ?_ ?_ ?_ ?_
    · rw [h.bytes]
      simp [itemsBytes, withoutFirstGap]
    · rw [h.spans, withoutFirstGap, itemSpans, itemSpans]
      simp [Nat.add_assoc]
    · simp only [ElementNode.span, ElementSpan.mk.injEq] at hchild
      rw [RprFragment.childrenRegion, hchildren, length_append]
      exact hchild.1
    · rw [hstop]
      simp [itemsBytes, withoutFirstGap]

/-! ## Children as they are written -/

/-- A child of a fragment: its local name, its bytes, whether it holds no element. -/
structure RprChild where
  name : String
  written : Bytes
  bare : Bool
  deriving DecidableEq

def RprFragment.kids (f : RprFragment) : List RprChild :=
  f.children.map fun child =>
    ⟨child.name, slice f.bytes child.openStart child.stop, child.children.isEmpty⟩

def Item.child (x : Item) : RprChild := ⟨x.name, x.written, x.bare⟩

theorem map_itemSpans {R : Bytes} : ∀ {items : List Item} {A bytes : Bytes},
    bytes = A ++ (itemsBytes items ++ R) →
      (itemSpans A.length items).map
          (fun e => (⟨e.name, slice bytes e.start e.stop, e.bare⟩ : RprChild)) =
        items.map Item.child
  | [], _, _, _ => rfl
  | x :: items, A, bytes, h => by
    have hbytes : bytes = (A ++ (x.gap ++ x.written)) ++ (itemsBytes items ++ R) := by
      rw [h]
      simp [itemsBytes]
    have hrest := map_itemSpans hbytes
    have hwritten : slice bytes (A.length + x.gap.length) (A.length + (x.gap ++ x.written).length) =
        x.written := by
      rw [h, itemsBytes, flatMap_cons, append_assoc, append_assoc,
        ← append_assoc A]
      refine slice_from (A ++ x.gap) x.written _ length_append.symm ?_
      simp only [length_append]
      omega
    rw [length_append] at hrest
    rw [itemSpans, map_cons, map_cons, hrest]
    simp only [hwritten]
    rfl

theorem RprFragment.kids_eq {A R : Bytes} (hbytes : f.bytes = A ++ (itemsBytes items ++ R))
    (hspans : f.children.map ElementNode.span = itemSpans A.length items) :
    f.kids = items.map Item.child := by
  rw [← map_itemSpans hbytes, ← hspans, map_map]
  rfl

/-- The children without those of a name, and with one in front of the first that comes later. -/
def replaceChild (name : String) (new : Option RprChild) : List RprChild → List RprChild
  | [] => new.toList
  | x :: kids =>
    if x.name = name then replaceChild name new kids
    else
      match new with
      | some child =>
        if rprSchemaPosition name < rprSchemaPosition x.name then
          child :: x :: replaceChild name none kids
        else x :: replaceChild name (some child) kids
      | none => x :: replaceChild name none kids

theorem child_rebuiltItems (name : String) : ∀ (items : List Item) (element : Option Bytes)
    (carry : Bytes), (rebuiltItems name element carry items).1.map Item.child =
      replaceChild name (element.map fun text => ⟨name, text, true⟩) (items.map Item.child)
  | [], element, carry => by
    cases element with
    | none => rfl
    | some text => rfl
  | x :: items, element, carry => by
    have ih := child_rebuiltItems name items
    have hname : x.child.name = x.name := rfl
    cases element with
    | none =>
      rw [rebuiltItems, map_cons, Option.map_none, replaceChild, hname]
      split
      · exact ih none _
      · exact congrArg (List.cons _) (ih none [])
    | some text =>
      rw [rebuiltItems, map_cons, Option.map_some, replaceChild, hname]
      split
      · exact ih (some text) _
      dsimp only
      split
      · exact congrArg₂ List.cons rfl (congrArg (List.cons _) (ih none []))
      · exact congrArg (List.cons _) (ih (some text) [])

theorem child_withoutFirstGap (items : List Item) :
    (withoutFirstGap items).map Item.child = items.map Item.child := by
  cases items with
  | nil => rfl
  | cons x items => rfl

/-- Bytes without a tag that nothing is open behind. -/
def IsGap (gap : Bytes) : Prop := Complete gap ∧ scanTags gap = []

theorem isGap_nil : IsGap [] := ⟨complete_plain plain_nil, rfl⟩

theorem IsGap.append {a b : Bytes} (ha : IsGap a) (hb : IsGap b) : IsGap (a ++ b) := by
  refine ⟨ha.1.append hb.1, ?_⟩
  rw [scanTags_eq_scanAt, ha.1, ← scanTags_eq_scanAt, ha.2, scanAt_eq_map, hb.2]
  rfl

theorem reads_rebuiltItems {name : String} : ∀ {items : List Item} (element : Option Bytes)
    {carry : Bytes}, (∀ x ∈ items, x.Reads) → IsGap carry →
      (∀ text ∈ element, IsElement text name true) →
      (∀ x ∈ (rebuiltItems name element carry items).1, x.Reads) ∧
        IsGap (rebuiltItems name element carry items).2
  | [], element, carry, _, hcarry, helement => by
    cases element with
    | none => exact ⟨by simp [rebuiltItems], hcarry⟩
    | some text =>
      refine ⟨?_, isGap_nil⟩
      intro x hx
      obtain rfl := mem_singleton.mp hx
      exact ⟨hcarry.1, hcarry.2, helement text rfl⟩
  | x :: items, element, carry, h, hcarry, helement => by
    have hx := h x mem_cons_self
    have hgap : IsGap (carry ++ x.gap) := hcarry.append ⟨hx.gap, hx.noTag⟩
    have hitems : ∀ y ∈ items, y.Reads := fun y hy => h y (mem_cons_of_mem x hy)
    have hkept : ∀ {gap : Bytes}, IsGap gap → Item.Reads { x with gap := gap } := fun hgap =>
      ⟨hgap.1, hgap.2, hx.element⟩
    rw [rebuiltItems]
    by_cases hsame : x.name = name
    · rw [if_pos hsame]
      exact reads_rebuiltItems element hitems hgap helement
    rw [if_neg hsame]
    cases element with
    | none =>
      obtain ⟨hreads, hlast⟩ := reads_rebuiltItems none hitems isGap_nil helement
      exact ⟨forall_mem_cons.mpr ⟨hkept hgap, hreads⟩, hlast⟩
    | some text =>
      dsimp only
      split
      · obtain ⟨hreads, hlast⟩ := reads_rebuiltItems none hitems isGap_nil (by simp)
        exact ⟨forall_mem_cons.mpr ⟨⟨hgap.1, hgap.2, helement text rfl⟩,
          forall_mem_cons.mpr ⟨hkept isGap_nil, hreads⟩⟩, hlast⟩
      · obtain ⟨hreads, hlast⟩ := reads_rebuiltItems (some text) hitems isGap_nil helement
        exact ⟨forall_mem_cons.mpr ⟨hkept hgap, hreads⟩, hlast⟩

/-! ## Reading a start tag, a row and an end tag -/

theorem buildTree_tokens {F : Forest Tag} (hF : F.Matched Tag.bracket) :
    buildTree F.tokens = .ok (nodesOf none 0 F) := by
  have hfold := foldlM_buildStep hF [] [] (by simp [TopIn])
  rw [buildTree, bind_ok hfold]
  simp [link]
  rfl

theorem rootNode_node (o c : Tag) (K : Forest Tag) :
    rootNode (nodesOf none 0 (.node o K c .nil)) = .ok (elementNode none 0 o K c) := by
  rw [rootNode, nodesOf, filter_cons_of_pos (by rfl), filter_append, filter_nodesOf_some]
  rfl

variable {opening closing tail : Bytes}

/-- The tags of a start tag, a row, a gap and an end tag. -/
theorem scanTags_row {o c : Tag} (ho : IsToken opening) (hc : IsToken closing)
    (hopening : tokenTag opening = some o) (hclosing : tokenTag closing = some c)
    (hreads : ∀ x ∈ items, x.Reads) (htail : IsGap tail) :
    ∃ K : Forest Tag, K.Matched Tag.bracket ∧ topSpans K = itemSpans opening.length items ∧
      scanTags (opening ++ (itemsBytes items ++ (tail ++ closing))) =
        { o with start := 0, stop := opening.length } :: (K.tokens ++
          [{ c with
             start := opening.length + (itemsBytes items ++ tail).length
             stop := opening.length + (itemsBytes items ++ tail).length + closing.length }]) := by
  obtain ⟨hitems, K, hK, hscan, hspans⟩ := exists_forest_of_items hreads opening.length
  refine ⟨K, hK, hspans, ?_⟩
  rw [scanTags_eq_scanAt, complete_token ho, hitems, htail.1, Nat.zero_add, hscan,
    scanAt_eq_map (opening.length + _) tail, htail.2, ← scanTags_eq_scanAt,
    scanTags_token ho hopening, scanAt_eq_map, scanTags_token hc hclosing]
  simp [Tag.moved, Nat.add_assoc]

theorem RprFragment.ofBytes_of_rows {o c : Tag} (ho : IsToken opening) (hc : IsToken closing)
    (hopening : tokenTag opening = some o) (hclosing : tokenTag closing = some c)
    (hopens : o.bracket = .opens "rPr") (hcloses : c.bracket = .closes "rPr")
    (hreads : ∀ x ∈ items, x.Reads) (htail : IsGap tail) :
    ∃ f, RprFragment.ofBytes (opening ++ (itemsBytes items ++ (tail ++ closing))) = .ok f ∧
      f.bytes = opening ++ (itemsBytes items ++ (tail ++ closing)) ∧
      f.children.map ElementNode.span = itemSpans opening.length items ∧
      f.root.openStart = 0 ∧ f.root.openEnd = opening.length ∧ f.root.rawName = o.rawName := by
  obtain ⟨K, hK, hspans, hscan⟩ := scanTags_row ho hc hopening hclosing hreads htail
  set o' : Tag := { o with start := 0, stop := opening.length }
  set c' : Tag :=
    { c with start := opening.length + (itemsBytes items ++ tail).length
             stop := opening.length + (itemsBytes items ++ tail).length + closing.length }
  have hF : (Forest.node o' K c' .nil).Matched Tag.bracket :=
    ⟨⟨"rPr", hopens, hcloses⟩, hK, trivial⟩
  have htokens : scanTags (opening ++ (itemsBytes items ++ (tail ++ closing))) =
      (Forest.node o' K c' .nil).tokens := hscan
  have hname : o.name = "rPr" := by
    have := (bracket_opens hopens).2.2
    exact this
  refine ⟨{ bytes := opening ++ (itemsBytes items ++ (tail ++ closing))
            nodes := nodesOf none 0 (.node o' K c' .nil)
            root := elementNode none 0 o' K c'
            children := (rootsOf 1 K).filterMap fun i =>
              (nodesOf none 0 (.node o' K c' .nil))[i]? },
    ?_, rfl, ?_, rfl, rfl, rfl⟩
  · rw [RprFragment.ofBytes, htokens, bind_ok (buildTree_tokens hF),
      bind_ok (rootNode_node o' c' K)]
    exact if_neg (not_not.mpr hname)
  · rw [← hspans]
    have hroots := @span_nodes_rootsOf K (some 0) 1 [elementNode none 0 o' K c'] [] hK rfl
    simpa [nodesOf] using hroots

end Docx2Typed
