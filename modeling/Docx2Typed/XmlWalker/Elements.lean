import Docx2Typed.XmlWalker.Tokens
import Docx2Typed.XmlWalker.Tree

/-!
# A row of elements, piece by piece

What stands between the start tag and the end tag of an element is a row of elements with bytes
between them.  Read from a part, the row is cut into complete pieces (`exists_items`); put together
from such pieces, it is read as these elements again (`exists_forest_of_items`).
-/

namespace Docx2Typed

open Library List

/-- An element of a row: where it lies, its local name, whether it holds no element. -/
structure ElementSpan where
  start : Nat
  stop : Nat
  name : String
  bare : Bool
  deriving DecidableEq, Repr

def ElementSpan.moved (k : Nat) (e : ElementSpan) : ElementSpan :=
  { e with start := k + e.start, stop := k + e.stop }

/-- The elements of a forest of tags. -/
def topSpans : Forest Tag → List ElementSpan
  | .nil => []
  | .leaf t next => ⟨t.start, t.stop, t.name, true⟩ :: topSpans next
  | .node o children c next => ⟨o.start, c.stop, o.name, children.tokens.isEmpty⟩ :: topSpans next

theorem topSpans_append (F G : Forest Tag) : topSpans (F.append G) = topSpans F ++ topSpans G := by
  induction F with
  | nil => rfl
  | leaf t next ih => exact congrArg (List.cons _) ih
  | node o children c next _ ih => exact congrArg (List.cons _) ih

/-- The same tags further on. -/
def movedForest (k : Nat) : Forest Tag → Forest Tag
  | .nil => .nil
  | .leaf t next => .leaf (t.moved k) (movedForest k next)
  | .node o children c next =>
    .node (o.moved k) (movedForest k children) (c.moved k) (movedForest k next)

theorem tokens_movedForest (k : Nat) (F : Forest Tag) :
    (movedForest k F).tokens = F.tokens.map (Tag.moved k) := by
  induction F with
  | nil => rfl
  | leaf t next ih => rw [movedForest, Forest.tokens_leaf, Forest.tokens_leaf, ih, map_cons]
  | node o children c next ihc ihn =>
    rw [movedForest, Forest.tokens_node, Forest.tokens_node, ihc, ihn, map_cons,
      map_append, map_cons]

theorem matched_movedForest (k : Nat) : ∀ {F : Forest Tag}, F.Matched Tag.bracket →
    (movedForest k F).Matched Tag.bracket
  | .nil, _ => trivial
  | .leaf _ _, h => ⟨h.1, matched_movedForest k h.2⟩
  | .node _ _ _ _, h => ⟨h.1, matched_movedForest k h.2.1, matched_movedForest k h.2.2⟩

theorem topSpans_movedForest (k : Nat) (F : Forest Tag) :
    topSpans (movedForest k F) = (topSpans F).map (ElementSpan.moved k) := by
  induction F with
  | nil => rfl
  | leaf t next ih => exact congrArg (List.cons _) ih
  | node o children c next _ ih =>
    rw [movedForest, topSpans, topSpans, ih, map_cons, tokens_movedForest, isEmpty_map]
    rfl

/-! ## The pieces -/

/-- One whole element. -/
structure IsElement (written : Bytes) (name : String) (bare : Bool) : Prop where
  complete : Complete written
  forest : ∃ F : Forest Tag, F.Matched Tag.bracket ∧ F.tokens = scanTags written ∧
    topSpans F = [⟨0, written.length, name, bare⟩]

/-- An element and the bytes in front of it. -/
structure Item where
  gap : Bytes
  written : Bytes
  name : String
  bare : Bool
  deriving DecidableEq

structure Item.Reads (x : Item) : Prop where
  gap : Complete x.gap
  noTag : scanTags x.gap = []
  element : IsElement x.written x.name x.bare

def itemsBytes (items : List Item) : Bytes := items.flatMap fun x => x.gap ++ x.written

def itemSpans (offset : Nat) : List Item → List ElementSpan
  | [] => []
  | x :: items =>
    ⟨offset + x.gap.length, offset + (x.gap ++ x.written).length, x.name, x.bare⟩ ::
      itemSpans (offset + (x.gap ++ x.written).length) items

theorem scanAt_eq_map (offset : Nat) (xml : Bytes) :
    scanAt offset xml = (scanTags xml).map (Tag.moved offset) := by
  rw [scanTags_eq_scanAt, ← scanAt_moved, Nat.add_zero]

theorem exists_forest_of_items : ∀ {items : List Item}, (∀ x ∈ items, x.Reads) → ∀ offset : Nat,
    Complete (itemsBytes items) ∧ ∃ K : Forest Tag, K.Matched Tag.bracket ∧
      scanAt offset (itemsBytes items) = K.tokens ∧ topSpans K = itemSpans offset items
  | [], _, offset => ⟨complete_plain plain_nil, .nil, trivial, scanAt_plain plain_nil offset, rfl⟩
  | x :: items, h, offset => by
    have hx := h x mem_cons_self
    obtain ⟨F, hF, htokens, hspans⟩ := hx.element.forest
    obtain ⟨hcomplete, K, hK, hscan, hK'⟩ :=
      exists_forest_of_items (fun y hy => h y (mem_cons_of_mem x hy))
        (offset + (x.gap ++ x.written).length)
    have hfront : Complete (x.gap ++ x.written) := hx.gap.append hx.element.complete
    refine ⟨hfront.append hcomplete, (movedForest (offset + x.gap.length) F).append K,
      (matched_movedForest _ hF).append hK, ?_, ?_⟩
    · show scanAt offset ((x.gap ++ x.written) ++ itemsBytes items) = _
      rw [hfront, hscan, hx.gap, scanAt_eq_map offset, hx.noTag, map_nil, nil_append,
        scanAt_eq_map, ← htokens, Forest.tokens_append, tokens_movedForest]
    · rw [topSpans_append, topSpans_movedForest, hspans, hK', itemSpans, map_singleton,
        singleton_append, length_append]
      simp only [ElementSpan.moved, Nat.add_zero, Nat.add_assoc]

theorem scanTags_token {token : Bytes} (h : IsToken token) {start stop : Nat} {tag : Tag}
    (hparse : parseTag token start stop = some tag) :
    scanTags token = [{ tag with start := 0, stop := token.length }] := by
  rw [scanTags_eq_scanAt, h.scanAt, parseTag_at token start stop, hparse, Option.map_some,
    Option.toList_some, Nat.zero_add]

/-- One tag alone. -/
theorem isElement_token {token : Bytes} (h : IsToken token) {start stop : Nat} {tag : Tag}
    (hparse : parseTag token start stop = some tag) (hsingle : tag.bracket = .single) :
    IsElement token tag.name true :=
  ⟨complete_token h, .leaf { tag with start := 0, stop := token.length } .nil, ⟨hsingle, trivial⟩,
    (scanTags_token h hparse).symm, rfl⟩

/-- A start tag, an end tag and what stands between them. -/
theorem isElement_node {opening inner closing : Bytes} (ho : IsToken opening) (hi : Complete inner)
    (hc : IsToken closing) {start stop start' stop' offset : Nat} {o c : Tag}
    {children : Forest Tag} (hopening : parseTag opening start stop = some o)
    (hclosing : parseTag closing start' stop' = some c)
    (hbracket : ∃ name, o.bracket = .opens name ∧ c.bracket = .closes name)
    (hchildren : children.Matched Tag.bracket) (hscan : scanAt offset inner = children.tokens) :
    IsElement (opening ++ (inner ++ closing)) o.name children.tokens.isEmpty := by
  have hnest : nest Tag.bracket [] (scanTags inner) = some [] := by
    have hmoved : ∀ (l : List Tag) (stack : List String),
        nest Tag.bracket stack (l.map (Tag.moved offset)) = nest Tag.bracket stack l := by
      intro l
      induction l with
      | nil => exact fun stack => rfl
      | cons t l ih =>
        intro stack
        rw [map_cons, nest_cons, nest_cons]
        exact Option.bind_congr fun stack' _ => ih stack'
    rw [← hmoved, ← scanAt_eq_map, hscan, nest_tokens hchildren]
  obtain ⟨F, hF, htokens⟩ := exists_forest_of_nest hnest
  have hempty : F.tokens.isEmpty = children.tokens.isEmpty := by
    rw [htokens, ← hscan, scanAt_eq_map, isEmpty_map]
  refine ⟨(complete_token ho).append (hi.append (complete_token hc)),
    .node { o with start := 0, stop := opening.length } (movedForest opening.length F)
      { c with start := opening.length + inner.length
               stop := opening.length + inner.length + closing.length } .nil,
    ⟨hbracket, matched_movedForest _ hF, trivial⟩, ?_, ?_⟩
  · have hwhole : scanTags (opening ++ (inner ++ closing)) = scanTags opening ++
        ((scanTags inner).map (Tag.moved opening.length) ++
          (scanTags closing).map (Tag.moved (opening.length + inner.length))) := by
      rw [scanTags_eq_scanAt, complete_token ho, hi, Nat.zero_add, scanAt_eq_map opening.length,
        scanAt_eq_map (opening.length + inner.length), scanTags_eq_scanAt opening]
    rw [Forest.tokens_node, tokens_movedForest, htokens, hwhole, scanTags_token ho hopening,
      scanTags_token hc hclosing]
    rfl
  · rw [topSpans, tokens_movedForest, isEmpty_map, hempty, length_append,
      length_append, Nat.add_assoc]
    rfl

/-- The row that a forest of tags is read from, cut into pieces. -/
theorem exists_items : ∀ {K : Forest Tag} {offset : Nat} {b : Bytes} {rest : List Tag},
    K.Matched Tag.bracket → scanAt offset b = K.tokens ++ rest →
      ∃ items v, b = itemsBytes items ++ v ∧ (∀ x ∈ items, x.Reads) ∧
        topSpans K = itemSpans offset items ∧
        scanAt (offset + (itemsBytes items).length) v = rest
  | .nil, _, b, _, _, h => ⟨[], b, rfl, by simp, rfl, h⟩
  | .leaf t next, offset, b, rest, hK, h => by
    obtain ⟨gap, token, b', rfl, hgap, htoken, hnone, hstart, hstop, hparse, hafter⟩ :=
      exists_split_of_scanAt (show scanAt offset b = [] ++ t :: (next.tokens ++ rest) from h)
    obtain ⟨items, v, rfl, hreads, hspans, hrest⟩ := exists_items hK.2 hafter
    have hitem : Item.Reads ⟨gap, token, t.name, true⟩ :=
      ⟨hgap, by simpa [scanAt_eq_map] using hnone, isElement_token htoken hparse hK.1⟩
    have hend : t.stop = offset + (gap ++ token).length := by
      rw [hstop, hstart, length_append, Nat.add_assoc]
    refine ⟨⟨gap, token, t.name, true⟩ :: items, v, ?_, ?_, ?_, ?_⟩
    · simp [itemsBytes]
    · simpa using ⟨hitem, hreads⟩
    · rw [topSpans, itemSpans, hspans, hend, hstart]
    · rw [← hrest, hend]
      simp [itemsBytes, Nat.add_assoc]
  | .node o children c next, offset, b, rest, hK, h => by
    obtain ⟨hbracket, hchildren, hnext⟩ := hK
    have hshape : scanAt offset b = [] ++ o :: (children.tokens ++ c :: (next.tokens ++ rest)) := by
      rw [h]
      simp
    obtain ⟨gap, opening, b', rfl, hgap, hopening, hnone, hstart, hstop, hparse, hinside⟩ :=
      exists_split_of_scanAt hshape
    obtain ⟨inner, closing, b'', rfl, hinner, hclosing, hscan, hstart', hstop', hparse', hafter⟩ :=
      exists_split_of_scanAt hinside
    obtain ⟨items, v, rfl, hreads, hspans, hrest⟩ := exists_items hnext hafter
    have helement := isElement_node hopening hinner hclosing hparse hparse' hbracket hchildren hscan
    have hitem : Item.Reads ⟨gap, opening ++ (inner ++ closing), o.name, children.tokens.isEmpty⟩ :=
      ⟨hgap, by simpa [scanAt_eq_map] using hnone, helement⟩
    have hend : c.stop = offset + (gap ++ (opening ++ (inner ++ closing))).length := by
      rw [hstop', hstart', hstop, hstart]
      simp only [length_append]
      omega
    refine ⟨⟨gap, opening ++ (inner ++ closing), o.name, children.tokens.isEmpty⟩ :: items, v,
      ?_, ?_, ?_, ?_⟩
    · simp [itemsBytes]
    · simpa using ⟨hitem, hreads⟩
    · rw [topSpans, itemSpans, hspans, hend, hstart]
    · rw [← hrest, hend]
      simp [itemsBytes, Nat.add_assoc]

end Docx2Typed
