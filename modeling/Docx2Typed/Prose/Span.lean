import Docx2Typed.Prose.Extract
import Mathlib.Data.List.Sort

/-!
# Spans across runs

`match_leaf_span_at`: where a text stands in the leaves of a paragraph, and which share of it each
leaf carries.  The text is searched for in the characters of the leaves; an anchored search is
told where it starts, counted in the characters the projection shows.
-/

namespace Docx2Typed

open Library (findSub)

/-- One leaf's share of a match that crosses runs. -/
structure SpanCover where
  leafIndex : Nat
  covered : Text
  deriving DecidableEq, Repr

/-- A match of a text inside one paragraph's leaves. -/
structure LeafSpanMatch where
  firstLeaf : Nat
  lastLeaf : Nat
  /-- Text in the first leaf before the match. -/
  prefixText : Text
  /-- Text in the last leaf after the match. -/
  suffixText : Text
  /-- The covered portion of every leaf from the first to the last, in order. -/
  covers : List SpanCover
  deriving DecidableEq, Repr

/-- `text[lo..hi]`, in characters. -/
def takeText (text : Text) (lo hi : Nat) : Text := (text.drop lo).take (hi - lo)

/-- The share of the leaf `offset` leaves behind the first one. -/
def coverOf (lastOffset head covered tail offset : Nat) (leaf : ProseLeaf) : SpanCover :=
  let len := leaf.text.length
  let range :=
    if offset = 0 ∧ offset = lastOffset then (head, head + covered)
    else if offset = 0 then (head, len)
    else if offset = lastOffset then (0, tail)
    else (0, len)
  ⟨leaf.leafIndex, takeText leaf.text range.1 (min range.2 len)⟩

/-- `span_match_from`: the match in `leaves`, all of which it covers.  It begins `head` characters
into the first and is `covered` characters long; the last begins after `beforeLast`. -/
def spanMatchFrom (leaves : List ProseLeaf) (first last : ProseLeaf)
    (head covered beforeLast : Nat) : LeafSpanMatch :=
  let tail := head + covered - beforeLast
  { firstLeaf := first.leafIndex
    lastLeaf := last.leafIndex
    prefixText := takeText first.text 0 head
    suffixText := takeText last.text tail last.text.length
    covers := leaves.mapIdx (coverOf (leaves.length - 1) head covered tail) }

/-- Where the text stands in the accumulated leaves: at the anchor, or first. -/
def placeIn (anchoredHead : Option Nat) (old accumulated : Text) : Option Nat :=
  match anchoredHead with
  | some head => if head < accumulated.length ∧ old <+: accumulated.drop head then some head else none
  | none => findSub old accumulated

/-- The loop over the last leaf: leaf after leaf joins those `taken`, until the text stands in
them.  It must start in the first leaf and stop in the last one. -/
def extendSpan (anchoredHead : Option Nat) (old : Text) (first : ProseLeaf) :
    List ProseLeaf → List ProseLeaf → Option LeafSpanMatch
  | _, [] => none
  | taken, leaf :: rest =>
    let beforeLast := (taken.flatMap (·.text)).length
    let accumulated := taken.flatMap (·.text) ++ leaf.text
    match placeIn anchoredHead old accumulated with
    | none => extendSpan anchoredHead old first (taken ++ [leaf]) rest
    | some head =>
      if first.text.length ≤ head ∨ head + old.length ≤ beforeLast then none
      else some (spanMatchFrom (taken ++ [leaf]) first leaf head old.length beforeLast)

/-- The spans that start in each of `leaves`; `projectedPrefix` characters of the projection stand
before them. -/
def spansFrom (old : Text) (charStart : Option Nat) (fromLeaf : Nat) :
    Bool → Nat → List ProseLeaf → List LeafSpanMatch
  | _, _, [] => []
  | started, projectedPrefix, leaf :: rest =>
    -- every leaf behind the first that is late enough is tried
    let started := started || decide (fromLeaf ≤ leaf.leafIndex)
    let others := spansFrom old charStart fromLeaf started
      (if leaf.projected then projectedPrefix + leaf.text.length else projectedPrefix) rest
    let found :=
      match charStart with
      | none => extendSpan none old leaf [] (leaf :: rest)
      | some want =>
        if leaf.projected ∧ projectedPrefix ≤ want ∧ want < projectedPrefix + leaf.text.length then
          extendSpan (some (want - projectedPrefix)) old leaf [] (leaf :: rest)
        else none
    if started then found.toList ++ others else others

/-- The leaves of one paragraph address, in order. -/
def addressedLeaves (inventory : ProseInventory) (part paragraphId : String) : List ProseLeaf :=
  (inventory.leaves.filter fun leaf => leaf.partKey = part ∧ leaf.paragraphId = paragraphId)
    |>.insertionSort fun a b => a.leafIndex ≤ b.leafIndex

/-- `match_leaf_span_at`. -/
def matchLeafSpanAt (inventory : ProseInventory) (part paragraphId : String) (fromLeaf : Nat)
    (old : Text) (charStart : Option Nat) : Outcome (Option LeafSpanMatch) :=
  if old = [] then pure none
  else
    match spansFrom old charStart fromLeaf false 0 (addressedLeaves inventory part paragraphId) with
    | [] => pure none
    | [found] => pure (some found)
    | _ => refuse "prose-edit-ambiguous: old text occurs more than once across the text runs of this paragraph"

end Docx2Typed
