import Mathlib.Data.Char
import Mathlib.Data.List.Lex
import Docx2Typed.Prose.Text

/-!
# The draft body of a paragraph

A paragraph is a list of typed nodes; `project_nodes` writes it as the body of a draft block.
Prose goes through `escape_projection_text`, everything else becomes a placeholder `⟦...⟧`: one
for a token without children, two around the children of a range, an insertion or the target of
a move, and one alone for every other revision.
-/

namespace Docx2Typed

open List

/-! ## Attributes -/

def insertEntry (key value : Text) : List (Text × Text) → List (Text × Text)
  | [] => [(key, value)]
  | entry :: rest =>
    if key < entry.1 then (key, value) :: entry :: rest
    else if key = entry.1 then (key, value) :: rest
    else entry :: insertEntry key value rest

variable {entry : Text × Text} {key value : Text}

theorem mem_insertEntry :
    ∀ {entries : List (Text × Text)}, entry ∈ insertEntry key value entries →
      entry = (key, value) ∨ entry ∈ entries
  | [], h => by simpa [insertEntry] using h
  | head :: rest, h => by
    unfold insertEntry at h
    split_ifs at h with hlt heq
    · simpa using h
    · rcases mem_cons.mp h with rfl | hrest
      · exact .inl rfl
      · exact .inr (mem_cons_of_mem _ hrest)
    · rcases mem_cons.mp h with rfl | hrest
      · exact .inr mem_cons_self
      · rcases mem_insertEntry hrest with rfl | hmem
        · exact .inl rfl
        · exact .inr (mem_cons_of_mem _ hmem)

theorem mem_insertEntry_self : ∀ {entries : List (Text × Text)},
    (key, value) ∈ insertEntry key value entries
  | [] => mem_singleton_self _
  | head :: rest => by
    unfold insertEntry
    split_ifs
    · exact mem_cons_self
    · exact mem_cons_self
    · exact mem_cons_of_mem _ mem_insertEntry_self

theorem mem_insertEntry_of_ne (hne : entry.1 ≠ key) :
    ∀ {entries : List (Text × Text)}, entry ∈ entries → entry ∈ insertEntry key value entries
  | head :: rest, h => by
    unfold insertEntry
    split_ifs with hlt heq
    · exact mem_cons_of_mem _ h
    · rcases mem_cons.mp h with rfl | hrest
      · exact absurd heq.symm hne
      · exact mem_cons_of_mem _ hrest
    · rcases mem_cons.mp h with rfl | hrest
      · exact mem_cons_self
      · exact mem_cons_of_mem _ (mem_insertEntry_of_ne hne hrest)

theorem insertEntry_ordered : ∀ {entries : List (Text × Text)},
    entries.Pairwise (fun a b => a.1 < b.1) →
      (insertEntry key value entries).Pairwise fun a b => a.1 < b.1
  | [], _ => pairwise_singleton _ _
  | head :: rest, h => by
    obtain ⟨hhead, hrest⟩ := pairwise_cons.mp h
    unfold insertEntry
    split_ifs with hlt heq
    · refine pairwise_cons.mpr ⟨fun entry hentry => ?_, h⟩
      rcases mem_cons.mp hentry with rfl | hentry
      · exact hlt
      · exact lt_trans hlt (hhead entry hentry)
    · exact pairwise_cons.mpr ⟨fun entry hentry => heq ▸ hhead entry hentry, hrest⟩
    · refine pairwise_cons.mpr ⟨fun entry hentry => ?_, insertEntry_ordered hrest⟩
      rcases mem_insertEntry hentry with rfl | hentry
      · exact lt_of_le_of_ne (not_lt.mp hlt) (Ne.symm heq)
      · exact hhead entry hentry

/-- `BTreeMap<String, String>`: one entry for each key, in the order of the keys. -/
structure AttrMap where
  entries : List (Text × Text)
  ordered : entries.Pairwise fun a b => a.1 < b.1

def AttrMap.empty : AttrMap := ⟨[], .nil⟩

def AttrMap.insert (attrs : AttrMap) (key value : Text) : AttrMap :=
  ⟨insertEntry key value attrs.entries, insertEntry_ordered attrs.ordered⟩

def AttrMap.get (attrs : AttrMap) (key : Text) : Option Text := attrs.entries.lookup key

theorem AttrMap.get_eq_some_iff {attrs : AttrMap} :
    attrs.get key = some value ↔ (key, value) ∈ attrs.entries := by
  obtain ⟨entries, hordered⟩ := attrs
  show entries.lookup key = some value ↔ (key, value) ∈ entries
  induction entries with
  | nil => simp
  | cons head rest ih =>
    obtain ⟨hhead, hrest⟩ := pairwise_cons.mp hordered
    rw [lookup_cons, mem_cons]
    by_cases heq : key = head.1
    · have hnone : (key, value) ∉ rest := fun hmem => by
        have hlt := hhead (key, value) hmem
        rw [heq] at hlt
        exact lt_irrefl _ hlt
      rw [heq, beq_self_eq_true]
      dsimp only
      rw [← heq]
      constructor
      · rintro ⟨⟩
        exact .inl (by rw [heq])
      · rintro (h | h)
        · rw [← h]
        · exact absurd h hnone
    · rw [beq_false_of_ne heq, ih hrest]
      constructor
      · exact .inr
      · rintro (h | h)
        · exact absurd (by rw [← h]) heq
        · exact h

/-! ## Nodes -/

/-- `TypedNode`. -/
inductive TypedNode where
  | text (styleId content : Text) (vertical : Option Text)
  | anchor (tokenId kind : Text) (attrs : AttrMap)
  | inline (tokenId kind styleId : Text) (attrs : AttrMap)
  | opaqueToken (tokenId kind : Text) (attrs : AttrMap)
  | range (tokenId kind : Text) (attrs : AttrMap) (children : List TypedNode)
  | revision (tokenId kind : Text) (attrs : AttrMap) (children : List TypedNode)

/-- The revisions whose text the final view shows. -/
def isVisibleRevision (kind : Text) : Bool :=
  kind == "insert".toList || kind == "move_to".toList

/-! ## Writing -/

/-- `PROJECTION_TOKEN_START`, `TOKEN_START`. -/
def tokenStart : Char := '⟦'

/-- `PROJECTION_TOKEN_END`, `TOKEN_END`. -/
def tokenEnd : Char := '⟧'

def escapeProjectionChar (c : Char) : Text :=
  if c = '\\' then ['\\', '\\']
  else if c = tokenStart then ['\\', tokenStart]
  else if c = tokenEnd then ['\\', tokenEnd]
  else [c]

def escapeProjectionText (text : Text) : Text := text.flatMap escapeProjectionChar

def escapeAttrChar (c : Char) : Text :=
  if c = '&' then "&amp;".toList
  else if c = '<' then "&lt;".toList
  else if c = '>' then "&gt;".toList
  else if c = '"' then "&quot;".toList
  else [c]

/-- `projection_attr_value`.  The four replacements of the source never meet: the first takes
`&`, which the others only put in. -/
def projectionAttrValue (value : Text) : Text := ['"'] ++ value.flatMap escapeAttrChar ++ ['"']

def renderAttr (entry : Text × Text) : Text := entry.1 ++ ['='] ++ projectionAttrValue entry.2

/-- `join(" ")`. -/
def joinSpaced (texts : List Text) : Text := [' '].intercalate texts

def idKey : Text := "id".toList
def kindKey : Text := "kind".toList

/-- `id`, then `kind`, then the others in the order of their keys. -/
def renderNodeAttrs (attrs : AttrMap) : Text :=
  joinSpaced (
    (((attrs.get idKey).map fun value => (idKey, value)).toList ++
      ((attrs.get kindKey).map fun value => (kindKey, value)).toList ++
      attrs.entries.filter fun entry => entry.1 ≠ idKey ∧ entry.1 ≠ kindKey).map renderAttr)

/-- The attributes of a revision's start: `id` first, `kind` among the others. -/
def renderRevisionAttrs (tokenId : Text) (attrs : AttrMap) : Text :=
  joinSpaced (((idKey, tokenId) :: attrs.entries.filter fun entry => entry.1 ≠ idKey).map renderAttr)

/-- The map a token is written from: its own attributes, with its id and kind put in. -/
def tokenAttrs (tokenId kind : Text) (attrs : AttrMap) : AttrMap :=
  (attrs.insert idKey tokenId).insert kindKey kind

theorem tokenAttrs_get_id (tokenId kind : Text) (attrs : AttrMap) :
    (tokenAttrs tokenId kind attrs).get idKey = some tokenId :=
  AttrMap.get_eq_some_iff.mpr (mem_insertEntry_of_ne (show idKey ≠ kindKey by decide)
    mem_insertEntry_self)

def inlineAttrs (tokenId kind styleId : Text) (attrs : AttrMap) : AttrMap :=
  let map := tokenAttrs tokenId kind attrs
  if styleId = [] then map else map.insert "style".toList styleId

/-- One placeholder. -/
def placeholder (content : Text) : Text := [tokenStart] ++ content ++ [tokenEnd]

def revisionKeyword (kind : Text) : Text :=
  if kind = "insert".toList then "insert".toList else "move-to".toList

/-- What stands between the brackets of an `Anchor`, `Inline` or `Opaque` token. -/
def tokenContent (attrs : AttrMap) : Text := "token ".toList ++ renderNodeAttrs attrs

def rangeStartContent (tokenId kind : Text) (attrs : AttrMap) : Text :=
  "range-start ".toList ++ renderNodeAttrs (tokenAttrs tokenId kind attrs)

def rangeEndContent (tokenId : Text) : Text :=
  "range-end id=".toList ++ projectionAttrValue tokenId

def revisionStartContent (tokenId kind : Text) (attrs : AttrMap) : Text :=
  revisionKeyword kind ++ [' '] ++
    renderRevisionAttrs tokenId (tokenAttrs tokenId kind attrs)

def revisionEndContent (tokenId kind : Text) : Text :=
  ['/'] ++ revisionKeyword kind ++ " id=".toList ++ projectionAttrValue tokenId

def revisionGapContent (tokenId kind : Text) : Text :=
  "revision-gap id=".toList ++ projectionAttrValue tokenId ++ " kind=".toList ++
    projectionAttrValue kind

mutual

def projectNode : TypedNode → Text
  | .text _ content _ => escapeProjectionText content
  | .anchor tokenId kind attrs => placeholder (tokenContent (tokenAttrs tokenId kind attrs))
  | .inline tokenId kind styleId attrs =>
    placeholder (tokenContent (inlineAttrs tokenId kind styleId attrs))
  | .opaqueToken tokenId kind attrs => placeholder (tokenContent (tokenAttrs tokenId kind attrs))
  | .range tokenId kind attrs children =>
    placeholder (rangeStartContent tokenId kind attrs) ++ projectNodes children ++
      placeholder (rangeEndContent tokenId)
  | .revision tokenId kind attrs children =>
    if isVisibleRevision kind then
      placeholder (revisionStartContent tokenId kind attrs) ++ projectNodes children ++
        placeholder (revisionEndContent tokenId kind)
    else placeholder (revisionGapContent tokenId kind)

def projectNodes : List TypedNode → Text
  | [] => []
  | node :: rest => projectNode node ++ projectNodes rest

end

/-! ## Pieces -/

/-- What a body is made of: prose, and what placeholders hold. -/
inductive BodyPiece where
  | prose (text : Text)
  | token (content : Text)
  deriving DecidableEq

mutual

def nodePieces : TypedNode → List BodyPiece
  | .text _ content _ => [.prose content]
  | .anchor tokenId kind attrs => [.token (tokenContent (tokenAttrs tokenId kind attrs))]
  | .inline tokenId kind styleId attrs =>
    [.token (tokenContent (inlineAttrs tokenId kind styleId attrs))]
  | .opaqueToken tokenId kind attrs => [.token (tokenContent (tokenAttrs tokenId kind attrs))]
  | .range tokenId kind attrs children =>
    .token (rangeStartContent tokenId kind attrs) ::
      (pieces children ++ [.token (rangeEndContent tokenId)])
  | .revision tokenId kind attrs children =>
    if isVisibleRevision kind then
      .token (revisionStartContent tokenId kind attrs) ::
        (pieces children ++ [.token (revisionEndContent tokenId kind)])
    else [.token (revisionGapContent tokenId kind)]

def pieces : List TypedNode → List BodyPiece
  | [] => []
  | node :: rest => nodePieces node ++ pieces rest

end

def BodyPiece.render : BodyPiece → Text
  | .prose text => escapeProjectionText text
  | .token content => placeholder content

def renderPieces (pieces : List BodyPiece) : Text := pieces.flatMap BodyPiece.render

@[simp] theorem renderPieces_nil : renderPieces [] = [] := rfl

@[simp] theorem renderPieces_cons (piece : BodyPiece) (rest : List BodyPiece) :
    renderPieces (piece :: rest) = piece.render ++ renderPieces rest := rfl

@[simp] theorem renderPieces_append (left right : List BodyPiece) :
    renderPieces (left ++ right) = renderPieces left ++ renderPieces right :=
  flatMap_append

mutual

theorem projectNode_eq_render : ∀ node : TypedNode,
    projectNode node = renderPieces (nodePieces node)
  | .text .. | .anchor .. | .inline .. | .opaqueToken .. => by
    simp [projectNode, nodePieces, BodyPiece.render]
  | .range _ _ _ children => by
    simp [projectNode, nodePieces, BodyPiece.render, projectNodes_eq_render children]
  | .revision _ kind _ children => by
    unfold projectNode nodePieces
    split
    · simp [BodyPiece.render, projectNodes_eq_render children]
    · simp [BodyPiece.render]

/-- The writer, as one pass over the pieces. -/
theorem projectNodes_eq_render : ∀ nodes : List TypedNode,
    projectNodes nodes = renderPieces (pieces nodes)
  | [] => rfl
  | node :: rest => by
    rw [projectNodes, pieces, renderPieces_append, projectNode_eq_render node,
      projectNodes_eq_render rest]

end

/-! ## The final view -/

mutual

/-- The text of one node that the final view shows. -/
def finalNodeText : TypedNode → Text
  | .text _ content _ => content
  | .anchor .. | .inline .. | .opaqueToken .. => []
  | .range _ _ _ children => finalText children
  | .revision _ kind _ children => if isVisibleRevision kind then finalText children else []

/-- The `Text` nodes the final view shows, one after the other. -/
def finalText : List TypedNode → Text
  | [] => []
  | node :: rest => finalNodeText node ++ finalText rest

end

mutual

/-- Where the tokens of one node sit, for a node that starts at `start` of the visible text. -/
def nodeTokenOffsets (start : Nat) : TypedNode → List Nat
  | .text .. => []
  | .anchor .. | .inline .. | .opaqueToken .. => [start]
  | .range _ _ _ children =>
    start :: (tokenOffsets start children ++ [start + (finalText children).length])
  | .revision _ kind _ children =>
    if isVisibleRevision kind then
      start :: (tokenOffsets start children ++ [start + (finalText children).length])
    else [start]

/-- The offset in the visible text of every token the writer emits, in their order. -/
def tokenOffsets (start : Nat) : List TypedNode → List Nat
  | [] => []
  | node :: rest =>
    nodeTokenOffsets start node ++ tokenOffsets (start + (finalNodeText node).length) rest

end

/-- The same two readings, piece by piece. -/
def piecesText : List BodyPiece → Text
  | [] => []
  | .prose text :: rest => text ++ piecesText rest
  | .token _ :: rest => piecesText rest

def piecesOffsets (start : Nat) : List BodyPiece → List Nat
  | [] => []
  | .prose text :: rest => piecesOffsets (start + text.length) rest
  | .token _ :: rest => start :: piecesOffsets start rest

theorem piecesText_append : ∀ left right : List BodyPiece,
    piecesText (left ++ right) = piecesText left ++ piecesText right
  | [], _ => rfl
  | .prose text :: left, right => by
    rw [cons_append, piecesText, piecesText, piecesText_append left, append_assoc]
  | .token _ :: left, right => by
    rw [cons_append, piecesText, piecesText, piecesText_append left]

theorem piecesOffsets_append : ∀ (left right : List BodyPiece) (start : Nat),
    piecesOffsets start (left ++ right) =
      piecesOffsets start left ++ piecesOffsets (start + (piecesText left).length) right
  | [], _, _ => rfl
  | .prose text :: left, right, start => by
    rw [cons_append, piecesOffsets, piecesOffsets, piecesText, piecesOffsets_append left,
      length_append, Nat.add_assoc]
  | .token _ :: left, right, start => by
    rw [cons_append, piecesOffsets, piecesOffsets, piecesText, piecesOffsets_append left,
      cons_append]

mutual

theorem finalNodeText_eq_piecesText : ∀ node : TypedNode,
    finalNodeText node = piecesText (nodePieces node)
  | .text _ content _ => (append_nil content).symm
  | .anchor .. | .inline .. | .opaqueToken .. => rfl
  | .range _ _ _ children => by
    simp [finalNodeText, nodePieces, piecesText, piecesText_append,
      finalText_eq_piecesText children]
  | .revision _ kind _ children => by
    unfold finalNodeText nodePieces
    split
    · simp [piecesText, piecesText_append, finalText_eq_piecesText children]
    · rfl

theorem finalText_eq_piecesText : ∀ nodes : List TypedNode,
    finalText nodes = piecesText (pieces nodes)
  | [] => rfl
  | node :: rest => by
    rw [finalText, pieces, piecesText_append, finalNodeText_eq_piecesText node,
      finalText_eq_piecesText rest]

end

mutual

theorem nodeTokenOffsets_eq : ∀ (node : TypedNode) (start : Nat),
    nodeTokenOffsets start node = piecesOffsets start (nodePieces node)
  | .text .., _ => rfl
  | .anchor .., _ | .inline .., _ | .opaqueToken .., _ => rfl
  | .range _ _ _ children, start => by
    simp [nodeTokenOffsets, nodePieces, piecesOffsets, piecesOffsets_append,
      tokenOffsets_eq children, finalText_eq_piecesText children]
  | .revision _ kind _ children, start => by
    unfold nodeTokenOffsets nodePieces
    split
    · simp [piecesOffsets, piecesOffsets_append, tokenOffsets_eq children,
        finalText_eq_piecesText children]
    · rfl

theorem tokenOffsets_eq : ∀ (nodes : List TypedNode) (start : Nat),
    tokenOffsets start nodes = piecesOffsets start (pieces nodes)
  | [], _ => rfl
  | node :: rest, start => by
    rw [tokenOffsets, pieces, piecesOffsets_append, nodeTokenOffsets_eq node,
      tokenOffsets_eq rest, finalNodeText_eq_piecesText node]

end

end Docx2Typed
