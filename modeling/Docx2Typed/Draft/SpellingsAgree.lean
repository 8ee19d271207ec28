import Docx2Typed.Draft.SpellingsTyped

/-!
# Where the spellings agree

`typed_markup_from_draft` turns a draft body into elements with the ids and kinds of its
placeholders.  Read with the stack of `typed_body_visible_text` they hide nothing, since the draft
has left out already what is hidden.
-/

namespace Docx2Typed

open Library (takeWhile_ne_append dropWhile_ne_append)
open List

/-! ## The conversion, piece by piece -/

def convertedPiece : BodyPiece → Text
  | .prose text => xmlEscape text
  | .token content => elementOfToken content

theorem typedMarkupFrom_run (after : Text) : ∀ {word : Text} {fuel : Nat}, tokenStart ∉ word →
    (word ++ after).length ≤ fuel → ∃ fuel', after.length ≤ fuel' ∧
      typedMarkupFrom fuel (word ++ after) = xmlEscape word ++ typedMarkupFrom fuel' after
  | [], fuel, _, hfuel => ⟨fuel, hfuel, rfl⟩
  | c :: word, 0, _, hfuel => absurd hfuel (by simp)
  | c :: word, fuel + 1, hstart, hfuel => by
    obtain ⟨hne, hmem⟩ := not_or.mp (mt mem_cons.mpr hstart)
    obtain ⟨fuel', hle, ih⟩ := @typedMarkupFrom_run after word fuel hmem (by simpa using hfuel)
    refine ⟨fuel', hle, ?_⟩
    rw [cons_append, typedMarkupFrom, if_pos (Ne.symm hne), ih, ← append_assoc]
    rfl

theorem typedMarkupFrom_placeholder (after : Text) {content : Text} {fuel : Nat}
    (hcontent : tokenEnd ∉ content) (hfuel : (placeholder content ++ after).length ≤ fuel) :
    ∃ fuel', after.length ≤ fuel' ∧
      typedMarkupFrom fuel (placeholder content ++ after) =
        elementOfToken content ++ typedMarkupFrom fuel' after := by
  cases fuel with
  | zero => exact absurd hfuel (by simp [placeholder])
  | succ fuel =>
    refine ⟨fuel, ?_, ?_⟩
    · simp only [placeholder, length_append, length_singleton] at hfuel
      omega
    · have hclose : tokenEnd ∈ content ++ tokenEnd :: after :=
        mem_append_right _ mem_cons_self
      unfold placeholder
      rw [append_assoc, append_assoc, singleton_append, singleton_append,
        typedMarkupFrom, if_neg (not_not_intro rfl), if_neg (not_not_intro hclose),
        takeWhile_ne_append hcontent, dropWhile_ne_append hcontent, drop_one, tail_cons]

theorem escapeProjectionText_plain : ∀ {text : Text}, '\\' ∉ text → HasNoBracket text →
    escapeProjectionText text = text
  | [], _, _ => rfl
  | c :: text, hslash, hbracket => by
    obtain ⟨hne, hslash⟩ := not_or.mp (mt mem_cons.mpr hslash)
    obtain ⟨hstart, hend, hbracket⟩ := hasNoBracket_cons.mp hbracket
    rw [escapeProjectionText_cons, escapeProjectionText_plain hslash hbracket, escapeProjectionChar,
      if_neg (Ne.symm hne), if_neg hstart, if_neg hend, singleton_append]

theorem typedMarkupFrom_pieces : ∀ {ps : List BodyPiece} {fuel : Nat}, PiecesPlain ps →
    (∀ text, .prose text ∈ ps → '\\' ∉ text) → (renderPieces ps).length ≤ fuel →
      typedMarkupFrom fuel (renderPieces ps) = ps.flatMap convertedPiece
  | [], fuel, _, _, _ => by cases fuel <;> rfl
  | .prose text :: rest, fuel, ⟨hbracket, _, hrest⟩, hslash, hfuel => by
    have htext := escapeProjectionText_plain (hslash text mem_cons_self) hbracket
    rw [renderPieces_cons] at hfuel ⊢
    change (escapeProjectionText text ++ renderPieces rest).length ≤ fuel at hfuel
    show typedMarkupFrom fuel (escapeProjectionText text ++ renderPieces rest) = _
    rw [htext] at hfuel ⊢
    obtain ⟨fuel', hle, h⟩ := typedMarkupFrom_run (renderPieces rest) hbracket.1 hfuel
    rw [h, typedMarkupFrom_pieces hrest (fun other hmem => hslash other
      (mem_cons_of_mem _ hmem)) hle]
    rfl
  | .token content :: rest, fuel, ⟨hcontent, hrest⟩, hslash, hfuel => by
    rw [renderPieces_cons] at hfuel ⊢
    obtain ⟨fuel', hle, h⟩ := typedMarkupFrom_placeholder (renderPieces rest) hcontent hfuel
    show typedMarkupFrom fuel (placeholder content ++ renderPieces rest) = _
    rw [h, typedMarkupFrom_pieces hrest (fun other hmem => hslash other
      (mem_cons_of_mem _ hmem)) hle]
    rfl

/-! ## Ids and kinds read back -/

/-- The kinds of an inline. -/
def inlineKinds : List Text := knownInline ++ ["rpr-change".toList, "empty-run".toList]

variable {kind : Text}

theorem mem_inlineKinds (h : isInlineTokenKind kind = true) : kind ∈ inlineKinds := by
  unfold isInlineTokenKind at h
  unfold inlineKinds
  rw [Bool.or_eq_true, Bool.or_eq_true, beq_iff_eq, beq_iff_eq, contains_iff_mem] at h
  rcases h with (h | rfl) | rfl
  · exact mem_append_left _ h
  · exact mem_append_right _ mem_cons_self
  · exact mem_append_right _ (mem_cons_of_mem _ mem_cons_self)

theorem inlineKinds_plain : (inlineKinds.all fun kind =>
    isPlainValue kind && !isAnchorTokenKind kind) = true := by decide

theorem anchorKinds_plain (h : isAnchorTokenKind kind = true) : PlainValue kind := by
  have hall : (["bookmark-start", "bookmark-end", "comment-start", "comment-end"].map
      String.toList).all isPlainValue = true := by decide
  exact plainValue_of_all (all_eq_true.mp hall kind (contains_iff_mem.mp h))

theorem revisionKinds_plain
    (h : kind ∈ ["insert", "delete", "move_from", "move_to"].map String.toList) :
    PlainValue kind := by
  have hall : (["insert", "delete", "move_from", "move_to"].map String.toList).all
      isPlainValue = true := by decide
  exact plainValue_of_all (all_eq_true.mp hall kind h)

/-! ## The elements -/

/-- The style of an inline, as it is read back. -/
def styleAttr (attrs : Text) : Text :=
  let style := attrValue "style=\"".toList attrs
  if style = [] then [] else " style=\"".toList ++ style ++ ['"']

mutual

/-- `typed_markup_from_draft` of one node's placeholders, item by item. -/
def nodeConverted : TypedNode → List MarkupItem
  | .text _ content _ => [.prose content]
  | .anchor tokenId kind attrs =>
    [.tag ("docx-anchor".toList ++ ((idAndKind tokenId kind ++
      copiedAttrs [idKey, kindKey] (renderNodeAttrs (tokenAttrs tokenId kind attrs))) ++ ['/']))]
  | .inline tokenId kind styleId attrs =>
    let spelt := renderNodeAttrs (inlineAttrs tokenId kind styleId attrs)
    [.tag ("docx-inline".toList ++ ((idAndKind tokenId kind ++ (styleAttr spelt ++
      copiedAttrs [idKey, kindKey, "style".toList] spelt)) ++ ['/']))]
  | .opaqueToken tokenId kind attrs =>
    [.tag ("docx-opaque".toList ++ ((idAndKind tokenId kind ++
      copiedAttrs [idKey, kindKey] (renderNodeAttrs (tokenAttrs tokenId kind attrs))) ++ ['/']))]
  | .range tokenId kind _ children =>
    .tag ("docx-range".toList ++ idAndKind tokenId kind) ::
      (converted children ++ [closingItem "docx-range"])
  | .revision tokenId kind attrs children =>
    if isVisibleRevision kind then
      .tag ("docx-revision".toList ++ (idAndKind tokenId kind ++ copiedAttrs [idKey, kindKey]
        (renderRevisionAttrs tokenId (tokenAttrs tokenId kind attrs)))) ::
          (converted children ++ [closingItem "docx-revision"])
    else
      [.tag ("docx-revision".toList ++ (idAndKind tokenId kind ++ copiedAttrs [idKey, kindKey]
        (gapAttrs tokenId kind))), closingItem "docx-revision"]

def converted : List TypedNode → List MarkupItem
  | [] => []
  | node :: rest => nodeConverted node ++ converted rest

end

section Elements

variable {id kind attrs : Text}

theorem elementOfToken_of_keyword {keyword : Text} (hkeyword : ' ' ∉ keyword) (attrs : Text) :
    (splitOnce ' ' (keyword ++ ' ' :: attrs)).getD (keyword ++ ' ' :: attrs, []) =
      (keyword, attrs) := by
  rw [splitOnce_append hkeyword]
  rfl

/-- A placeholder of a token without children, by the kind it reads back. -/
theorem elementOfToken_token (attrs : Text) :
    elementOfToken ("token ".toList ++ attrs) =
      if isAnchorTokenKind (attrValue "kind=\"".toList attrs) then
        "<docx-anchor".toList ++ idAndKind (attrValue "id=\"".toList attrs)
          (attrValue "kind=\"".toList attrs) ++ copiedAttrs [idKey, kindKey] attrs ++ "/>".toList
      else if isInlineTokenKind (attrValue "kind=\"".toList attrs) then
        "<docx-inline".toList ++ idAndKind (attrValue "id=\"".toList attrs)
          (attrValue "kind=\"".toList attrs) ++ styleAttr attrs ++
            copiedAttrs [idKey, kindKey, "style".toList] attrs ++ "/>".toList
      else if isBareInlineKind (attrValue "kind=\"".toList attrs) then
        "<docx-inline".toList ++ idAndKind (attrValue "id=\"".toList attrs)
          (attrValue "kind=\"".toList attrs) ++ styleAttr attrs ++ "/>".toList
      else
        "<docx-opaque".toList ++ idAndKind (attrValue "id=\"".toList attrs)
          (attrValue "kind=\"".toList attrs) ++ copiedAttrs [idKey, kindKey] attrs ++
            "/>".toList := by
  unfold elementOfToken
  rw [show "token ".toList ++ attrs = "token".toList ++ ' ' :: attrs from rfl,
    elementOfToken_of_keyword (by decide)]
  dsimp only
  rw [if_neg (by decide), if_neg (by decide), if_neg (by decide), if_neg (by decide),
    if_neg (by decide)]
  rfl

theorem elementOfToken_rangeStart (attrs : Text) :
    elementOfToken ("range-start ".toList ++ attrs) =
      "<docx-range".toList ++ idAndKind (attrValue "id=\"".toList attrs)
        (attrValue "kind=\"".toList attrs) ++ ['>'] := by
  unfold elementOfToken
  rw [show "range-start ".toList ++ attrs = "range-start".toList ++ ' ' :: attrs from rfl,
    elementOfToken_of_keyword (by decide)]
  dsimp only
  rw [if_neg (by decide), if_pos rfl]

theorem elementOfToken_rangeEnd (tokenId : Text) :
    elementOfToken (rangeEndContent tokenId) = "</docx-range>".toList := by
  unfold elementOfToken rangeEndContent
  rw [show "range-end id=".toList ++ projectionAttrValue tokenId = "range-end".toList ++
      ' ' :: ("id=".toList ++ projectionAttrValue tokenId) from rfl,
    elementOfToken_of_keyword (by decide)]
  dsimp only
  rw [if_pos rfl]

theorem elementOfToken_revisionStart (hkind : isVisibleRevision kind = true) (attrs : Text) :
    elementOfToken (revisionKeyword kind ++ [' '] ++ attrs) =
      "<docx-revision".toList ++ idAndKind (attrValue "id=\"".toList attrs) kind ++
        copiedAttrs [idKey, kindKey] attrs ++ ['>'] := by
  have hkeyword : ' ' ∉ revisionKeyword kind := by
    unfold revisionKeyword
    split <;> decide
  unfold elementOfToken
  rw [append_assoc, singleton_append, elementOfToken_of_keyword hkeyword]
  dsimp only
  rcases isVisibleRevision_iff.mp hkind with rfl | rfl
  · rw [show revisionKeyword "insert".toList = "insert".toList from rfl, if_neg (by decide),
      if_neg (by decide), if_pos (.inl rfl), if_pos rfl]
  · rw [show revisionKeyword "move_to".toList = "move-to".toList from rfl, if_neg (by decide),
      if_neg (by decide), if_pos (.inr rfl), if_neg (by decide)]

theorem elementOfToken_revisionEnd (tokenId kind : Text) :
    elementOfToken (revisionEndContent tokenId kind) = "</docx-revision>".toList := by
  have hkeyword : ' ' ∉ '/' :: revisionKeyword kind := by
    unfold revisionKeyword
    split <;> decide
  unfold elementOfToken revisionEndContent
  rw [show ['/'] ++ revisionKeyword kind ++ " id=".toList ++ projectionAttrValue tokenId =
      ('/' :: revisionKeyword kind) ++ ' ' :: ("id=".toList ++ projectionAttrValue tokenId) by
    rw [append_assoc, singleton_append]
    rfl, elementOfToken_of_keyword hkeyword]
  dsimp only
  have hcases : revisionKeyword kind = "insert".toList ∨
      revisionKeyword kind = "move-to".toList := by
    unfold revisionKeyword
    split
    · exact .inl rfl
    · exact .inr rfl
  rcases hcases with hcase | hcase
  · rw [hcase, if_neg (by decide), if_neg (by decide), if_neg (by decide), if_pos (.inl rfl)]
  · rw [hcase, if_neg (by decide), if_neg (by decide), if_neg (by decide), if_pos (.inr rfl)]

theorem elementOfToken_revisionGap (tokenId kind : Text) :
    elementOfToken (revisionGapContent tokenId kind) =
      "<docx-revision".toList ++ idAndKind (attrValue "id=\"".toList (gapAttrs tokenId kind))
        (attrValue "kind=\"".toList (gapAttrs tokenId kind)) ++
          copiedAttrs [idKey, kindKey] (gapAttrs tokenId kind) ++ "></docx-revision>".toList := by
  unfold elementOfToken
  rw [show revisionGapContent tokenId kind = "revision-gap".toList ++ ' ' :: gapAttrs tokenId kind by
    unfold revisionGapContent gapAttrs
    simp only [append_assoc]
    rfl, elementOfToken_of_keyword (by decide)]
  dsimp only
  rw [if_neg (by decide), if_neg (by decide), if_neg (by decide), if_neg (by decide),
    if_pos rfl]

end Elements

/-- An element is written from its name and what follows it. -/
theorem render_tag (name text : Text) :
    (MarkupItem.tag (name ++ text)).render = '<' :: name ++ (text ++ ['>']) := by
  show '<' :: (name ++ text) ++ ['>'] = _
  rw [cons_append, cons_append, append_assoc]

section Placeholders

variable {tokenId kind : Text} {attrs : AttrMap}

section

variable (hid : IsTokenId tokenId)

include hid

theorem elementOfToken_anchor (hkind : isAnchorTokenKind kind = true) :
    elementOfToken (tokenContent (tokenAttrs tokenId kind attrs)) =
      (MarkupItem.tag ("docx-anchor".toList ++ ((idAndKind tokenId kind ++ copiedAttrs [idKey, kindKey]
        (renderNodeAttrs (tokenAttrs tokenId kind attrs))) ++ ['/']))).render := by
  have hspelled := spelledBy_renderNodeAttrs hid.plain (anchorKinds_plain hkind) attrs
  refine (elementOfToken_token _).trans ?_
  rw [hspelled.attrValue_kind, hspelled.attrValue_id, if_pos hkind, render_tag]
  simp only [append_assoc]
  rfl

theorem elementOfToken_inline {styleId : Text} (hkind : isInlineTokenKind kind = true)
    (hstyle : styleId ≠ []) :
    elementOfToken (tokenContent (inlineAttrs tokenId kind styleId attrs)) =
      (MarkupItem.tag ("docx-inline".toList ++ ((idAndKind tokenId kind ++
        (styleAttr (renderNodeAttrs (inlineAttrs tokenId kind styleId attrs)) ++
          copiedAttrs [idKey, kindKey, "style".toList]
            (renderNodeAttrs (inlineAttrs tokenId kind styleId attrs)))) ++ ['/']))).render := by
  have hmem := all_eq_true.mp inlineKinds_plain kind (mem_inlineKinds hkind)
  rw [Bool.and_eq_true, Bool.not_eq_true'] at hmem
  have hspelled := spelledBy_inlineAttrs hid.plain (plainValue_of_all hmem.1) hstyle attrs
  refine (elementOfToken_token _).trans ?_
  rw [hspelled.attrValue_kind, hspelled.attrValue_id, hmem.2, if_neg Bool.false_ne_true,
    if_pos hkind, render_tag]
  simp only [append_assoc]
  rfl

theorem elementOfToken_opaqueNode (hkind : kind = "opaque".toList ∨ kind = "unsupported-run".toList)
    :
    elementOfToken (tokenContent (tokenAttrs tokenId kind attrs)) =
      (MarkupItem.tag ("docx-opaque".toList ++ ((idAndKind tokenId kind ++ copiedAttrs [idKey, kindKey]
        (renderNodeAttrs (tokenAttrs tokenId kind attrs))) ++ ['/']))).render := by
  obtain ⟨hplain, -, -, hanchor, hinline, hbare⟩ := opaqueKinds hkind
  have hspelled := spelledBy_renderNodeAttrs hid.plain hplain attrs
  refine (elementOfToken_token _).trans ?_
  rw [hspelled.attrValue_kind, hspelled.attrValue_id, hanchor, hinline, hbare,
    if_neg Bool.false_ne_true, if_neg Bool.false_ne_true, if_neg Bool.false_ne_true, render_tag]
  simp only [append_assoc]
  rfl

theorem elementOfToken_range (hkind : kind = "hyperlink".toList) :
    elementOfToken (rangeStartContent tokenId kind attrs) =
      (MarkupItem.tag ("docx-range".toList ++ idAndKind tokenId kind)).render := by
  have hplain : PlainValue kind := by
    rw [hkind]
    exact plainValue_of_all (by decide)
  have hspelled := spelledBy_renderNodeAttrs hid.plain hplain attrs
  refine (elementOfToken_rangeStart _).trans ?_
  rw [hspelled.attrValue_kind, hspelled.attrValue_id, render_tag]
  simp only [append_assoc]
  rfl

theorem elementOfToken_revision (hkind : isVisibleRevision kind = true) :
    elementOfToken (revisionStartContent tokenId kind attrs) =
      (MarkupItem.tag ("docx-revision".toList ++ (idAndKind tokenId kind ++ copiedAttrs [idKey, kindKey]
        (renderRevisionAttrs tokenId (tokenAttrs tokenId kind attrs))))).render := by
  rw [revisionStartContent, elementOfToken_revisionStart hkind,
    attrValue_renderRevisionAttrs hid.plain, render_tag]
  simp only [append_assoc]
  rfl

theorem elementOfToken_gap
    (hkind : kind ∈ ["insert", "delete", "move_from", "move_to"].map String.toList) :
    elementOfToken (revisionGapContent tokenId kind) =
      (MarkupItem.tag ("docx-revision".toList ++ (idAndKind tokenId kind ++ copiedAttrs [idKey, kindKey]
        (gapAttrs tokenId kind)))).render ++ (closingItem "docx-revision").render := by
  have hspelled := spelledBy_gapAttrs hid.plain (revisionKinds_plain hkind)
  rw [elementOfToken_revisionGap, hspelled.attrValue_kind, hspelled.attrValue_id, render_tag,
    closingItem_render, show "></docx-revision>".toList = '>' :: '<' :: '/' ::
      ("docx-revision".toList ++ ['>']) from rfl]
  simp only [append_assoc]
  rfl

end

end Placeholders

mutual

/-- The conversion writes the items of one node. -/
theorem nodeConverted_render : ∀ {node : TypedNode}, NodeOfDocument node →
    (nodePieces node).flatMap convertedPiece = renderItems (nodeConverted node)
  | .text _ content _, _ => rfl
  | .anchor tokenId kind attrs, h => congrArg (· ++ []) (elementOfToken_anchor h.1 h.2)
  | .inline tokenId kind styleId attrs, h =>
    congrArg (· ++ []) (elementOfToken_inline h.1 h.2.1 h.2.2)
  | .opaqueToken tokenId kind attrs, h => congrArg (· ++ []) (elementOfToken_opaqueNode h.1 h.2)
  | .range tokenId kind attrs children, h => by
    unfold nodePieces nodeConverted
    rw [flatMap_cons, flatMap_append, converted_render h.2.2, flatMap_singleton,
      convertedPiece, convertedPiece, elementOfToken_range h.1 h.2.1, elementOfToken_rangeEnd,
      renderItems_cons, renderItems_append, renderItems_cons, renderItems_nil, append_nil]
    rfl
  | .revision tokenId kind attrs children, h => by
    unfold nodePieces nodeConverted
    by_cases hvisible : isVisibleRevision kind = true
    · rw [if_pos hvisible, if_pos hvisible, flatMap_cons, flatMap_append,
        converted_render h.2.2, flatMap_singleton, convertedPiece, convertedPiece,
        elementOfToken_revision h.1 hvisible, elementOfToken_revisionEnd, renderItems_cons,
        renderItems_append, renderItems_cons, renderItems_nil, append_nil]
      rfl
    · rw [if_neg hvisible, if_neg hvisible, flatMap_singleton, convertedPiece,
        elementOfToken_gap h.1 h.2.1, renderItems_cons, renderItems_cons, renderItems_nil,
        append_nil]

theorem converted_render : ∀ {nodes : List TypedNode}, NodesOfDocument nodes →
    (pieces nodes).flatMap convertedPiece = renderItems (converted nodes)
  | [], _ => rfl
  | node :: rest, h => by
    rw [pieces, converted, flatMap_append, renderItems_append, nodeConverted_render h.1,
      converted_render h.2]

end

/-! ## Reading the converted spelling -/

variable {attrs : Text} {skipped : List Text} {value : String}

section Reading

variable {id kind : Text} {stack stack' : List Passing} {after : List MarkupItem}

theorem gt_notMem_idAndKind (hid : PlainValue id) (hkind : PlainValue kind) :
    '>' ∉ idAndKind id kind := by
  unfold idAndKind
  simp only [mem_append, not_or]
  exact ⟨⟨⟨⟨by decide, hid.notMem (by decide) (by decide) (by decide)⟩, by decide⟩,
    hkind.notMem (by decide) (by decide) (by decide)⟩, by decide⟩

theorem gt_notMem_copiedAttrs (h : '>' ∉ attrs) :
    '>' ∉ copiedAttrs skipped attrs := fun hmem =>
  (mem_copiedAttrs hmem).elim (by decide) h

theorem mem_attrValue {name text : Text} {c : Char} (h : c ∈ attrValue name text) : c ∈ text := by
  unfold attrValue afterFirst at h
  cases hfound : Library.findSub name text with
  | none =>
    rw [hfound] at h
    cases h
  | some found =>
    rw [hfound] at h
    simp only [Option.bind_eq_bind, Option.bind_some] at h
    split at h
    · exact mem_of_mem_drop (mem_of_mem_take (takeWhile_subset _ h))
    · exact mem_of_mem_drop (takeWhile_subset _ h)

theorem quote_notMem_attrValue {name text : Text} : '"' ∉ attrValue name text := by
  unfold attrValue
  cases afterFirst name text with
  | none => exact not_mem_nil
  | some rest =>
    intro hmem
    have := mem_takeWhile_imp hmem
    simp at this

theorem gt_notMem_styleAttr (h : '>' ∉ attrs) : '>' ∉ styleAttr attrs := by
  unfold styleAttr
  dsimp only
  split
  · exact not_mem_nil
  · simp only [mem_append, not_or]
    exact ⟨⟨by decide, fun hmem => h (mem_attrValue hmem)⟩, by decide⟩

theorem startsBlank_styleAttr (attrs : Text) : StartsBlank (styleAttr attrs) := by
  unfold styleAttr
  dsimp only
  split
  · exact .inl rfl
  · exact .inr ⟨_, rfl⟩

theorem not_saysKind_styleAttr : ¬ SaysKind value (styleAttr attrs) := by
  unfold styleAttr
  dsimp only
  split
  · exact not_saysKind_nil
  · rw [show " style=\"".toList = " style=".toList ++ ['"'] from rfl, append_assoc,
      append_assoc, singleton_append]
    exact not_saysKind_named (by decide) (by decide) (by decide) quote_notMem_attrValue

/-- An inline says what its placeholder says. -/
theorem SpelledBy.saysKind_inline (hvalue : IsAskedKind value) (h : SpelledBy id kind attrs)
    (hsaid : SaysKind value (idAndKind id kind ++ (styleAttr attrs ++ copiedAttrs skipped attrs))) :
    SaysKind value attrs := by
  have hcopied : StartsBlank (copiedAttrs skipped attrs) := flatMap_copiedPair_cases _
  have hrest : StartsBlank (styleAttr attrs ++ copiedAttrs skipped attrs) := by
    rcases startsBlank_styleAttr attrs with hstyle | ⟨more, hstyle⟩
    · rw [hstyle, nil_append]
      exact hcopied
    · exact .inr ⟨_, by rw [hstyle, cons_append]⟩
  rcases saysKind_append_blank hvalue hrest hsaid with hsaid | hsaid
  · obtain ⟨tail, htail⟩ := h.spelled
    have hsaid' : SaysKind value ([] ++ ' ' :: attrs) := by
      rw [nil_append, htail]
      exact hsaid.mono (List.prefix_append _ _).isInfix
    exact ((saysKind_append_cons hvalue (.inl rfl)).mp hsaid').resolve_left not_saysKind_nil
  · rcases saysKind_append_blank hvalue hcopied hsaid with hsaid | hsaid
    · exact absurd hsaid not_saysKind_styleAttr
    · exact hsaid.of_copiedAttrs hvalue

/-- An element with this id and kind says the kind. -/
theorem saysKind_idAndKind (hvalue : value ∈ askedKinds) (hkind : kind = value.toList)
    (name text : Text) : SaysKind value (tagText (name ++ (idAndKind id kind ++ text))) := by
  refine (saysKind_self hvalue).mono
    ⟨'<' :: (name ++ (" id=\"".toList ++ id ++ "\" ".toList)), text ++ ['>'], ?_⟩
  rw [← hkind]
  unfold tagText idAndKind
  rw [show "\" kind=\"".toList = "\" ".toList ++ "kind=\"".toList from rfl]
  simp only [append_assoc, cons_append]

/-- An inline of the converted spelling says its own kind and no other. -/
theorem SpelledBy.saysKind_inline_iff (hvalue : value ∈ askedKinds) (h : SpelledBy id kind attrs)
    (honly : SaysKind value attrs → kind = value.toList) (skipped : List Text) :
    SaysKind value (tagText ("docx-inline".toList ++
      ((idAndKind id kind ++ (styleAttr attrs ++ copiedAttrs skipped attrs)) ++ ['/']))) ↔
        kind = value.toList := by
  constructor
  · intro hsaid
    obtain ⟨text, htext⟩ : ∃ text,
        idAndKind id kind ++ (styleAttr attrs ++ copiedAttrs skipped attrs) = ' ' :: text := ⟨_, rfl⟩
    rw [htext] at hsaid
    have hinside : text <:+: idAndKind id kind ++ (styleAttr attrs ++ copiedAttrs skipped attrs) :=
      htext ▸ (suffix_cons _ _).isInfix
    have hsaid := saysKind_selfClosing hvalue
      (@saysKind_tagText value "docx-inline".toList _ hvalue (by decide) hsaid)
    exact honly (h.saysKind_inline (isAskedKind_of_mem hvalue) (hsaid.mono hinside))
  · intro hkind
    rw [append_assoc]
    exact saysKind_idAndKind hvalue hkind _ _

theorem readTag_revisionElement (hkind : isVisibleRevision kind = true) (text : Text) :
    readTag stack (tagText ("docx-revision".toList ++ (idAndKind id kind ++ text))) =
      (.pass :: stack, []) := by
  rw [readTag_revision, if_pos]
  exact (isVisibleRevision_iff.mp hkind).imp (saysKind_idAndKind (by decide) · _ _)
    (saysKind_idAndKind (by decide) · _ _)

theorem head_tag {inner : Text} : (renderItems (.tag inner :: after)).head? ≠ some '{' := fun h => by
  cases h

theorem head_converted {afterPieces : List BodyPiece}
    (hafter : (renderItems after).head? = some '{' → (leadingProse afterPieces).head? = some '{') :
    ∀ nodes : List TypedNode,
      (renderItems (converted nodes ++ after)).head? = some '{' →
        (leadingProse (pieces nodes ++ afterPieces)).head? = some '{'
  | [], h => hafter h
  | node :: rest, h => by
    have ih := head_converted hafter rest
    rw [converted, append_assoc] at h
    rw [pieces, append_assoc]
    cases node with
    | text styleId content vertical =>
      change (xmlEscape content ++ renderItems (converted rest ++ after)).head? = some '{' at h
      show (content ++ leadingProse (pieces rest ++ afterPieces)).head? = some '{'
      cases content with
      | nil => exact ih h
      | cons c content =>
        change (escapeChar c ++ xmlEscape content ++ _).head? = some '{' at h
        rw [append_assoc] at h
        rcases escapeChar_cases c with ⟨rfl, hc⟩ | ⟨rfl, hc⟩ | ⟨rfl, hc⟩ | ⟨-, -, -, hc⟩
        · rw [hc] at h
          cases h
        · rw [hc] at h
          cases h
        · rw [hc] at h
          cases h
        · rw [hc] at h
          exact h
    | anchor => exact absurd h head_tag
    | inline => exact absurd h head_tag
    | opaqueToken => exact absurd h head_tag
    | range => exact absurd h head_tag
    | revision tokenId kind attrs children =>
      unfold nodeConverted at h
      split_ifs at h
      · exact absurd h head_tag
      · exact absurd h head_tag

mutual

/-- One node of the converted spelling is read as its visible text. -/
theorem nodeConverted_read : ∀ (node : TypedNode) {stack : List Passing} {after : List MarkupItem}
    {afterPieces : List BodyPiece}, NodeOfDocument node → NodeSpeltPlainly true node →
    stack.contains .skip = false → PiecesPlain (nodePieces node ++ afterPieces) →
    ((renderItems after).head? = some '{' → (leadingProse afterPieces).head? = some '{') →
    ReadsClean stack after →
      ReadsClean stack (nodeConverted node ++ after) ∧
        readItems stack (nodeConverted node ++ after) = visibleNodeText node ++ readItems stack after
  | .text _ content _, stack, after, _, _, _, hskip, hpieces, hhead, hafter => by
    refine ⟨⟨fun _ => noOpening_append_of_head hpieces.2.1 hhead, hafter⟩, ?_⟩
    show (if stack.contains .skip then [] else content) ++ readItems stack after = _
    rw [hskip]
    rfl
  | .anchor tokenId kind attrs, stack, after, _, hdoc, hnames, _, _, _, hafter => by
    have hspelt : '>' ∉ renderNodeAttrs (tokenAttrs tokenId kind attrs) :=
      (NamesClosed.tokenAttrs hnames _ _).renderNodeAttrs
    refine readsClean_tag ?_ (readTag_anchor _) rfl hafter
    simp only [mem_append, not_or]
    exact ⟨by decide, ⟨gt_notMem_idAndKind hdoc.1.plain (anchorKinds_plain hdoc.2),
      gt_notMem_copiedAttrs hspelt⟩, by decide⟩
  | .inline tokenId kind styleId attrs, stack, after, _, hdoc, hplain, _, _, _, hafter => by
    have hmem := all_eq_true.mp inlineKinds_plain kind (mem_inlineKinds hdoc.2.1)
    rw [Bool.and_eq_true] at hmem
    have hkind := plainValue_of_all hmem.1
    have hspelt : '>' ∉ renderNodeAttrs (inlineAttrs tokenId kind styleId attrs) :=
      (hplain.1.inlineAttrs _ _ _).renderNodeAttrs
    have hspelled := spelledBy_inlineAttrs hdoc.1.plain hkind hdoc.2.2 attrs
    refine readsClean_tag ?_ (readTag_inlineKind fun value hvalue => hspelled.saysKind_inline_iff
      (breakKinds_subset hvalue) (hplain.2.1 value hvalue) _) (xmlEscape_inlineText kind) hafter
    simp only [mem_append, not_or]
    exact ⟨by decide, ⟨gt_notMem_idAndKind hdoc.1.plain hkind, gt_notMem_styleAttr hspelt,
      gt_notMem_copiedAttrs hspelt⟩, by decide⟩
  | .opaqueToken tokenId kind attrs, stack, after, _, hdoc, hplain, _, _, _, hafter => by
    have hkinds := opaqueKinds hdoc.2
    have hspelt : '>' ∉ renderNodeAttrs (tokenAttrs tokenId kind attrs) :=
      (hplain.1.tokenAttrs _ _).renderNodeAttrs
    refine readsClean_tag ?_ (by
      rw [append_assoc (idAndKind _ _)]
      exact readTag_opaqueKind hdoc.1 hdoc.2) hkinds.2.2.1 hafter
    simp only [mem_append, not_or]
    exact ⟨by decide, ⟨gt_notMem_idAndKind hdoc.1.plain hkinds.1, gt_notMem_copiedAttrs hspelt⟩,
      by decide⟩
  | .range tokenId kind attrs children, stack, after, afterPieces, hdoc, hplain, hskip, hpieces,
      hhead, hafter => by
    have hkind : PlainValue kind := by
      rw [hdoc.2.1]
      exact plainValue_of_all (by decide)
    have hclosing := @readsClean_closing (.pass :: stack) after "docx-range" (by decide)
    obtain ⟨hclean, hread⟩ := @converted_read children (.pass :: stack)
      (closingItem "docx-range" :: after) (.token (rangeEndContent tokenId) :: afterPieces)
      hdoc.2.2 hplain.2 hskip (by
        have h : PiecesPlain (pieces children ++ [.token _] ++ afterPieces) := hpieces.2
        rwa [append_assoc] at h)
      (fun h => absurd h head_closingItem) (hclosing.1.mpr hafter)
    have hopening := readsClean_tag (by
      rw [mem_append, not_or]
      exact ⟨by decide, gt_notMem_idAndKind hdoc.1.plain hkind⟩)
      (@readTag_range stack (idAndKind tokenId kind)) rfl hclean
    unfold nodeConverted visibleNodeText
    rw [cons_append, append_assoc, singleton_append]
    exact ⟨hopening.1, hopening.2.trans (hread.trans (congrArg _ hclosing.2))⟩
  | .revision tokenId kind attrs children, stack, after, afterPieces, hdoc, hplain, hskip, hpieces,
      hhead, hafter => by
    have hkind := revisionKinds_plain hdoc.2.1
    by_cases hvisible : isVisibleRevision kind = true
    · have hspelt : '>' ∉ renderRevisionAttrs tokenId (tokenAttrs tokenId kind attrs) :=
        (hplain.1.tokenAttrs _ _).renderRevisionAttrs _
      have hclosing := @readsClean_closing (.pass :: stack) after "docx-revision" (by decide)
      obtain ⟨hclean, hread⟩ := @converted_read children (.pass :: stack)
        (closingItem "docx-revision" :: after)
        (.token (revisionEndContent tokenId kind) :: afterPieces) hdoc.2.2 (by
          have h := hplain.2.2
          rwa [hvisible] at h) hskip (by
          unfold nodePieces at hpieces
          rw [if_pos hvisible] at hpieces
          have h : PiecesPlain (pieces children ++ [.token _] ++ afterPieces) := hpieces.2
          rwa [append_assoc] at h)
        (fun h => absurd h head_closingItem) (hclosing.1.mpr hafter)
      have hopening := readsClean_tag (by
        rw [mem_append, mem_append, not_or, not_or]
        exact ⟨by decide, gt_notMem_idAndKind hdoc.1.plain hkind, gt_notMem_copiedAttrs hspelt⟩)
        (@readTag_revisionElement tokenId kind stack hvisible
          (copiedAttrs [idKey, kindKey] (renderRevisionAttrs tokenId (tokenAttrs tokenId kind attrs))))
        rfl hclean
      unfold nodeConverted visibleNodeText
      rw [if_pos hvisible, if_pos hvisible, cons_append, append_assoc,
        singleton_append]
      exact ⟨hopening.1, hopening.2.trans (hread.trans (congrArg _ hclosing.2))⟩
    · have hspelt : '>' ∉ gapAttrs tokenId kind := by
        unfold gapAttrs
        simp only [mem_append, not_or]
        exact ⟨⟨⟨by decide, gt_notMem_projectionAttrValue⟩, by decide⟩,
          gt_notMem_projectionAttrValue⟩
      have hclosing : ∀ passing : Passing,
          ReadsClean (passing :: stack) (closingItem "docx-revision" :: after) ∧
            readItems (passing :: stack) (closingItem "docx-revision" :: after) =
              readItems stack after := fun passing =>
        ⟨(@readsClean_closing (passing :: stack) after "docx-revision" (by decide)).1.mpr hafter,
          (@readsClean_closing (passing :: stack) after "docx-revision" (by decide)).2⟩
      have hopening := readsClean_tag (by
        rw [mem_append, mem_append, not_or, not_or]
        exact ⟨by decide, gt_notMem_idAndKind hdoc.1.plain hkind, gt_notMem_copiedAttrs hspelt⟩)
        (@readTag_revision stack (idAndKind tokenId kind ++
          copiedAttrs [idKey, kindKey] (gapAttrs tokenId kind))) rfl (hclosing _).1
      unfold nodeConverted visibleNodeText
      rw [if_neg hvisible, if_neg hvisible]
      exact ⟨hopening.1, hopening.2.trans (hclosing _).2⟩

theorem converted_read : ∀ (nodes : List TypedNode) {stack : List Passing}
    {after : List MarkupItem} {afterPieces : List BodyPiece}, NodesOfDocument nodes →
    SpeltPlainly true nodes → stack.contains .skip = false →
    PiecesPlain (pieces nodes ++ afterPieces) →
    ((renderItems after).head? = some '{' → (leadingProse afterPieces).head? = some '{') →
    ReadsClean stack after →
      ReadsClean stack (converted nodes ++ after) ∧
        readItems stack (converted nodes ++ after) = visibleText nodes ++ readItems stack after
  | [], _, _, _, _, _, _, _, _, hafter => ⟨hafter, rfl⟩
  | node :: rest, stack, after, afterPieces, hdoc, hplain, hskip, hpieces, hhead, hafter => by
    rw [pieces, append_assoc] at hpieces
    obtain ⟨hclean, hread⟩ := converted_read rest hdoc.2 hplain.2 hskip (piecesPlain_right hpieces)
      hhead hafter
    obtain ⟨hclean', hread'⟩ := nodeConverted_read node hdoc.1 hplain.1 hskip hpieces
      (head_converted hhead rest) hclean
    rw [converted, append_assoc]
    refine ⟨hclean', ?_⟩
    rw [hread', hread, ← append_assoc, visibleText]

end

end Reading

/-! ## Its tokens -/

section Tokens

variable {id kind : Text}

theorem tokenOfTag_element {name : Text} (hname : '"' ∉ name) (hdocx : "docx-".toList <+: name)
    (hid : PlainValue id) (hkind : PlainValue kind) (text : Text) :
    tokenOfTag (tagText (name ++ (idAndKind id kind ++ text))) = some (id, kind) := by
  have hbefore : '"' ∉ '<' :: name := fun hmem =>
    (mem_cons.mp hmem).elim (by decide) hname
  have hshape : tagText (name ++ (idAndKind id kind ++ text)) =
      ('<' :: name) ++ (idAndKind id kind ++ (text ++ ['>'])) := by
    unfold tagText
    simp only [append_assoc, cons_append]
  have hprefix : "<docx-".toList <+: ('<' :: name) ++ (idAndKind id kind ++ (text ++ ['>'])) := by
    obtain ⟨more, hmore⟩ := hdocx
    exact ⟨more ++ (idAndKind id kind ++ (text ++ ['>'])), by rw [← hmore]; simp⟩
  rw [hshape, tokenOfTag, if_pos hprefix, attrValue_id hbefore hid, attrValue_kind hbefore hid hkind]

theorem tokenOfTag_closing (name : String) : tokenOfTag (tagText ('/' :: name.toList)) = none := by
  unfold tokenOfTag
  rw [if_neg]
  exact @not_prefix_append "<docx-".toList ['<', '/'] (name.toList ++ ['>']) (by decide)

theorem itemTags_append : ∀ left right : List MarkupItem,
    itemTags (left ++ right) = itemTags left ++ itemTags right
  | [], _ => rfl
  | .prose _ :: left, right => itemTags_append left right
  | .vertical _ _ :: left, right => itemTags_append left right
  | .tag inner :: left, right => congrArg (tagText inner :: ·) (itemTags_append left right)

mutual

/-- The elements of one node are its placeholders. -/
theorem nodeConverted_tokens : ∀ {node : TypedNode}, NodeOfDocument node →
    (itemTags (nodeConverted node)).filterMap tokenOfTag = nodeDraftTokens node
  | .text .., _ => rfl
  | .anchor tokenId kind attrs, h => by
    unfold nodeConverted nodeDraftTokens itemTags
    rw [append_assoc (idAndKind _ _), filterMap_cons, tokenOfTag_element (by decide)
      (by decide) h.1.plain (anchorKinds_plain h.2)]
    rfl
  | .inline tokenId kind styleId attrs, h => by
    have hmem := all_eq_true.mp inlineKinds_plain kind (mem_inlineKinds h.2.1)
    rw [Bool.and_eq_true] at hmem
    unfold nodeConverted nodeDraftTokens itemTags
    rw [append_assoc (idAndKind _ _), filterMap_cons, tokenOfTag_element (by decide)
      (by decide) h.1.plain (plainValue_of_all hmem.1)]
    rfl
  | .opaqueToken tokenId kind attrs, h => by
    unfold nodeConverted nodeDraftTokens itemTags
    rw [append_assoc (idAndKind _ _), filterMap_cons, tokenOfTag_element (by decide)
      (by decide) h.1.plain (opaqueKinds h.2).1]
    rfl
  | .range tokenId kind attrs children, h => by
    have hkind : PlainValue kind := by
      rw [h.2.1]
      exact plainValue_of_all (by decide)
    have htoken := @tokenOfTag_element tokenId kind "docx-range".toList (by decide) (by decide)
      h.1.plain hkind []
    rw [append_nil] at htoken
    unfold nodeConverted nodeDraftTokens itemTags
    rw [itemTags_append, filterMap_cons, htoken, filterMap_append,
      converted_tokens h.2.2]
    show _ :: (_ ++ List.filterMap tokenOfTag [tagText ('/' :: "docx-range".toList)]) = _
    rw [filterMap_cons, tokenOfTag_closing, filterMap_nil, append_nil]
  | .revision tokenId kind attrs children, h => by
    have hkind := revisionKinds_plain h.2.1
    unfold nodeConverted nodeDraftTokens
    by_cases hvisible : isVisibleRevision kind = true
    · rw [if_pos hvisible, if_pos hvisible, itemTags, itemTags_append, filterMap_cons,
        tokenOfTag_element (by decide) (by decide) h.1.plain hkind, filterMap_append,
        converted_tokens h.2.2]
      show _ :: (_ ++ List.filterMap tokenOfTag [tagText ('/' :: "docx-revision".toList)]) = _
      rw [filterMap_cons, tokenOfTag_closing, filterMap_nil, append_nil]
    · rw [if_neg hvisible, if_neg hvisible, itemTags, filterMap_cons,
        tokenOfTag_element (by decide) (by decide) h.1.plain hkind]
      show _ :: List.filterMap tokenOfTag [tagText ('/' :: "docx-revision".toList)] = _
      rw [filterMap_cons, tokenOfTag_closing, filterMap_nil]

theorem converted_tokens : ∀ {nodes : List TypedNode}, NodesOfDocument nodes →
    (itemTags (converted nodes)).filterMap tokenOfTag = draftTokens nodes
  | [], _ => rfl
  | node :: rest, h => by
    rw [converted, itemTags_append, filterMap_append, nodeConverted_tokens h.1,
      converted_tokens h.2, draftTokens]

end

mutual

theorem slash_notMem_nodePieces : ∀ {node : TypedNode}, NodeSpeltPlainly true node →
    ∀ text, .prose text ∈ nodePieces node → '\\' ∉ text
  | .text _ content _, h, text, hmem => by
    cases mem_singleton.mp hmem
    exact (h rfl).1
  | .anchor .., _, text, hmem => by cases mem_singleton.mp hmem
  | .inline .., _, text, hmem => by cases mem_singleton.mp hmem
  | .opaqueToken .., _, text, hmem => by cases mem_singleton.mp hmem
  | .range _ _ _ children, h, text, hmem => by
    rcases mem_cons.mp hmem with hmem | hmem
    · cases hmem
    rcases mem_append.mp hmem with hmem | hmem
    · exact slash_notMem_pieces h.2 text hmem
    · cases mem_singleton.mp hmem
  | .revision _ kind _ children, h, text, hmem => by
    unfold nodePieces at hmem
    by_cases hvisible : isVisibleRevision kind = true
    · rw [if_pos hvisible] at hmem
      have hplain := h.2.2
      rw [hvisible] at hplain
      rcases mem_cons.mp hmem with hmem | hmem
      · cases hmem
      rcases mem_append.mp hmem with hmem | hmem
      · exact slash_notMem_pieces hplain text hmem
      · cases mem_singleton.mp hmem
    · rw [if_neg hvisible] at hmem
      cases mem_singleton.mp hmem

theorem slash_notMem_pieces : ∀ {nodes : List TypedNode}, SpeltPlainly true nodes →
    ∀ text, .prose text ∈ pieces nodes → '\\' ∉ text
  | [], _, _, hmem => absurd hmem not_mem_nil
  | node :: rest, h, text, hmem => by
    rcases mem_append.mp hmem with hmem | hmem
    · exact slash_notMem_nodePieces h.1 text hmem
    · exact slash_notMem_pieces h.2 text hmem

end

end Tokens

/-! ## Agreement -/

section Agreement

variable {nodes : List TypedNode}

theorem typedMarkupFromDraft_projectNodes (hdoc : NodesOfDocument nodes) (hclear : KeepsClear nodes)
    (hplain : SpeltPlainly true nodes) :
    typedMarkupFromDraft (projectNodes nodes) = renderItems (converted nodes) := by
  unfold typedMarkupFromDraft
  rw [projectNodes_eq_render, typedMarkupFrom_pieces hclear.piecesPlain (slash_notMem_pieces hplain)
    (Nat.le_refl _), converted_render hdoc]

theorem converted_clean (hdoc : NodesOfDocument nodes) (hclear : KeepsClear nodes)
    (hplain : SpeltPlainly true nodes) :
    ReadsClean [] (converted nodes) ∧ readItems [] (converted nodes) = visibleText nodes := by
  have hpieces : PiecesPlain (pieces nodes ++ []) := by
    rw [append_nil]
    exact hclear.piecesPlain
  have h := @converted_read nodes [] [] [] hdoc hplain rfl hpieces (fun h => by cases h) trivial
  rw [append_nil] at h
  exact ⟨h.1, h.2.trans (append_nil _)⟩

theorem paragraphMarkup_reads (baseStyle : Text) (hdoc : NodesOfDocument nodes)
    (hclear : KeepsClear nodes) (hplain : SpeltPlainly true nodes) :
    typedBodyVisibleText (paragraphMarkup baseStyle nodes) = visibleText nodes := by
  have hpieces : isShown [] = true → PiecesPlain (pieces nodes ++ []) := fun _ => by
    rw [append_nil]
    exact hclear.piecesPlain
  have h := @paragraphItems_read baseStyle nodes [] [] [] hdoc hplain hpieces (fun h => by cases h)
    trivial
  rw [append_nil] at h
  rw [paragraphMarkup_eq_render, typedBodyVisibleText_renderItems h.1]
  exact h.2.trans (append_nil _)

/-- Where a paragraph keeps clear of the draft's grammar and is spelt plainly, its spellings read
the same, but for what its tokens stand for. -/
theorem spellings_match (isAlphanumeric : Char → Bool) (baseStyle : Text)
    (hdoc : NodesOfDocument nodes) (hclear : KeepsClear nodes) (hplain : SpeltPlainly true nodes) :
    SpellingsMatch isAlphanumeric baseStyle nodes := by
  obtain ⟨read, hread, hreads⟩ := (projectNodes_readsBack_iff isAlphanumeric nodes).mpr hclear
  obtain ⟨hclean, hitems⟩ := converted_clean hdoc hclear hplain
  have hconverted := typedMarkupFromDraft_projectNodes hdoc hclear hplain
  have hmarkup := paragraphMarkup_reads baseStyle hdoc hclear hplain
  have hback : typedBodyVisibleText (typedMarkupFromDraft (projectNodes nodes)) =
      visibleText nodes := by
    rw [hconverted, typedBodyVisibleText_renderItems hclean, hitems]
  constructor
  · rw [hread, ← hreads.flat]
    rfl
  · exact hmarkup
  · exact hback
  · rw [hconverted, typedTokens, tagsFrom_renderItems hclean (Nat.le_refl _), converted_tokens hdoc]
  · rw [readingsDisagree, hmarkup, hback, bne_self_eq_false]

end Agreement

/-- `x²`, a bookmark, a link, a tab, an insertion, a deletion and a drawing. -/
def linkedParagraph : List TypedNode :=
  [.text "s".toList "x".toList none, .text "s".toList "2".toList (some "superscript".toList),
    .anchor "N0".toList "bookmark-start".toList (AttrMap.empty.insert "w:name".toList "a b".toList),
    .range "N1".toList "hyperlink".toList AttrMap.empty [.text "b".toList ", a <b>".toList none],
    .inline "N2".toList "tab".toList "s".toList AttrMap.empty,
    .revision "N3".toList "insert".toList AttrMap.empty [.text "s".toList " & c^".toList none],
    .revision "N4".toList "delete".toList AttrMap.empty [.text "s".toList ['\\', '^', '{'] none],
    .opaqueToken "N5".toList "opaque".toList AttrMap.empty]

theorem linkedParagraph_matches :
    SpellingsMatch Char.isAlphanum "s".toList linkedParagraph := by
  have hempty : NamesClosed AttrMap.empty := fun _ h => absurd h List.not_mem_nil
  have hdoc : NodesOfDocument linkedParagraph :=
    ⟨trivial, trivial, ⟨⟨0, rfl⟩, by decide⟩, ⟨⟨1, rfl⟩, rfl, trivial, trivial⟩,
      ⟨⟨2, rfl⟩, by decide, by decide⟩, ⟨⟨3, rfl⟩, by decide, trivial, trivial⟩,
      ⟨⟨4, rfl⟩, by decide, trivial, trivial⟩, ⟨⟨5, rfl⟩, .inl rfl⟩, trivial⟩
  have hplain : SpeltPlainly true linkedParagraph := by
    refine ⟨fun _ => ⟨by decide, fun h => by cases h⟩,
      fun _ => ⟨by decide, fun _ _ hc => List.mem_singleton.mp (show _ ∈ ['2'] from hc) ▸ by decide⟩,
      hempty.insert (by decide) _, ⟨hempty, ⟨fun _ => ⟨by decide, fun h => by cases h⟩, trivial⟩⟩,
      ⟨hempty, by decide, fun h => absurd h (by decide)⟩,
      ⟨hempty, by decide, ⟨fun _ => ⟨by decide, fun h => by cases h⟩, trivial⟩⟩,
      ⟨hempty, by decide, ⟨fun h => absurd h (by decide), trivial⟩⟩, ⟨hempty, rfl⟩, trivial⟩
  exact spellings_match Char.isAlphanum "s".toList hdoc (by decide) hplain

/-- A run with a tab. -/
def tabParagraph : List TypedNode := [.inline "N0".toList "tab".toList "s".toList AttrMap.empty]

theorem tabParagraph_disagrees : ¬ ∀ nodes, NodesOfDocument nodes →
    SpellingsAgree Char.isAlphanum "s".toList nodes := by
  intro h
  have hmarkup := (h tabParagraph ⟨⟨⟨0, rfl⟩, by decide, by decide⟩, trivial⟩).markup
  have hdraft : ((bodyBoundaries Char.isAlphanum (projectNodes tabParagraph)).map (·.1)).toOption =
      some [] := by decide
  have htyped : typedBodyVisibleText (paragraphMarkup "s".toList tabParagraph) = ['\t'] := by decide
  rw [hmarkup, htyped] at hdraft
  exact absurd hdraft (by decide)

end Docx2Typed
