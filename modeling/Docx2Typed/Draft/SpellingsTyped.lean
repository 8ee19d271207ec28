import Docx2Typed.Draft.Spellings

/-!
# Reading the typed spelling

The markup is taken apart into prose, vertical tags and elements.  An element only moves the
reader's stack; what stands between the elements is the text of the final view, so long as the
paragraph is spelt plainly.
-/

namespace Docx2Typed

open Library List

/-! ## Ids and kinds -/

theorem digit_of_mem_repr {n : Nat} {c : Char} (h : c ∈ n.repr.toList) : c.isDigit = true := by
  rw [Nat.repr, String.toList_ofList] at h
  exact Nat.isDigit_of_mem_toDigits (by decide) (by decide) h

theorem toLower_of_isDigit {c : Char} (h : c.isDigit = true) : c.toLower = c := by
  unfold Char.toLower
  rw [dif_neg]
  rintro ⟨hlow, -⟩
  unfold Char.isDigit at h
  rw [Bool.and_eq_true, decide_eq_true_eq, decide_eq_true_eq] at h
  have hlow : 65 ≤ c.val.toNat := hlow
  have hhigh : c.val.toNat ≤ 57 := h.2
  omega

theorem IsTokenId.plain {id : Text} (h : IsTokenId id) : PlainValue id := by
  obtain ⟨n, rfl⟩ := h
  intro c hc
  rcases mem_cons.mp hc with rfl | hc
  · exact .inl (by decide)
  · refine .inl ?_
    unfold Char.isAlphanum
    rw [digit_of_mem_repr hc, Bool.or_true]

def isPlainValue (value : Text) : Bool := value.all fun c => c.isAlphanum || c == '-' || c == '_'

theorem plainValue_of_all {value : Text} (h : isPlainValue value = true) : PlainValue value :=
  fun c hc => by
    have hchar := all_eq_true.mp h c hc
    rw [Bool.or_eq_true, Bool.or_eq_true, beq_iff_eq, beq_iff_eq, or_assoc] at hchar
    exact hchar

/-! ## Elements -/

variable {text : Text} {value : String}

section Tags

variable {stack : List Passing}

theorem not_prefix_append {start front rest : Text}
    (hne : start.take front.length ≠ front.take start.length) : ¬ start <+: front ++ rest :=
  fun h => by
    have htake := congrArg (List.take front.length) (prefix_iff_eq_take.mp h)
    rw [take_take, take_append_of_le_length (Nat.min_le_left _ _), ← take_take,
      take_take, Nat.min_comm, ← take_take, take_length] at htake
    exact hne htake

theorem lower_tagText {name rest : Text} (hname : name.map Char.toLower = name) :
    (tagText (name ++ rest)).map Char.toLower =
      ('<' :: name) ++ (rest.map Char.toLower ++ ['>']) := by
  unfold tagText
  rw [cons_append, map_cons, map_append, map_append, hname]
  simp only [cons_append, append_assoc]
  rfl

theorem readTag_span (rest : Text) :
    readTag stack (tagText ("span".toList ++ rest)) = (.pass :: stack, []) := by
  unfold readTag
  rw [lower_tagText (by decide)]
  dsimp only
  rw [if_neg (not_prefix_append (by decide)),
    if_pos (.inl (List.prefix_append _ _))]

theorem readTag_range (rest : Text) :
    readTag stack (tagText ("docx-range".toList ++ rest)) = (.pass :: stack, []) := by
  unfold readTag
  rw [lower_tagText (by decide)]
  dsimp only
  rw [if_neg (not_prefix_append (by decide)),
    if_pos (.inr (List.prefix_append _ _))]

theorem readTag_close (rest : Text) :
    readTag stack (tagText ('/' :: rest)) = (stack.tail, []) := by
  unfold readTag
  rw [show '/' :: rest = ['/'] ++ rest from rfl, lower_tagText (by decide)]
  dsimp only
  rw [if_pos (show "</".toList <+: ['<', '/'] ++ _ from List.prefix_append _ _)]

theorem saysKind_iff :
    containsText ("kind=\"".toList ++ value.toList ++ ['"']) (text.map Char.toLower) = true ↔
      SaysKind value text := containsText_iff

theorem says_eq (value : String) (tag : Text) :
    containsText ("kind=\"".toList ++ value.toList ++ ['"']) (tag.map Char.toLower) =
      decide (SaysKind value tag) :=
  Bool.eq_iff_iff.mpr (saysKind_iff.trans (decide_eq_true_iff).symm)

theorem readTag_revision (rest : Text) :
    readTag stack (tagText ("docx-revision".toList ++ rest)) =
      ((if SaysKind "insert" (tagText ("docx-revision".toList ++ rest)) ∨
          SaysKind "move_to" (tagText ("docx-revision".toList ++ rest)) then .pass else .skip) :: stack,
        []) := by
  unfold readTag
  simp only [says_eq]
  rw [lower_tagText (by decide)]
  rw [if_neg (not_prefix_append (by decide)),
    if_neg (not_or.mpr ⟨not_prefix_append (by decide), not_prefix_append (by decide)⟩),
    if_pos (show "<docx-revision".toList <+: ('<' :: "docx-revision".toList) ++ _ from
      List.prefix_append _ _)]
  simp only [Bool.or_eq_true, decide_eq_true_eq]

theorem readTag_anchor (rest : Text) :
    readTag stack (tagText ("docx-anchor".toList ++ (rest ++ ['/']))) = (stack, []) := by
  have hends : "/>".toList <:+
      ('<' :: "docx-anchor".toList) ++ ((rest ++ ['/']).map Char.toLower ++ ['>']) := by
    rw [map_append, append_assoc, ← append_assoc ('<' :: _)]
    exact suffix_append _ _
  unfold readTag
  rw [lower_tagText (by decide)]
  dsimp only
  rw [if_neg (not_prefix_append (by decide)),
    if_neg (not_or.mpr ⟨not_prefix_append (by decide),
      not_prefix_append (by decide)⟩),
    if_neg (not_prefix_append (by decide)),
    if_pos (show "<docx-anchor".toList <+: ('<' :: "docx-anchor".toList) ++ _ from
      List.prefix_append _ _), if_pos hends]

theorem readTag_inline (rest : Text) :
    readTag stack (tagText ("docx-inline".toList ++ rest)) =
      (stack, if SaysKind "tab" (tagText ("docx-inline".toList ++ rest)) then ['\t']
        else if SaysKind "br" (tagText ("docx-inline".toList ++ rest)) ∨
          SaysKind "cr" (tagText ("docx-inline".toList ++ rest)) then ['\n'] else []) := by
  unfold readTag
  simp only [says_eq]
  rw [lower_tagText (by decide)]
  rw [if_neg (not_prefix_append (by decide)),
    if_neg (not_or.mpr ⟨not_prefix_append (by decide), not_prefix_append (by decide)⟩),
    if_neg (not_prefix_append (by decide)),
    if_neg (not_prefix_append (by decide)),
    if_pos (show "<docx-inline".toList <+: ('<' :: "docx-inline".toList) ++ _ from
      List.prefix_append _ _)]
  simp only [Bool.or_eq_true, decide_eq_true_eq]
  split_ifs <;> rfl

theorem readTag_opaqueNode (rest : Text) :
    readTag stack (tagText ("docx-opaque".toList ++ rest)) =
      (stack, opaqueText (attrValue "kind=\"".toList
        (('<' :: "docx-opaque".toList) ++ (rest.map Char.toLower ++ ['>'])))) := by
  unfold readTag
  rw [lower_tagText (by decide)]
  dsimp only
  rw [if_neg (not_prefix_append (by decide)),
    if_neg (not_or.mpr ⟨not_prefix_append (by decide), not_prefix_append (by decide)⟩),
    if_neg (not_prefix_append (by decide)),
    if_neg (not_prefix_append (by decide)),
    if_neg (not_prefix_append (by decide)),
    if_pos (show "<docx-opaque".toList <+: ('<' :: "docx-opaque".toList) ++ _ from
      List.prefix_append _ _)]
  rfl

end Tags

/-! ## What an element says -/

theorem isVisibleRevision_iff {kind : Text} :
    isVisibleRevision kind = true ↔ kind = "insert".toList ∨ kind = "move_to".toList := by
  unfold isVisibleRevision
  rw [Bool.or_eq_true, beq_iff_eq, beq_iff_eq]

/-- The kinds the reader asks a tag for. -/
def askedKinds : List String := ["tab", "br", "cr", "insert", "move_to"]

theorem breakKinds_subset (h : value ∈ ["tab", "br", "cr"]) : value ∈ askedKinds :=
  mem_append_left ["insert", "move_to"] h

theorem revisionKinds_subset (h : value ∈ ["insert", "move_to"]) : value ∈ askedKinds :=
  mem_append_right ["tab", "br", "cr"] h

section Says

variable {value : String} {name attrs : Text}

theorem isAskedKind_of_mem (h : value ∈ askedKinds) : IsAskedKind value := by
  simp only [askedKinds, mem_cons, not_mem_nil, or_false] at h
  rcases h with rfl | rfl | rfl | rfl | rfl <;> rfl

theorem saysKind_self (h : value ∈ askedKinds) :
    SaysKind value ("kind=\"".toList ++ value.toList ++ ['"']) := by
  simp only [askedKinds, mem_cons, not_mem_nil, or_false] at h
  rcases h with rfl | rfl | rfl | rfl | rfl <;> decide

theorem not_saysKind_of_notMem (h : '"' ∉ text) : ¬ SaysKind value text :=
  fun hsaid => by
    have hmem : '"' ∈ text.map Char.toLower :=
      hsaid.subset (mem_append_right _ (mem_singleton_self _))
    obtain ⟨c, hc, hquote⟩ := mem_map.mp hmem
    exact h (toLower_eq_quote hquote ▸ hc)

/-- An element says what its attributes say. -/
theorem saysKind_tagText (hvalue : value ∈ askedKinds) (hname : '"' ∉ name)
    (h : SaysKind value (tagText (name ++ ' ' :: attrs))) : SaysKind value attrs := by
  have hasked := isAskedKind_of_mem hvalue
  rw [show tagText (name ++ ' ' :: attrs) = ('<' :: name) ++ ' ' :: (attrs ++ '>' :: []) by
    simp [tagText], saysKind_append_cons hasked (.inl rfl),
    saysKind_append_cons hasked (.inr (.inr rfl))] at h
  rcases h with h | h | h
  · exact absurd h (not_saysKind_of_notMem fun hmem =>
      (mem_cons.mp hmem).elim (by decide) hname)
  · exact h
  · exact absurd h not_saysKind_nil

theorem saysKind_selfClosing (hvalue : value ∈ askedKinds) (h : SaysKind value (attrs ++ ['/'])) :
    SaysKind value attrs := by
  rw [saysKind_append_cons (isAskedKind_of_mem hvalue) (.inr (.inl rfl))] at h
  exact h.resolve_right not_saysKind_nil

end Says

/-- An inline that says its own kind stands for its character. -/
theorem readTag_inlineKind {stack : List Passing} {rest kind : Text}
    (h : ∀ value ∈ ["tab", "br", "cr"],
      SaysKind value (tagText ("docx-inline".toList ++ rest)) ↔ kind = value.toList) :
    readTag stack (tagText ("docx-inline".toList ++ rest)) = (stack, inlineText kind) := by
  have htab := h "tab" (by decide)
  have hbr := h "br" (by decide)
  have hcr := h "cr" (by decide)
  rw [readTag_inline]
  unfold inlineText
  by_cases hkind : kind = "tab".toList
  · rw [if_pos (htab.mpr hkind), if_pos hkind]
  by_cases hbreak : kind = "br".toList ∨ kind = "cr".toList
  · rw [if_neg (mt htab.mp hkind), if_neg hkind, if_pos (hbreak.imp hbr.mpr hcr.mpr), if_pos hbreak]
  · rw [if_neg (mt htab.mp hkind), if_neg hkind,
      if_neg (fun hor => hbreak (hor.imp hbr.mp hcr.mp)), if_neg hbreak]

/-- A revision that says its own kind opens or hides what it holds, as the kind says. -/
theorem readTag_revisionKind {stack : List Passing} {rest kind : Text}
    (h : ∀ value ∈ ["insert", "move_to"],
      SaysKind value (tagText ("docx-revision".toList ++ rest)) ↔ kind = value.toList) :
    readTag stack (tagText ("docx-revision".toList ++ rest)) =
      ((if isVisibleRevision kind then .pass else .skip) :: stack, []) := by
  have hinsert := h "insert" (by decide)
  have hmove := h "move_to" (by decide)
  rw [readTag_revision]
  by_cases hkind : isVisibleRevision kind = true
  · have hor := isVisibleRevision_iff.mp hkind
    rw [if_pos (hor.imp hinsert.mpr hmove.mpr), if_pos hkind]
  · rw [if_neg (fun hor => hkind (isVisibleRevision_iff.mpr (hor.imp hinsert.mp hmove.mp))),
      if_neg hkind]

/-! ## Names and values -/

theorem mem_joinSpaced {c : Char} : ∀ {texts : List Text}, c ∈ joinSpaced texts →
    c = ' ' ∨ ∃ text ∈ texts, c ∈ text
  | [], h => by cases h
  | [text], h => by
    rw [joinSpaced, intercalate_singleton] at h
    exact .inr ⟨text, mem_singleton_self _, h⟩
  | text :: next :: rest, h => by
    unfold joinSpaced at h
    rw [intercalate_cons_cons, mem_append, mem_append] at h
    rcases h with (h | h) | h
    · exact .inr ⟨text, mem_cons_self, h⟩
    · exact .inl (mem_singleton.mp h)
    · rcases mem_joinSpaced h with h | ⟨other, hother, h⟩
      · exact .inl h
      · exact .inr ⟨other, mem_cons_of_mem _ hother, h⟩

theorem gt_notMem_projectionAttrValue {value : Text} : '>' ∉ projectionAttrValue value := by
  have hescaped : '>' ∉ value.flatMap escapeAttrChar := fun hmem => by
    obtain ⟨c, -, hc⟩ := mem_flatMap.mp hmem
    unfold escapeAttrChar at hc
    split_ifs at hc with hamp hlt hgt
    · exact absurd hc (by decide)
    · exact absurd hc (by decide)
    · exact absurd hc (by decide)
    · exact absurd hc (by decide)
    · exact hgt (mem_singleton.mp hc).symm
  unfold projectionAttrValue
  intro hmem
  rcases mem_append.mp hmem with hmem | hmem
  · rcases mem_append.mp hmem with hmem | hmem
    · exact absurd hmem (by decide)
    · exact hescaped hmem
  · exact absurd hmem (by decide)

theorem gt_notMem_renderAttrs {entries : List (Text × Text)} (h : ∀ entry ∈ entries, '>' ∉ entry.1) :
    '>' ∉ joinSpaced (entries.map renderAttr) := by
  intro hmem
  rcases mem_joinSpaced hmem with hspace | ⟨text, htext, hmem⟩
  · exact absurd hspace (by decide)
  obtain ⟨entry, hentry, rfl⟩ := mem_map.mp htext
  unfold renderAttr at hmem
  rcases mem_append.mp hmem with hmem | hmem
  · rcases mem_append.mp hmem with hmem | hmem
    · exact h entry hentry hmem
    · exact absurd hmem (by decide)
  · exact gt_notMem_projectionAttrValue hmem

variable {attrs : AttrMap}

section

variable (h : NamesClosed attrs)

include h

theorem NamesClosed.insert {key : Text} (hkey : '>' ∉ key) (value : Text) :
    NamesClosed (attrs.insert key value) := fun entry hentry => by
  rcases mem_insertEntry hentry with rfl | hentry
  · exact hkey
  · exact h entry hentry

theorem NamesClosed.tokenAttrs (tokenId kind : Text) :
    NamesClosed (tokenAttrs tokenId kind attrs) :=
  (h.insert (by decide) _).insert (by decide) _

theorem NamesClosed.inlineAttrs (tokenId kind styleId : Text) :
    NamesClosed (inlineAttrs tokenId kind styleId attrs) := by
  unfold Docx2Typed.inlineAttrs
  dsimp only
  split
  · exact h.tokenAttrs _ _
  · exact (h.tokenAttrs _ _).insert (by decide) _

theorem NamesClosed.renderNodeAttrs : '>' ∉ renderNodeAttrs attrs := by
  refine gt_notMem_renderAttrs fun entry hentry => ?_
  rcases mem_append.mp hentry with hentry | hentry
  · rcases mem_append.mp hentry with hentry | hentry
    · obtain ⟨value, -, rfl⟩ := Option.map_eq_some_iff.mp (Option.mem_toList.mp hentry)
      exact show '>' ∉ idKey by decide
    · obtain ⟨value, -, rfl⟩ := Option.map_eq_some_iff.mp (Option.mem_toList.mp hentry)
      exact show '>' ∉ kindKey by decide
  · exact h entry (mem_filter.mp hentry).1

theorem NamesClosed.renderRevisionAttrs (tokenId : Text) :
    '>' ∉ renderRevisionAttrs tokenId attrs := by
  refine gt_notMem_renderAttrs fun entry hentry => ?_
  rcases mem_cons.mp hentry with rfl | hentry
  · exact show '>' ∉ idKey by decide
  · exact h entry (mem_filter.mp hentry).1

end

theorem insertEntry_comm {key key' : Text} (hne : key ≠ key') (value value' : Text) :
    ∀ entries : List (Text × Text),
      insertEntry key value (insertEntry key' value' entries) =
        insertEntry key' value' (insertEntry key value entries)
  | [] => by
    rcases lt_or_gt_of_ne hne with h | h
    · simp [insertEntry, h, not_lt_of_gt h, Ne.symm hne]
    · simp [insertEntry, h, not_lt_of_gt h, hne]
  | head :: rest => by
    have ih := insertEntry_comm hne value value' rest
    rcases lt_trichotomy key head.1 with h | h | h <;>
      rcases lt_trichotomy key' head.1 with h' | h' | h' <;>
      rcases lt_or_gt_of_ne hne with hk | hk <;>
      grind [insertEntry]

theorem inlineAttrs_eq {tokenId kind styleId : Text} (hstyle : styleId ≠ []) (attrs : AttrMap) :
    inlineAttrs tokenId kind styleId attrs =
      tokenAttrs tokenId kind (attrs.insert "style".toList styleId) := by
  have hentries : (inlineAttrs tokenId kind styleId attrs).entries =
      (tokenAttrs tokenId kind (attrs.insert "style".toList styleId)).entries := by
    unfold inlineAttrs
    rw [if_neg hstyle]
    show insertEntry _ _ (insertEntry _ _ (insertEntry _ _ _)) = _
    rw [insertEntry_comm (by decide), @insertEntry_comm "style".toList idKey (by decide)]
    rfl
  cases h : inlineAttrs tokenId kind styleId attrs
  cases h' : tokenAttrs tokenId kind (attrs.insert "style".toList styleId)
  rw [h, h'] at hentries
  dsimp only at hentries
  subst hentries
  rfl

/-! ## Ids and kinds read back -/

section ReadBack

variable {id kind : Text}

theorem attrValue_cons_blank {name text : Text} (hname : name.head? ≠ some ' ') (hne : name ≠ []) :
    attrValue name (' ' :: text) = attrValue name text := by
  have hprefix : ∀ k, k < [' '].length → ¬ name <+: [' '].drop k ++ text := by
    rintro k hk ⟨rest, hrest⟩
    obtain rfl : k = 0 := Nat.lt_one_iff.mp hk
    cases name with
    | nil => exact hne rfl
    | cons c name =>
      rw [cons_append, drop_zero, singleton_append, List.cons.injEq] at hrest
      exact hname (by rw [hrest.1]; rfl)
  have hfind := findSub_skip text hprefix
  rw [singleton_append, length_singleton] at hfind
  unfold attrValue afterFirst
  rw [hfind]
  cases findSub name text with
  | none => rfl
  | some found =>
    simp only [Option.map_some, Option.bind_eq_bind, Option.bind_some]
    rw [show found + 1 + name.length = (found + name.length) + 1 by omega, drop_succ_cons]

/-- What is written right behind the name of an element. -/
structure SpelledBy (id kind attrs : Text) : Prop where
  plainId : PlainValue id
  plainKind : PlainValue kind
  spelled : ∃ tail, ' ' :: attrs = idAndKind id kind ++ tail

theorem SpelledBy.attrValue_id {attrs : Text} (h : SpelledBy id kind attrs) :
    attrValue "id=\"".toList attrs = id := by
  obtain ⟨tail, htail⟩ := h.spelled
  rw [← attrValue_cons_blank (by decide) (by decide), htail]
  exact @Docx2Typed.attrValue_id id kind tail [] not_mem_nil h.plainId

theorem SpelledBy.attrValue_kind {attrs : Text} (h : SpelledBy id kind attrs) :
    attrValue "kind=\"".toList attrs = kind := by
  obtain ⟨tail, htail⟩ := h.spelled
  rw [← attrValue_cons_blank (by decide) (by decide), htail]
  exact @Docx2Typed.attrValue_kind id kind tail [] not_mem_nil h.plainId h.plainKind

theorem joinSpaced_cons (first : Text) (rest : List Text) :
    ∃ tail, joinSpaced (first :: rest) = first ++ tail := by
  cases rest with
  | nil => exact ⟨[], by rw [joinSpaced, intercalate_singleton, append_nil]⟩
  | cons next rest =>
    refine ⟨[' '] ++ joinSpaced (next :: rest), ?_⟩
    unfold joinSpaced
    rw [intercalate_cons_cons, append_assoc]

theorem spelledBy_renderNodeAttrs (hid : PlainValue id) (hkind : PlainValue kind)
    (attrs : AttrMap) : SpelledBy id kind (renderNodeAttrs (tokenAttrs id kind attrs)) := by
  refine ⟨hid, hkind, ?_⟩
  have hget : (tokenAttrs id kind attrs).get kindKey = some kind :=
    AttrMap.get_eq_some_iff.mpr mem_insertEntry_self
  unfold renderNodeAttrs
  rw [tokenAttrs_get_id, hget]
  let others := ((tokenAttrs id kind attrs).entries.filter fun entry =>
    entry.1 ≠ idKey ∧ entry.1 ≠ kindKey).map renderAttr
  obtain ⟨tail, htail⟩ := joinSpaced_cons (renderAttr (kindKey, kind)) others
  refine ⟨tail, ?_⟩
  show ' ' :: joinSpaced (renderAttr (idKey, id) :: renderAttr (kindKey, kind) :: others) = _
  unfold joinSpaced at htail ⊢
  rw [intercalate_cons_cons, htail, renderAttr, renderAttr, projectionAttrValue_plain hid,
    projectionAttrValue_plain hkind, idAndKind_append]
  simp only [append_assoc, cons_append, nil_append]
  rfl

theorem spelledBy_inlineAttrs (hid : PlainValue id) (hkind : PlainValue kind) {styleId : Text}
    (hstyle : styleId ≠ []) (attrs : AttrMap) :
    SpelledBy id kind (renderNodeAttrs (inlineAttrs id kind styleId attrs)) := by
  rw [inlineAttrs_eq hstyle]
  exact spelledBy_renderNodeAttrs hid hkind _

/-- The attributes of a `revision-gap`. -/
def gapAttrs (id kind : Text) : Text :=
  "id=".toList ++ projectionAttrValue id ++ " kind=".toList ++ projectionAttrValue kind

theorem spelledBy_gapAttrs (hid : PlainValue id) (hkind : PlainValue kind) :
    SpelledBy id kind (gapAttrs id kind) := by
  refine ⟨hid, hkind, [], ?_⟩
  unfold gapAttrs
  rw [projectionAttrValue_plain hid, projectionAttrValue_plain hkind, idAndKind_append]
  simp only [append_assoc, cons_append, nil_append]
  rfl

theorem attrValue_renderRevisionAttrs (hid : PlainValue id) (attrs : AttrMap) :
    attrValue "id=\"".toList (renderRevisionAttrs id attrs) = id := by
  obtain ⟨tail, htail⟩ := joinSpaced_cons (renderAttr (idKey, id))
    ((attrs.entries.filter fun entry => entry.1 ≠ idKey).map renderAttr)
  have hspelled : renderRevisionAttrs id attrs = "id=".toList ++ '"' :: (id ++ '"' :: tail) := by
    show joinSpaced (renderAttr (idKey, id) :: _) = _
    rw [htail, renderAttr, projectionAttrValue_plain hid]
    simp only [append_assoc, cons_append, nil_append]
    rfl
  rw [hspelled]
  exact @attrValue_here "id=".toList [] id tail (by decide) not_mem_nil
    (hid.notMem (by decide) (by decide) (by decide)) (@PlainValue.not_suffix _ hid "id".toList)

end ReadBack

/-! ## Pieces without grammar of their own -/

/-- The prose in front of the first placeholder. -/
def leadingProse : List BodyPiece → Text
  | [] => []
  | .prose text :: rest => text ++ leadingProse rest
  | .token _ :: _ => []

/-- Prose without brackets and without openings, placeholders without closing brackets. -/
def PiecesPlain : List BodyPiece → Prop
  | [] => True
  | .prose text :: rest =>
    HasNoBracket text ∧ NoOpening (text ++ (leadingProse rest).take 1) ∧ PiecesPlain rest
  | .token content :: rest => tokenEnd ∉ content ∧ PiecesPlain rest

theorem HasNoVerticalPair.noOpening (h : HasNoVerticalPair text) : NoOpening text := by
  refine List.IsChain.imp (fun a b hab hopen => ?_) h
  unfold isVerticalPair at hab
  rw [hopen.2, hopen.1] at hab
  simp at hab

theorem noOpening_of_append {left right : Text} (h : NoOpening (left ++ right)) : NoOpening right :=
  (isChain_append.mp h).2.1

theorem head_chunksFrom : ∀ (ps : List BodyPiece) (held : Text),
    held ++ leadingProse ps ∈ chunksFrom held ps
  | [], held => by rw [leadingProse, append_nil]; exact mem_singleton_self _
  | .prose text :: rest, held => by
    rw [leadingProse, ← append_assoc, chunksFrom]
    exact head_chunksFrom rest (held ++ text)
  | .token content :: rest, held => by
    rw [leadingProse, append_nil, chunksFrom]
    exact mem_cons_self

theorem piecesPlain_of_chunks : ∀ (ps : List BodyPiece) (held : Text),
    (∀ chunk ∈ chunksFrom held ps, PlainProse chunk) → EndFree (tokenContents ps) → PiecesPlain ps
  | [], _, _, _ => trivial
  | .prose text :: rest, held, hchunks, hends => by
    have hhead := hchunks _ (head_chunksFrom (.prose text :: rest) held)
    rw [leadingProse] at hhead
    have hopening : NoOpening (text ++ leadingProse rest) :=
      noOpening_of_append hhead.vertical.noOpening
    refine ⟨⟨fun hmem => hhead.bracket.1 ?_, fun hmem => hhead.bracket.2 ?_⟩, ?_,
      piecesPlain_of_chunks rest (held ++ text) hchunks hends⟩
    · exact mem_append_right _ (mem_append_left _ hmem)
    · exact mem_append_right _ (mem_append_left _ hmem)
    · rw [noOpening_append_take]
      refine ⟨(isChain_append.mp hopening).1, fun c hc hopen => ?_⟩
      exact (isChain_append.mp hopening).2.2 c hc '{' (by rw [hopen.2]; rfl) ⟨hopen.1, rfl⟩
  | .token content :: rest, held, hchunks, hends =>
    ⟨hends content mem_cons_self, piecesPlain_of_chunks rest []
      (fun chunk hchunk => hchunks chunk (mem_cons_of_mem _ hchunk))
      fun text htext => hends text (mem_cons_of_mem _ htext)⟩

theorem piecesPlain_right : ∀ {left right : List BodyPiece}, PiecesPlain (left ++ right) →
    PiecesPlain right
  | [], _, h => h
  | .prose _ :: _, _, h => piecesPlain_right h.2.2
  | .token _ :: _, _, h => piecesPlain_right h.2

theorem KeepsClear.piecesPlain {nodes : List TypedNode} (h : KeepsClear nodes) :
    PiecesPlain (pieces nodes) :=
  piecesPlain_of_chunks _ [] h.prose ((endFree_tokenContents nodes).mpr h.placeholders)

/-! ## The typed spelling -/

def textItem (content : Text) : Option Text → MarkupItem
  | some vertical => .vertical (verticalMarker vertical) (escapeVerticalTagBody content)
  | none => .prose (escapeVerticalMarkers content)

/-- An element, with what follows its name. -/
def openingItem (name : String) (attrs : Text) : MarkupItem := .tag (name.toList ++ ' ' :: attrs)

def closingItem (name : String) : MarkupItem := .tag ('/' :: name.toList)

mutual

/-- `node_markup`, item by item. -/
def nodeItems (baseStyle : Text) : TypedNode → List MarkupItem
  | .text styleId content vertical =>
    if styleId = baseStyle then [textItem content vertical]
    else [openingItem "span" ("data-s=".toList ++ projectionAttrValue styleId),
      textItem content vertical, closingItem "span"]
  | .anchor tokenId kind attrs =>
    [openingItem "docx-anchor" (renderNodeAttrs (tokenAttrs tokenId kind attrs) ++ ['/'])]
  | .inline tokenId kind styleId attrs =>
    [openingItem "docx-inline"
      (renderNodeAttrs (tokenAttrs tokenId kind (attrs.insert "style".toList styleId)) ++ ['/'])]
  | .opaqueToken tokenId kind attrs =>
    [openingItem "docx-opaque" (renderNodeAttrs (tokenAttrs tokenId kind attrs) ++ ['/'])]
  | .range tokenId kind attrs children =>
    openingItem "docx-range" (renderNodeAttrs (tokenAttrs tokenId kind attrs)) ::
      (paragraphItems baseStyle children ++ [closingItem "docx-range"])
  | .revision tokenId kind attrs children =>
    openingItem "docx-revision" (renderNodeAttrs (tokenAttrs tokenId kind attrs)) ::
      (paragraphItems baseStyle children ++ [closingItem "docx-revision"])

def paragraphItems (baseStyle : Text) : List TypedNode → List MarkupItem
  | [] => []
  | node :: rest => nodeItems baseStyle node ++ paragraphItems baseStyle rest

end

section Typed

variable (baseStyle : Text)

theorem textItem_render (content : Text) (vertical : Option Text) :
    (textItem content vertical).render = xmlEscape (textBody content vertical) := by
  cases vertical with
  | none => rfl
  | some vertical =>
    have hmarker : escapeChar (verticalMarker vertical) = [verticalMarker vertical] := by
      unfold verticalMarker
      split <;> rfl
    unfold textItem textBody MarkupItem.render xmlEscape
    rw [flatMap_cons, hmarker, flatMap_cons, flatMap_append]
    rfl

theorem openingItem_render (name : String) (attrs : Text) :
    (openingItem name attrs).render = '<' :: (name.toList ++ ' ' :: (attrs ++ ['>'])) := by
  show '<' :: (name.toList ++ ' ' :: attrs) ++ ['>'] = _
  rw [cons_append, append_assoc, cons_append]

theorem closingItem_render (name : String) :
    (closingItem name).render = '<' :: '/' :: (name.toList ++ ['>']) := rfl

mutual

theorem nodeMarkup_eq_render : ∀ node : TypedNode,
    nodeMarkup baseStyle node = renderItems (nodeItems baseStyle node)
  | .text styleId content vertical => by
    unfold nodeMarkup nodeItems
    dsimp only
    split_ifs
    · rw [renderItems_cons, textItem_render, renderItems_nil, append_nil]
    · rw [renderItems_cons, renderItems_cons, renderItems_cons, textItem_render, renderItems_nil,
        openingItem_render, closingItem_render,
        show "<span data-s=".toList = '<' :: ("span".toList ++ ' ' :: "data-s=".toList) from rfl]
      simp only [append_assoc, cons_append, nil_append, append_nil]
      rfl
  | .anchor tokenId kind attrs => by
    unfold nodeMarkup nodeItems
    rw [renderItems_cons, renderItems_nil, openingItem_render,
      show "<docx-anchor ".toList = '<' :: ("docx-anchor".toList ++ [' ']) from rfl]
    simp only [append_assoc, cons_append, nil_append, append_nil]
    rfl
  | .inline tokenId kind styleId attrs => by
    unfold nodeMarkup nodeItems
    rw [renderItems_cons, renderItems_nil, openingItem_render,
      show "<docx-inline ".toList = '<' :: ("docx-inline".toList ++ [' ']) from rfl]
    simp only [append_assoc, cons_append, nil_append, append_nil]
    rfl
  | .opaqueToken tokenId kind attrs => by
    unfold nodeMarkup nodeItems
    rw [renderItems_cons, renderItems_nil, openingItem_render,
      show "<docx-opaque ".toList = '<' :: ("docx-opaque".toList ++ [' ']) from rfl]
    simp only [append_assoc, cons_append, nil_append, append_nil]
    rfl
  | .range tokenId kind attrs children => by
    unfold nodeMarkup nodeItems
    rw [renderItems_cons, renderItems_append, renderItems_cons, renderItems_nil, openingItem_render,
      closingItem_render, paragraphMarkup_eq_render children,
      show "<docx-range ".toList = '<' :: ("docx-range".toList ++ [' ']) from rfl]
    simp only [append_assoc, cons_append, nil_append, append_nil]
    rfl
  | .revision tokenId kind attrs children => by
    unfold nodeMarkup nodeItems
    rw [renderItems_cons, renderItems_append, renderItems_cons, renderItems_nil, openingItem_render,
      closingItem_render, paragraphMarkup_eq_render children,
      show "<docx-revision ".toList = '<' :: ("docx-revision".toList ++ [' ']) from rfl]
    simp only [append_assoc, cons_append, nil_append, append_nil]
    rfl

theorem paragraphMarkup_eq_render : ∀ nodes : List TypedNode,
    paragraphMarkup baseStyle nodes = renderItems (paragraphItems baseStyle nodes)
  | [] => rfl
  | node :: rest => by
    rw [paragraphMarkup, paragraphItems, renderItems_append, nodeMarkup_eq_render node,
      paragraphMarkup_eq_render rest]

end

/-! ## Its texts -/

theorem escapeVerticalMarkers_plain : ∀ {text : Text}, '\\' ∉ text → NoOpening text →
    escapeVerticalMarkers text = text
  | [], _, _ => rfl
  | c :: text, hslash, hopen => by
    obtain ⟨hne, hslash⟩ := not_or.mp (mt mem_cons.mpr hslash)
    obtain ⟨hc, hopen⟩ := noOpening_cons.mp hopen
    have hescape : isVerticalEscape c text = false := by
      unfold isVerticalEscape
      rw [beq_false_of_ne (Ne.symm hne), Bool.false_and]
    have hstart : opensVerticalTag c text = false := by
      unfold opensVerticalTag
      by_cases hmarker : isVerticalMarker c = true
      · have hhead : text.head? ≠ some '{' := fun h => hc ⟨hmarker, h⟩
        rw [beq_false_of_ne hhead, Bool.and_false]
      · rw [Bool.not_eq_true] at hmarker
        rw [hmarker, Bool.false_and]
    rw [escapeVerticalMarkers, hescape, hstart, if_neg Bool.false_ne_true,
      if_neg Bool.false_ne_true, escapeVerticalMarkers_plain hslash hopen]

theorem escapeVerticalTagBody_plain : ∀ {text : Text}, (∀ c ∈ text, c ∉ verticalEscapeChars) →
    escapeVerticalTagBody text = text
  | [], _ => rfl
  | c :: text, h => by
    have hc : ¬ verticalEscapeChars.contains c = true := fun hc =>
      h c mem_cons_self (contains_iff_mem.mp hc)
    show (if verticalEscapeChars.contains c then ['\\', c] else [c]) ++
      escapeVerticalTagBody text = _
    rw [if_neg hc, escapeVerticalTagBody_plain fun d hd => h d (mem_cons_of_mem _ hd),
      singleton_append]

/-- A text that starts with a brace comes from prose that does. -/
theorem head_xmlEscape (h : (xmlEscape text).head? = some '{') :
    text.head? = some '{' := by
  cases text with
  | nil => exact h
  | cons c text =>
    change (escapeChar c ++ xmlEscape text).head? = some '{' at h
    rcases escapeChar_cases c with ⟨rfl, hc⟩ | ⟨rfl, hc⟩ | ⟨rfl, hc⟩ | ⟨-, -, -, hc⟩
    · rw [hc] at h
      cases h
    · rw [hc] at h
      cases h
    · rw [hc] at h
      cases h
    · rw [hc] at h
      exact h

theorem head_escapeVerticalMarkers
    (h : (escapeVerticalMarkers text).head? = some '{') : text.head? = some '{' := by
  cases text with
  | nil => exact h
  | cons c text =>
    unfold escapeVerticalMarkers at h
    split_ifs at h
    · cases h
    · cases h
    · exact h

theorem head_openingItem {name : String} {attrs : Text} {rest : List MarkupItem} :
    (renderItems (openingItem name attrs :: rest)).head? ≠ some '{' := by
  rw [renderItems_cons, openingItem_render]
  intro h
  cases h

theorem head_closingItem {name : String} {rest : List MarkupItem} :
    (renderItems (closingItem name :: rest)).head? ≠ some '{' := by
  rw [renderItems_cons, closingItem_render]
  intro h
  cases h

variable {baseStyle}

/-- Markup that starts with a brace starts with prose that does. -/
theorem head_paragraphItems {after : List MarkupItem} {afterPieces : List BodyPiece}
    (hafter : (renderItems after).head? = some '{' → (leadingProse afterPieces).head? = some '{') :
    ∀ nodes : List TypedNode,
      (renderItems (paragraphItems baseStyle nodes ++ after)).head? = some '{' →
        (leadingProse (pieces nodes ++ afterPieces)).head? = some '{'
  | [], h => hafter h
  | node :: rest, h => by
    have ih := head_paragraphItems hafter rest
    rw [paragraphItems, append_assoc] at h
    rw [pieces, append_assoc]
    cases node with
    | text styleId content vertical =>
      unfold nodeItems at h
      split_ifs at h
      · cases vertical with
        | some vertical =>
          change some (verticalMarker vertical) = some '{' at h
          unfold verticalMarker at h
          split_ifs at h <;> cases h
        | none =>
          change (xmlEscape (escapeVerticalMarkers content) ++
            renderItems (paragraphItems baseStyle rest ++ after)).head? = some '{' at h
          show (content ++ leadingProse (pieces rest ++ afterPieces)).head? = some '{'
          cases content with
          | nil => exact ih h
          | cons c content =>
            obtain ⟨d, more, hmore⟩ : ∃ d more,
                xmlEscape (escapeVerticalMarkers (c :: content)) = d :: more := by
              refine exists_cons_of_ne_nil fun hnil => ?_
              unfold escapeVerticalMarkers xmlEscape at hnil
              rw [flatMap_eq_nil_iff] at hnil
              split_ifs at hnil
              · exact absurd (hnil '\\' mem_cons_self) (by decide)
              · exact absurd (hnil '\\' mem_cons_self) (by decide)
              · have hc := hnil c mem_cons_self
                rcases escapeChar_cases c with ⟨-, h⟩ | ⟨-, h⟩ | ⟨-, h⟩ | ⟨-, -, -, h⟩ <;>
                  rw [h] at hc <;> cases hc
            have hhead : (xmlEscape (escapeVerticalMarkers (c :: content))).head? = some '{' := by
              rw [hmore] at h ⊢
              exact h
            have hfirst : (c :: content).head? = some '{' :=
              head_escapeVerticalMarkers (head_xmlEscape hhead)
            exact hfirst
      · exact absurd h head_openingItem
    | anchor => exact absurd h head_openingItem
    | inline => exact absurd h head_openingItem
    | opaqueToken => exact absurd h head_openingItem
    | range => exact absurd h head_openingItem
    | revision => exact absurd h head_openingItem

/-! ## Reading the typed spelling -/

variable {stack : List Passing} {after : List MarkupItem} {afterPieces : List BodyPiece}

/-- Whether text is shown under the open elements. -/
def isShown (stack : List Passing) : Bool := !stack.contains .skip

theorem readsClean_tag {inner text : Text} {stack' : List Passing} (hinner : '>' ∉ inner)
    (hread : readTag stack (tagText inner) = (stack', text)) (htext : xmlEscape text = text)
    (hafter : ReadsClean stack' after) :
    ReadsClean stack (.tag inner :: after) ∧
      readItems stack (.tag inner :: after) = text ++ readItems stack' after := by
  constructor
  · show '>' ∉ inner ∧ _ ∧ _
    rw [hread]
    exact ⟨hinner, htext, hafter⟩
  · show (readTag stack (tagText inner)).2 ++ readItems (readTag stack (tagText inner)).1 after = _
    rw [hread]

theorem readsClean_opening {name : String} {attrs text : Text} {stack' : List Passing}
    (hattrs : '>' ∉ attrs) (hname : '>' ∉ name.toList)
    (hread : readTag stack (tagText (name.toList ++ ' ' :: attrs)) = (stack', text))
    (htext : xmlEscape text = text) (hafter : ReadsClean stack' after) :
    ReadsClean stack (openingItem name attrs :: after) ∧
      readItems stack (openingItem name attrs :: after) = text ++ readItems stack' after := by
  refine readsClean_tag (fun hmem => ?_) hread htext hafter
  rcases mem_append.mp hmem with hmem | hmem
  · exact hname hmem
  · rcases mem_cons.mp hmem with hmem | hmem
    · exact absurd hmem (by decide)
    · exact hattrs hmem

theorem readsClean_closing {name : String} (hname : '>' ∉ name.toList) :
    (ReadsClean stack (closingItem name :: after) ↔ ReadsClean stack.tail after) ∧
      readItems stack (closingItem name :: after) = readItems stack.tail after := by
  have hinner : '>' ∉ '/' :: name.toList := fun hmem => by
    rcases mem_cons.mp hmem with hmem | hmem
    · exact absurd hmem (by decide)
    · exact hname hmem
  constructor
  · show ('>' ∉ '/' :: name.toList ∧ _ ∧ _) ↔ _
    rw [readTag_close]
    exact ⟨fun h => h.2.2, fun h => ⟨hinner, rfl, h⟩⟩
  · show (readTag stack (tagText ('/' :: name.toList))).2 ++
      readItems (readTag stack (tagText ('/' :: name.toList))).1 after = _
    rw [readTag_close]
    rfl

/-- A text is read as what the final view shows of it. -/
theorem textItem_reads {content : Text} {vertical : Option Text}
    (hplain : isShown stack = true → '\\' ∉ content ∧
      (vertical.isSome = true → ∀ c ∈ content, c ∉ verticalEscapeChars))
    (hopen : isShown stack = true → NoOpening (content ++ (renderItems after).take 1))
    (hafter : ReadsClean stack after) :
    ReadsClean stack (textItem content vertical :: after) ∧
      readItems stack (textItem content vertical :: after) =
        (if isShown stack then content else []) ++ readItems stack after := by
  unfold isShown at hplain hopen ⊢
  cases hskip : stack.contains Passing.skip with
  | true =>
    cases vertical with
    | none =>
      refine ⟨⟨fun h => absurd hskip (by rw [h]; decide), hafter⟩, ?_⟩
      show (if stack.contains .skip then [] else _) ++ _ = _
      rw [hskip]
      rfl
    | some vertical =>
      have hmarker : isVerticalMarker (verticalMarker vertical) = true := by
        unfold verticalMarker
        split <;> rfl
      refine ⟨⟨hmarker, fun h => absurd hskip (by rw [h]; decide), hafter⟩, ?_⟩
      show (if stack.contains .skip then [] else _) ++ _ = _
      rw [hskip]
      rfl
  | false =>
    rw [hskip] at hplain hopen
    obtain ⟨hslash, hvertical⟩ := hplain rfl
    have hopen := hopen rfl
    cases vertical with
    | none =>
      have htext := escapeVerticalMarkers_plain hslash (noOpening_append_take.mp hopen).1
      refine ⟨⟨fun _ => ?_, hafter⟩, ?_⟩
      · rw [htext]
        exact hopen
      · show (if stack.contains .skip then [] else escapeVerticalMarkers content) ++ _ = _
        rw [hskip, htext]
        rfl
    | some vertical =>
      have hmarker : isVerticalMarker (verticalMarker vertical) = true := by
        unfold verticalMarker
        split <;> rfl
      have hchars := hvertical rfl
      have htext := escapeVerticalTagBody_plain hchars
      refine ⟨⟨hmarker, fun _ => ?_, hafter⟩, ?_⟩
      · rw [htext]
        exact ⟨fun h => hchars _ h (by decide), fun h => hchars _ h (by decide)⟩
      · show (if stack.contains .skip then [] else escapeVerticalTagBody content) ++ _ = _
        rw [hskip, htext]
        rfl

/-- The attributes of a token say its kind. -/
theorem infix_renderNodeAttrs_kind (tokenId kind : Text) (attrs : AttrMap) :
    renderAttr (kindKey, kind) <:+: renderNodeAttrs (tokenAttrs tokenId kind attrs) := by
  have hkind : (tokenAttrs tokenId kind attrs).get kindKey = some kind :=
    AttrMap.get_eq_some_iff.mpr mem_insertEntry_self
  refine infix_joinSpaced (mem_map_of_mem ?_)
  refine mem_append_left _ (mem_append_right _ ?_)
  rw [hkind]
  exact mem_singleton_self _

theorem saysKind_renderNodeAttrs {tokenId kind : Text} {attrs : AttrMap} {value : String}
    (hvalue : value ∈ askedKinds) (hkind : kind = value.toList) :
    SaysKind value (renderNodeAttrs (tokenAttrs tokenId kind attrs)) := by
  have hspelled : renderAttr (kindKey, kind) = "kind=\"".toList ++ value.toList ++ ['"'] := by
    subst hkind
    simp only [askedKinds, mem_cons, not_mem_nil, or_false] at hvalue
    rcases hvalue with rfl | rfl | rfl | rfl | rfl <;> rfl
  exact (saysKind_self hvalue).mono (hspelled ▸ infix_renderNodeAttrs_kind tokenId kind attrs)

/-- An element of the typed spelling says its own kind and no other. -/
theorem saysKind_opening_iff {tokenId kind name tail : Text} {attrs : AttrMap} {value : String}
    (hname : '"' ∉ name) (htail : tail = [] ∨ tail = ['/']) (hvalue : value ∈ askedKinds)
    (honly : SaysKind value (renderNodeAttrs (tokenAttrs tokenId kind attrs)) →
      kind = value.toList) :
    SaysKind value (tagText (name ++
      ' ' :: (renderNodeAttrs (tokenAttrs tokenId kind attrs) ++ tail))) ↔ kind = value.toList := by
  constructor
  · intro hsaid
    have hsaid := saysKind_tagText hvalue hname hsaid
    rcases htail with rfl | rfl
    · rw [append_nil] at hsaid
      exact honly hsaid
    · exact honly (saysKind_selfClosing hvalue hsaid)
  · intro hkind
    refine (@saysKind_renderNodeAttrs tokenId kind attrs value hvalue hkind).mono ?_
    exact ⟨'<' :: (name ++ [' ']), tail ++ ['>'], by simp [tagText]⟩

theorem xmlEscape_inlineText (kind : Text) : xmlEscape (inlineText kind) = inlineText kind := by
  unfold inlineText
  split_ifs <;> rfl

theorem opaqueKinds {kind : Text} (h : kind = "opaque".toList ∨ kind = "unsupported-run".toList) :
    PlainValue kind ∧ kind.map Char.toLower = kind ∧ xmlEscape (opaqueText kind) = opaqueText kind ∧
      isAnchorTokenKind kind = false ∧ isInlineTokenKind kind = false ∧
        isBareInlineKind kind = false := by
  rcases h with rfl | rfl
  · exact ⟨plainValue_of_all (by decide), by decide⟩
  · exact ⟨plainValue_of_all (by decide), by decide⟩

/-- An opaque block is read as its mark. -/
theorem readTag_opaqueKind {tokenId kind text : Text} (hid : IsTokenId tokenId)
    (hkind : kind = "opaque".toList ∨ kind = "unsupported-run".toList) :
    readTag stack (tagText ("docx-opaque".toList ++ (idAndKind tokenId kind ++ text))) =
      (stack, opaqueText kind) := by
  obtain ⟨hplain, hlower, -⟩ := opaqueKinds hkind
  have hlowered : (idAndKind tokenId kind ++ text).map Char.toLower ++ ['>'] =
      idAndKind (tokenId.map Char.toLower) kind ++ (text.map Char.toLower ++ ['>']) := by
    unfold idAndKind
    simp only [map_append, hlower, append_assoc]
    rfl
  have hid' : PlainValue (tokenId.map Char.toLower) := by
    intro c hc
    obtain ⟨d, hd, rfl⟩ := mem_map.mp hc
    obtain ⟨n, rfl⟩ := hid
    rcases mem_cons.mp hd with rfl | hd
    · exact .inl (by decide)
    · have hdigit := digit_of_mem_repr hd
      rw [toLower_of_isDigit hdigit]
      refine .inl ?_
      unfold Char.isAlphanum
      rw [hdigit, Bool.or_true]
  rw [readTag_opaqueNode, hlowered]
  have hread := @attrValue_kind (tokenId.map Char.toLower) kind (text.map Char.toLower ++ ['>'])
    ('<' :: "docx-opaque".toList) (by decide) hid' hplain
  rw [hread]

/-- Text of another style stands in an element of its own. -/
theorem textNode_read {styleId content : Text} {vertical : Option Text}
    (hplain : NodeSpeltPlainly (isShown stack) (.text styleId content vertical))
    (hpieces : isShown stack = true →
      PiecesPlain (nodePieces (.text styleId content vertical) ++ afterPieces))
    (hhead : (renderItems after).head? = some '{' → (leadingProse afterPieces).head? = some '{')
    (hafter : ReadsClean stack after) :
    ReadsClean stack (nodeItems baseStyle (.text styleId content vertical) ++ after) ∧
      readItems stack (nodeItems baseStyle (.text styleId content vertical) ++ after) =
        (if isShown stack then content else []) ++ readItems stack after := by
  have hopen : isShown stack = true → NoOpening (content ++ (renderItems after).take 1) :=
    fun hshown => noOpening_append_of_head (hpieces hshown).2.1 hhead
  unfold nodeItems
  by_cases hstyle : styleId = baseStyle
  · rw [if_pos hstyle]
    exact textItem_reads hplain hopen hafter
  · rw [if_neg hstyle]
    have hclosing := @readsClean_closing (.pass :: stack) after "span" (by decide)
    have hbody : ReadsClean (.pass :: stack) (closingItem "span" :: after) :=
      hclosing.1.mpr hafter
    have hinside : isShown (.pass :: stack) = true →
        NoOpening (content ++ (renderItems (closingItem "span" :: after)).take 1) :=
      fun hshown => noOpening_append_of_head (hopen hshown) fun h => absurd h head_closingItem
    have hplain' : isShown (.pass :: stack) = true → _ := hplain
    obtain ⟨hclean, hread⟩ := textItem_reads hplain' hinside hbody
    have hopening := @readsClean_opening stack
      (textItem content vertical :: closingItem "span" :: after) "span"
      ("data-s=".toList ++ projectionAttrValue styleId) [] (.pass :: stack)
      (fun hmem => (mem_append.mp hmem).elim (by decide) gt_notMem_projectionAttrValue)
      (by decide) (readTag_span _) rfl hclean
    exact ⟨hopening.1, hopening.2.trans (hread.trans (congrArg _ hclosing.2))⟩

theorem inlineNode_read {tokenId kind styleId : Text} {attrs : AttrMap}
    (hdoc : NodeOfDocument (.inline tokenId kind styleId attrs))
    (hplain : NodeSpeltPlainly (isShown stack) (.inline tokenId kind styleId attrs))
    (hafter : ReadsClean stack after) :
    ReadsClean stack (nodeItems baseStyle (.inline tokenId kind styleId attrs) ++ after) ∧
      readItems stack (nodeItems baseStyle (.inline tokenId kind styleId attrs) ++ after) =
        (if isShown stack then inlineText kind else []) ++ readItems stack after := by
  have honly := hplain.2.1
  rw [inlineAttrs_eq hdoc.2.2] at honly
  have hsaid : ∀ value ∈ ["tab", "br", "cr"], SaysKind value (tagText ("docx-inline".toList ++
      ' ' :: (renderNodeAttrs (tokenAttrs tokenId kind (attrs.insert "style".toList styleId)) ++
        ['/']))) ↔ kind = value.toList := fun value hvalue =>
    saysKind_opening_iff (by decide) (.inr rfl) (breakKinds_subset hvalue) (honly value hvalue)
  have hopening := @readsClean_opening stack after "docx-inline"
    (renderNodeAttrs (tokenAttrs tokenId kind (attrs.insert "style".toList styleId)) ++ ['/'])
    (inlineText kind) stack
    (fun hmem => (mem_append.mp hmem).elim
      ((hplain.1.insert (by decide) _).tokenAttrs _ _).renderNodeAttrs (by decide))
    (by decide) (readTag_inlineKind hsaid) (xmlEscape_inlineText kind) hafter
  refine ⟨hopening.1, hopening.2.trans ?_⟩
  cases hshown : isShown stack with
  | true => rfl
  | false => rw [hplain.2.2 hshown]; rfl

mutual

/-- One node of the typed spelling is read as its visible text. -/
theorem nodeItems_read : ∀ (node : TypedNode) {stack : List Passing} {after : List MarkupItem}
    {afterPieces : List BodyPiece}, NodeOfDocument node → NodeSpeltPlainly (isShown stack) node →
    (isShown stack = true → PiecesPlain (nodePieces node ++ afterPieces)) →
    ((renderItems after).head? = some '{' → (leadingProse afterPieces).head? = some '{') →
    ReadsClean stack after →
      ReadsClean stack (nodeItems baseStyle node ++ after) ∧
        readItems stack (nodeItems baseStyle node ++ after) =
          (if isShown stack then visibleNodeText node else []) ++ readItems stack after
  | .text _ _ _, stack, after, afterPieces, _, hplain, hpieces, hhead, hafter =>
    textNode_read hplain hpieces hhead hafter
  | .anchor tokenId kind attrs, stack, after, _, _, hplain, _, _, hafter => by
    have hopening := @readsClean_opening stack after "docx-anchor"
      (renderNodeAttrs (tokenAttrs tokenId kind attrs) ++ ['/']) [] stack
      (fun hmem => (mem_append.mp hmem).elim
        (NamesClosed.tokenAttrs hplain _ _).renderNodeAttrs (by decide))
      (by decide) (readTag_anchor (' ' :: renderNodeAttrs (tokenAttrs tokenId kind attrs))) rfl hafter
    refine ⟨hopening.1, hopening.2.trans ?_⟩
    split <;> rfl
  | .inline _ _ _ _, stack, after, _, hdoc, hplain, _, _, hafter =>
    inlineNode_read hdoc hplain hafter
  | .opaqueToken tokenId kind attrs, stack, after, _, hdoc, hplain, _, _, hafter => by
    have hkinds := opaqueKinds hdoc.2
    obtain ⟨tail, htail⟩ := (spelledBy_renderNodeAttrs hdoc.1.plain hkinds.1 attrs).spelled
    have hread : readTag stack (tagText ("docx-opaque".toList ++
        ' ' :: (renderNodeAttrs (tokenAttrs tokenId kind attrs) ++ ['/']))) =
        (stack, opaqueText kind) := by
      rw [← cons_append, htail, append_assoc]
      exact readTag_opaqueKind hdoc.1 hdoc.2
    have hopening := @readsClean_opening stack after "docx-opaque"
      (renderNodeAttrs (tokenAttrs tokenId kind attrs) ++ ['/']) (opaqueText kind) stack
      (fun hmem => (mem_append.mp hmem).elim
        (hplain.1.tokenAttrs _ _).renderNodeAttrs (by decide))
      (by decide) hread hkinds.2.2.1 hafter
    unfold nodeItems visibleNodeText
    rw [if_pos hplain.2]
    exact hopening
  | .range tokenId kind attrs children, stack, after, afterPieces, hdoc, hplain, hpieces, hhead,
      hafter => by
    have hclosing := @readsClean_closing (.pass :: stack) after "docx-range" (by decide)
    obtain ⟨hclean, hread⟩ := @paragraphItems_read children (.pass :: stack)
      (closingItem "docx-range" :: after) (.token (rangeEndContent tokenId) :: afterPieces) hdoc.2.2
      hplain.2 (fun hshown => by
        have h : PiecesPlain (pieces children ++ [.token _] ++ afterPieces) := (hpieces hshown).2
        rwa [append_assoc] at h)
      (fun h => absurd h head_closingItem) (hclosing.1.mpr hafter)
    have hopening := @readsClean_opening stack
      (paragraphItems baseStyle children ++ closingItem "docx-range" :: after) "docx-range"
      (renderNodeAttrs (tokenAttrs tokenId kind attrs)) [] (.pass :: stack)
      (hplain.1.tokenAttrs _ _).renderNodeAttrs (by decide) (readTag_range _) rfl hclean
    unfold nodeItems visibleNodeText
    rw [cons_append, append_assoc, singleton_append]
    exact ⟨hopening.1, hopening.2.trans (hread.trans (congrArg _ hclosing.2))⟩
  | .revision tokenId kind attrs children, stack, after, afterPieces, hdoc, hplain, hpieces, hhead,
      hafter => by
    generalize hpassing : (if isVisibleRevision kind then Passing.pass else .skip) = passing
    have hshown' : isShown (passing :: stack) = (isShown stack && isVisibleRevision kind) := by
      rw [← hpassing]
      cases isVisibleRevision kind
      · rw [Bool.and_false]
        rfl
      · rw [Bool.and_true]
        rfl
    have hclosing := @readsClean_closing (passing :: stack) after "docx-revision" (by decide)
    obtain ⟨hclean, hread⟩ := @paragraphItems_read children (passing :: stack)
      (closingItem "docx-revision" :: after) (.token (revisionEndContent tokenId kind) :: afterPieces)
      hdoc.2.2 (hshown' ▸ hplain.2.2) (fun hshown => by
        rw [hshown', Bool.and_eq_true] at hshown
        have h := hpieces hshown.1
        unfold nodePieces at h
        rw [if_pos hshown.2] at h
        have h : PiecesPlain (pieces children ++ [.token _] ++ afterPieces) := h.2
        rwa [append_assoc] at h)
      (fun h => absurd h head_closingItem) (hclosing.1.mpr hafter)
    have hsaid : ∀ value ∈ ["insert", "move_to"], SaysKind value (tagText ("docx-revision".toList ++
        ' ' :: renderNodeAttrs (tokenAttrs tokenId kind attrs))) ↔ kind = value.toList :=
      fun value hvalue => by
        have h := @saysKind_opening_iff tokenId kind "docx-revision".toList [] attrs value (by decide)
          (.inl rfl) (revisionKinds_subset hvalue) (hplain.2.1 value hvalue)
        rwa [append_nil] at h
    have hopening := @readsClean_opening stack
      (paragraphItems baseStyle children ++ closingItem "docx-revision" :: after) "docx-revision"
      (renderNodeAttrs (tokenAttrs tokenId kind attrs)) [] (passing :: stack)
      (hplain.1.tokenAttrs _ _).renderNodeAttrs (by decide)
      (hpassing ▸ readTag_revisionKind hsaid) rfl hclean
    unfold nodeItems visibleNodeText
    rw [cons_append, append_assoc, singleton_append]
    refine ⟨hopening.1, hopening.2.trans (hread.trans ?_)⟩
    rw [hshown', hclosing.2, tail_cons]
    cases isShown stack <;> cases isVisibleRevision kind <;> rfl

theorem paragraphItems_read : ∀ (nodes : List TypedNode) {stack : List Passing}
    {after : List MarkupItem} {afterPieces : List BodyPiece}, NodesOfDocument nodes →
    SpeltPlainly (isShown stack) nodes →
    (isShown stack = true → PiecesPlain (pieces nodes ++ afterPieces)) →
    ((renderItems after).head? = some '{' → (leadingProse afterPieces).head? = some '{') →
    ReadsClean stack after →
      ReadsClean stack (paragraphItems baseStyle nodes ++ after) ∧
        readItems stack (paragraphItems baseStyle nodes ++ after) =
          (if isShown stack then visibleText nodes else []) ++ readItems stack after
  | [], _, _, _, _, _, _, _, hafter => ⟨hafter, by split <;> rfl⟩
  | node :: rest, stack, after, afterPieces, hdoc, hplain, hpieces, hhead, hafter => by
    have hpieces' : isShown stack = true →
        PiecesPlain (nodePieces node ++ (pieces rest ++ afterPieces)) := fun hshown => by
      have h := hpieces hshown
      rwa [pieces, append_assoc] at h
    obtain ⟨hclean, hread⟩ := paragraphItems_read rest hdoc.2 hplain.2
      (fun hshown => piecesPlain_right (hpieces' hshown)) hhead hafter
    obtain ⟨hclean', hread'⟩ := nodeItems_read node hdoc.1 hplain.1 hpieces'
      (head_paragraphItems hhead rest) hclean
    rw [paragraphItems, append_assoc]
    refine ⟨hclean', ?_⟩
    rw [hread', hread, ← append_assoc, visibleText]
    cases isShown stack <;> rfl

end

end Typed

end Docx2Typed
