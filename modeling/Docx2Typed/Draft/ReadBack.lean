import Mathlib.Data.List.Chain
import Docx2Typed.Draft.Reader

/-!
# Does a draft body read back?

The writer escapes a placeholder bracket as `\⟦`; the reader knows `\u27E6` and cuts at every `⟦`.
The writer leaves `^{`, `_{` and their escapes alone; the reader strips them.  And the writer
escapes nothing in an attribute that could close its placeholder.  So a body reads back exactly
when its placeholders close where they end and no prose between two of them holds a bracket, a
vertical tag or a vertical escape.
-/

namespace Docx2Typed

open Library List

/-- `(flat, boundaries)` is the final view with one boundary for each emitted token. -/
structure ReadsAs (nodes : List TypedNode) (read : Text × List (Nat × Text)) : Prop where
  flat : read.1 = finalText nodes
  offsets : read.2.map (·.1) = tokenOffsets 0 nodes

/-- Two characters the reader takes for a vertical escape or for the start of a vertical tag. -/
def isVerticalPair (a b : Char) : Bool :=
  (a == '\\' && verticalEscapeChars.contains b) || (isVerticalMarker a && b == '{')

def HasNoBracket (text : Text) : Prop := tokenStart ∉ text ∧ tokenEnd ∉ text

def HasNoVerticalPair (text : Text) : Prop := text.IsChain fun a b => isVerticalPair a b = false

/-- Prose the reader takes as it stands. -/
structure PlainProse (text : Text) : Prop where
  bracket : HasNoBracket text
  vertical : HasNoVerticalPair text

instance (text : Text) : Decidable (HasNoBracket text) := inferInstanceAs (Decidable (_ ∧ _))

instance (text : Text) : Decidable (HasNoVerticalPair text) :=
  inferInstanceAs (Decidable (List.IsChain _ _))

instance (text : Text) : Decidable (PlainProse text) :=
  decidable_of_iff (HasNoBracket text ∧ HasNoVerticalPair text)
    ⟨fun h => ⟨h.1, h.2⟩, fun h => ⟨h.1, h.2⟩⟩

/-! ## The first pass -/

theorem escapeProjectionText_cons (c : Char) (text : Text) :
    escapeProjectionText (c :: text) = escapeProjectionChar c ++ escapeProjectionText text := rfl

theorem escapeProjectionText_append (left right : Text) :
    escapeProjectionText (left ++ right) =
      escapeProjectionText left ++ escapeProjectionText right := flatMap_append

variable {text : Text}

theorem hasNoBracket_cons {c : Char} :
    HasNoBracket (c :: text) ↔ c ≠ tokenStart ∧ c ≠ tokenEnd ∧ HasNoBracket text := by
  unfold HasNoBracket
  simp only [mem_cons, not_or, ne_eq, eq_comm (a := tokenStart), eq_comm (a := tokenEnd)]
  tauto

/-- Undoing the escapes of a text without brackets gives it back. -/
theorem validateEscapedFrom_escape : ∀ (text : Text) (fuel : Nat), HasNoBracket text →
    (escapeProjectionText text).length ≤ fuel →
      validateEscapedFrom fuel (escapeProjectionText text) = .ok text
  | [], fuel, _, _ => by cases fuel <;> rfl
  | c :: text, 0, _, hfuel => by
    exfalso
    rw [escapeProjectionText_cons, length_append] at hfuel
    unfold escapeProjectionChar at hfuel
    split_ifs at hfuel <;> simp at hfuel
  | c :: text, fuel + 1, hbracket, hfuel => by
    obtain ⟨hstart, hend, htext⟩ := hasNoBracket_cons.mp hbracket
    rw [escapeProjectionText_cons, length_append] at hfuel
    rw [escapeProjectionText_cons]
    by_cases hslash : c = '\\'
    · subst hslash
      have hread := validateEscapedFrom_escape text fuel htext
        (by simp [escapeProjectionChar] at hfuel; omega)
      show validateEscapedFrom (fuel + 1) ('\\' :: '\\' :: escapeProjectionText text) = _
      simp [validateEscapedFrom, hread, bind, Except.bind, pure, Except.pure]
    · have hchar : escapeProjectionChar c = [c] := by simp [escapeProjectionChar, hslash, hstart, hend]
      rw [hchar] at hfuel ⊢
      have hread := validateEscapedFrom_escape text fuel htext (by simp at hfuel; omega)
      show validateEscapedFrom (fuel + 1) (c :: escapeProjectionText text) = _
      simp [validateEscapedFrom, hslash, hstart, hend, hread, bind, Except.bind, pure, Except.pure]

/-- The backslash in front of an escaped bracket stands alone when the body is cut there. -/
theorem validateEscapedFrom_escape_slash : ∀ (text : Text) (fuel : Nat) (read : Text),
    HasNoBracket text →
      validateEscapedFrom fuel (escapeProjectionText text ++ ['\\']) ≠ .ok read
  | [], 0, _, _ | [], _ + 1, _, _ => by
    simp [escapeProjectionText, validateEscapedFrom, refuse]
  | c :: text, 0, _, _ => by
    rw [escapeProjectionText_cons]
    unfold escapeProjectionChar
    split_ifs <;> simp [validateEscapedFrom, refuse]
  | c :: text, fuel + 1, read, hbracket => by
    intro h
    obtain ⟨hstart, hend, htext⟩ := hasNoBracket_cons.mp hbracket
    rw [escapeProjectionText_cons] at h
    by_cases hslash : c = '\\'
    · subst hslash
      change validateEscapedFrom (fuel + 1)
        ('\\' :: '\\' :: (escapeProjectionText text ++ ['\\'])) = _ at h
      simp only [validateEscapedFrom, ne_eq, not_true_eq_false, if_false, head?_cons,
        if_true, drop_one, tail_cons] at h
      obtain ⟨rest, hrest, -⟩ := bind_eq_ok h
      exact validateEscapedFrom_escape_slash text fuel rest htext hrest
    · have hchar : escapeProjectionChar c = [c] := by simp [escapeProjectionChar, hslash, hstart, hend]
      rw [hchar] at h
      change validateEscapedFrom (fuel + 1) (c :: (escapeProjectionText text ++ ['\\'])) = _ at h
      simp only [validateEscapedFrom, ne_eq, hslash, not_false_eq_true, if_true, hstart, hend,
        or_self, if_false] at h
      obtain ⟨rest, hrest, -⟩ := bind_eq_ok h
      exact validateEscapedFrom_escape_slash text fuel rest htext hrest

/-- Prose that reads holds no closing bracket. -/
theorem tokenEnd_notMem_of_validate : ∀ (fuel : Nat) (raw read : Text),
    validateEscapedFrom fuel raw = .ok read → tokenEnd ∉ raw
  | _, [], _, _ => not_mem_nil
  | 0, _ :: _, _, h => (refuse_ne_ok h).elim
  | fuel + 1, c :: rest, read, h => by
    unfold validateEscapedFrom at h
    dsimp only at h
    have hlower : ∀ segment : Text, tokenEnd ∉ segment →
        (rest.take 5).map Char.toLower = segment → tokenEnd ∉ rest.take 5 := by
      intro segment hsegment heq hmem
      refine hsegment (heq ▸ ?_)
      exact mem_map.mpr ⟨tokenEnd, hmem, by decide⟩
    have hsplit : tokenEnd ∉ rest.take 5 → tokenEnd ∉ rest.drop 5 → tokenEnd ∉ rest := by
      intro htake hdrop hmem
      rw [← take_append_drop 5 rest, mem_append] at hmem
      exact hmem.elim htake hdrop
    split_ifs at h with hslash hbracket hescaped hfirst hsecond
    · exact (refuse_ne_ok h).elim
    · obtain ⟨tail, htail, -⟩ := bind_eq_ok h
      rw [not_or] at hbracket
      rw [mem_cons, not_or]
      exact ⟨Ne.symm hbracket.2, tokenEnd_notMem_of_validate fuel rest tail htail⟩
    · obtain ⟨tail, htail, -⟩ := bind_eq_ok h
      have hrest := tokenEnd_notMem_of_validate fuel _ tail htail
      obtain ⟨after, rfl⟩ : ∃ after, rest = '\\' :: after := by
        cases rest with
        | nil => cases hescaped
        | cons d after => exact ⟨after, by rw [Option.some.inj hescaped]⟩
      rw [ne_eq, not_not] at hslash
      subst hslash
      simp only [drop_one, tail_cons] at hrest
      rw [mem_cons, mem_cons, not_or, not_or]
      exact ⟨by decide, by decide, hrest⟩
    · obtain ⟨tail, htail, -⟩ := bind_eq_ok h
      rw [ne_eq, not_not] at hslash
      rw [hslash, mem_cons, not_or]
      exact ⟨by decide, hsplit (hlower _ (by decide) hfirst)
        (tokenEnd_notMem_of_validate fuel _ tail htail)⟩
    · obtain ⟨tail, htail, -⟩ := bind_eq_ok h
      rw [ne_eq, not_not] at hslash
      rw [hslash, mem_cons, not_or]
      exact ⟨by decide, hsplit (hlower _ (by decide) hsecond)
        (tokenEnd_notMem_of_validate fuel _ tail htail)⟩
    · exact (refuse_ne_ok h).elim

/-! ## The second pass -/

@[simp] theorem flatten_flushBuffer (buffer : Text) : (flushBuffer buffer).flatten = buffer := by
  unfold flushBuffer
  split_ifs with h
  · rw [h, flatten_nil]
  · rw [flatten_singleton]

theorem isVerticalPair_head (c : Char) (rest : Text) :
    (isVerticalEscape c rest || opensVerticalTag c rest) = rest.head?.any (isVerticalPair c) := by
  cases rest with
  | nil => simp [isVerticalEscape, opensVerticalTag]
  | cons d rest => simp [isVerticalEscape, opensVerticalTag, isVerticalPair]

theorem hasNoVerticalPair_cons {c : Char} {rest : Text} :
    HasNoVerticalPair (c :: rest) ↔
      isVerticalEscape c rest = false ∧ opensVerticalTag c rest = false ∧
        HasNoVerticalPair rest := by
  rw [← and_assoc, ← Bool.or_eq_false_iff, isVerticalPair_head]
  unfold HasNoVerticalPair
  cases rest with
  | nil => simp
  | cons d rest => simp [isChain_cons_cons]

theorem splitVerticalFrom_plain : ∀ (text buffer : Text) (fuel : Nat), HasNoVerticalPair text →
    text.length ≤ fuel →
      ∃ segments, splitVerticalFrom fuel buffer text = .ok segments ∧
        segments.flatten = buffer ++ text
  | [], buffer, fuel, _, _ => ⟨flushBuffer buffer, by cases fuel <;> rfl, by simp⟩
  | c :: rest, buffer, 0, _, hfuel => absurd hfuel (by simp)
  | c :: rest, buffer, fuel + 1, hpair, hfuel => by
    obtain ⟨hescape, hopens, hrest⟩ := hasNoVerticalPair_cons.mp hpair
    obtain ⟨segments, hread, hflat⟩ := splitVerticalFrom_plain rest (buffer ++ [c]) fuel hrest
      (Nat.le_of_succ_le_succ hfuel)
    refine ⟨segments, ?_, by rw [hflat, append_assoc, singleton_append]⟩
    unfold splitVerticalFrom
    rw [hescape, hopens]
    exact hread

/-- A tag is longer than its text. -/
theorem readVerticalTag_length : ∀ (fuel : Nat) (body text inner after : Text),
    readVerticalTag fuel body text = .ok (inner, after) →
      inner.length + after.length < body.length + text.length
  | _, _, [], _, _, h => by cases ‹Nat› <;> exact (refuse_ne_ok h).elim
  | 0, _, _ :: _, _, _, h => (refuse_ne_ok h).elim
  | fuel + 1, body, c :: rest, inner, after, h => by
    unfold readVerticalTag at h
    split_ifs at h with hescape hclose hempty hopens
    · have hlength := readVerticalTag_length fuel _ _ _ _ h
      simp only [length_append, length_take, length_drop, length_cons]
        at hlength ⊢
      omega
    · exact (refuse_ne_ok h).elim
    · obtain ⟨rfl, rfl⟩ := Prod.mk.inj (Except.ok.inj h)
      simp
    · exact (refuse_ne_ok h).elim
    · have hlength := readVerticalTag_length fuel _ _ _ _ h
      simp only [length_append, length_cons, length_nil] at hlength ⊢
      omega

/-- The second pass only ever shortens, and does so at the first escape or tag it meets. -/
theorem splitVerticalFrom_length : ∀ (fuel : Nat) (buffer text : Text) (segments : List Text),
    text.length ≤ fuel → splitVerticalFrom fuel buffer text = .ok segments →
      segments.flatten.length ≤ buffer.length + text.length ∧
        (segments.flatten.length = buffer.length + text.length → HasNoVerticalPair text)
  | fuel, buffer, [], segments, _, h => by
    obtain rfl : flushBuffer buffer = segments := by cases fuel <;> exact Except.ok.inj h
    simp [HasNoVerticalPair]
  | 0, _, _ :: _, _, hfuel, _ => absurd hfuel (by simp)
  | fuel + 1, buffer, c :: rest, segments, hfuel, h => by
    have hrest : rest.length ≤ fuel := Nat.le_of_succ_le_succ hfuel
    unfold splitVerticalFrom at h
    split_ifs at h with hescape hopens
    · obtain ⟨hle, -⟩ := splitVerticalFrom_length fuel _ _ _
        (by rw [length_drop]; omega) h
      have hne : 1 ≤ rest.length := by
        cases rest with
        | nil => simp [isVerticalEscape] at hescape
        | cons d rest => simp
      simp only [length_append, length_take, length_drop, length_cons]
        at hle ⊢
      omega
    · obtain ⟨⟨inner, after⟩, htag, h⟩ := bind_eq_ok h
      obtain ⟨tail, htail, h⟩ := bind_eq_ok h
      obtain rfl := Except.ok.inj h
      have htaglength := readVerticalTag_length _ _ _ _ _ htag
      rw [length_nil, Nat.zero_add, length_drop] at htaglength
      obtain ⟨hle, -⟩ := splitVerticalFrom_length fuel _ _ _ (by omega) htail
      simp only [flatten_append, flatten_flushBuffer, flatten_cons, length_append,
        length_nil, length_cons] at hle ⊢
      omega
    · obtain ⟨hle, heq⟩ := splitVerticalFrom_length fuel _ _ _ hrest h
      simp only [length_append, length_cons, length_nil] at hle heq ⊢
      refine ⟨by omega, fun htotal => hasNoVerticalPair_cons.mpr ⟨?_, ?_, heq (by omega)⟩⟩
      · exact Bool.eq_false_iff.mpr hescape
      · exact Bool.eq_false_iff.mpr hopens

/-! ## One stretch of prose -/

theorem plainProse_escape (h : PlainProse text) :
    plainProse (escapeProjectionText text) = .ok text := by
  obtain ⟨segments, hsplit, hflat⟩ :=
    splitVerticalFrom_plain text [] text.length h.vertical (Nat.le_refl _)
  have hread : validateEscapedProse (escapeProjectionText text) = .ok text :=
    validateEscapedFrom_escape text _ h.bracket (Nat.le_refl _)
  unfold plainProse
  rw [bind_ok hread, bind_ok (show splitVerticalTags text = .ok segments from hsplit), hflat]
  rfl

theorem readProse_escape (flat : Text) (h : PlainProse text) :
    readProse flat (escapeProjectionText text) = .ok (flat ++ text) := by
  unfold readProse
  split_ifs with hempty
  · obtain rfl : text = [] := by
      cases text with
      | nil => rfl
      | cons c text =>
        rw [escapeProjectionText_cons, append_eq_nil_iff] at hempty
        exact absurd hempty.1 (by unfold escapeProjectionChar; split_ifs <;> simp)
    rw [append_nil]
    rfl
  · rw [bind_ok (plainProse_escape h)]
    rfl

/-- Prose that reads at its own length is plain, and reads as itself. -/
theorem readProse_escape_eq_ok {text flat flat' : Text} (hbracket : HasNoBracket text)
    (h : readProse flat (escapeProjectionText text) = .ok flat')
    (hlength : flat'.length = flat.length + text.length) :
    PlainProse text ∧ flat' = flat ++ text := by
  have hplain : PlainProse text := by
    refine ⟨hbracket, ?_⟩
    unfold readProse at h
    split_ifs at h with hempty
    · obtain rfl := Except.ok.inj h
      obtain rfl : text = [] := eq_nil_of_length_eq_zero (by omega)
      exact isChain_nil
    · obtain ⟨read, hread, h⟩ := bind_eq_ok h
      obtain rfl := Except.ok.inj h
      unfold plainProse at hread
      have hvalid : validateEscapedProse (escapeProjectionText text) = .ok text :=
        validateEscapedFrom_escape text _ hbracket (Nat.le_refl _)
      rw [bind_ok hvalid] at hread
      obtain ⟨segments, hsplit, hread⟩ := bind_eq_ok hread
      obtain rfl := Except.ok.inj hread
      rw [length_append] at hlength
      exact (splitVerticalFrom_length _ _ _ _ (Nat.le_refl _) hsplit).2
        (by rw [length_nil]; omega)
  exact ⟨hplain, (Except.ok.inj ((readProse_escape flat hplain).symm.trans h)).symm⟩

theorem readProse_tokenEnd {flat prose flat' : Text} (h : readProse flat prose = .ok flat') :
    tokenEnd ∉ prose := by
  unfold readProse at h
  split_ifs at h with hempty
  · rw [hempty]
    exact not_mem_nil
  · obtain ⟨read, hread, -⟩ := bind_eq_ok h
    unfold plainProse at hread
    obtain ⟨text, htext, -⟩ := bind_eq_ok hread
    exact tokenEnd_notMem_of_validate _ _ _ htext

/-! ## A whole body -/

/-- The prose between two placeholders that follow each other, `held` before the first. -/
def chunksFrom (held : Text) : List BodyPiece → List Text
  | [] => [held]
  | .prose text :: rest => chunksFrom (held ++ text) rest
  | .token _ :: rest => held :: chunksFrom [] rest

/-- The prose of a body, from placeholder to placeholder. -/
def proseChunks (nodes : List TypedNode) : List Text := chunksFrom [] (pieces nodes)

def tokenContents : List BodyPiece → List Text
  | [] => []
  | .prose _ :: rest => tokenContents rest
  | .token content :: rest => content :: tokenContents rest

section Boundaries

variable {isAlphanumeric : Char → Bool}

theorem tokenStart_notMem_escape (h : HasNoBracket text) :
    tokenStart ∉ escapeProjectionText text := by
  intro hmem
  obtain ⟨c, hc, hmem⟩ := mem_flatMap.mp hmem
  unfold escapeProjectionChar at hmem
  split_ifs at hmem with hslash hstart hend
  · exact absurd hmem (by decide)
  · exact h.1 (hstart ▸ hc)
  · exact h.2 (hend ▸ hc)
  · exact h.1 (mem_singleton.mp hmem ▸ hc)

theorem tokenEnd_mem_escape : tokenEnd ∈ escapeProjectionText text ↔ tokenEnd ∈ text := by
  unfold escapeProjectionText
  rw [mem_flatMap]
  constructor
  · rintro ⟨c, hc, hmem⟩
    unfold escapeProjectionChar at hmem
    split_ifs at hmem with hslash hstart hend
    · exact absurd hmem (by decide)
    · exact absurd hmem (by decide)
    · exact hend ▸ hc
    · exact mem_singleton.mp hmem ▸ hc
  · exact fun h => ⟨tokenEnd, h, by decide⟩

/-! ### One turn of the loop -/

theorem boundariesFrom_last {prose : Text} (flat : Text) (boundaries : List (Nat × Text))
    (fuel : Nat) (h : tokenStart ∉ prose) :
    boundariesFrom isAlphanumeric (fuel + 1) flat boundaries prose =
      readProse flat prose >>= fun flat' => pure (flat', boundaries) := by
  unfold boundariesFrom
  rw [(takeWhile_ne_eq_self h).1, (takeWhile_ne_eq_self h).2]

theorem boundariesFrom_token {prose content : Text} (flat : Text)
    (boundaries : List (Nat × Text)) (fuel : Nat) (rest : Text) (hprose : tokenStart ∉ prose)
    (hcontent : tokenEnd ∉ content) :
    boundariesFrom isAlphanumeric (fuel + 1) flat boundaries
        (prose ++ (placeholder content ++ rest)) =
      readProse flat prose >>= fun flat' =>
        boundariesFrom isAlphanumeric fuel flat'
          (boundaries ++ [(flat'.length, tokenBoundaryKind isAlphanumeric content)]) rest := by
  have hshape : placeholder content ++ rest = tokenStart :: (content ++ tokenEnd :: rest) := by
    simp [placeholder]
  rw [hshape, boundariesFrom, takeWhile_ne_append hprose, dropWhile_ne_append hprose]
  have hclose : tokenEnd ∈ content ++ tokenEnd :: rest :=
    mem_append_right _ mem_cons_self
  simp only [hclose, not_true_eq_false, if_false, takeWhile_ne_append hcontent,
    dropWhile_ne_append hcontent, drop_one, tail_cons]

/-- A body that reads gives a boundary for each closing bracket. -/
theorem boundariesFrom_count : ∀ (fuel : Nat) (flat : Text) (boundaries : List (Nat × Text))
    (rest : Text) (read : Text × List (Nat × Text)),
    boundariesFrom isAlphanumeric fuel flat boundaries rest = .ok read →
      ∃ more, read.2 = boundaries ++ more ∧ more.length = rest.count tokenEnd
  | 0, _, _, _, _, h => (refuse_ne_ok h).elim
  | fuel + 1, flat, boundaries, rest, read, h => by
    unfold boundariesFrom at h
    obtain ⟨flat', hread, h⟩ := bind_eq_ok h
    have hprose : (rest.takeWhile (· ≠ tokenStart)).count tokenEnd = 0 :=
      count_eq_zero.mpr (readProse_tokenEnd hread)
    have hrest : rest.count tokenEnd = (rest.dropWhile (· ≠ tokenStart)).count tokenEnd := by
      conv_lhs => rw [← takeWhile_append_dropWhile (p := (· ≠ tokenStart)) (l := rest)]
      rw [count_append, hprose, Nat.zero_add]
    rw [hrest]
    cases hdrop : rest.dropWhile (· ≠ tokenStart) with
    | nil =>
      rw [hdrop] at h
      obtain rfl := Except.ok.inj h
      exact ⟨[], (append_nil _).symm, rfl⟩
    | cons first afterStart =>
      rw [hdrop] at h
      dsimp only at h
      by_cases hclose : tokenEnd ∈ afterStart
      · rw [if_neg (not_not.mpr hclose)] at h
        obtain ⟨tail, hafter, htail⟩ := eq_takeWhile_append hclose
        rw [htail, drop_one, tail_cons] at h
        obtain ⟨more, hmore, hlength⟩ := boundariesFrom_count fuel _ _ _ _ h
        refine ⟨_ :: more, by rw [hmore, append_assoc, singleton_append], ?_⟩
        have hfirst : first = tokenStart := by
          have hhead := head?_dropWhile_not (· ≠ tokenStart) rest
          rw [hdrop] at hhead
          simpa using hhead
        have hcontent : (afterStart.takeWhile (· ≠ tokenEnd)).count tokenEnd = 0 := by
          refine count_eq_zero.mpr fun hmem => ?_
          simpa using mem_takeWhile_imp hmem
        rw [length_cons, hlength, hfirst, count_cons_of_ne (by decide), hafter,
          count_append, hcontent, count_cons_self, Nat.zero_add]
      · rw [if_pos hclose] at h
        exact (refuse_ne_ok h).elim

/-! ### Plain pieces read back -/

theorem length_piecesOffsets : ∀ (ps : List BodyPiece) (start : Nat),
    (piecesOffsets start ps).length = (tokenContents ps).length
  | [], _ => rfl
  | .prose _ :: rest, _ => length_piecesOffsets rest _
  | .token _ :: rest, _ => congrArg Nat.succ (length_piecesOffsets rest _)

theorem boundariesFrom_of_plain : ∀ (ps : List BodyPiece) (held flat : Text)
    (boundaries : List (Nat × Text)) (fuel : Nat), (∀ content ∈ tokenContents ps, tokenEnd ∉ content) →
    (∀ chunk ∈ chunksFrom held ps, PlainProse chunk) → (tokenContents ps).length < fuel →
      ∃ more, boundariesFrom isAlphanumeric fuel flat boundaries
          (escapeProjectionText held ++ renderPieces ps) =
            .ok (flat ++ held ++ piecesText ps, boundaries ++ more) ∧
        more.map (·.1) = piecesOffsets (flat.length + held.length) ps
  | [], held, flat, boundaries, fuel, _, hchunks, hfuel => by
    obtain ⟨fuel, rfl⟩ := Nat.exists_eq_succ_of_ne_zero (Nat.ne_zero_of_lt hfuel)
    have hplain : PlainProse held := hchunks held (mem_singleton_self _)
    refine ⟨[], ?_, rfl⟩
    rw [renderPieces_nil, append_nil,
      boundariesFrom_last flat boundaries fuel (tokenStart_notMem_escape hplain.bracket),
      bind_ok (readProse_escape flat hplain), piecesText, append_nil, append_nil]
    rfl
  | .prose text :: rest, held, flat, boundaries, fuel, hcontents, hchunks, hfuel => by
    obtain ⟨more, hread, hoffsets⟩ := boundariesFrom_of_plain rest (held ++ text) flat boundaries
      fuel hcontents hchunks hfuel
    refine ⟨more, ?_, ?_⟩
    · rw [renderPieces_cons, BodyPiece.render, ← append_assoc, ← escapeProjectionText_append, hread,
        piecesText, append_assoc, append_assoc, append_assoc]
    · rw [hoffsets, piecesOffsets, length_append, Nat.add_assoc]
  | .token content :: rest, held, flat, boundaries, fuel, hcontents, hchunks, hfuel => by
    obtain ⟨fuel, rfl⟩ := Nat.exists_eq_succ_of_ne_zero (Nat.ne_zero_of_lt hfuel)
    have hplain : PlainProse held := hchunks held mem_cons_self
    obtain ⟨more, hread, hoffsets⟩ := boundariesFrom_of_plain rest [] (flat ++ held)
      (boundaries ++ [((flat ++ held).length, tokenBoundaryKind isAlphanumeric content)]) fuel
      (fun c hc => hcontents c (mem_cons_of_mem _ hc))
      (fun chunk hchunk => hchunks chunk (mem_cons_of_mem _ hchunk))
      (Nat.lt_of_succ_lt_succ hfuel)
    refine ⟨((flat ++ held).length, tokenBoundaryKind isAlphanumeric content) :: more, ?_, ?_⟩
    · rw [renderPieces_cons, BodyPiece.render, boundariesFrom_token flat boundaries fuel _
          (tokenStart_notMem_escape hplain.bracket) (hcontents content mem_cons_self),
        bind_ok (readProse_escape flat hplain)]
      rw [show escapeProjectionText [] = [] from rfl, nil_append, append_nil] at hread
      rw [hread, piecesText, append_assoc, append_assoc, singleton_append]
    · rw [map_cons, hoffsets, piecesOffsets, length_append, length_nil, Nat.add_zero]

/-! ### What reads back is plain -/

/-- Every placeholder closes once; what closes more often, or closes in prose, is one too many. -/
theorem count_tokenEnd_renderPieces : ∀ ps : List BodyPiece,
    (tokenContents ps).length ≤ (renderPieces ps).count tokenEnd ∧
      ((renderPieces ps).count tokenEnd = (tokenContents ps).length →
        (∀ content ∈ tokenContents ps, tokenEnd ∉ content) ∧ tokenEnd ∉ piecesText ps)
  | [] => by simp [tokenContents, piecesText]
  | .prose text :: rest => by
    obtain ⟨hle, heq⟩ := count_tokenEnd_renderPieces rest
    rw [renderPieces_cons, BodyPiece.render, count_append, tokenContents, piecesText]
    refine ⟨by omega, fun htotal => ?_⟩
    obtain ⟨hcontents, hrest⟩ := heq (by omega)
    have htext : tokenEnd ∉ text := by
      rw [← tokenEnd_mem_escape, ← count_eq_zero]
      omega
    exact ⟨hcontents, not_mem_append htext hrest⟩
  | .token content :: rest => by
    obtain ⟨hle, heq⟩ := count_tokenEnd_renderPieces rest
    have hcount : (placeholder content).count tokenEnd = content.count tokenEnd + 1 := by
      unfold placeholder
      rw [count_append, count_append, count_singleton_self,
        show [tokenStart].count tokenEnd = 0 by decide, Nat.zero_add]
    rw [renderPieces_cons, BodyPiece.render, count_append, hcount, tokenContents, piecesText,
      length_cons]
    refine ⟨by omega, fun htotal => ?_⟩
    obtain ⟨hcontents, hrest⟩ := heq (by omega)
    have hcontent : tokenEnd ∉ content := by
      rw [← count_eq_zero]
      omega
    exact ⟨forall_mem_cons.mpr ⟨hcontent, hcontents⟩, hrest⟩

/-- Prose that holds an opening bracket is cut after the backslash that escapes it. -/
theorem tokenStart_notMem_of_readProse {held rest flat flat' : Text} (hend : tokenEnd ∉ held)
    (h : readProse flat ((escapeProjectionText held ++ rest).takeWhile (· ≠ tokenStart)) =
      .ok flat') : tokenStart ∉ held := by
  intro hmem
  obtain ⟨before, after, rfl, hbefore⟩ := eq_append_cons_of_mem hmem
  have hbracket : HasNoBracket before :=
    ⟨hbefore, fun hmem => hend (mem_append_left _ hmem)⟩
  have hcut : tokenStart ∉ escapeProjectionText before ++ ['\\'] :=
    not_mem_append (tokenStart_notMem_escape hbracket) (by decide)
  have hshape : escapeProjectionText (before ++ tokenStart :: after) ++ rest =
      (escapeProjectionText before ++ ['\\']) ++
        tokenStart :: (escapeProjectionText after ++ rest) := by
    rw [escapeProjectionText_append, escapeProjectionText_cons,
      show escapeProjectionChar tokenStart = ['\\', tokenStart] from rfl]
    simp
  rw [hshape, takeWhile_ne_append hcut] at h
  unfold readProse at h
  rw [if_neg (by simp)] at h
  obtain ⟨read, hread, -⟩ := bind_eq_ok h
  unfold plainProse at hread
  obtain ⟨text, htext, -⟩ := bind_eq_ok hread
  exact validateEscapedFrom_escape_slash before _ text hbracket htext

theorem plain_of_boundariesFrom : ∀ (ps : List BodyPiece) (held flat : Text)
    (boundaries more : List (Nat × Text)) (fuel : Nat),
    (∀ content ∈ tokenContents ps, tokenEnd ∉ content) → tokenEnd ∉ held → tokenEnd ∉ piecesText ps →
    boundariesFrom isAlphanumeric fuel flat boundaries
      (escapeProjectionText held ++ renderPieces ps) =
        .ok (flat ++ held ++ piecesText ps, boundaries ++ more) →
    more.map (·.1) = piecesOffsets (flat.length + held.length) ps →
      ∀ chunk ∈ chunksFrom held ps, PlainProse chunk
  | _, _, _, _, _, 0, _, _, _, h, _ => (refuse_ne_ok h).elim
  | [], held, flat, boundaries, more, fuel + 1, _, hheld, _, h, _ => by
    rw [renderPieces_nil, append_nil] at h
    have hstart : tokenStart ∉ held := by
      rw [boundariesFrom] at h
      obtain ⟨flat', hread, -⟩ := bind_eq_ok h
      refine tokenStart_notMem_of_readProse hheld (?_ : readProse flat
        ((escapeProjectionText held ++ []).takeWhile (· ≠ tokenStart)) = .ok flat')
      rwa [append_nil]
    have hbracket : HasNoBracket held := ⟨hstart, hheld⟩
    rw [boundariesFrom_last flat boundaries fuel (tokenStart_notMem_escape hbracket)] at h
    obtain ⟨flat', hread, h⟩ := bind_eq_ok h
    have hflat : flat' = flat ++ held := by
      simpa [piecesText] using (Prod.mk.inj (Except.ok.inj h)).1
    intro chunk hchunk
    rw [chunksFrom, mem_singleton] at hchunk
    rw [hchunk]
    exact (readProse_escape_eq_ok hbracket hread (by rw [hflat, length_append])).1
  | .prose text :: rest, held, flat, boundaries, more, fuel + 1, hcontents, hheld, htext, h,
      hoffsets => by
    rw [piecesText, mem_append, not_or] at htext
    rw [renderPieces_cons, BodyPiece.render, ← append_assoc, ← escapeProjectionText_append,
      piecesText, ← append_assoc, append_assoc flat held text] at h
    rw [piecesOffsets, Nat.add_assoc, ← length_append] at hoffsets
    exact plain_of_boundariesFrom rest (held ++ text) flat boundaries more (fuel + 1) hcontents
      (not_mem_append hheld htext.1) htext.2 h hoffsets
  | .token content :: rest, held, flat, boundaries, more, fuel + 1, hcontents, hheld, htext, h,
      hoffsets => by
    have hstart : tokenStart ∉ held := by
      rw [boundariesFrom] at h
      obtain ⟨flat', hread, -⟩ := bind_eq_ok h
      exact tokenStart_notMem_of_readProse hheld hread
    have hbracket : HasNoBracket held := ⟨hstart, hheld⟩
    rw [renderPieces_cons, BodyPiece.render, boundariesFrom_token flat boundaries fuel _
      (tokenStart_notMem_escape hbracket) (hcontents content mem_cons_self)] at h
    obtain ⟨flat', hread, h⟩ := bind_eq_ok h
    obtain ⟨tail, htail, -⟩ := boundariesFrom_count _ _ _ _ _ h
    dsimp only at htail
    rw [append_assoc boundaries, append_cancel_left_eq, singleton_append] at htail
    rw [htail, map_cons, piecesOffsets, List.cons.injEq] at hoffsets
    obtain ⟨hlength, hoffsets⟩ := hoffsets
    obtain ⟨hplain, rfl⟩ := readProse_escape_eq_ok hbracket hread hlength
    refine forall_mem_cons.mpr ⟨hplain, ?_⟩
    refine plain_of_boundariesFrom rest [] (flat ++ held)
      (boundaries ++ [((flat ++ held).length, tokenBoundaryKind isAlphanumeric content)]) tail fuel
      (fun c hc => hcontents c (mem_cons_of_mem _ hc)) not_mem_nil htext ?_ ?_
    · rw [show escapeProjectionText [] = [] from rfl, nil_append, append_nil, h, htail,
        piecesText, append_assoc boundaries, singleton_append]
    · rw [hoffsets, length_append, length_nil, Nat.add_zero]

end Boundaries

/-! ## Placeholders -/

/-- The names and values of an attribute map. -/
def AttrMap.fields (attrs : AttrMap) : List Text := attrs.entries.flatMap fun e => [e.1, e.2]

mutual

/-- Everything one node writes into its placeholders: ids, kinds, and attributes. -/
def nodeFields : TypedNode → List Text
  | .text .. => []
  | .anchor tokenId kind attrs => (tokenAttrs tokenId kind attrs).fields
  | .inline tokenId kind styleId attrs => (inlineAttrs tokenId kind styleId attrs).fields
  | .opaqueToken tokenId kind attrs => (tokenAttrs tokenId kind attrs).fields
  | .range tokenId kind attrs children =>
    tokenId :: (tokenAttrs tokenId kind attrs).fields ++ placeholderFields children
  | .revision tokenId kind attrs children =>
    if isVisibleRevision kind then
      tokenId :: (tokenAttrs tokenId kind attrs).fields ++ placeholderFields children
    else [tokenId, kind]

def placeholderFields : List TypedNode → List Text
  | [] => []
  | node :: rest => nodeFields node ++ placeholderFields rest

end

theorem tokenEnd_mem_projectionAttrValue {value : Text} :
    tokenEnd ∈ projectionAttrValue value ↔ tokenEnd ∈ value := by
  have hvalue : tokenEnd ∈ value.flatMap escapeAttrChar ↔ tokenEnd ∈ value := by
    rw [mem_flatMap]
    constructor
    · rintro ⟨c, hc, hmem⟩
      unfold escapeAttrChar at hmem
      split_ifs at hmem
      · exact absurd hmem (by decide)
      · exact absurd hmem (by decide)
      · exact absurd hmem (by decide)
      · exact absurd hmem (by decide)
      · exact mem_singleton.mp hmem ▸ hc
    · exact fun h => ⟨tokenEnd, h, by decide⟩
  have hquote : tokenEnd ∉ ['"'] := by decide
  unfold projectionAttrValue
  rw [mem_append, mem_append, hvalue]
  tauto

theorem tokenEnd_mem_renderAttr {entry : Text × Text} :
    tokenEnd ∈ renderAttr entry ↔ tokenEnd ∈ entry.1 ∨ tokenEnd ∈ entry.2 := by
  have hequals : tokenEnd ∉ ['='] := by decide
  unfold renderAttr
  rw [mem_append, mem_append, tokenEnd_mem_projectionAttrValue]
  tauto

theorem tokenEnd_mem_joinSpaced : ∀ {texts : List Text},
    tokenEnd ∈ joinSpaced texts ↔ ∃ text ∈ texts, tokenEnd ∈ text
  | [] => by simp [joinSpaced]
  | [text] => by simp [joinSpaced]
  | text :: next :: rest => by
    have hspace : tokenEnd ∉ [' '] := by decide
    have ih := @tokenEnd_mem_joinSpaced (next :: rest)
    unfold joinSpaced at ih ⊢
    rw [intercalate_cons_cons, mem_append, mem_append, ih]
    simp [hspace]

variable {attrs : AttrMap}

theorem tokenEnd_mem_fields :
    (∃ field ∈ attrs.fields, tokenEnd ∈ field) ↔
      ∃ entry ∈ attrs.entries, tokenEnd ∈ renderAttr entry := by
  unfold AttrMap.fields
  simp only [mem_flatMap, mem_cons, not_mem_nil, or_false, tokenEnd_mem_renderAttr]
  constructor
  · rintro ⟨field, ⟨entry, hentry, rfl | rfl⟩, hmem⟩
    · exact ⟨entry, hentry, .inl hmem⟩
    · exact ⟨entry, hentry, .inr hmem⟩
  · rintro ⟨entry, hentry, hmem | hmem⟩
    · exact ⟨_, ⟨entry, hentry, .inl rfl⟩, hmem⟩
    · exact ⟨_, ⟨entry, hentry, .inr rfl⟩, hmem⟩

/-- The order in which the attributes are written leaves none out. -/
theorem tokenEnd_mem_renderNodeAttrs :
    tokenEnd ∈ renderNodeAttrs attrs ↔ ∃ field ∈ attrs.fields, tokenEnd ∈ field := by
  rw [tokenEnd_mem_fields]
  unfold renderNodeAttrs
  rw [tokenEnd_mem_joinSpaced]
  simp only [mem_map, mem_append, Option.mem_toList, Option.map_eq_some_iff,
    AttrMap.get_eq_some_iff, mem_filter, decide_eq_true_eq]
  constructor
  · rintro ⟨text, ⟨entry, (⟨value, hmem, rfl⟩ | ⟨value, hmem, rfl⟩) | ⟨hmem, -⟩, rfl⟩, hend⟩ <;>
      exact ⟨_, hmem, hend⟩
  · rintro ⟨⟨key, value⟩, hmem, hend⟩
    refine ⟨_, ⟨(key, value), ?_, rfl⟩, hend⟩
    by_cases hid : key = idKey
    · exact .inl (.inl ⟨value, hid ▸ hmem, by rw [hid]⟩)
    by_cases hkind : key = kindKey
    · exact .inl (.inr ⟨value, hkind ▸ hmem, by rw [hkind]⟩)
    · exact .inr ⟨hmem, hid, hkind⟩

theorem tokenEnd_mem_renderRevisionAttrs {tokenId : Text} (hid : attrs.get idKey = some tokenId) :
    tokenEnd ∈ renderRevisionAttrs tokenId attrs ↔ ∃ field ∈ attrs.fields, tokenEnd ∈ field := by
  have hmem := AttrMap.get_eq_some_iff.mp hid
  rw [tokenEnd_mem_fields]
  unfold renderRevisionAttrs
  rw [tokenEnd_mem_joinSpaced]
  simp only [mem_map, mem_cons, mem_filter, decide_eq_true_eq]
  constructor
  · rintro ⟨text, ⟨entry, rfl | ⟨hentry, -⟩, rfl⟩, hend⟩
    · exact ⟨_, hmem, hend⟩
    · exact ⟨_, hentry, hend⟩
  · rintro ⟨⟨key, value⟩, hentry, hend⟩
    refine ⟨_, ⟨(key, value), ?_, rfl⟩, hend⟩
    by_cases hkey : key = idKey
    · have hvalue := AttrMap.get_eq_some_iff.mpr hentry
      rw [hkey, hid, Option.some.injEq] at hvalue
      exact .inl (by rw [hkey, hvalue])
    · exact .inr ⟨hentry, hkey⟩

theorem tokenContents_append : ∀ left right : List BodyPiece,
    tokenContents (left ++ right) = tokenContents left ++ tokenContents right
  | [], _ => rfl
  | .prose _ :: left, right => tokenContents_append left right
  | .token content :: left, right => congrArg (content :: ·) (tokenContents_append left right)

/-- No text of the list holds a closing bracket. -/
def EndFree (texts : List Text) : Prop := ∀ text ∈ texts, tokenEnd ∉ text

instance (texts : List Text) : Decidable (EndFree texts) :=
  inferInstanceAs (Decidable (∀ text ∈ texts, tokenEnd ∉ text))

@[simp] theorem endFree_nil : EndFree [] := fun _ h => absurd h not_mem_nil

@[simp] theorem endFree_cons {texts : List Text} :
    EndFree (text :: texts) ↔ tokenEnd ∉ text ∧ EndFree texts := forall_mem_cons

@[simp] theorem endFree_append {left right : List Text} :
    EndFree (left ++ right) ↔ EndFree left ∧ EndFree right := forall_mem_append

theorem endFree_iff_not_exists {texts : List Text} :
    EndFree texts ↔ ¬ ∃ text ∈ texts, tokenEnd ∈ text := by
  simp [EndFree]

section Contents

variable (tokenId kind : Text) (attrs : AttrMap)

theorem tokenEnd_notMem_tokenContent :
    tokenEnd ∉ tokenContent attrs ↔ EndFree attrs.fields := by
  rw [endFree_iff_not_exists, ← tokenEnd_mem_renderNodeAttrs]
  unfold tokenContent
  rw [mem_append]
  exact not_congr (or_iff_right (by decide))

theorem tokenEnd_notMem_rangeStartContent :
    tokenEnd ∉ rangeStartContent tokenId kind attrs ↔
      EndFree (tokenAttrs tokenId kind attrs).fields := by
  rw [endFree_iff_not_exists, ← tokenEnd_mem_renderNodeAttrs]
  unfold rangeStartContent
  rw [mem_append]
  exact not_congr (or_iff_right (by decide))

theorem tokenEnd_notMem_rangeEndContent :
    tokenEnd ∉ rangeEndContent tokenId ↔ tokenEnd ∉ tokenId := by
  unfold rangeEndContent
  rw [mem_append, tokenEnd_mem_projectionAttrValue]
  exact not_congr (or_iff_right (by decide))

theorem tokenEnd_notMem_revisionKeyword : tokenEnd ∉ revisionKeyword kind := by
  unfold revisionKeyword
  split_ifs <;> decide

theorem tokenEnd_notMem_revisionStartContent :
    tokenEnd ∉ revisionStartContent tokenId kind attrs ↔
      EndFree (tokenAttrs tokenId kind attrs).fields := by
  have hkeyword := tokenEnd_notMem_revisionKeyword kind
  have hspace : tokenEnd ∉ [' '] := by decide
  rw [endFree_iff_not_exists, ← tokenEnd_mem_renderRevisionAttrs (tokenAttrs_get_id _ _ _)]
  unfold revisionStartContent
  rw [mem_append, mem_append]
  tauto

theorem tokenEnd_notMem_revisionEndContent :
    tokenEnd ∉ revisionEndContent tokenId kind ↔ tokenEnd ∉ tokenId := by
  have hkeyword := tokenEnd_notMem_revisionKeyword kind
  have hslash : tokenEnd ∉ ['/'] := by decide
  have hid : tokenEnd ∉ " id=".toList := by decide
  unfold revisionEndContent
  rw [mem_append, mem_append, mem_append, tokenEnd_mem_projectionAttrValue]
  tauto

theorem tokenEnd_notMem_revisionGapContent :
    tokenEnd ∉ revisionGapContent tokenId kind ↔ tokenEnd ∉ tokenId ∧ tokenEnd ∉ kind := by
  have hgap : tokenEnd ∉ "revision-gap id=".toList := by decide
  have hkind : tokenEnd ∉ " kind=".toList := by decide
  unfold revisionGapContent
  rw [mem_append, mem_append, mem_append, tokenEnd_mem_projectionAttrValue,
    tokenEnd_mem_projectionAttrValue]
  tauto

end Contents

mutual

theorem endFree_nodeContents : ∀ node : TypedNode,
    EndFree (tokenContents (nodePieces node)) ↔ EndFree (nodeFields node)
  | .text .. => by simp [nodePieces, tokenContents, nodeFields]
  | .anchor .. | .inline .. | .opaqueToken .. => by
    simp [nodePieces, tokenContents, nodeFields, tokenEnd_notMem_tokenContent]
  | .range tokenId kind attrs children => by
    simp only [nodePieces, tokenContents, nodeFields, tokenContents_append, endFree_cons,
      endFree_append, endFree_nil, and_true, tokenEnd_notMem_rangeStartContent,
      tokenEnd_notMem_rangeEndContent, endFree_tokenContents children, cons_append]
    tauto
  | .revision tokenId kind attrs children => by
    unfold nodePieces nodeFields
    split
    · simp only [tokenContents, tokenContents_append, endFree_cons, endFree_append, endFree_nil,
        and_true, tokenEnd_notMem_revisionStartContent, tokenEnd_notMem_revisionEndContent,
        endFree_tokenContents children, cons_append]
      tauto
    · simp [tokenContents, tokenEnd_notMem_revisionGapContent]

/-- A placeholder closes early exactly when something written into it holds a closing bracket. -/
theorem endFree_tokenContents : ∀ nodes : List TypedNode,
    EndFree (tokenContents (pieces nodes)) ↔ EndFree (placeholderFields nodes)
  | [] => Iff.rfl
  | node :: rest => by
    rw [pieces, placeholderFields, tokenContents_append, endFree_append, endFree_append,
      endFree_nodeContents node, endFree_tokenContents rest]

end

/-! ## Reading back -/

/-- The body of these nodes keeps clear of the reader's own grammar. -/
structure KeepsClear (nodes : List TypedNode) : Prop where
  placeholders : EndFree (placeholderFields nodes)
  prose : ∀ chunk ∈ proseChunks nodes, PlainProse chunk

instance (nodes : List TypedNode) : Decidable (KeepsClear nodes) :=
  decidable_of_iff (EndFree (placeholderFields nodes) ∧ ∀ chunk ∈ proseChunks nodes, PlainProse chunk)
    ⟨fun h => ⟨h.1, h.2⟩, fun h => ⟨h.1, h.2⟩⟩

theorem length_tokenContents_le : ∀ ps : List BodyPiece,
    (tokenContents ps).length ≤ (renderPieces ps).length
  | [] => Nat.le_refl _
  | .prose text :: rest => by
    have ih := length_tokenContents_le rest
    rw [renderPieces_cons, length_append, tokenContents]
    omega
  | .token content :: rest => by
    have ih := length_tokenContents_le rest
    rw [renderPieces_cons, length_append, tokenContents, length_cons, BodyPiece.render,
      placeholder, length_append, length_append, length_singleton]
    omega

/-- The draft body reads back as the final view with its tokens in place exactly when it keeps
clear of the reader's grammar. -/
theorem projectNodes_readsBack_iff (isAlphanumeric : Char → Bool) (nodes : List TypedNode) :
    (∃ read, bodyBoundaries isAlphanumeric (projectNodes nodes) = .ok read ∧ ReadsAs nodes read) ↔
      KeepsClear nodes := by
  constructor
  · rintro ⟨⟨flat, boundaries⟩, hread, hflat, hoffsets⟩
    dsimp only at hflat hoffsets
    unfold bodyBoundaries at hread
    rw [tokenOffsets_eq] at hoffsets
    rw [finalText_eq_piecesText] at hflat
    rw [projectNodes_eq_render, hflat] at hread
    obtain ⟨more, hmore, hcount⟩ := boundariesFrom_count _ _ _ _ _ hread
    obtain ⟨hcontents, htext⟩ := (count_tokenEnd_renderPieces (pieces nodes)).2 (by
      rw [← hcount, ← length_piecesOffsets (pieces nodes) 0, ← hoffsets, List.length_map]
      exact congrArg List.length hmore.symm)
    exact ⟨(endFree_tokenContents nodes).mp hcontents,
      plain_of_boundariesFrom _ [] [] [] boundaries _ hcontents List.not_mem_nil htext hread
        hoffsets⟩
  · rintro ⟨hplaceholders, hprose⟩
    obtain ⟨more, hread, hoffsets⟩ := @boundariesFrom_of_plain isAlphanumeric
      (pieces nodes) [] [] [] ((projectNodes nodes).length + 1)
      ((endFree_tokenContents nodes).mpr hplaceholders) hprose (by
        rw [projectNodes_eq_render]
        exact Nat.lt_succ_of_le (length_tokenContents_le _))
    refine ⟨(piecesText (pieces nodes), more), ?_, (finalText_eq_piecesText nodes).symm, ?_⟩
    · unfold bodyBoundaries
      rw [projectNodes_eq_render] at hread ⊢
      exact hread
    · rw [tokenOffsets_eq]
      exact hoffsets

/-- A paragraph that reads `⟦`. -/
def bracketParagraph : List TypedNode := [.text [] ['⟦'] none]

theorem bracketParagraph_unreadable : ¬ ∀ nodes, ∃ read,
    bodyBoundaries Char.isAlphanum (projectNodes nodes) = .ok read ∧ ReadsAs nodes read := by
  intro h
  obtain ⟨read, hread, -⟩ := h bracketParagraph
  have hrefused : (bodyBoundaries Char.isAlphanum (projectNodes bracketParagraph)).toOption = none := by
    decide
  rw [hread] at hrefused
  cases hrefused

end Docx2Typed
