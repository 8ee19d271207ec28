import Docx2Typed.Draft.Projection
import Docx2Typed.Zip.Stored

/-!
# Is the draft format lossless?

The text of a paragraph is written at line level as it stands.  Both readers then drop blank lines,
break at their own line breaks and start a block at anything that looks like a marker.  So the
paragraphs come back exactly when no text breaks at anything but `\n`, holds a blank line or a line
that looks like a marker, and no id breaks its quotes.  A draft nobody edited then shows no change
exactly when paragraphs of one id also say the same.
-/

namespace Docx2Typed

open Library List

/-! ## What comes back -/

/-- Ids and bodies, as a reader of `split_edit_blocks` sees them. -/
def identifiedBodies (blocks : List Text) : List (Text × Text) :=
  blocks.filterMap fun block => (blockIdent block).map fun ident => (ident.2, blockBody block)

/-- Ids and bodies, as the mutation path sees them. -/
def markedBodies (blocks : List Text) : List (Text × Text) :=
  blocks.filterMap fun block => (markerOf block).map fun marker => (marker.2.1, blockBody block)

def idsAndBodies (paragraphs : List InventoryParagraph) : List (Text × Text) :=
  paragraphs.map fun paragraph => (paragraph.id, paragraph.visibleText)

/-- The projection is written, comes back the same through both splitters and as the frozen
baseline, and shows no change. -/
structure ComesBack (crates : Crates) (typedMd : Bytes) (paragraphs : List InventoryParagraph)
    (text : Text) : Prop where
  written : ∃ typedSha256, renderProjection crates typedMd paragraphs = .ok (text, typedSha256)
  view : ∃ header blocks, splitEditBlocks text = .ok (header, blocks) ∧
    identifiedBodies blocks = idsAndBodies paragraphs
  draft : ∃ blocks, paragraphBlocks text = .ok blocks ∧
    markedBodies blocks = idsAndBodies paragraphs ∧
    ∀ typed inventory, computeChanged ⟨some text, typed, .ok inventory⟩ blocks = .ok []
  baseline : parseBaselineParagraphs text =
    paragraphs.map fun paragraph => (paragraph.id, draftBodyReading paragraph.visibleText)

/-- A line that belongs to the block it stands in. -/
def IsBodyLine (line : Text) : Prop := trim line ≠ [] ∧ isBlockMarker (trim line) = false

/-- Nothing in the text breaks a line but `\n`, and every line stays in its block. -/
structure KeepsLines (text : Text) : Prop where
  breaks : ∀ c ∈ text, isPythonBreak c = true → c = '\n'
  lines : text = [] ∨ ∀ line ∈ text.splitOn '\n', IsBodyLine line

/-- An id that stays inside its quotes. -/
structure KeepsQuotes (id : Text) : Prop where
  nonempty : id ≠ []
  quote : '"' ∉ id
  breaks : ∀ c ∈ id, isPythonBreak c = false

/-- What the format asks of the paragraphs it is given. -/
structure FitsDraft (paragraphs : List InventoryParagraph) : Prop where
  ids : ∀ paragraph ∈ paragraphs, KeepsQuotes paragraph.id
  texts : ∀ paragraph ∈ paragraphs, KeepsLines paragraph.visibleText
  sameId : ∀ p ∈ paragraphs, ∀ q ∈ paragraphs, p.id = q.id →
    draftBodyReading p.visibleText = draftBodyReading q.visibleText

/-! ## Trimming -/

variable {text : Text}

theorem trim_eq_self {first last : Char} (hfirst : isUnicodeWhitespace first = false)
    (hlast : isUnicodeWhitespace last = false) :
    trim (first :: (text ++ [last])) = first :: (text ++ [last]) := by
  have hstart : trimStart (first :: (text ++ [last])) = first :: (text ++ [last]) := by
    unfold trimStart
    rw [dropWhile_cons_of_neg (by rw [hfirst]; decide)]
  unfold trim
  rw [hstart]
  unfold trimEnd
  rw [← cons_append, reverse_append, reverse_singleton, singleton_append,
    dropWhile_cons_of_neg (by rw [hlast]; decide), reverse_cons, reverse_reverse]

/-! ## The marker line -/

theorem paragraphMarker_eq (id : Text) :
    paragraphMarker id = "<!--@p id=\"".toList ++ id ++ "\" base=\"\"/>".toList := rfl

theorem trim_paragraphMarker (id : Text) : trim (paragraphMarker id) = paragraphMarker id := by
  have hopening : "<!--@p id=\"".toList = '<' :: "!--@p id=\"".toList := by decide
  have hclosing : "\" base=\"\"/>".toList = "\" base=\"\"/".toList ++ ['>'] := by decide
  have hshape : paragraphMarker id =
      '<' :: (("!--@p id=\"".toList ++ id ++ "\" base=\"\"/".toList) ++ ['>']) := by
    rw [paragraphMarker_eq, hopening, hclosing, cons_append, cons_append,
      append_assoc _ _ ['>']]
  rw [hshape]
  exact trim_eq_self (by decide) (by decide)

theorem isBlockMarker_paragraphMarker (id : Text) :
    isBlockMarker (trim (paragraphMarker id)) = true := by
  have hopening : "<!--@p id=\"".toList = "<!--@p".toList ++ " id=\"".toList := by decide
  have hmarker : "<!--@p".toList <+: paragraphMarker id := by
    rw [paragraphMarker_eq, hopening, append_assoc, append_assoc]
    exact List.prefix_append _ _
  unfold isBlockMarker
  rw [trim_paragraphMarker, isPrefixOf_iff_prefix.mpr hmarker]
  rfl

/-! ## Blocks of a stream of lines -/

/-- The lines that count. -/
def isCounted (line : Text) : Bool := !decide (trim line = [])

def countedLines (lines : List Text) : List Text := lines.filter isCounted

theorem not_isBlockMarker_nil : isBlockMarker [] = false := by decide

theorem blocksFrom_countedLines : ∀ (lines current : List Text),
    blocksFrom current lines = blocksFrom current (countedLines lines)
  | [], _ => rfl
  | line :: rest, current => by
    by_cases hblank : trim line = []
    · have hskip : countedLines (line :: rest) = countedLines rest := by
        simp [countedLines, isCounted, hblank]
      rw [hskip, blocksFrom, hblank, not_isBlockMarker_nil, if_neg (by decide), if_pos rfl,
        blocksFrom_countedLines rest]
    · have hkeep : countedLines (line :: rest) = line :: countedLines rest := by
        simp [countedLines, isCounted, hblank]
      rw [hkeep, blocksFrom, blocksFrom, blocksFrom_countedLines rest,
        blocksFrom_countedLines rest (current ++ [line])]
      simp only [if_neg hblank]

theorem blocksFrom_bodyLines : ∀ (lines current rest : List Text), (∀ line ∈ lines, IsBodyLine line) →
    blocksFrom current (lines ++ rest) = blocksFrom (current ++ lines) rest
  | [], current, rest, _ => by rw [nil_append, append_nil]
  | line :: lines, current, rest, h => by
    obtain ⟨hblank, hmarker⟩ := h line mem_cons_self
    rw [cons_append, blocksFrom, hmarker, if_neg (by decide), if_neg hblank,
      blocksFrom_bodyLines lines _ rest fun l hl => h l (mem_cons_of_mem _ hl),
      append_assoc, singleton_append]

theorem blocksFrom_marker {line : Text} {rest : List Text} (current : List Text)
    (h : isBlockMarker (trim line) = true) :
    blocksFrom current (line :: rest) = pushBlock current (blocksFrom [] (line :: rest)) := by
  rw [blocksFrom, if_pos h, blocksFrom, if_pos h]
  rfl

/-- The lines up to the next marker make one block. -/
theorem blocksFrom_until_marker (current rest : List Text)
    (hrest : ∀ line ∈ rest.head?, isBlockMarker (trim line) = true) :
    blocksFrom current rest = pushBlock current (blocksFrom [] rest) := by
  cases rest with
  | nil => rfl
  | cons line rest => exact blocksFrom_marker current (hrest line rfl)

/-- A stream of paragraphs: each its marker, followed by some lines. -/
def markedLines (linesOf : InventoryParagraph → List Text) (paragraphs : List InventoryParagraph) :
    List Text :=
  paragraphs.flatMap fun paragraph => paragraphMarker paragraph.id :: linesOf paragraph

theorem markedLines_head (linesOf : InventoryParagraph → List Text)
    (paragraphs : List InventoryParagraph) :
    ∀ line ∈ (markedLines linesOf paragraphs).head?, isBlockMarker (trim line) = true := by
  intro line hline
  cases paragraphs with
  | nil => cases hline
  | cons paragraph rest =>
    obtain rfl : paragraphMarker paragraph.id = line := Option.some.inj hline
    exact isBlockMarker_paragraphMarker _

/-- Paragraphs whose lines stay in their blocks are the blocks. -/
theorem blocksFrom_markedLines {linesOf : InventoryParagraph → List Text} :
    ∀ {paragraphs : List InventoryParagraph},
      (∀ paragraph ∈ paragraphs, ∀ line ∈ linesOf paragraph, IsBodyLine line) →
        blocksFrom [] (markedLines linesOf paragraphs) = paragraphs.map fun paragraph =>
          joinLines (paragraphMarker paragraph.id :: linesOf paragraph)
  | [], _ => rfl
  | paragraph :: rest, h => by
    have hstream : markedLines linesOf (paragraph :: rest) =
        paragraphMarker paragraph.id :: (linesOf paragraph ++ markedLines linesOf rest) := rfl
    rw [hstream, blocksFrom, if_pos (isBlockMarker_paragraphMarker _),
      blocksFrom_bodyLines _ _ _ (h paragraph mem_cons_self),
      blocksFrom_until_marker _ _ (markedLines_head linesOf rest),
      blocksFrom_markedLines fun p hp => h p (mem_cons_of_mem _ hp)]
    rfl

/-! ## The lines of a projection -/

variable {paragraph : InventoryParagraph} {paragraphs : List InventoryParagraph}

section Stream

variable {isBreak : Char → Bool}

theorem isCounted_nil : isCounted [] = false := by decide

theorem countedLines_append (left right : List Text) :
    countedLines (left ++ right) = countedLines left ++ countedLines right := filter_append ..

theorem joinLines_cons_cons (line next : Text) (rest : List Text) :
    joinLines (line :: next :: rest) = line ++ '\n' :: joinLines (next :: rest) := by
  unfold joinLines
  rw [intercalate_cons_cons, append_assoc, singleton_append]

/-- The counted lines of joined texts are those of the texts. -/
theorem countedLines_joinLines (hnewline : isBreak '\n' = true) : ∀ {texts : List Text},
    (∀ text ∈ texts, isBreak '\r' = true ∨ '\r' ∉ text) →
      countedLines (linesFrom isBreak [] (joinLines texts)) =
        texts.flatMap fun text => countedLines (linesFrom isBreak [] text)
  | [], _ => rfl
  | [text], _ => by
    rw [flatMap_singleton, show joinLines [text] = text from intercalate_singleton]
  | text :: next :: rest, h => by
    rw [joinLines_cons_cons, linesFrom_append_newline hnewline, countedLines_append,
      countedLines_joinLines hnewline fun t ht => h t (mem_cons_of_mem _ ht),
      flatMap_cons (x := text)]
    congr 1
    exact filter_linesFrom_append_newline isCounted_nil hnewline [] text (h text mem_cons_self)

theorem countedLines_renderBlock (hnewline : isBreak '\n' = true)
    (hmarker : ∀ c ∈ paragraphMarker paragraph.id, isBreak c = false)
    (hreturn : '\r' ∉ paragraphMarker paragraph.id) :
    countedLines (linesFrom isBreak [] (renderBlock paragraph)) =
      paragraphMarker paragraph.id ::
        countedLines (linesFrom isBreak [] paragraph.visibleText) := by
  have hcounted : isCounted (paragraphMarker paragraph.id) = true := by
    unfold isCounted
    rw [trim_paragraphMarker, paragraphMarker_eq]
    simp
  unfold renderBlock
  rw [linesFrom_line_newline hnewline _ hmarker hreturn, nil_append]
  unfold countedLines
  rw [filter_cons_of_pos hcounted]

/-- The counted lines of a body are the lines of its paragraphs, marker by marker. -/
theorem countedLines_body (hnewline : isBreak '\n' = true)
    (hmarker : ∀ paragraph ∈ paragraphs, ∀ c ∈ paragraphMarker paragraph.id, isBreak c = false)
    (hreturn : ∀ paragraph ∈ paragraphs, '\r' ∉ paragraphMarker paragraph.id)
    (htext : ∀ paragraph ∈ paragraphs, isBreak '\r' = true ∨ '\r' ∉ paragraph.visibleText) :
    countedLines (linesFrom isBreak [] (joinLines (paragraphs.map renderBlock))) =
      markedLines (fun paragraph => countedLines (linesFrom isBreak [] paragraph.visibleText))
        paragraphs := by
  rw [countedLines_joinLines hnewline (by
    intro text hmem
    obtain ⟨paragraph, hparagraph, rfl⟩ := mem_map.mp hmem
    refine (htext paragraph hparagraph).imp_right fun h => ?_
    exact not_mem_append (hreturn paragraph hparagraph)
      (not_mem_cons_of_ne_of_not_mem (by decide) h)), flatMap_map]
  exact flatMap_congr fun paragraph hparagraph =>
    countedLines_renderBlock hnewline (hmarker paragraph hparagraph) (hreturn paragraph hparagraph)

end Stream

/-! ## One block read back -/

section Block

variable {marker : Text} {lines : List Text}

theorem takeWhile_joinLines (hmarker : '\n' ∉ marker) :
    (joinLines (marker :: lines)).takeWhile (· ≠ '\n') = marker ∧
      ((joinLines (marker :: lines)).dropWhile (· ≠ '\n')).drop 1 = joinLines lines := by
  cases lines with
  | nil =>
    rw [show joinLines [marker] = marker from intercalate_singleton,
      (takeWhile_ne_eq_self hmarker).1, (takeWhile_ne_eq_self hmarker).2]
    exact ⟨rfl, rfl⟩
  | cons next rest =>
    rw [joinLines_cons_cons, takeWhile_ne_append hmarker, dropWhile_ne_append hmarker,
      drop_one, tail_cons]
    exact ⟨rfl, rfl⟩

theorem blockBody_joinLines (hmarker : '\n' ∉ marker) :
    blockBody (joinLines (marker :: lines)) = joinLines lines := (takeWhile_joinLines hmarker).2

theorem headD_strLines_joinLines (hnewline : '\n' ∉ marker) (hreturn : '\r' ∉ marker)
    (hne : marker ≠ []) : (strLines (joinLines (marker :: lines))).headD [] = marker := by
  have hall : ∀ c ∈ marker, (c == '\n') = false := fun c hc =>
    beq_false_of_ne fun heq => hnewline (heq ▸ hc)
  unfold strLines
  cases lines with
  | nil =>
    rw [show joinLines [marker] = marker from intercalate_singleton,
      linesFrom_line hall hreturn, nil_append, if_neg hne]
    rfl
  | cons next rest =>
    rw [joinLines_cons_cons, linesFrom_line_newline (by decide) _ hall hreturn]
    rfl

end Block

variable {id : Text} {isBreak : Char → Bool}

theorem paragraphMarker_no_break (hopening : ∀ c ∈ "<!--@p id=\"".toList, isBreak c = false)
    (hclosing : ∀ c ∈ "\" base=\"\"/>".toList, isBreak c = false)
    (hid : ∀ c ∈ id, isBreak c = false) : ∀ c ∈ paragraphMarker id, isBreak c = false := by
  intro c hc
  rw [paragraphMarker_eq] at hc
  rcases mem_append.mp hc with hc | hc
  · rcases mem_append.mp hc with hc | hc
    · exact hopening c hc
    · exact hid c hc
  · exact hclosing c hc

theorem paragraphMarker_no_pythonBreak (h : KeepsQuotes id) :
    ∀ c ∈ paragraphMarker id, isPythonBreak c = false :=
  paragraphMarker_no_break (not_isBreak_of_all (by decide)) (not_isBreak_of_all (by decide)) h.breaks

theorem notMem_of_no_pythonBreak (h : ∀ c ∈ text, isPythonBreak c = false) :
    '\n' ∉ text ∧ '\r' ∉ text :=
  ⟨fun hmem => absurd (h _ hmem) (by decide), fun hmem => absurd (h _ hmem) (by decide)⟩

theorem blockIdent_paragraphMarker (h : KeepsQuotes id) (lines : List Text) :
    blockIdent (joinLines (paragraphMarker id :: lines)) = some ("p".toList, id) := by
  obtain ⟨hnewline, hreturn⟩ := notMem_of_no_pythonBreak (paragraphMarker_no_pythonBreak h)
  have hne : paragraphMarker id ≠ [] := by
    rw [paragraphMarker_eq]
    simp
  have hopening : "<!--@p id=\"".toList =
      "<!--@".toList ++ ("p".toList ++ ([' '] ++ ("id".toList ++ "=\"".toList))) := by decide
  have hclosing : "\" base=\"\"/>".toList = '"' :: " base=\"\"/>".toList := by decide
  have hshape : paragraphMarker id = "<!--@".toList ++ ("p".toList ++ ([' '] ++ ("id".toList ++
      ("=\"".toList ++ (id ++ '"' :: " base=\"\"/>".toList))))) := by
    rw [paragraphMarker_eq, hopening, hclosing]
    simp only [append_assoc]
  unfold blockIdent
  rw [headD_strLines_joinLines hnewline hreturn hne, trim_paragraphMarker, hshape,
    stripPrefix_append, Option.bind_eq_bind, Option.bind_some, findSome?_cons]
  have hid : identAttribute ("id".toList ++ ("=\"".toList ++ (id ++ '"' :: " base=\"\"/>".toList)))
      "id".toList = some id := by
    unfold identAttribute
    rw [stripPrefix_append, Option.bind_eq_bind, Option.bind_some, stripPrefix_append,
      Option.bind_some, quotedValue_append h.quote]
    exact if_neg h.nonempty
  have hkind : identOfKind ("p".toList ++ ([' '] ++ ("id".toList ++
      ("=\"".toList ++ (id ++ '"' :: " base=\"\"/>".toList))))) "p".toList =
        some ("p".toList, id) := by
    unfold identOfKind
    rw [stripPrefix_append, Option.bind_eq_bind, Option.bind_some, stripPrefix_append,
      Option.bind_some, findSome?_cons, hid]
    rfl
  rw [hkind]

theorem markerOf_paragraphMarker (h : KeepsQuotes id) (lines : List Text) :
    markerOf (joinLines (paragraphMarker id :: lines)) =
      some ("p".toList, id, paragraphMarker id) := by
  obtain ⟨hnewline, -⟩ := notMem_of_no_pythonBreak (paragraphMarker_no_pythonBreak h)
  have hclosing : "\" base=\"\"/>".toList = '"' :: " base=\"\"/>".toList := by decide
  unfold markerOf
  rw [(takeWhile_joinLines hnewline).1, trim_paragraphMarker]
  have hstrip : stripPrefix "<!--@p id=\"".toList (paragraphMarker id) =
      some (id ++ '"' :: " base=\"\"/>".toList) := by
    rw [paragraphMarker_eq, hclosing, append_assoc]
    exact stripPrefix_append _ _
  simp only [hstrip, quotedValue_append h.quote]

/-! ## Lines that stay in their blocks -/

theorem not_isPythonBreak_of_mem (h : ∀ c ∈ text, isPythonBreak c = true → c = '\n') :
    '\r' ∉ text := fun hmem => absurd (h _ hmem (by decide)) (by decide)

/-- The counted lines of a text that keeps its lines are body lines, and join to the text. -/
theorem KeepsLines.countedLines (h : KeepsLines text) (hnewline : isBreak '\n' = true)
    (hbreaks : ∀ c, isBreak c = true → isPythonBreak c = true) :
    (∀ line ∈ countedLines (linesFrom isBreak [] text), IsBodyLine line) ∧
      joinLines (countedLines (linesFrom isBreak [] text)) = text := by
  have hsplit : Docx2Typed.countedLines (linesFrom isBreak [] text) =
      (text.splitOn '\n').filter isCounted := by
    unfold Docx2Typed.countedLines
    rw [filter_linesFrom isCounted_nil hnewline text [] not_mem_nil
      (not_isPythonBreak_of_mem h.breaks) fun c hc hbreak => h.breaks c hc (hbreaks c hbreak),
      nil_append]
  rw [hsplit]
  rcases h.lines with rfl | hlines
  · have hnil : (List.splitOn '\n' ([] : Text)).filter isCounted = [] := by decide
    rw [hnil]
    exact ⟨fun line hline => absurd hline not_mem_nil, rfl⟩
  · have hall : (text.splitOn '\n').filter isCounted = text.splitOn '\n' := by
      refine filter_eq_self.mpr fun line hline => ?_
      unfold isCounted
      rw [decide_eq_false (hlines line hline).1]
      rfl
    rw [hall]
    exact ⟨hlines, intercalate_splitOn '\n'⟩

theorem mem_joinLines {c : Char} : ∀ {lines : List Text}, c ∈ joinLines lines →
    c = '\n' ∨ ∃ line ∈ lines, c ∈ line
  | [], h => absurd h not_mem_nil
  | [line], h => by
    rw [show joinLines [line] = line from intercalate_singleton] at h
    exact .inr ⟨line, mem_singleton_self _, h⟩
  | line :: next :: rest, h => by
    rw [joinLines_cons_cons, mem_append, mem_cons] at h
    rcases h with h | h | h
    · exact .inr ⟨line, mem_cons_self, h⟩
    · exact .inl h
    · rcases mem_joinLines h with h | ⟨l, hl, hc⟩
      · exact .inl h
      · exact .inr ⟨l, mem_cons_of_mem _ hl, hc⟩

theorem keepsLines_joinLines {lines : List Text} (hbody : ∀ line ∈ lines, IsBodyLine line)
    (hbreaks : ∀ line ∈ lines, ∀ c ∈ line, isPythonBreak c = false) :
    KeepsLines (joinLines lines) := by
  constructor
  · intro c hc hbreak
    rcases mem_joinLines hc with h | ⟨line, hline, hmem⟩
    · exact h
    · rw [hbreaks line hline c hmem] at hbreak
      cases hbreak
  · by_cases hempty : lines = []
    · exact .inl (by rw [hempty]; rfl)
    · right
      have hnewline : ∀ line ∈ lines, '\n' ∉ line := fun line hline hmem =>
        absurd (hbreaks line hline _ hmem) (by decide)
      unfold joinLines
      rw [splitOn_intercalate '\n' hnewline hempty]
      exact hbody

theorem mem_countedLines_pySplitlines {text line : Text}
    (h : line ∈ countedLines (pySplitlines text)) :
    trim line ≠ [] ∧ ∀ c ∈ line, isPythonBreak c = false := by
  obtain ⟨hline, hcounted⟩ := mem_filter.mp h
  refine ⟨fun hblank => ?_, fun c hc => ?_⟩
  · unfold isCounted at hcounted
    rw [hblank] at hcounted
    cases hcounted
  · exact not_isBreak_of_mem_linesFrom (fun c h => absurd h not_mem_nil) hline hc

/-! ## Paragraphs that come back keep their lines -/

def bodyLines (paragraph : InventoryParagraph) : List Text :=
  countedLines (pySplitlines paragraph.visibleText)

variable {block : Text}

theorem identifiedBodies_cons {ident : Text × Text} (blocks : List Text)
    (h : blockIdent block = some ident) :
    identifiedBodies (block :: blocks) = (ident.2, blockBody block) :: identifiedBodies blocks := by
  unfold identifiedBodies
  rw [filterMap_cons_some (by rw [h]; rfl)]

/-- The first block holds the lines before the first one that looks like a marker.  It is the
paragraph itself only where there is none. -/
theorem keepsLines_of_identifiedBodies : ∀ {paragraphs : List InventoryParagraph},
    (∀ paragraph ∈ paragraphs, KeepsQuotes paragraph.id) →
    identifiedBodies (blocksFrom [] (markedLines bodyLines paragraphs)) = idsAndBodies paragraphs →
      ∀ paragraph ∈ paragraphs, KeepsLines paragraph.visibleText
  | [], _, _ => fun _ h => absurd h not_mem_nil
  | paragraph :: rest, hids, h => by
    have hid := hids paragraph mem_cons_self
    obtain ⟨hnewline, -⟩ := notMem_of_no_pythonBreak (paragraphMarker_no_pythonBreak hid)
    let stays : Text → Bool := fun line => !isBlockMarker (trim line)
    have hsplit := takeWhile_append_dropWhile (p := stays) (l := bodyLines paragraph)
    have hbody : ∀ line ∈ (bodyLines paragraph).takeWhile stays, IsBodyLine line ∧
        ∀ c ∈ line, isPythonBreak c = false := by
      intro line hline
      obtain ⟨hcounted, hbreaks⟩ :=
        mem_countedLines_pySplitlines (takeWhile_subset _ hline)
      have hstays : stays line = true := mem_takeWhile_imp hline
      exact ⟨⟨hcounted, by simpa [stays] using hstays⟩, hbreaks⟩
    have hhead : ∀ line ∈ ((bodyLines paragraph).dropWhile stays ++
        markedLines bodyLines rest).head?, isBlockMarker (trim line) = true := by
      intro line hline
      cases hdrop : (bodyLines paragraph).dropWhile stays with
      | nil =>
        rw [hdrop] at hline
        exact markedLines_head bodyLines rest line hline
      | cons first tail =>
        rw [hdrop] at hline
        obtain rfl : first = line := Option.some.inj hline
        have hnot := head?_dropWhile_not stays (bodyLines paragraph)
        rw [hdrop] at hnot
        simpa [stays] using hnot
    have hblocks : blocksFrom [] (markedLines bodyLines (paragraph :: rest)) =
        joinLines (paragraphMarker paragraph.id :: (bodyLines paragraph).takeWhile stays) ::
          blocksFrom [] ((bodyLines paragraph).dropWhile stays ++ markedLines bodyLines rest) := by
      have hstream : markedLines bodyLines (paragraph :: rest) = paragraphMarker paragraph.id ::
          ((bodyLines paragraph).takeWhile stays ++
            ((bodyLines paragraph).dropWhile stays ++ markedLines bodyLines rest)) := by
        rw [← append_assoc, hsplit]
        rfl
      rw [hstream, blocksFrom, if_pos (isBlockMarker_paragraphMarker _),
        blocksFrom_bodyLines _ _ _ fun line hline => (hbody line hline).1,
        blocksFrom_until_marker _ _ hhead]
      rfl
    have hcons : idsAndBodies (paragraph :: rest) =
        (paragraph.id, paragraph.visibleText) :: idsAndBodies rest := rfl
    rw [hblocks, identifiedBodies_cons _ (blockIdent_paragraphMarker hid _),
      blockBody_joinLines hnewline, hcons, List.cons.injEq, Prod.mk.injEq] at h
    obtain ⟨⟨-, htext⟩, hrest⟩ := h
    have hkeeps : KeepsLines paragraph.visibleText := by
      rw [← htext]
      exact keepsLines_joinLines (fun line hline => (hbody line hline).1)
        fun line hline => (hbody line hline).2
    have hnone : (bodyLines paragraph).dropWhile stays = [] := by
      refine dropWhile_eq_nil_iff.mpr fun line hline => ?_
      have hline := (hkeeps.countedLines (by decide) fun _ h => h).1 line
        hline
      simpa [stays] using hline.2
    rw [hnone, nil_append] at hrest
    exact forall_mem_cons.mpr ⟨hkeeps, keepsLines_of_identifiedBodies
      (fun p hp => hids p (mem_cons_of_mem _ hp)) hrest⟩

/-! ## Ids that come back keep their quotes -/

theorem mem_of_stripPrefix {start text rest : Text} (h : stripPrefix start text = some rest) :
    ∀ c ∈ rest, c ∈ text := by
  unfold stripPrefix at h
  split_ifs at h
  obtain rfl := Option.some.inj h
  exact fun c hc => mem_of_mem_drop hc

theorem mem_of_mem_trim {c : Char} (h : c ∈ trim text) : c ∈ text := by
  unfold trim trimEnd at h
  rw [mem_reverse] at h
  have h' := dropWhile_subset _ h
  rw [mem_reverse] at h'
  exact dropWhile_subset _ h'

theorem identAttribute_eq_some {rest name value : Text} (h : identAttribute rest name = some value) :
    value ≠ [] ∧ '"' ∉ value ∧ ∀ c ∈ value, c ∈ rest := by
  obtain ⟨named, hnamed, h⟩ := Option.bind_eq_some_iff.mp h
  obtain ⟨quoted, hquoted, h⟩ := Option.bind_eq_some_iff.mp h
  dsimp only at h
  split_ifs at h with hempty
  obtain rfl := Option.some.inj h
  refine ⟨hempty, fun hmem => ?_, fun c hc => ?_⟩
  · simpa using mem_takeWhile_imp hmem
  · exact mem_of_stripPrefix hnamed c (mem_of_stripPrefix hquoted c (takeWhile_subset _ hc))

theorem blockIdent_eq_some {ident : Text × Text} (h : blockIdent block = some ident) :
    ident.2 ≠ [] ∧ '"' ∉ ident.2 ∧ ∀ c ∈ ident.2, c ∈ block ∧ c ≠ '\n' := by
  obtain ⟨rest, hrest, h⟩ := Option.bind_eq_some_iff.mp h
  obtain ⟨kind, hkind, h⟩ := exists_of_findSome?_eq_some h
  obtain ⟨named, hnamed, h⟩ := Option.bind_eq_some_iff.mp h
  obtain ⟨attributes, hattributes, h⟩ := Option.bind_eq_some_iff.mp h
  obtain ⟨value, hvalue, h⟩ := Option.bind_eq_some_iff.mp h
  obtain rfl := Option.some.inj h
  obtain ⟨name, hname, hvalue⟩ := exists_of_findSome?_eq_some hvalue
  obtain ⟨hempty, hquote, hmem⟩ := identAttribute_eq_some hvalue
  refine ⟨hempty, hquote, fun c hc => ?_⟩
  have hline := mem_of_mem_trim (mem_of_stripPrefix hrest c (mem_of_stripPrefix hnamed c
    (mem_of_stripPrefix hattributes c (hmem c hc))))
  have hhead : (strLines block).headD [] ∈ strLines block := by
    cases hlines : strLines block with
    | nil =>
      rw [hlines] at hline
      exact absurd hline not_mem_nil
    | cons first rest => exact mem_cons_self
  constructor
  · exact (mem_of_mem_linesFrom hhead hline).resolve_left not_mem_nil
  · have hbreak := not_isBreak_of_mem_linesFrom (fun c h => absurd h not_mem_nil) hhead hline
    simpa using hbreak

theorem mem_blocksFrom {c : Char} : ∀ {lines current : List Text},
    block ∈ blocksFrom current lines → c ∈ block → c = '\n' ∨ ∃ line ∈ current ++ lines, c ∈ line
  | [], current, hblock, hc => by
    unfold blocksFrom pushBlock at hblock
    split_ifs at hblock
    · exact absurd hblock not_mem_nil
    · rw [append_nil]
      exact mem_joinLines (mem_singleton.mp hblock ▸ hc)
  | line :: rest, current, hblock, hc => by
    unfold blocksFrom at hblock
    split_ifs at hblock
    · unfold pushBlock at hblock
      have hrest : block ∈ blocksFrom [line] rest →
          c = '\n' ∨ ∃ l ∈ current ++ line :: rest, c ∈ l := fun h =>
        (mem_blocksFrom h hc).imp_right fun ⟨l, hl, hmem⟩ => ⟨l, mem_append_right _ hl, hmem⟩
      split_ifs at hblock
      · exact hrest hblock
      · rcases mem_cons.mp hblock with rfl | hblock
        · exact (mem_joinLines hc).imp_right fun ⟨l, hl, hmem⟩ =>
            ⟨l, mem_append_left _ hl, hmem⟩
        · exact hrest hblock
    · refine (mem_blocksFrom hblock hc).imp_right fun ⟨l, hl, hmem⟩ => ⟨l, ?_, hmem⟩
      rcases mem_append.mp hl with hl | hl
      · exact mem_append_left _ hl
      · exact mem_append_right _ (mem_cons_of_mem _ hl)
    · refine (mem_blocksFrom hblock hc).imp_right fun ⟨l, hl, hmem⟩ => ⟨l, ?_, hmem⟩
      rw [append_assoc, singleton_append] at hl
      exact hl

variable {record : Text × Text}

/-- An id read from blocks of whole lines keeps its quotes. -/
theorem keepsQuotes_of_identifiedBodies {lines : List Text}
    (hlines : ∀ line ∈ lines, ∀ c ∈ line, isPythonBreak c = false)
    (h : record ∈ identifiedBodies (blocksFrom [] lines)) : KeepsQuotes record.1 := by
  obtain ⟨block, hblock, h⟩ := mem_filterMap.mp h
  obtain ⟨ident, hident, rfl⟩ := Option.map_eq_some_iff.mp h
  obtain ⟨hempty, hquote, hmem⟩ := blockIdent_eq_some hident
  refine ⟨hempty, hquote, fun c hc => ?_⟩
  obtain ⟨hc, hnewline⟩ := hmem c hc
  rcases mem_blocksFrom hblock hc with h | ⟨line, hline, hc⟩
  · exact absurd h hnewline
  · exact hlines line hline c hc

/-! ## What has changed -/

variable {records : Records}

theorem get_append_of_ne (hne : record.1 ≠ id) :
    Records.get (records ++ [record]) id = records.get id := by
  unfold Records.get
  rw [reverse_append, reverse_singleton, singleton_append, find?_cons_of_neg]
  simpa using hne

theorem get_orInsert (h : (records.get id).isSome) :
    (records.orInsert record).get id = records.get id := by
  unfold Records.orInsert
  split_ifs with hrecord
  · rfl
  · refine get_append_of_ne ?_
    rintro rfl
    exact hrecord h

theorem get_foldl_orInsert : ∀ {others records : Records}, (records.get id).isSome →
    (others.foldl Records.orInsert records).get id = records.get id
  | [], _, _ => rfl
  | record :: others, records, h => by
    have hstep : (records.orInsert record).get id = records.get id := get_orInsert h
    rw [foldl_cons, get_foldl_orInsert (by rw [hstep]; exact h), hstep]

/-- What is recorded for an id is recorded for some record of it. -/
theorem get_eq_some {id text : Text} (h : records.get id = some text) : (id, text) ∈ records := by
  obtain ⟨record, hfind, rfl⟩ := Option.map_eq_some_iff.mp h
  have hid : record.1 = id := by simpa using find?_some hfind
  have hmem := mem_of_find?_eq_some hfind
  rw [mem_reverse] at hmem
  exact hid ▸ hmem

theorem isSome_get_of_mem {id text : Text} (h : (id, text) ∈ records) :
    (records.get id).isSome := by
  unfold Records.get
  rw [Option.isSome_map, find?_isSome]
  exact ⟨(id, text), mem_reverse.mpr h, by simp⟩

theorem sorted_eq_nil_iff {ids : List Text} :
    (ids.insertionSort (· ≤ ·)).destutter (· ≠ ·) = [] ↔ ids = [] := by
  rw [destutter_eq_nil, ← length_eq_zero_iff, length_insertionSort,
    length_eq_zero_iff]

/-! ## The header -/

theorem hexDigest_no_break {digest : Text}
    (h : ∀ c ∈ digest, ("0123456789abcdef".toList).contains c = true) :
    ∀ c ∈ digest, isPythonBreak c = false := by
  have hdigits : ∀ c ∈ "0123456789abcdef".toList, isPythonBreak c = false :=
    not_isBreak_of_all (by decide)
  exact fun c hc => hdigits c (contains_iff_mem.mp (h c hc))

theorem projectionHeader_eq (typedSha256 projectionSha256 : Text) :
    projectionHeader typedSha256 projectionSha256 =
      "<!--@edit schema=\"1\" sync-contract=\"1\" base-typed-sha256=\"".toList ++ typedSha256 ++
        "\" base-projection-sha256=\"".toList ++ projectionSha256 ++ "\" segmentation=\"".toList ++
        segmentationContract ++ "\"-->".toList := rfl

theorem projectionHeader_no_break {typedSha256 projectionSha256 : Text}
    (htyped : ∀ c ∈ typedSha256, isPythonBreak c = false)
    (hprojection : ∀ c ∈ projectionSha256, isPythonBreak c = false) :
    ∀ c ∈ projectionHeader typedSha256 projectionSha256, isPythonBreak c = false := by
  have h1 : ∀ c ∈ "<!--@edit schema=\"1\" sync-contract=\"1\" base-typed-sha256=\"".toList,
    isPythonBreak c = false := not_isBreak_of_all (by decide)
  have h2 : ∀ c ∈ "\" base-projection-sha256=\"".toList, isPythonBreak c = false :=
    not_isBreak_of_all (by decide)
  have h3 : ∀ c ∈ "\" segmentation=\"".toList, isPythonBreak c = false :=
    not_isBreak_of_all (by decide)
  have h4 : ∀ c ∈ segmentationContract, isPythonBreak c = false := not_isBreak_of_all (by decide)
  have h5 : ∀ c ∈ "\"-->".toList, isPythonBreak c = false := not_isBreak_of_all (by decide)
  rw [projectionHeader_eq]
  intro c hc
  simp only [mem_append] at hc
  rcases hc with (((((hc | hc) | hc) | hc) | hc) | hc) | hc
  · exact h1 c hc
  · exact htyped c hc
  · exact h2 c hc
  · exact hprojection c hc
  · exact h3 c hc
  · exact h4 c hc
  · exact h5 c hc

theorem trim_projectionHeader (typedSha256 projectionSha256 : Text) :
    trimStart (projectionHeader typedSha256 projectionSha256) =
        projectionHeader typedSha256 projectionSha256 ∧
      trim (projectionHeader typedSha256 projectionSha256) ≠ [] ∧
        editMarker <+: projectionHeader typedSha256 projectionSha256 := by
  have hopening : "<!--@edit schema=\"1\" sync-contract=\"1\" base-typed-sha256=\"".toList =
      editMarker ++ " schema=\"1\" sync-contract=\"1\" base-typed-sha256=\"".toList := by decide
  have hfirst : editMarker = '<' :: "!--@edit".toList := by decide
  have hclosing : "\"-->".toList = "\"--".toList ++ ['>'] := by decide
  obtain ⟨middle, hmiddle⟩ : ∃ middle, projectionHeader typedSha256 projectionSha256 =
      editMarker ++ (middle ++ ['>']) := by
    refine ⟨" schema=\"1\" sync-contract=\"1\" base-typed-sha256=\"".toList ++ typedSha256 ++
      "\" base-projection-sha256=\"".toList ++ projectionSha256 ++ "\" segmentation=\"".toList ++
      segmentationContract ++ "\"--".toList, ?_⟩
    rw [projectionHeader_eq, hopening, hclosing]
    simp only [append_assoc]
  have hshape : editMarker ++ (middle ++ ['>']) =
      '<' :: (("!--@edit".toList ++ middle) ++ ['>']) := by
    rw [hfirst, cons_append, append_assoc]
  rw [hmiddle]
  refine ⟨?_, ?_, List.prefix_append _ _⟩
  · rw [hshape]
    unfold trimStart
    rw [dropWhile_cons_of_neg (by decide)]
  · rw [hshape, trim_eq_self (by decide) (by decide)]
    simp

/-- The lines after the header, for a splitter that breaks at no more than Python does. -/
theorem dropBlankLines_projection (hnewline : isBreak '\n' = true)
    (hbreaks : ∀ c, isBreak c = true → isPythonBreak c = true) {typedSha256 bodyHash : Text}
    (htyped : ∀ c ∈ typedSha256, isPythonBreak c = false)
    (hhash : ∀ c ∈ bodyHash, isPythonBreak c = false) (body : Text) :
    dropBlankLines (linesFrom isBreak [] (projectionHeader typedSha256 bodyHash ++ '\n' :: body)) =
      projectionHeader typedSha256 bodyHash :: linesFrom isBreak [] body := by
  have hheader := projectionHeader_no_break htyped hhash
  rw [linesFrom_line_newline hnewline body (fun c hc => ?_) (notMem_of_no_pythonBreak hheader).2,
    nil_append]
  · unfold dropBlankLines
    rw [dropWhile_cons_of_neg]
    simpa using (trim_projectionHeader typedSha256 bodyHash).2.1
  · refine Bool.eq_false_iff.mpr fun hbreak => ?_
    have hpython := hbreaks c hbreak
    rw [hheader c hc] at hpython
    cases hpython

section Rendered

variable {crates : Crates} (hhex : crates.HexDigests) (typedMd : Bytes)
  (paragraphs : List InventoryParagraph)
include hhex

/-- The projection is always written: a clean header, then the blocks. -/
theorem renderProjection_eq : ∃ typedSha256 bodyHash,
    renderProjection crates typedMd paragraphs =
      .ok (projectionHeader typedSha256 bodyHash ++ '\n' :: joinLines (paragraphs.map renderBlock),
        typedSha256) ∧
      (∀ c ∈ typedSha256, isPythonBreak c = false) ∧ ∀ c ∈ bodyHash, isPythonBreak c = false := by
  have htyped := hexDigest_no_break (hhex typedMd)
  have hhash : ∃ bodyHash, editBodySha256 crates
      (projectionHeader (crates.sha256Hex typedMd).toList "PLACEHOLDER".toList ++
        '\n' :: joinLines (paragraphs.map renderBlock)) = .ok bodyHash ∧
          ∀ c ∈ bodyHash, isPythonBreak c = false := by
    unfold editBodySha256 pySplitlines
    rw [dropBlankLines_projection (by decide) (fun _ h => h) htyped (not_isBreak_of_all (by decide))]
    dsimp only
    rw [if_pos (trim_projectionHeader _ _).2.2]
    exact ⟨_, rfl, hexDigest_no_break (hhex _)⟩
  obtain ⟨bodyHash, hbody, hclean⟩ := hhash
  refine ⟨_, bodyHash, ?_, htyped, hclean⟩
  unfold renderProjection
  dsimp only
  rw [hbody]
  rfl

end Rendered

/-! ## The blocks of a projection -/

section Fitting

variable {paragraphs : List InventoryParagraph}

section

variable (hids : ∀ paragraph ∈ paragraphs, KeepsQuotes paragraph.id)

include hids

/-- The stream of counted lines, for both splitters, of paragraphs with quoted ids. -/
theorem blocksFrom_body (hnewline : isBreak '\n' = true)
    (hbreaks : ∀ c, isBreak c = true → isPythonBreak c = true)
    (htext : ∀ paragraph ∈ paragraphs, isBreak '\r' = true ∨ '\r' ∉ paragraph.visibleText) :
    blocksFrom [] (linesFrom isBreak [] (joinLines (paragraphs.map renderBlock))) =
      blocksFrom [] (markedLines
        (fun paragraph => countedLines (linesFrom isBreak [] paragraph.visibleText)) paragraphs) := by
  rw [blocksFrom_countedLines, countedLines_body hnewline _ _ htext]
  · intro paragraph hparagraph c hc
    refine Bool.eq_false_iff.mpr fun hbreak => ?_
    have hpython := hbreaks c hbreak
    rw [paragraphMarker_no_pythonBreak (hids paragraph hparagraph) c hc] at hpython
    cases hpython
  · intro paragraph hparagraph
    exact (notMem_of_no_pythonBreak
      (paragraphMarker_no_pythonBreak (hids paragraph hparagraph))).2

/-- Paragraphs that keep their lines are the blocks, whichever splitter reads them. -/
theorem blocksFrom_body_of_keepsLines
    (htexts : ∀ paragraph ∈ paragraphs, KeepsLines paragraph.visibleText)
    (hnewline : isBreak '\n' = true) (hbreaks : ∀ c, isBreak c = true → isPythonBreak c = true) :
    blocksFrom [] (linesFrom isBreak [] (joinLines (paragraphs.map renderBlock))) =
      paragraphs.map fun paragraph => joinLines (paragraphMarker paragraph.id ::
        countedLines (linesFrom isBreak [] paragraph.visibleText)) := by
  rw [blocksFrom_body hids hnewline hbreaks fun paragraph hparagraph =>
    .inr (not_isPythonBreak_of_mem (htexts paragraph hparagraph).breaks)]
  exact blocksFrom_markedLines fun paragraph hparagraph =>
    ((htexts paragraph hparagraph).countedLines hnewline hbreaks).1

end

variable (hids : ∀ paragraph ∈ paragraphs, KeepsQuotes paragraph.id)
  (htexts : ∀ paragraph ∈ paragraphs, KeepsLines paragraph.visibleText)
  {isBreak : Char → Bool} (hnewline : isBreak '\n' = true)
  (hbreaks : ∀ c, isBreak c = true → isPythonBreak c = true)
include hids htexts hnewline hbreaks

/-- A reading of blocks, on the blocks of a projection. -/
theorem filterMap_blocks {β : Type} (read : Text → Option β) (expected : InventoryParagraph → β)
    (hread : ∀ paragraph ∈ paragraphs, ∀ block, block = joinLines (paragraphMarker paragraph.id ::
        countedLines (linesFrom isBreak [] paragraph.visibleText)) →
      blockBody block = paragraph.visibleText → read block = some (expected paragraph)) :
    (blocksFrom [] (linesFrom isBreak [] (joinLines (paragraphs.map renderBlock)))).filterMap read =
      paragraphs.map expected := by
  rw [blocksFrom_body_of_keepsLines hids htexts hnewline hbreaks, filterMap_map,
    ← filterMap_eq_map]
  refine filterMap_congr fun paragraph hparagraph => ?_
  refine hread paragraph hparagraph _ rfl ?_
  rw [blockBody_joinLines (notMem_of_no_pythonBreak
      (paragraphMarker_no_pythonBreak (hids paragraph hparagraph))).1,
    ((htexts paragraph hparagraph).countedLines hnewline hbreaks).2]

end Fitting

/-! ## Coming back -/

theorem isPythonBreak_of_newline (c : Char) (h : (c == '\n') = true) : isPythonBreak c = true := by
  rw [beq_iff_eq.mp h]
  rfl

section Text

variable {typedSha256 bodyHash : Text} {paragraphs : List InventoryParagraph}
  (htyped : ∀ c ∈ typedSha256, isPythonBreak c = false)
  (hhash : ∀ c ∈ bodyHash, isPythonBreak c = false)
include htyped hhash

theorem splitEditBlocks_projection (body : Text) :
    splitEditBlocks (projectionHeader typedSha256 bodyHash ++ '\n' :: body) =
      .ok (projectionHeader typedSha256 bodyHash, blocksFrom [] (pySplitlines body)) := by
  unfold splitEditBlocks pySplitlines
  rw [dropBlankLines_projection (by decide) (fun _ h => h) htyped hhash]
  dsimp only
  rw [if_pos (trim_projectionHeader _ _).2.2]
  rfl

theorem paragraphBlocks_projection (body : Text) :
    paragraphBlocks (projectionHeader typedSha256 bodyHash ++ '\n' :: body) =
      .ok (blocksFrom [] (strLines body)) := by
  unfold paragraphBlocks strLines
  rw [dropBlankLines_projection (by decide) isPythonBreak_of_newline htyped hhash]
  dsimp only
  rw [(trim_projectionHeader _ _).1, if_pos (trim_projectionHeader _ _).2.2]
  rfl

end Text

section Records

variable {paragraphs : List InventoryParagraph}

/-- What the baseline records of the paragraphs. -/
def baselineRecords (paragraphs : List InventoryParagraph) : Records :=
  paragraphs.map fun paragraph => (paragraph.id, draftBodyReading paragraph.visibleText)

theorem parseBaselineParagraphs_eq {blocks : List Text} (h : paragraphBlocks text = .ok blocks) :
    parseBaselineParagraphs text = blocks.filterMap fun block =>
      match markerOf block with
      | some (kind, id, _) =>
        if kind = "p".toList ∨ kind = "new".toList then some (id, draftBodyReading (blockBody block))
        else none
      | none => none := by
  unfold parseBaselineParagraphs
  rewrite [h]
  rfl

theorem oldParagraphs_get (hbaseline : parseBaselineParagraphs text = baselineRecords paragraphs)
    (typed : Option Text) (inventory : List InventoryParagraph) :
    ∃ old, oldParagraphs ⟨some text, typed, .ok inventory⟩ = .ok old ∧
      ∀ paragraph ∈ paragraphs,
        old.get paragraph.id = (baselineRecords paragraphs).get paragraph.id := by
  refine ⟨_, rfl, fun paragraph hparagraph => ?_⟩
  have hsome : ((baselineRecords paragraphs).get paragraph.id).isSome :=
    isSome_get_of_mem (mem_map.mpr ⟨paragraph, hparagraph, rfl⟩)
  have htyped : ∀ records : Records, (records.foldl Records.orInsert
      (baselineRecords paragraphs)).get paragraph.id =
        (baselineRecords paragraphs).get paragraph.id := fun records => get_foldl_orInsert hsome
  simp only [Option.map_some, Option.getD_some, hbaseline]
  rw [get_foldl_orInsert, htyped]
  rw [htyped]
  exact hsome

theorem changedId_paragraph {old : Records}
    (hmarker : markerOf block = some ("p".toList, paragraph.id, paragraphMarker paragraph.id))
    (hbody : blockBody block = paragraph.visibleText) :
    changedId old block = none ↔
      (old.get paragraph.id).getD [] = draftBodyReading paragraph.visibleText := by
  unfold changedId
  rw [hmarker, hbody]
  simp

end Records

section Fits

variable {paragraphs : List InventoryParagraph}
  (hids : ∀ paragraph ∈ paragraphs, KeepsQuotes paragraph.id)
  (htexts : ∀ paragraph ∈ paragraphs, KeepsLines paragraph.visibleText)
include hids htexts

theorem markedBodies_body :
    markedBodies (blocksFrom [] (strLines (joinLines (paragraphs.map renderBlock)))) =
      idsAndBodies paragraphs := by
  refine filterMap_blocks hids htexts (by decide) isPythonBreak_of_newline _ _ ?_
  rintro paragraph hparagraph block rfl hbody
  rw [markerOf_paragraphMarker (hids paragraph hparagraph), hbody]
  rfl

theorem identifiedBodies_body :
    identifiedBodies (blocksFrom [] (pySplitlines (joinLines (paragraphs.map renderBlock)))) =
      idsAndBodies paragraphs := by
  refine filterMap_blocks hids htexts (by decide) (fun _ h => h) _ _ ?_
  rintro paragraph hparagraph block rfl hbody
  rw [blockIdent_paragraphMarker (hids paragraph hparagraph), hbody]
  rfl

section

variable
  (h : paragraphBlocks text =
    .ok (blocksFrom [] (strLines (joinLines (paragraphs.map renderBlock)))))

include h

theorem parseBaselineParagraphs_body :
    parseBaselineParagraphs text = baselineRecords paragraphs := by
  rw [parseBaselineParagraphs_eq h]
  refine filterMap_blocks hids htexts (by decide) isPythonBreak_of_newline _ _ ?_
  rintro paragraph hparagraph block rfl hbody
  rw [markerOf_paragraphMarker (hids paragraph hparagraph), hbody]
  rfl

/-- No block is reported exactly when every paragraph says what is recorded for its id. -/
theorem computeChanged_body_iff (typed : Option Text) (inventory : List InventoryParagraph) :
    computeChanged ⟨some text, typed, .ok inventory⟩
        (blocksFrom [] (strLines (joinLines (paragraphs.map renderBlock)))) = .ok [] ↔
      ∀ paragraph ∈ paragraphs, ((baselineRecords paragraphs).get paragraph.id).getD [] =
        draftBodyReading paragraph.visibleText := by
  obtain ⟨old, hold, hget⟩ :=
    oldParagraphs_get (parseBaselineParagraphs_body hids htexts h) typed inventory
  have hblocks : blocksFrom [] (strLines (joinLines (paragraphs.map renderBlock))) = _ :=
    blocksFrom_body_of_keepsLines hids htexts (by decide)
      isPythonBreak_of_newline
  unfold computeChanged
  rw [bind_ok hold]
  show Except.ok _ = _ ↔ _
  rw [Except.ok.injEq, sorted_eq_nil_iff, hblocks, filterMap_eq_nil_iff, forall_mem_map]
  refine forall₂_congr fun paragraph hparagraph => ?_
  rw [changedId_paragraph (markerOf_paragraphMarker (hids paragraph hparagraph) _) ?_,
    hget paragraph hparagraph]
  rw [blockBody_joinLines (notMem_of_no_pythonBreak
      (paragraphMarker_no_pythonBreak (hids paragraph hparagraph))).1,
    ((htexts paragraph hparagraph).countedLines (by decide) isPythonBreak_of_newline).2]

end

end Fits

/-- What is recorded last for an id is what one of its paragraphs says. -/
theorem baselineRecords_get (h : paragraph ∈ paragraphs) : ∃ q ∈ paragraphs, q.id = paragraph.id ∧
      (baselineRecords paragraphs).get paragraph.id = some (draftBodyReading q.visibleText) := by
  have hsome : ((baselineRecords paragraphs).get paragraph.id).isSome :=
    isSome_get_of_mem (mem_map.mpr ⟨paragraph, h, rfl⟩)
  obtain ⟨reading, hreading⟩ := Option.isSome_iff_exists.mp hsome
  obtain ⟨q, hq, hrecord⟩ := mem_map.mp (get_eq_some hreading)
  obtain ⟨hid, rfl⟩ := Prod.mk.inj hrecord
  exact ⟨q, hq, hid, hreading⟩

/-- The draft format gives the paragraphs back, and an unedited draft shows no change, exactly when
the paragraphs fit it. -/
theorem projection_comesBack_iff {crates : Crates} (hhex : crates.HexDigests) (typedMd : Bytes)
    (paragraphs : List InventoryParagraph) :
    (∃ text, ComesBack crates typedMd paragraphs text) ↔ FitsDraft paragraphs := by
  obtain ⟨typedSha256, bodyHash, hrender, htyped, hhash⟩ :=
    renderProjection_eq hhex typedMd paragraphs
  have hview := splitEditBlocks_projection htyped hhash (joinLines (paragraphs.map renderBlock))
  have hdraft := paragraphBlocks_projection htyped hhash (joinLines (paragraphs.map renderBlock))
  constructor
  · rintro ⟨text, ⟨written, hwritten⟩, ⟨header, blocks, hblocks, hread⟩, ⟨draftBlocks, hparagraphs,
      -, hchanged⟩, -⟩
    rw [hrender] at hwritten
    obtain ⟨rfl, -⟩ := Prod.mk.inj (Except.ok.inj hwritten)
    rw [hview] at hblocks
    obtain ⟨-, rfl⟩ := Prod.mk.inj (Except.ok.inj hblocks)
    rw [hdraft] at hparagraphs
    obtain rfl := Except.ok.inj hparagraphs
    have hids : ∀ paragraph ∈ paragraphs, KeepsQuotes paragraph.id := by
      intro paragraph hparagraph
      have hmem : (paragraph.id, paragraph.visibleText) ∈ idsAndBodies paragraphs :=
        List.mem_map.mpr ⟨paragraph, hparagraph, rfl⟩
      rw [← hread] at hmem
      exact keepsQuotes_of_identifiedBodies (fun line hline c hc =>
        not_isBreak_of_mem_linesFrom (fun c h => absurd h List.not_mem_nil) hline hc) hmem
    have hstream := blocksFrom_body hids (by decide) (fun _ h => h)
      fun _ _ => .inl (by decide)
    have htexts : ∀ paragraph ∈ paragraphs, KeepsLines paragraph.visibleText := by
      refine keepsLines_of_identifiedBodies hids ?_
      rw [← hread]
      exact congrArg identifiedBodies hstream.symm
    have hsaid := (computeChanged_body_iff hids htexts hdraft none []).mp (hchanged none [])
    refine ⟨hids, htexts, fun p hp q hq hid => ?_⟩
    rw [← hsaid p hp, ← hsaid q hq, hid]
  · rintro ⟨hids, htexts, hsame⟩
    refine ⟨_, ⟨_, hrender⟩, ⟨_, _, hview, identifiedBodies_body hids htexts⟩,
      ⟨_, hdraft, markedBodies_body hids htexts, fun typed inventory => ?_⟩,
      parseBaselineParagraphs_body hids htexts hdraft⟩
    refine (computeChanged_body_iff hids htexts hdraft typed inventory).mpr
      fun paragraph hparagraph => ?_
    obtain ⟨q, hq, hid, hget⟩ := baselineRecords_get hparagraph
    rw [hget]
    exact hsame q hq paragraph hparagraph hid

/-! ## Two projections -/

/-- SHA-256 of nothing, and of two draft bodies. -/
def draftDigest (content : Bytes) : String :=
  if content = [] then "e3b0c44298fc1c149afbf4c8996fb92427ae41e4649b934ca495991b7852b855"
  else if content = bytes "<!--@p id=\"P0\" base=\"\"/>\nab\n<!--@p id=\"P1\" base=\"\"/>" then
    "4f1aedf4541033cfb73ade24a5fd9a48b90ef3b436495ef298b6d5ac7a2677fb"
  else if content = bytes "<!--@p id=\"P0\" base=\"\"/>\na\nb" then
    "3c02af0cdb61b86507d8c513a73f49b5fc2b786ec63dfe9d0dcaf1b3aa79ae12"
  else ""

def draftCrates : Crates := { twoRunsCrates with sha256Hex := draftDigest }

theorem draftCrates_hexDigests : draftCrates.HexDigests := by
  intro content
  show ∀ c ∈ (draftDigest content).toList, _
  apply all_eq_true.mp
  unfold draftDigest
  split_ifs <;> (rw [String.toList_ofList]; decide)

def plainParagraphs : List InventoryParagraph :=
  [⟨"P0".toList, "ab".toList⟩, ⟨"P1".toList, []⟩]

theorem plainParagraphs_comeBack : draftCrates.HexDigests ∧
    ((∃ text, ComesBack draftCrates [] plainParagraphs text) ↔ FitsDraft plainParagraphs) :=
  ⟨draftCrates_hexDigests, projection_comesBack_iff draftCrates_hexDigests [] plainParagraphs⟩

/-- A paragraph whose text holds a line separator. -/
def separatedParagraph : List InventoryParagraph :=
  [⟨"P0".toList, ['a', Char.ofNat 0x2028, 'b']⟩]

theorem separatedParagraph_lost : ¬ ∀ paragraphs,
    ∃ text, ComesBack draftCrates [] paragraphs text := by
  intro h
  obtain ⟨text, ⟨typedSha256, hwritten⟩, ⟨header, blocks, hview, hread⟩, -, -⟩ :=
    h separatedParagraph
  obtain ⟨_, bodyHash, hrender, htyped, hhash⟩ :=
    renderProjection_eq draftCrates_hexDigests [] separatedParagraph
  rw [hrender] at hwritten
  obtain ⟨rfl, rfl⟩ := Prod.mk.inj (Except.ok.inj hwritten)
  rw [splitEditBlocks_projection htyped hhash] at hview
  obtain ⟨-, rfl⟩ := Prod.mk.inj (Except.ok.inj hview)
  exact absurd hread (by decide +kernel)

end Docx2Typed
