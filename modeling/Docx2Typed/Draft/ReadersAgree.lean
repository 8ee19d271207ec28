import Docx2Typed.Draft.Lossless
import Mathlib.Data.List.DropRight

/-!
# The readers of a draft

`split_edit_blocks` and the body hash take the lines of a draft as Python splits them,
`paragraph_blocks` takes those of `str::lines`.  `seenAlike_iff`: they see the same blocks iff the
header stands at the start of its Python line, nothing that counts follows it in its own line, and
no line that counts behind it holds a Python line break.
-/

namespace Docx2Typed

open Library List

/-! ## What the readers see -/

/-- Both readers return the same blocks, or both refuse. -/
def SameBlocks (text : Text) : Prop :=
  match splitEditBlocks text, paragraphBlocks text with
  | .ok (_, blocks), .ok blocks' => blocks = blocks'
  | .error _, .error _ => True
  | _, _ => False

instance (text : Text) : Decidable (SameBlocks text) := by
  unfold SameBlocks
  split <;> infer_instance

/-- Both texts are read alike, and if the hash covers the same in both, each reader returns the
same blocks for both. -/
def SeenAlike (crates : Crates) (text text' : Text) : Prop :=
  SameBlocks text ∧ SameBlocks text' ∧ ∀ hash, editBodySha256 crates text = .ok hash →
    editBodySha256 crates text' = .ok hash →
      (splitEditBlocks text).map (·.2) = (splitEditBlocks text').map (·.2) ∧
        paragraphBlocks text = paragraphBlocks text'

/-! ## When they see the same -/

/-- White space, or a break for Python alone: no line counts for one of these. -/
def isBlank (c : Char) : Bool := isUnicodeWhitespace c || isPythonBreak c

/-- The first text of a draft is the header, and stands at the start of a Python line. -/
def PythonHeader (text : Text) : Prop :=
  editMarker <+: text.dropWhile isBlank ∧ ∀ c ∈ (text.takeWhile isBlank).getLast?,
    isPythonBreak c = true

/-- The header's own line holds nothing else that counts for Python: its indent ends in a break,
and so does the header, with blanks behind it. -/
def HeaderAlone (line : Text) : Prop :=
  (∀ c ∈ (line.takeWhile isUnicodeWhitespace).getLast?, isPythonBreak c = true) ∧
    ∀ c ∈ (trimStart line).dropWhile (!isPythonBreak ·), isBlank c = true

def ReadAlike (text : Text) : Prop :=
  match countedLines (strLines text) with
  | [] => True
  | first :: body =>
    if editMarker <+: trimStart first then
      HeaderAlone first ∧ ∀ line ∈ body, ∀ c ∈ line, isPythonBreak c = false
    else ¬ PythonHeader text

instance (text : Text) : Decidable (PythonHeader text) :=
  haveI : Decidable (∀ c ∈ (text.takeWhile isBlank).getLast?, isPythonBreak c = true) :=
    Option.decidableForallMem _
  inferInstanceAs (Decidable (_ ∧ _))

instance (line : Text) : Decidable (HeaderAlone line) :=
  haveI : Decidable (∀ c ∈ (line.takeWhile isUnicodeWhitespace).getLast?, isPythonBreak c = true) :=
    Option.decidableForallMem _
  haveI : Decidable (∀ c ∈ (trimStart line).dropWhile (!isPythonBreak ·), isBlank c = true) :=
    List.decidableBAll _ _
  inferInstanceAs (Decidable (_ ∧ _))

instance (text : Text) : Decidable (ReadAlike text) := by
  unfold ReadAlike
  split
  · exact inferInstanceAs (Decidable True)
  · haveI : ∀ line : Text, Decidable (∀ c ∈ line, isPythonBreak c = false) :=
      fun line => List.decidableBAll _ line
    infer_instance

/-! ## Lines that count -/

theorem trim_eq_nil_iff {text : Text} :
    trim text = [] ↔ ∀ c ∈ text, isUnicodeWhitespace c = true := by
  unfold trim trimEnd trimStart
  rw [reverse_eq_nil_iff, dropWhile_eq_nil_iff]
  constructor
  · intro h c hc
    by_cases hdrop : c ∈ text.dropWhile isUnicodeWhitespace
    · exact h c (mem_reverse.mpr hdrop)
    · rw [← takeWhile_append_dropWhile (p := isUnicodeWhitespace) (l := text)] at hc
      exact mem_takeWhile_imp ((mem_append.mp hc).resolve_right hdrop)
  · intro h c hc
    exact h c (dropWhile_subset _ (mem_reverse.mp hc))

theorem isCounted_iff {line : Text} : isCounted line = true ↔ ∃ c ∈ line,
    isUnicodeWhitespace c = false := by
  rw [isCounted, Bool.not_eq_true', decide_eq_false_iff_not, trim_eq_nil_iff]
  simp

/-- The pieces of a text between Python breaks that count. -/
def pythonPieces (text : Text) : List Text := countedLines (text.splitOnP isPythonBreak)

theorem pythonPieces_append {c : Char} (hc : isPythonBreak c = true) (text rest : Text) :
    pythonPieces (text ++ c :: rest) = pythonPieces text ++ pythonPieces rest := by
  rw [pythonPieces, splitOnP_append_cons text rest hc, countedLines_append]
  rfl

theorem pythonPieces_nil : pythonPieces [] = [] := by decide

theorem pythonPieces_break {c : Char} (hc : isPythonBreak c = true) (rest : Text) :
    pythonPieces (c :: rest) = pythonPieces rest := by
  rw [← nil_append (c :: rest), pythonPieces_append hc, pythonPieces_nil, nil_append]

theorem pythonPieces_line {line : Text} (h : ∀ c ∈ line, isPythonBreak c = false) :
    pythonPieces line = countedLines [line] := by
  rw [pythonPieces, splitOnP_eq_singleton h]

/-- The lines of Python that count. -/
theorem countedLines_pySplitlines (text : Text) :
    countedLines (pySplitlines text) = pythonPieces text := by
  suffices h : ∀ current, (∀ c ∈ current, isPythonBreak c = false) →
      countedLines (linesFrom isPythonBreak current text) = pythonPieces (current ++ text) from
    h [] fun c hc => absurd hc not_mem_nil
  intro current hcurrent
  induction current, text using linesFrom.induct isPythonBreak with
  | case1 => rfl
  | case2 current hne =>
    rw [linesFrom_nil, if_neg hne, append_nil, pythonPieces_line hcurrent]
  | case3 current text ih =>
    rw [linesFrom_crlf, pythonPieces_append (by decide), pythonPieces_break (by decide),
      pythonPieces_line hcurrent, ← singleton_append, countedLines_append,
      ih fun c hc => absurd hc not_mem_nil, nil_append]
  | case4 current c text hcrlf hbreak ih =>
    rw [linesFrom, if_pos hbreak, pythonPieces_append hbreak, pythonPieces_line hcurrent,
      ← singleton_append, countedLines_append, ih fun c hc => absurd hc not_mem_nil,
      nil_append]
    exact hcrlf
  | case5 current c text hcrlf hbreak ih =>
    rw [linesFrom, if_neg hbreak, ih, append_assoc, singleton_append]
    · intro d hd
      rcases mem_append.mp hd with hd | hd
      · exact hcurrent d hd
      · exact mem_singleton.mp hd ▸ Bool.eq_false_iff.mpr hbreak
    · exact hcrlf

/-- Python splits each line of `str::lines` on its own. -/
theorem pythonPieces_strLines (text : Text) :
    pythonPieces text = (strLines text).flatMap pythonPieces := by
  suffices h : ∀ current, pythonPieces (current ++ text) =
      (linesFrom (· == '\n') current text).flatMap pythonPieces from h []
  intro current
  induction current, text using linesFrom.induct (· == '\n') with
  | case1 => rfl
  | case2 current hne =>
    rw [linesFrom_nil, if_neg hne, append_nil, flatMap_singleton]
  | case3 current text ih =>
    rw [linesFrom_crlf, pythonPieces_append (by decide), pythonPieces_break (by decide),
      flatMap_cons, ← ih, nil_append]
  | case4 current c text hcrlf hbreak ih =>
    rw [linesFrom, if_pos hbreak, pythonPieces_append (isPythonBreak_of_newline c hbreak),
      flatMap_cons, ← ih, nil_append]
    exact hcrlf
  | case5 current c text hcrlf hbreak ih =>
    rw [linesFrom, if_neg hbreak, ← ih, append_assoc, singleton_append]
    exact hcrlf

theorem mem_of_mem_pythonPieces {text piece : Text} (h : piece ∈ pythonPieces text) :
    piece ≠ [] ∧ (∃ c ∈ piece, isUnicodeWhitespace c = false) ∧
      ∀ c ∈ piece, c ∈ text ∧ isPythonBreak c = false := by
  obtain ⟨hpiece, hcounted⟩ := mem_filter.mp h
  obtain ⟨c, hc, hspace⟩ := isCounted_iff.mp hcounted
  refine ⟨ne_nil_of_mem hc, ⟨c, hc, hspace⟩, fun d hd => ?_⟩
  have hflat : d ∈ (text.splitOnP isPythonBreak).flatten := mem_flatten.mpr ⟨piece, hpiece, hd⟩
  rw [flatten_splitOnP, mem_filter] at hflat
  simpa using hflat

/-- Nothing of a text counts iff it is blank. -/
theorem pythonPieces_eq_nil_iff {text : Text} :
    pythonPieces text = [] ↔ ∀ c ∈ text, isBlank c = true := by
  constructor
  · intro h c hc
    rw [isBlank, Bool.or_eq_true]
    by_contra hnot
    simp only [not_or, Bool.not_eq_true] at hnot
    have hflat : c ∈ (text.splitOnP isPythonBreak).flatten := by
      rw [flatten_splitOnP, mem_filter]
      exact ⟨hc, by simp [hnot.2]⟩
    obtain ⟨piece, hpiece, hmem⟩ := mem_flatten.mp hflat
    have hcounted : piece ∈ pythonPieces text :=
      mem_filter.mpr ⟨hpiece, isCounted_iff.mpr ⟨c, hmem, hnot.1⟩⟩
    rw [h] at hcounted
    exact absurd hcounted not_mem_nil
  · intro h
    refine eq_nil_iff_forall_not_mem.mpr fun piece hpiece => ?_
    obtain ⟨-, ⟨c, hc, hspace⟩, hmem⟩ := mem_of_mem_pythonPieces hpiece
    have hblank := h c (hmem c hc).1
    rw [isBlank, hspace, (hmem c hc).2] at hblank
    cases hblank

/-- Python keeps lines that count as they are iff it breaks none of them: its own pieces hold no
break. -/
theorem flatMap_pythonPieces_eq_iff {more lines : List Text}
    (hmore : ∀ line ∈ more, ∀ c ∈ line, isPythonBreak c = false)
    (hlines : ∀ line ∈ lines, isCounted line = true) :
    more ++ lines.flatMap pythonPieces = lines ↔
      more = [] ∧ ∀ line ∈ lines, ∀ c ∈ line, isPythonBreak c = false := by
  have hkept : (∀ line ∈ lines, ∀ c ∈ line, isPythonBreak c = false) →
      lines.flatMap pythonPieces = lines := by
    intro hfree
    calc lines.flatMap pythonPieces
        = lines.flatMap fun line => [line] := by
          refine flatMap_congr fun line hline => ?_
          rw [pythonPieces_line (hfree line hline)]
          simp [countedLines, hlines line hline]
      _ = lines := flatMap_singleton' lines
  constructor
  · intro heq
    have hfree : ∀ line ∈ lines, ∀ c ∈ line, isPythonBreak c = false := by
      intro line hline c hc
      rw [← heq, mem_append, mem_flatMap] at hline
      rcases hline with hline | ⟨origin, -, hline⟩
      · exact hmore line hline c hc
      · exact ((mem_of_mem_pythonPieces hline).2.2 c hc).2
    rw [hkept hfree] at heq
    exact ⟨append_left_eq_self.mp heq, hfree⟩
  · rintro ⟨rfl, hfree⟩
    rw [nil_append, hkept hfree]

/-! ## The header -/

/-- The header as Python finds it, and what counts behind it. -/
theorem pythonPieces_of_blank (text : Text) (h : text.dropWhile isBlank ≠ []) : ∃ indent,
    (∀ c ∈ indent, isUnicodeWhitespace c = true ∧ isPythonBreak c = false) ∧
      (indent = [] ↔ ∀ c ∈ (text.takeWhile isBlank).getLast?, isPythonBreak c = true) ∧
      pythonPieces text =
        (indent ++ (text.dropWhile isBlank).takeWhile (!isPythonBreak ·)) ::
          pythonPieces ((text.dropWhile isBlank).dropWhile (!isPythonBreak ·)) := by
  set skipped := text.takeWhile isBlank with hskipped
  set rest := text.dropWhile isBlank with hrest
  have hblank : ∀ c ∈ skipped, isBlank c = true := fun c hc => mem_takeWhile_imp hc
  have htext : text = skipped ++ rest := takeWhile_append_dropWhile.symm
  set indent := skipped.rtakeWhile (!isPythonBreak ·) with hindent
  have hsplit : skipped = skipped.rdropWhile (!isPythonBreak ·) ++ indent :=
    (rdropWhile_append_rtakeWhile ..).symm
  have hspaces : ∀ c ∈ indent, isUnicodeWhitespace c = true ∧ isPythonBreak c = false := by
    intro c hc
    have hbreak : isPythonBreak c = false := by simpa using mem_rtakeWhile_imp hc
    have hc' := hblank c (hsplit ▸ mem_append_right _ hc)
    rw [isBlank, hbreak, Bool.or_false] at hc'
    exact ⟨hc', hbreak⟩
  refine ⟨indent, hspaces, ?_, ?_⟩
  · rw [hindent, rtakeWhile_eq_nil_iff]
    by_cases hnil : skipped = []
    · simp [hnil]
    · simp [hnil, getLast?_eq_some_getLast hnil]
  · -- what stands before the indent ends in a break, and nothing of it counts
    have hindented : pythonPieces text = pythonPieces (indent ++ rest) := by
      rcases eq_nil_or_concat (skipped.rdropWhile (!isPythonBreak ·)) with
        hnil | ⟨pre, b, hpre⟩
      · rw [htext, hsplit, hnil, nil_append]
      · have hb : isPythonBreak b = true := by
          have := rdropWhile_last_not (!isPythonBreak ·) skipped (by rw [hpre]; simp)
          simpa [hpre] using this
        have hnone : pythonPieces pre = [] := pythonPieces_eq_nil_iff.mpr fun c hc =>
          hblank c (hsplit ▸ mem_append_left _ (hpre ▸ by simp [hc]))
        rw [htext, hsplit, hpre, concat_eq_append, append_assoc, append_assoc,
          singleton_append, pythonPieces_append hb, hnone, nil_append]
    obtain ⟨c, tail, hcons⟩ := exists_cons_of_ne_nil h
    have hc : isBlank c = false := by
      have := head_dropWhile_not isBlank (hrest ▸ h)
      simpa [← hrest, hcons] using this
    rw [isBlank, Bool.or_eq_false_iff] at hc
    set word := rest.takeWhile (!isPythonBreak ·) with hword
    have hfree : ∀ d ∈ indent ++ word, isPythonBreak d = false := by
      intro d hd
      rcases mem_append.mp hd with hd | hd
      · exact (hspaces d hd).2
      · simpa using mem_takeWhile_imp hd
    have hcounted : pythonPieces (indent ++ word) = [indent ++ word] := by
      rw [pythonPieces_line hfree]
      have hmem : c ∈ indent ++ word := mem_append_right _ (by simp [hword, hcons, hc.2])
      have := isCounted_iff.mpr ⟨c, hmem, hc.1⟩
      simp [countedLines, this]
    have hwhole : indent ++ rest = (indent ++ word) ++ rest.dropWhile (!isPythonBreak ·) := by
      rw [append_assoc, takeWhile_append_dropWhile]
    rw [hindented, hwhole]
    cases htail : rest.dropWhile (!isPythonBreak ·) with
    | nil => rw [append_nil, hcounted, pythonPieces_nil]
    | cons b after =>
      have hb : isPythonBreak b = true := by
        have := head_dropWhile_not (!isPythonBreak ·) (l := rest) (by rw [htail]; simp)
        simpa [htail] using this
      rw [pythonPieces_append hb, hcounted, pythonPieces_break hb]
      rfl

theorem editMarker_cons : editMarker = '<' :: "!--@edit".toList := rfl

theorem editMarker_free {c : Char} (hc : c ∈ editMarker) : isPythonBreak c = false := by
  have hall : (editMarker.all fun c => !isPythonBreak c) = true := by decide
  simpa using all_eq_true.mp hall c hc

/-- A line begins with the marker iff it has no indent and the rest of it does. -/
theorem editMarker_prefix_iff {indent rest : Text}
    (hindent : ∀ c ∈ indent, isUnicodeWhitespace c = true ∧ isPythonBreak c = false) :
    editMarker <+: indent ++ rest.takeWhile (!isPythonBreak ·) ↔
      indent = [] ∧ editMarker <+: rest := by
  constructor
  · intro h
    cases indent with
    | nil => exact ⟨rfl, h.trans (List.takeWhile_prefix _)⟩
    | cons c indent =>
      rw [editMarker_cons, cons_append, cons_prefix_cons] at h
      have := (hindent c mem_cons_self).1
      rw [← h.1] at this
      exact absurd this (by decide)
  · rintro ⟨rfl, after, rfl⟩
    rw [nil_append, takeWhile_append_of_pos fun c hc => by simp [editMarker_free hc]]
    exact List.prefix_append _ _

/-- Where Python finds the header. -/
theorem pythonHeader_iff {text : Text} :
    PythonHeader text ↔
      ∃ header body, pythonPieces text = header :: body ∧ editMarker <+: header := by
  by_cases h : text.dropWhile isBlank = []
  · have hnone : pythonPieces text = [] :=
      pythonPieces_eq_nil_iff.mpr (dropWhile_eq_nil_iff.mp h)
    rw [PythonHeader, h, hnone, editMarker_cons]
    simp
  · obtain ⟨indent, hindent, hnil, hpieces⟩ := pythonPieces_of_blank text h
    rw [PythonHeader, ← hnil, hpieces]
    constructor
    · rintro ⟨hmarker, hempty⟩
      exact ⟨_, _, rfl, (editMarker_prefix_iff hindent).mpr ⟨hempty, hmarker⟩⟩
    · rintro ⟨header, body, heq, hmarker⟩
      obtain ⟨rfl, -⟩ := List.cons.inj heq
      exact ((editMarker_prefix_iff hindent).mp hmarker).symm

/-! ## The blocks -/

theorem dropBlankLines_cases (lines : List Text) :
    (dropBlankLines lines = [] ∧ countedLines lines = []) ∨ ∃ first rest,
      dropBlankLines lines = first :: rest ∧ countedLines lines = first :: countedLines rest := by
  induction lines with
  | nil => exact .inl ⟨rfl, rfl⟩
  | cons line lines ih =>
    by_cases hblank : trim line = []
    · have hdrop : dropBlankLines (line :: lines) = dropBlankLines lines := by
        simp [dropBlankLines, hblank]
      have hcounted : countedLines (line :: lines) = countedLines lines := by
        simp [countedLines, isCounted, hblank]
      rwa [hdrop, hcounted]
    · exact .inr ⟨line, lines, by simp [dropBlankLines, hblank],
        by simp [countedLines, isCounted, hblank]⟩

/-- `split_edit_blocks`, by what counts for Python. -/
theorem splitEditBlocks_eq (text : Text) : splitEditBlocks text =
    match pythonPieces text with
    | [] => refuse "edit-header-missing: edit.md must start with an @edit header"
    | header :: body =>
      if editMarker <+: header then pure (header, blocksFrom [] body)
      else refuse "edit-header-missing: edit.md must start with an @edit header" := by
  rw [splitEditBlocks, ← countedLines_pySplitlines]
  rcases dropBlankLines_cases (pySplitlines text) with ⟨hdrop, hnone⟩ | ⟨first, rest, hdrop, hcons⟩
  · rw [hdrop, hnone]
  · rw [hdrop, hcons]
    simp only [blocksFrom_countedLines rest []]

/-- `paragraph_blocks`, by the lines that count. -/
theorem paragraphBlocks_eq (text : Text) : paragraphBlocks text =
    match countedLines (strLines text) with
    | [] => deny "edit-header-missing" "edit.md must start with an @edit header"
    | header :: body =>
      if editMarker <+: trimStart header then pure (blocksFrom [] body)
      else deny "edit-header-missing" "edit.md must start with an @edit header" := by
  rw [paragraphBlocks]
  rcases dropBlankLines_cases (strLines text) with ⟨hdrop, hnone⟩ | ⟨first, rest, hdrop, hcons⟩
  · rw [hdrop, hnone]
  · rw [hdrop, hcons]
    simp only [blocksFrom_countedLines rest []]

theorem splitOn_joinLines {lines : List Text} (hne : lines ≠ [])
    (hlines : ∀ line ∈ lines, '\n' ∉ line) : (joinLines lines).splitOn '\n' = lines :=
  splitOn_intercalate '\n' hlines hne

/-- The blocks hold the lines that count, in their order. -/
theorem flatMap_splitOn_blocksFrom : ∀ (lines current : List Text),
    (∀ line ∈ current ++ lines, '\n' ∉ line) → (∀ line ∈ lines, isCounted line = true) →
      (blocksFrom current lines).flatMap (·.splitOn '\n') = current ++ lines
  | [], current, hlines, _ => by
    rw [append_nil] at hlines ⊢
    rw [blocksFrom, pushBlock]
    split_ifs with hnil
    · rw [hnil]
      rfl
    · rw [flatMap_singleton, splitOn_joinLines hnil hlines]
  | line :: rest, current, hlines, hcounted => by
    have hblank : trim line ≠ [] := by
      have := hcounted line mem_cons_self
      simpa [isCounted] using this
    have hrest : ∀ line ∈ rest, isCounted line = true :=
      fun next hnext => hcounted next (mem_cons_of_mem _ hnext)
    rw [blocksFrom]
    split_ifs with hmarker
    · have ih := flatMap_splitOn_blocksFrom rest [line]
        (fun next hnext => hlines next (mem_append_right _ hnext)) hrest
      rw [pushBlock]
      split_ifs with hnil
      · rw [ih, hnil]
        rfl
      · rw [flatMap_cons, splitOn_joinLines hnil
          fun next hnext => hlines next (mem_append_left _ hnext), ih, singleton_append]
    · rw [flatMap_splitOn_blocksFrom rest (current ++ [line]) (by simpa using hlines) hrest,
        append_assoc, singleton_append]

/-- Different lines that count make different blocks. -/
theorem blocksFrom_inj {lines lines' : List Text} (hlines : ∀ line ∈ lines, '\n' ∉ line)
    (hlines' : ∀ line ∈ lines', '\n' ∉ line) (hcounted : ∀ line ∈ lines, isCounted line = true)
    (hcounted' : ∀ line ∈ lines', isCounted line = true) :
    blocksFrom [] lines = blocksFrom [] lines' ↔ lines = lines' := by
  refine ⟨fun h => ?_, fun h => by rw [h]⟩
  have heq := congrArg (List.flatMap (·.splitOn '\n')) h
  rwa [flatMap_splitOn_blocksFrom _ _ hlines hcounted,
    flatMap_splitOn_blocksFrom _ _ hlines' hcounted'] at heq

theorem pythonPieces_counted (lines : List Text) :
    lines.flatMap pythonPieces = (countedLines lines).flatMap pythonPieces := by
  induction lines with
  | nil => rfl
  | cons line lines ih =>
    rw [flatMap_cons, ih]
    by_cases hcounted : isCounted line = true
    · simp [countedLines, hcounted]
    · have hnone : pythonPieces line = [] := by
        refine pythonPieces_eq_nil_iff.mpr fun c hc => ?_
        rw [isBlank, Bool.or_eq_true]
        by_contra hnot
        simp only [not_or, Bool.not_eq_true] at hnot
        exact hcounted (isCounted_iff.mpr ⟨c, hc, hnot.1⟩)
      simp [countedLines, hcounted, hnone]

theorem newline_notMem_of_mem_strLines {text line : Text}
    (h : line ∈ countedLines (strLines text)) : '\n' ∉ line := by
  intro hc
  have := not_isBreak_of_mem_linesFrom (fun c h => absurd h not_mem_nil)
    (mem_filter.mp h).1 hc
  simp at this

theorem newline_notMem_of_mem_pythonPieces {text line : Text} (h : line ∈ pythonPieces text) :
    '\n' ∉ line := by
  intro hc
  exact absurd ((mem_of_mem_pythonPieces h).2.2 _ hc).2 (by decide)

theorem isCounted_of_mem_pythonPieces {text line : Text} (h : line ∈ pythonPieces text) :
    isCounted line = true :=
  (mem_filter.mp h).2

/-- **Where the two readers of a text see the same blocks.** -/
theorem sameBlocks_iff (text : Text) : SameBlocks text ↔ ReadAlike text := by
  have hpieces : pythonPieces text = (countedLines (strLines text)).flatMap pythonPieces := by
    rw [pythonPieces_strLines, pythonPieces_counted]
  have hcountedLines : ∀ line ∈ countedLines (strLines text), isCounted line = true :=
    fun line hline => (mem_filter.mp hline).2
  have hnewline : ∀ line ∈ countedLines (strLines text), '\n' ∉ line :=
    fun line => newline_notMem_of_mem_strLines
  rw [SameBlocks, ReadAlike, splitEditBlocks_eq, paragraphBlocks_eq]
  cases hlines : countedLines (strLines text) with
  | nil =>
    rw [hlines] at hpieces
    rw [hpieces]
    simp [refuse, deny]
  | cons first body =>
    rw [hlines] at hpieces hcountedLines hnewline
    simp only
    by_cases hmarker : editMarker <+: trimStart first
    · rw [if_pos hmarker, if_pos hmarker]
      -- only the indent of the header is blank, so both ways of skipping stop at the marker
      have hstart : first.dropWhile isBlank = trimStart first ∧
          first.takeWhile isBlank = first.takeWhile isUnicodeWhitespace := by
        obtain ⟨after, hafter⟩ := hmarker
        have hspaces : ∀ c ∈ first.takeWhile isUnicodeWhitespace, isBlank c = true := by
          intro c hc
          rw [isBlank, mem_takeWhile_imp hc, Bool.true_or]
        have hfirst : first = first.takeWhile isUnicodeWhitespace ++ (editMarker ++ after) := by
          rw [hafter, trimStart, takeWhile_append_dropWhile]
        have hstop : isBlank '<' = false := by decide
        constructor
        · conv_lhs => rw [hfirst]
          rw [dropWhile_append_of_pos hspaces, ← hafter, editMarker_cons, cons_append,
            dropWhile_cons_of_neg (by rw [hstop]; decide)]
        · conv_lhs => rw [hfirst]
          rw [takeWhile_append_of_pos hspaces, editMarker_cons, cons_append,
            takeWhile_cons_of_neg (by rw [hstop]; decide), append_nil]
      have hne : first.dropWhile isBlank ≠ [] := by
        rw [hstart.1]
        intro hnil
        rw [hnil, editMarker_cons] at hmarker
        exact absurd (prefix_nil.mp hmarker) (by simp)
      obtain ⟨indent, hindent, hnil, hfirst⟩ := pythonPieces_of_blank first hne
      rw [hstart.1] at hfirst
      rw [hstart.2] at hnil
      rw [flatMap_cons, hfirst, cons_append] at hpieces
      rw [hpieces]
      simp only [editMarker_prefix_iff hindent, hmarker, and_true, HeaderAlone, ← hnil]
      by_cases hempty : indent = []
      · have htail := @mem_of_mem_pythonPieces ((trimStart first).dropWhile (!isPythonBreak ·))
        have hbody : ∀ line ∈ body, isCounted line = true :=
          fun line hline => hcountedLines line (mem_cons_of_mem _ hline)
        have hall : ∀ line ∈ pythonPieces ((trimStart first).dropWhile (!isPythonBreak ·)) ++
            body.flatMap pythonPieces, '\n' ∉ line ∧ isCounted line = true := by
          intro line hline
          rcases mem_append.mp hline with hline | hline
          · exact ⟨newline_notMem_of_mem_pythonPieces hline, isCounted_of_mem_pythonPieces hline⟩
          · obtain ⟨origin, -, hline⟩ := mem_flatMap.mp hline
            exact ⟨newline_notMem_of_mem_pythonPieces hline, isCounted_of_mem_pythonPieces hline⟩
        rw [if_pos hempty, ← pythonPieces_eq_nil_iff]
        simp only [pure, Except.pure, hempty, true_and]
        rw [blocksFrom_inj (fun line hline => (hall line hline).1)
          (fun line hline => hnewline line (mem_cons_of_mem _ hline))
          (fun line hline => (hall line hline).2) hbody]
        exact flatMap_pythonPieces_eq_iff
          (fun line hline c hc => ((htail hline).2.2 c hc).2) hbody
      · rw [if_neg hempty]
        simp [refuse, hempty, pure, Except.pure]
    · rw [if_neg hmarker, if_neg hmarker, pythonHeader_iff]
      cases hpython : pythonPieces text with
      | nil => simp [refuse, deny]
      | cons header rest =>
        by_cases hheader : editMarker <+: header
        · simp [hheader, deny, pure, Except.pure]
        · simp [hheader, deny, refuse]

/-! ## The hash -/

/-- What the hash covers: the lines of Python behind the header. -/
def hashedBody (text : Text) : Text := joinLines ((dropBlankLines (pySplitlines text)).drop 1)

/-- The digests of the two bodies tell the bodies apart. -/
def NoCollision (crates : Crates) (text text' : Text) : Prop :=
  crates.sha256Hex (utf8 (hashedBody text)) = crates.sha256Hex (utf8 (hashedBody text')) →
    hashedBody text = hashedBody text'

theorem editBodySha256_eq_ok {crates : Crates} {text hash : Text}
    (h : editBodySha256 crates text = .ok hash) :
    hash = (crates.sha256Hex (utf8 (hashedBody text))).toList ∧ ∃ header,
      (∀ line ∈ (dropBlankLines (pySplitlines text)).drop 1, '\n' ∉ line) ∧
        splitEditBlocks text =
          .ok (header, blocksFrom [] ((dropBlankLines (pySplitlines text)).drop 1)) := by
  rw [editBodySha256] at h
  rw [splitEditBlocks, hashedBody]
  have hfree : ∀ line ∈ (dropBlankLines (pySplitlines text)).drop 1, '\n' ∉ line := by
    intro line hline hc
    have hmem := dropWhile_subset _ (mem_of_mem_drop hline)
    exact absurd (not_isBreak_of_mem_linesFrom (fun c h => absurd h not_mem_nil) hmem hc)
      (by decide)
  cases hlines : dropBlankLines (pySplitlines text) with
  | nil => simp [hlines, refuse] at h
  | cons first rest =>
    rw [hlines] at h hfree
    simp only at h
    split_ifs at h with hmarker
    · refine ⟨(Except.ok.inj h).symm, first, hfree, ?_⟩
      simp only [if_pos hmarker]
      rfl
    · simp [refuse] at h

/-- What the hash covers decides what Python reads. -/
theorem splitEditBlocks_of_hash {crates : Crates} {text text' hash : Text}
    (hcollision : NoCollision crates text text') (h : editBodySha256 crates text = .ok hash)
    (h' : editBodySha256 crates text' = .ok hash) :
    (splitEditBlocks text).map (·.2) = (splitEditBlocks text').map (·.2) := by
  obtain ⟨hhash, header, hfree, hsplit⟩ := editBodySha256_eq_ok h
  obtain ⟨hhash', header', hfree', hsplit'⟩ := editBodySha256_eq_ok h'
  have hbody := hcollision (String.toList_injective (hhash.symm.trans hhash'))
  -- joined lines are split again, up to lines that do not count
  have hcounted : ∀ lines : List Text, (∀ line ∈ lines, '\n' ∉ line) →
      countedLines lines = countedLines ((joinLines lines).splitOn '\n') := by
    intro lines hlines
    by_cases hnil : lines = []
    · rw [hnil]
      decide
    · rw [splitOn_joinLines hnil hlines]
  rw [hsplit, hsplit']
  simp only [Except.map]
  rw [blocksFrom_countedLines ((dropBlankLines (pySplitlines text)).drop 1),
    blocksFrom_countedLines ((dropBlankLines (pySplitlines text')).drop 1), hcounted _ hfree,
    hcounted _ hfree']
  exact congrArg (fun body => Except.ok (blocksFrom [] (countedLines (body.splitOn '\n')))) hbody

/-- **What one hash covers is one document for both readers** where both texts are read alike, and
only there. -/
theorem seenAlike_iff {crates : Crates} {text text' : Text}
    (hcollision : NoCollision crates text text') :
    SeenAlike crates text text' ↔ ReadAlike text ∧ ReadAlike text' := by
  rw [SeenAlike, sameBlocks_iff, sameBlocks_iff]
  refine ⟨fun h => ⟨h.1, h.2.1⟩, fun h => ⟨h.1, h.2, fun hash hhash hhash' => ?_⟩⟩
  have hsplit := splitEditBlocks_of_hash hcollision hhash hhash'
  refine ⟨hsplit, ?_⟩
  obtain ⟨-, header, -, hok⟩ := editBodySha256_eq_ok hhash
  obtain ⟨-, header', -, hok'⟩ := editBodySha256_eq_ok hhash'
  -- where Python accepts a text that is read alike, the other reader returns its blocks
  have hother : ∀ {text : Text} {header : Text} {blocks : List Text}, ReadAlike text →
      splitEditBlocks text = .ok (header, blocks) → paragraphBlocks text = .ok blocks := by
    intro text header blocks halike hok
    rw [← sameBlocks_iff, SameBlocks, hok] at halike
    cases hother : paragraphBlocks text with
    | ok blocks' =>
      rw [hother] at halike
      rw [show blocks = blocks' from halike]
    | error e =>
      rw [hother] at halike
      exact halike.elim
  rw [hother h.1 hok, hother h.2 hok']
  rw [hok, hok'] at hsplit
  exact congrArg Except.ok (Except.ok.inj hsplit)

def plainDraft : Text := "<!--@edit schema=\"1\"-->\n<!--@p id=\"P1\"-->\nab\n".toList

/-- The same draft with the line ends of another system. -/
def returnDraft : Text := "<!--@edit schema=\"1\"-->\r\n<!--@p id=\"P1\"-->\r\nab\r\n".toList

theorem seenAlike_plainDraft : NoCollision draftCrates plainDraft returnDraft ∧
    SeenAlike draftCrates plainDraft returnDraft := by
  have hcollision : NoCollision draftCrates plainDraft returnDraft := fun _ => by decide +kernel
  exact ⟨hcollision, (seenAlike_iff hcollision).mpr ⟨by decide +kernel, by decide +kernel⟩⟩

/-- The draft of one paragraph whose text holds a line separator. -/
def separatorDraft : Text :=
  "<!--@edit schema=\"1\"-->\n<!--@p id=\"P1\"-->\na\u2028b\n".toList

/-- The draft of the same paragraph with a line break in its place. -/
def brokenDraft : Text := "<!--@edit schema=\"1\"-->\n<!--@p id=\"P1\"-->\na\nb\n".toList

/-- The two readers see a line separator differently, and the hash does not see it at all. -/
theorem separatorDraft_unseen : ¬ SeenAlike draftCrates separatorDraft brokenDraft ∧
    NoCollision draftCrates separatorDraft brokenDraft ∧ ¬ SameBlocks separatorDraft ∧
      editBodySha256 draftCrates separatorDraft = editBodySha256 draftCrates brokenDraft ∧
        paragraphBlocks separatorDraft ≠ paragraphBlocks brokenDraft := by
  have hsame : ¬ SameBlocks separatorDraft := by decide +kernel
  exact ⟨fun h => hsame h.1, fun _ => by decide +kernel, hsame, by decide +kernel,
    by decide +kernel⟩

end Docx2Typed
