import Docx2Typed.Draft.ReadersAgree
import Docx2Typed.Library.Sections
import Docx2Typed.Store.Disk

/-!
# Paragraph blocks

What the history reads of a `typed.md`: the head, the ids of the paragraphs and the block of each.
A selective restore writes a text anew from these.  `Rewritten` says that it reads as it was put
together, which holds exactly when no line that goes into it ends in a carriage return
(`rewritten_iff`): `str::lines` takes one away at each reading.
-/

namespace Docx2Typed.Store

open Library List

/-! ## Reading -/

/-- `paragraph_marker`: the id in a marker line. -/
def paragraphMarker (line : Text) : Option String := do
  let rest ← stripPrefix "<!--@".toList line
  let (kind, rest) ← splitOnce ' ' rest
  if kind ∈ ["p".toList, "new".toList, "delete".toList] then
    let rest ← stripPrefix "id=\"".toList rest <|> stripPrefix "temp=\"".toList rest
    some (String.ofList (rest.takeWhile (· ≠ '"')))
  else none

/-- `join_block`. -/
def joinBlock (buffer : List Text) : Text := (joinLines buffer).rdropWhile (· == '\n')

/-- The loop of `split_paragraph_blocks`. -/
def splitBlocksFrom (blocks : Table Text) (current : Option String) (buffer : List Text) :
    List Text → Table Text
  | [] =>
    match current with
    | some id => blocks.insert id (joinBlock buffer)
    | none => blocks
  | line :: lines =>
    match paragraphMarker line with
    | some id =>
      match current with
      | some previous =>
        splitBlocksFrom (blocks.insert previous (joinBlock buffer)) (some id) [line] lines
      | none => splitBlocksFrom blocks (some id) [line] lines
    | none =>
      match current with
      | some id => splitBlocksFrom blocks (some id) (buffer ++ [line]) lines
      | none => splitBlocksFrom blocks none buffer lines

/-- `split_paragraph_blocks`. -/
def splitParagraphBlocks (text : Text) : Table Text := splitBlocksFrom ∅ none [] (strLines text)

/-- The loop of `paragraph_order`. -/
def paragraphOrderFrom (seen : List String) : List Text → List String
  | [] => []
  | line :: lines =>
    match paragraphMarker line with
    | some id =>
      if id ∈ seen then paragraphOrderFrom seen lines
      else id :: paragraphOrderFrom (id :: seen) lines
    | none => paragraphOrderFrom seen lines

/-- `paragraph_order`. -/
def paragraphOrder (text : Text) : List String := paragraphOrderFrom [] (strLines text)

/-- `paragraph_preamble`. -/
def paragraphPreamble (text : Text) : Text :=
  joinBlock ((strLines text).takeWhile fun line => (paragraphMarker line).isNone)

/-- The text that `cherry_pick` puts together. -/
def rewrite (preamble : Text) (blocks : List Text) : Text :=
  ['\n', '\n'].intercalate ((if preamble = [] then [] else [preamble]) ++ blocks) ++ ['\n']

/-! ## Reading by sections -/

theorem splitBlocksFrom_eq (lines : List Text) :
    (∀ blocks buffer, splitBlocksFrom blocks none buffer lines =
      ((sections paragraphMarker lines).2).foldl
        (fun table part => table.insert part.1 (joinBlock part.2)) blocks) ∧
    ∀ blocks id buffer, splitBlocksFrom blocks (some id) buffer lines =
      ((id, buffer ++ (sections paragraphMarker lines).1) ::
        (sections paragraphMarker lines).2).foldl
          (fun table part => table.insert part.1 (joinBlock part.2)) blocks := by
  induction lines with
  | nil =>
    refine ⟨fun _ _ => rfl, fun blocks id buffer => ?_⟩
    show _ = AList.insert id (joinBlock (buffer ++ [])) blocks
    rw [append_nil]
    rfl
  | cons line lines ih =>
    obtain ⟨hnone, hsome⟩ := ih
    cases hline : paragraphMarker line with
    | none =>
      rw [sections_of_none hline]
      refine ⟨fun blocks buffer => ?_, fun blocks id buffer => ?_⟩
      · simp only [splitBlocksFrom, hline]
        exact hnone blocks buffer
      · simp only [splitBlocksFrom, hline]
        rw [hsome, append_assoc, singleton_append]
    | some next =>
      rw [sections_of_some hline]
      refine ⟨fun blocks buffer => ?_, fun blocks id buffer => ?_⟩
      · simp only [splitBlocksFrom, hline]
        exact hsome blocks next [line]
      · simp only [splitBlocksFrom, hline]
        rw [hsome, append_nil]
        rfl

theorem splitParagraphBlocks_eq (text : Text) : splitParagraphBlocks text =
    tableOf ((sections paragraphMarker (strLines text)).2.map fun part =>
      (part.1, joinBlock part.2)) := by
  rw [splitParagraphBlocks, (splitBlocksFrom_eq _).1, tableOf, foldl_map]

theorem takeWhile_eq_sections (lines : List Text) :
    lines.takeWhile (fun line => (paragraphMarker line).isNone) =
      (sections paragraphMarker lines).1 := by
  induction lines with
  | nil => rfl
  | cons line lines ih =>
    cases hline : paragraphMarker line with
    | none => rw [sections_of_none hline, takeWhile_cons, hline, ← ih]; rfl
    | some id => rw [sections_of_some hline, takeWhile_cons, hline]; rfl

variable {id : String} {lines : List Text} {seen : List String}

theorem mem_paragraphOrderFrom :
    id ∈ paragraphOrderFrom seen lines ↔ id ∈ lines.filterMap paragraphMarker ∧ id ∉ seen := by
  induction lines generalizing seen with
  | nil => simp [paragraphOrderFrom]
  | cons line lines ih =>
    rw [paragraphOrderFrom]
    cases hline : paragraphMarker line with
    | none =>
      rw [filterMap_cons_none hline]
      exact ih
    | some next =>
      rw [filterMap_cons_some hline]
      dsimp only
      split
      · rename_i hseen
        rw [ih, mem_cons]
        refine ⟨fun h => ⟨.inr h.1, h.2⟩, fun h => ⟨h.1.resolve_left ?_, h.2⟩⟩
        rintro rfl
        exact h.2 hseen
      · rename_i hseen
        rw [mem_cons, mem_cons, ih, mem_cons, not_or]
        refine ⟨?_, fun h => ?_⟩
        · rintro (rfl | h)
          · exact ⟨.inl rfl, hseen⟩
          · exact ⟨.inr h.1, h.2.2⟩
        · by_cases hid : id = next
          · exact .inl hid
          · exact .inr ⟨h.1.resolve_left hid, hid, h.2⟩

theorem nodup_paragraphOrderFrom (lines : List Text) (seen : List String) :
    (paragraphOrderFrom seen lines).Nodup := by
  induction lines generalizing seen with
  | nil => exact nodup_nil
  | cons line lines ih =>
    rw [paragraphOrderFrom]
    cases paragraphMarker line with
    | none => exact ih seen
    | some id =>
      dsimp only
      split
      · exact ih seen
      · refine nodup_cons.mpr ⟨fun h => ?_, ih _⟩
        exact (mem_paragraphOrderFrom.mp h).2 mem_cons_self

/-- Ids that stand there once are in the order in which they stand. -/
theorem paragraphOrderFrom_of_nodup (hnodup : (lines.filterMap paragraphMarker).Nodup)
    (hseen : ∀ id ∈ lines.filterMap paragraphMarker, id ∉ seen) :
    paragraphOrderFrom seen lines = lines.filterMap paragraphMarker := by
  induction lines generalizing seen with
  | nil => rfl
  | cons line lines ih =>
    rw [paragraphOrderFrom]
    cases hline : paragraphMarker line with
    | none =>
      rw [filterMap_cons_none hline] at hnodup hseen ⊢
      exact ih hnodup hseen
    | some id =>
      rw [filterMap_cons_some hline] at hnodup hseen ⊢
      dsimp only
      obtain ⟨hid, hnodup⟩ := nodup_cons.mp hnodup
      rw [if_neg (hseen id mem_cons_self), ih hnodup fun other hother => ?_]
      rw [mem_cons, not_or]
      refine ⟨?_, hseen other (mem_cons_of_mem _ hother)⟩
      rintro rfl
      exact hid hother

theorem lookup_splitParagraphBlocks_isSome {text : Text} :
    ((splitParagraphBlocks text).lookup id).isSome ↔ id ∈ paragraphOrder text := by
  rw [splitParagraphBlocks_eq, lookup_tableOf_isSome, map_map, paragraphOrder,
    mem_paragraphOrderFrom, ← map_fst_sections]
  simp [Function.comp_def]

/-! ## Lines that are written -/

/-- What `str::lines` makes of a line before a newline. -/
def cutReturn (line : Text) : Text := if line.getLast? = some '\r' then line.dropLast else line

variable {line : Text}

theorem cutReturn_cons {c : Char} (h : ¬ (c = '\r' ∧ line = [])) :
    cutReturn (c :: line) = c :: cutReturn line := by
  cases line with
  | nil =>
    have hc : c ≠ '\r' := fun hc => h ⟨hc, rfl⟩
    simp [cutReturn, hc]
  | cons d line =>
    rw [cutReturn, cutReturn, getLast?_cons_cons]
    split
    · rw [dropLast_cons_cons]
    · rfl

theorem linesFrom_piece (rest : Text) : ∀ {line current : Text}, '\n' ∉ line →
    linesFrom (· == '\n') current (line ++ '\n' :: rest) =
      (current ++ cutReturn line) :: linesFrom (· == '\n') [] rest
  | [], current, _ => by
    rw [nil_append, linesFrom_newline rfl]
    simp [cutReturn]
  | c :: line, current, h => by
    by_cases hlast : c = '\r' ∧ line = []
    · obtain ⟨rfl, rfl⟩ := hlast
      show linesFrom _ current ('\r' :: '\n' :: rest) = _
      rw [linesFrom_crlf]
      simp [cutReturn]
    · have hc : (c == '\n') = false := beq_false_of_ne fun heq => h (heq ▸ mem_cons_self)
      have hline : '\n' ∉ line := fun hmem => h (mem_cons_of_mem _ hmem)
      have hcrlf : c ≠ '\r' ∨ (line ++ '\n' :: rest).head? ≠ some '\n' := by
        refine head_append (fun tail _ htail => ?_) hlast
        exact hline (htail ▸ mem_cons_self)
      rw [cons_append, linesFrom_cons current hcrlf, hc, if_neg Bool.false_ne_true,
        linesFrom_piece rest hline, cutReturn_cons hlast, append_assoc, singleton_append]

theorem strLines_joinLines_newline : ∀ {lines : List Text}, lines ≠ [] →
    (∀ line ∈ lines, '\n' ∉ line) → strLines (joinLines lines ++ ['\n']) = lines.map cutReturn
  | [], h, _ => absurd rfl h
  | [line], _, h => by
    show linesFrom _ [] (joinLines [line] ++ '\n' :: []) = _
    rw [show joinLines [line] = line from intercalate_singleton,
      linesFrom_piece [] (h line mem_cons_self)]
    rfl
  | line :: next :: lines, _, h => by
    have ih := @strLines_joinLines_newline (next :: lines) (cons_ne_nil _ _)
      fun other hother => h other (mem_cons_of_mem _ hother)
    rw [joinLines_cons_cons, append_assoc, cons_append, strLines,
      linesFrom_piece _ (h line mem_cons_self), nil_append, map_cons, ← ih]
    rfl

theorem newline_notMem_of_mem_splitOn {text line : Text} (h : line ∈ text.splitOn '\n') :
    '\n' ∉ line := by
  intro hc
  have hmem : '\n' ∈ (text.splitOnP (· == '\n')).flatten := mem_flatten.mpr ⟨line, h, hc⟩
  rw [flatten_splitOnP, mem_filter] at hmem
  exact absurd hmem.2 (by decide)

theorem joinLines_splitOn (text : Text) : joinLines (text.splitOn '\n') = text :=
  intercalate_splitOn '\n'

/-- The lines of a text with a newline after it. -/
theorem strLines_newline (text : Text) :
    strLines (text ++ ['\n']) = (text.splitOn '\n').map cutReturn := by
  rw [← strLines_joinLines_newline (splitOn_ne_nil _ _)
    fun line => newline_notMem_of_mem_splitOn, joinLines_splitOn]

/-- Texts with an empty line between any two. -/
theorem splitOn_intercalate_blank : ∀ {texts : List Text}, texts ≠ [] →
    (['\n', '\n'].intercalate texts).splitOn '\n' =
      [[]].intercalate (texts.map (·.splitOn '\n'))
  | [], h => absurd rfl h
  | [text], _ => by
    rw [intercalate_singleton, map_singleton, intercalate_singleton]
  | text :: next :: texts, _ => by
    have ih := @splitOn_intercalate_blank (next :: texts) (cons_ne_nil _ _)
    rw [intercalate_cons_cons, map_cons, map_cons, intercalate_cons_cons,
      ← map_cons, ← ih, append_assoc]
    show List.splitOnP (· == '\n') (text ++ '\n' :: '\n' :: _) = _
    rw [splitOnP_append_cons _ _ (by rfl), append_assoc]
    show _ ++ List.splitOnP (· == '\n') ([] ++ '\n' :: _) = _
    rw [splitOnP_append_cons _ _ (by rfl)]
    rfl

/-! ## Blocks that are written -/

theorem joinBlock_splitOn {text : Text} (h : text.getLast? ≠ some '\n') :
    joinBlock (text.splitOn '\n') = text := by
  rw [joinBlock, joinLines_splitOn]
  induction text using List.reverseRecOn with
  | nil => rfl
  | append_singleton text c _ =>
    rw [getLast?_concat, Ne, Option.some.injEq] at h
    rw [rdropWhile_concat_neg]
    simpa using h

/-- An empty line at the end is no part of a block. -/
theorem joinBlock_concat_nil (h : lines ≠ []) : joinBlock (lines ++ [[]]) = joinBlock lines := by
  have hjoin : ∀ {lines : List Text}, lines ≠ [] →
      joinLines (lines ++ [[]]) = joinLines lines ++ ['\n'] := by
    intro lines
    induction lines with
    | nil => exact fun h => absurd rfl h
    | cons line lines ih =>
      intro _
      cases lines with
      | nil =>
        show joinLines [line, []] = joinLines [line] ++ ['\n']
        rw [joinLines_cons_cons]
        simp [joinLines]
      | cons next lines =>
        have ih := ih (cons_ne_nil _ _)
        rw [cons_append] at ih
        rw [cons_append, cons_append, joinLines_cons_cons, joinLines_cons_cons, ih,
          append_assoc, cons_append]
  rw [joinBlock, hjoin h, rdropWhile_concat_pos _ _ _ (by rfl), joinBlock]

/-- The block of a paragraph: its marker first, no other in it, and no empty line at its end. -/
structure IsBlock (id : String) (text : Text) : Prop where
  marked : IsSection paragraphMarker (id, text.splitOn '\n')
  trimmed : text.getLast? ≠ some '\n'

/-- What can stand before the blocks. -/
structure IsPreamble (text : Text) : Prop where
  unmarked : ∀ line ∈ text.splitOn '\n', paragraphMarker line = none
  trimmed : text.getLast? ≠ some '\n'

theorem newline_notMem_of_mem (text : Text) (h : line ∈ strLines text) : '\n' ∉ line := by
  intro hc
  have hbreak := not_isBreak_of_mem_linesFrom (fun c h => absurd h not_mem_nil) h hc
  exact absurd hbreak (by decide)

theorem exists_joinLines_concat (lines : List Text) (last : Text) :
    ∃ before, joinLines (lines ++ [last]) = before ++ last := by
  induction lines with
  | nil => exact ⟨[], intercalate_singleton⟩
  | cons line lines ih =>
    obtain ⟨before, hbefore⟩ := ih
    cases lines with
    | nil =>
      refine ⟨line ++ ['\n'], ?_⟩
      show joinLines [line, last] = _
      rw [joinLines_cons_cons, append_assoc, show joinLines [last] = last from
        intercalate_singleton, singleton_append]
    | cons next lines =>
      refine ⟨line ++ '\n' :: before, ?_⟩
      rw [cons_append] at hbefore
      rw [cons_append, cons_append, joinLines_cons_cons, hbefore, append_assoc,
        cons_append]

/-- A block is its lines without the empty ones at the end. -/
theorem joinBlock_eq (h : ∀ line ∈ lines, '\n' ∉ line) :
    joinBlock lines = joinLines (lines.rdropWhile (· == [])) := by
  induction lines using List.reverseRecOn with
  | nil => rfl
  | append_singleton lines last ih =>
    have ih := ih fun line hline => h line (mem_append_left _ hline)
    by_cases hlast : last = []
    · rw [hlast, rdropWhile_concat_pos _ _ _ (by rfl), ← ih]
      cases lines with
      | nil => rfl
      | cons line lines => exact joinBlock_concat_nil (cons_ne_nil _ _)
    · rw [rdropWhile_concat_neg _ _ _ (by simpa using hlast), joinBlock]
      obtain ⟨before, hbefore⟩ := exists_joinLines_concat lines last
      have hnewline := h last (mem_append_right _ mem_cons_self)
      obtain ⟨start, c, rfl⟩ := (eq_nil_or_concat last).resolve_left hlast
      have hc : c ≠ '\n' := fun hc => hnewline (by simp [hc])
      rw [hbefore, concat_eq_append, ← append_assoc, rdropWhile_concat_neg]
      simpa using hc

theorem trimmed_joinBlock (lines : List Text) : (joinBlock lines).getLast? ≠ some '\n' := by
  intro h
  have hne : joinBlock lines ≠ [] := fun hnil => by simp [hnil] at h
  have hlast := rdropWhile_last_not (· == '\n') (joinLines lines) hne
  rw [getLast?_eq_some_getLast hne, Option.some.injEq] at h
  exact hlast (by rw [beq_iff_eq]; exact h)

/-- The block of a section. -/
theorem isBlock_joinBlock (hnewline : ∀ line ∈ lines, '\n' ∉ line)
    (hsection : IsSection paragraphMarker (id, lines)) : IsBlock id (joinBlock lines) := by
  refine ⟨?_, trimmed_joinBlock lines⟩
  obtain ⟨entry, rest, hlines, hentry, hrest⟩ := hsection
  obtain rfl : lines = entry :: rest := hlines
  have hfirst : entry ≠ [] := by
    rintro rfl
    have hnone : paragraphMarker [] = none := by decide
    rw [hnone] at hentry
    cases hentry
  obtain ⟨after, hafter⟩ := List.rdropWhile_prefix (· == []) (l := entry :: rest)
  cases hkept : (entry :: rest).rdropWhile (· == []) with
  | nil =>
    have hall := rdropWhile_eq_nil_iff.mp hkept
    exact absurd (beq_iff_eq.mp (hall entry mem_cons_self)) hfirst
  | cons first kept =>
    rw [hkept, cons_append, List.cons.injEq] at hafter
    obtain ⟨rfl, hafter⟩ := hafter
    refine ⟨first, kept, ?_, hentry, fun other hother => ?_⟩
    · show (joinBlock (first :: rest)).splitOn '\n' = first :: kept
      rw [joinBlock_eq hnewline, hkept]
      refine splitOn_joinLines (cons_ne_nil _ _) fun line hline => hnewline line ?_
      rcases mem_cons.mp hline with rfl | hline
      · exact mem_cons_self
      · exact mem_cons_of_mem _ (hafter ▸ mem_append_left _ hline)
    · exact hrest other (hafter ▸ mem_append_left _ hother)

theorem isBlock_of_lookup {text block : Text}
    (h : (splitParagraphBlocks text).lookup id = some block) : IsBlock id block := by
  rw [splitParagraphBlocks_eq] at h
  obtain ⟨part, hpart, heq⟩ := mem_map.mp (mem_of_lookup_tableOf h)
  obtain ⟨rfl, rfl⟩ := Prod.mk.inj heq
  refine isBlock_joinBlock (fun line hline => ?_) (isSection_of_mem hpart)
  refine newline_notMem_of_mem text ?_
  rw [← sections_flatten paragraphMarker (strLines text)]
  exact mem_append_right _ (mem_flatMap.mpr ⟨part, hpart, hline⟩)

theorem isPreamble_paragraphPreamble (text : Text) : IsPreamble (paragraphPreamble text) := by
  refine ⟨fun line hline => ?_, trimmed_joinBlock _⟩
  rw [paragraphPreamble, takeWhile_eq_sections] at hline
  have hnewline : ∀ line ∈ (sections paragraphMarker (strLines text)).1, '\n' ∉ line := by
    intro line hline
    refine newline_notMem_of_mem text ?_
    rw [← sections_flatten paragraphMarker (strLines text)]
    exact mem_append_left _ hline
  rw [joinBlock_eq hnewline] at hline
  have hsub := (List.rdropWhile_prefix (· == [])
    (l := (sections paragraphMarker (strLines text)).1)).subset
  by_cases hnil : (sections paragraphMarker (strLines text)).1.rdropWhile (· == []) = []
  · rw [hnil] at hline
    have hline : line ∈ [[]] := hline
    rw [mem_singleton.mp hline]
    decide
  · rw [splitOn_joinLines hnil fun other hother => hnewline other (hsub hother)] at hline
    exact keyless_of_mem_sections (hsub hline)

theorem nodup_paragraphOrder (text : Text) : (paragraphOrder text).Nodup :=
  nodup_paragraphOrderFrom _ _

/-- No line of a text ends in a carriage return. -/
def NoReturns (text : Text) : Prop := ∀ line ∈ text.splitOn '\n', line.getLast? ≠ some '\r'

/-- Sections with an empty line between any two. -/
def spaced : List (String × List Text) → List (String × List Text)
  | [] => []
  | [part] => [part]
  | part :: next :: parts => (part.1, part.2 ++ [[]]) :: spaced (next :: parts)

theorem flatMap_spaced : ∀ parts : List (String × List Text),
    (spaced parts).flatMap Prod.snd = [[]].intercalate (parts.map Prod.snd)
  | [] => rfl
  | [part] => by
    rw [spaced, flatMap_singleton, map_singleton, intercalate_singleton]
  | part :: next :: parts => by
    rw [spaced, flatMap_cons, flatMap_spaced (next :: parts), map_cons, map_cons,
      map_cons, intercalate_cons_cons]

theorem map_joinBlock_spaced : ∀ {parts : List (String × List Text)},
    (∀ part ∈ parts, part.2 ≠ []) →
      (spaced parts).map (fun part => (part.1, joinBlock part.2)) =
        parts.map fun part => (part.1, joinBlock part.2)
  | [], _ => rfl
  | [_], _ => rfl
  | part :: next :: parts, h => by
    rw [spaced, map_cons, map_cons,
      map_joinBlock_spaced fun other hother => h other (mem_cons_of_mem _ hother),
      joinBlock_concat_nil (h part mem_cons_self)]

theorem isSection_spaced : ∀ {parts : List (String × List Text)},
    (∀ part ∈ parts, IsSection paragraphMarker part) →
      ∀ part ∈ spaced parts, IsSection paragraphMarker part
  | [], _, _, hpart => by cases hpart
  | [_], h, part, hpart => h part hpart
  | first :: next :: parts, h, part, hpart => by
    rw [spaced, mem_cons] at hpart
    rcases hpart with rfl | hpart
    · obtain ⟨entry, rest, hlines, hentry, hrest⟩ := h first mem_cons_self
      refine ⟨entry, rest ++ [[]], by rw [hlines, cons_append], hentry, fun other hother => ?_⟩
      rcases mem_append.mp hother with hother | hother
      · exact hrest other hother
      · rw [mem_singleton.mp hother]
        decide
    · exact isSection_spaced (fun other hother => h other (mem_cons_of_mem _ hother)) part
        hpart

theorem mem_flatMap_spaced (hline : line ≠ []) :
    ∀ {parts : List (String × List Text)},
      line ∈ (spaced parts).flatMap Prod.snd ↔ ∃ part ∈ parts, line ∈ part.2
  | [] => by simp [spaced]
  | [part] => by simp [spaced]
  | part :: next :: parts => by
    rw [spaced, flatMap_cons, mem_append, mem_flatMap_spaced hline]
    simp [hline]

/-! ## A text put together -/

/-- The text reads as the head and the blocks that it was put together from. -/
structure Rewritten (preamble : Text) (blocks : List (String × Text)) (text : Text) : Prop where
  preamble : paragraphPreamble text = preamble
  order : paragraphOrder text = blocks.map Prod.fst
  blocks : ∀ block ∈ blocks, (splitParagraphBlocks text).lookup block.1 = some block.2

/-- The lines before the first block. -/
def leadingLines (preamble : Text) : List Text :=
  if preamble = [] then [] else preamble.splitOn '\n' ++ [[]]

def blockLines (blocks : List (String × Text)) : List (String × List Text) :=
  blocks.map fun block => (block.1, block.2.splitOn '\n')

section Rewrite

variable {preamble : Text} {blocks : List (String × Text)}

/-- The lines of a text put together, each without its carriage return. -/
theorem strLines_rewrite (hblocks : blocks ≠ []) :
    strLines (rewrite preamble (blocks.map Prod.snd)) =
      (leadingLines preamble ++ (spaced (blockLines blocks)).flatMap Prod.snd).map cutReturn := by
  have hlines : (blocks.map Prod.snd).map (·.splitOn '\n') = (blockLines blocks).map Prod.snd := by
    rw [blockLines, map_map, map_map]
    rfl
  rw [rewrite, strLines_newline, flatMap_spaced, ← hlines, leadingLines]
  split
  · rw [nil_append, nil_append, splitOn_intercalate_blank (by simpa using hblocks)]
  · obtain ⟨first, rest, rfl⟩ := exists_cons_of_ne_nil hblocks
    rw [singleton_append, splitOn_intercalate_blank (cons_ne_nil _ _), map_cons,
      map_cons, map_cons, intercalate_cons_cons]

theorem sections_lines (hpreamble : IsPreamble preamble)
    (hblocks : ∀ block ∈ blocks, IsBlock block.1 block.2) :
    sections paragraphMarker (leadingLines preamble ++
      (spaced (blockLines blocks)).flatMap Prod.snd) =
        (leadingLines preamble, spaced (blockLines blocks)) := by
  refine sections_parts (fun line hline => ?_) (isSection_spaced fun part hpart => ?_)
  · rw [leadingLines] at hline
    split at hline
    · cases hline
    · rcases mem_append.mp hline with hline | hline
      · exact hpreamble.unmarked line hline
      · rw [mem_singleton.mp hline]
        decide
  · obtain ⟨block, hblock, rfl⟩ := mem_map.mp hpart
    exact (hblocks block hblock).marked

theorem joinBlock_leadingLines (hpreamble : IsPreamble preamble) :
    joinBlock (leadingLines preamble) = preamble := by
  rw [leadingLines]
  split
  · rename_i h
    rw [h]
    rfl
  · rw [joinBlock_concat_nil (splitOn_ne_nil _ _), joinBlock_splitOn hpreamble.trimmed]

theorem map_joinBlock_blockLines (hblocks : ∀ block ∈ blocks, IsBlock block.1 block.2) :
    (spaced (blockLines blocks)).map (fun part => (part.1, joinBlock part.2)) = blocks := by
  rw [map_joinBlock_spaced, blockLines, map_map]
  · refine (map_congr_left fun block hblock => ?_).trans (map_id _)
    show (block.1, joinBlock (block.2.splitOn '\n')) = block
    rw [joinBlock_splitOn (hblocks block hblock).trimmed]
  · intro part hpart
    obtain ⟨block, -, rfl⟩ := mem_map.mp hpart
    exact splitOn_ne_nil _ _

/-- A carriage return at the end of a line comes from a line that was put there. -/
theorem lines_noReturns_iff :
    (∀ line ∈ leadingLines preamble ++ (spaced (blockLines blocks)).flatMap Prod.snd,
      line.getLast? ≠ some '\r') ↔
        NoReturns preamble ∧ ∀ block ∈ blocks, NoReturns block.2 := by
  have hleading : ∀ line : Text, line.getLast? = some '\r' →
      (line ∈ leadingLines preamble ↔ line ∈ preamble.splitOn '\n') := by
    intro line hline
    have hne : line ≠ [] := fun h => by simp [h] at hline
    rw [leadingLines]
    split
    · rename_i h
      simp [h, hne]
    · rw [mem_append, mem_singleton, or_iff_left hne]
  have hblocks : ∀ line : Text, line.getLast? = some '\r' →
      (line ∈ (spaced (blockLines blocks)).flatMap Prod.snd ↔
        ∃ block ∈ blocks, line ∈ block.2.splitOn '\n') := by
    intro line hline
    have hne : line ≠ [] := fun h => by simp [h] at hline
    rw [mem_flatMap_spaced hne]
    simp [blockLines]
  refine ⟨fun h => ⟨fun line hline hreturn => ?_, fun block hblock line hline hreturn => ?_⟩,
    fun h line hline hreturn => ?_⟩
  · exact h line (mem_append_left _ ((hleading line hreturn).mpr hline)) hreturn
  · exact h line (mem_append_right _
      ((hblocks line hreturn).mpr ⟨block, hblock, hline⟩)) hreturn
  · rcases mem_append.mp hline with hline | hline
    · exact h.1 line ((hleading line hreturn).mp hline) hreturn
    · obtain ⟨block, hblock, hline⟩ := (hblocks line hreturn).mp hline
      exact h.2 block hblock line hline hreturn

theorem map_fst_spaced (hblocks : ∀ block ∈ blocks, IsBlock block.1 block.2) :
    (spaced (blockLines blocks)).map Prod.fst = blocks.map Prod.fst := by
  have h := congrArg (List.map Prod.fst) (map_joinBlock_blockLines hblocks)
  rwa [map_map] at h

theorem rewritten_of_noReturns (hpreamble : IsPreamble preamble)
    (hblocks : ∀ block ∈ blocks, IsBlock block.1 block.2) (hnodup : (blocks.map Prod.fst).Nodup)
    (hsome : blocks ≠ []) (hreturns : NoReturns preamble ∧ ∀ block ∈ blocks, NoReturns block.2) :
    Rewritten preamble blocks (rewrite preamble (blocks.map Prod.snd)) := by
  have hlines : strLines (rewrite preamble (blocks.map Prod.snd)) =
      leadingLines preamble ++ (spaced (blockLines blocks)).flatMap Prod.snd := by
    rw [strLines_rewrite hsome]
    refine (map_congr_left fun line hline => ?_).trans (map_id _)
    exact if_neg (lines_noReturns_iff.mpr hreturns line hline)
  have hsections := sections_lines hpreamble hblocks
  refine ⟨?_, ?_, fun block hblock => ?_⟩
  · rw [paragraphPreamble, takeWhile_eq_sections, hlines, hsections,
      joinBlock_leadingLines hpreamble]
  · have hkeys : (strLines (rewrite preamble (blocks.map Prod.snd))).filterMap paragraphMarker =
        blocks.map Prod.fst := by
      rw [← map_fst_sections, hlines, hsections, map_fst_spaced hblocks]
    rw [paragraphOrder, paragraphOrderFrom_of_nodup (hkeys ▸ hnodup) (by simp), hkeys]
  · rw [splitParagraphBlocks_eq, hlines, hsections, map_joinBlock_blockLines hblocks]
    exact lookup_tableOf_of_mem hnodup hblock

/-! ## What is lost -/

/-- The characters of a text other than newlines. -/
def ink (text : Text) : ℕ := (text.filter (· ≠ '\n')).length

theorem ink_eq_splitOn (text : Text) : ink text = (text.splitOn '\n').flatten.length := by
  show _ = (text.splitOnP (· == '\n')).flatten.length
  rw [flatten_splitOnP, ink]
  congr 2
  funext c
  simp [Bool.beq_eq_decide_eq]

theorem ink_joinLines_le : ∀ lines : List Text, ink (joinLines lines) ≤ lines.flatten.length
  | [] => Nat.zero_le _
  | [line] => by
    rw [show joinLines [line] = line from intercalate_singleton, flatten_singleton, ink]
    exact length_filter_le _ _
  | line :: next :: lines => by
    have ih := ink_joinLines_le (next :: lines)
    have hline : (line.filter (· ≠ '\n')).length ≤ line.length := length_filter_le _ _
    rw [ink] at ih ⊢
    rw [joinLines_cons_cons, filter_append, filter_cons_of_neg (by decide),
      length_append, flatten_cons, length_append]
    omega

theorem ink_joinBlock_le (lines : List Text) : ink (joinBlock lines) ≤ lines.flatten.length := by
  refine le_trans ?_ (ink_joinLines_le lines)
  exact ((List.rdropWhile_prefix _ _).sublist.filter _).length_le

/-- What is read of a text has no more ink than its lines. -/
theorem sum_ink_le (text : Text) :
    ink (paragraphPreamble text) + ∑ id ∈ (paragraphOrder text).toFinset,
        ((splitParagraphBlocks text).lookup id).elim 0 ink ≤ (strLines text).flatten.length := by
  have hread := sections_flatten paragraphMarker (strLines text)
  have hids : (paragraphOrder text).toFinset = (((sections paragraphMarker (strLines text)).2.map
      fun part => (part.1, joinBlock part.2)).map Prod.fst).toFinset := by
    ext id
    rw [mem_toFinset, mem_toFinset, map_map, paragraphOrder, mem_paragraphOrderFrom,
      ← map_fst_sections]
    simp [Function.comp_def]
  have hblocks := sum_lookup_tableOf_le ink
    ((sections paragraphMarker (strLines text)).2.map fun part => (part.1, joinBlock part.2))
  have hsections : ((((sections paragraphMarker (strLines text)).2.map
      fun part => (part.1, joinBlock part.2)).map fun part => ink part.2)).sum ≤
        ((sections paragraphMarker (strLines text)).2.flatMap Prod.snd).flatten.length := by
    generalize (sections paragraphMarker (strLines text)).2 = parts
    induction parts with
    | nil => exact le_refl 0
    | cons part parts ih =>
      have hfirst := ink_joinBlock_le part.2
      simp only [map_cons, sum_cons, flatMap_cons, flatten_append,
        length_append]
      omega
  have hpreamble := ink_joinBlock_le (sections paragraphMarker (strLines text)).1
  have hall := congrArg (fun lines => lines.flatten.length) hread
  simp only [flatten_append, length_append] at hall
  rw [splitParagraphBlocks_eq, hids, paragraphPreamble, takeWhile_eq_sections]
  omega

theorem length_cutReturn_le (line : Text) : (cutReturn line).length ≤ line.length := by
  rw [cutReturn]
  split
  · rw [length_dropLast]
    omega
  · exact le_refl _

/-- Where nothing is lost, no line has ended in a carriage return. -/
theorem getLast?_of_length_le : ∀ {lines : List Text},
    lines.flatten.length ≤ (lines.map cutReturn).flatten.length →
      ∀ line ∈ lines, line.getLast? ≠ some '\r'
  | [], _, _, hline => by cases hline
  | first :: lines, h, line, hline => by
    have hfirst := length_cutReturn_le first
    have hrest : (lines.map cutReturn).flatten.length ≤ lines.flatten.length := by
      clear h hline
      induction lines with
      | nil => exact le_refl _
      | cons next lines ih =>
        have hnext := length_cutReturn_le next
        simp only [map_cons, flatten_cons, length_append]
        omega
    simp only [map_cons, flatten_cons, length_append] at h
    rcases mem_cons.mp hline with rfl | hline
    · intro hreturn
      have hne : line ≠ [] := fun hnil => by simp [hnil] at hreturn
      have hpos := length_pos_iff.mpr hne
      have hcut : (cutReturn line).length = line.length - 1 := by
        rw [cutReturn, if_pos hreturn, length_dropLast]
      omega
    · exact getLast?_of_length_le (by omega) line hline

/-- **A text put together reads as its parts** exactly when none has a carriage return at the end
of a line. -/
theorem rewritten_iff (hpreamble : IsPreamble preamble)
    (hblocks : ∀ block ∈ blocks, IsBlock block.1 block.2) (hnodup : (blocks.map Prod.fst).Nodup)
    (hsome : blocks ≠ []) :
    Rewritten preamble blocks (rewrite preamble (blocks.map Prod.snd)) ↔
      NoReturns preamble ∧ ∀ block ∈ blocks, NoReturns block.2 := by
  refine ⟨fun h => ?_, rewritten_of_noReturns hpreamble hblocks hnodup hsome⟩
  rw [← lines_noReturns_iff]
  refine getLast?_of_length_le ?_
  have hread := sum_ink_le (rewrite preamble (blocks.map Prod.snd))
  rw [h.preamble, h.order, strLines_rewrite hsome] at hread
  refine le_trans ?_ hread
  have hsum : ∑ id ∈ (blocks.map Prod.fst).toFinset,
      ((splitParagraphBlocks (rewrite preamble (blocks.map Prod.snd))).lookup id).elim 0 ink =
        (blocks.map fun block => ink block.2).sum := by
    rw [sum_toFinset _ hnodup, map_map]
    refine congrArg List.sum (map_congr_left fun block hblock => ?_)
    show ((splitParagraphBlocks _).lookup block.1).elim 0 ink = _
    rw [h.blocks block hblock]
    rfl
  have hspaced : ∀ parts : List (String × List Text),
      ((spaced parts).flatMap Prod.snd).flatten.length =
        (parts.map fun part => part.2.flatten.length).sum := by
    intro parts
    induction parts using spaced.induct with
    | case1 => rfl
    | case2 part => simp [spaced]
    | case3 part next parts ih =>
      rw [spaced, flatMap_cons, flatten_append, length_append, ih, map_cons,
        sum_cons]
      simp
  have hlines : (blockLines blocks).map (fun part => part.2.flatten.length) =
      blocks.map fun block => ink block.2 := by
    rw [blockLines, map_map]
    exact map_congr_left fun block _ => (ink_eq_splitOn block.2).symm
  have hleading : (leadingLines preamble).flatten.length = ink preamble := by
    rw [leadingLines]
    split
    · rename_i hnil
      rw [hnil]
      rfl
    · rw [flatten_append, length_append, ink_eq_splitOn]
      rfl
  rw [flatten_append, length_append, hleading, hspaced, hlines, hsum]

end Rewrite

end Docx2Typed.Store
