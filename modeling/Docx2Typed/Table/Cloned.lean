import Docx2Typed.Prose.RevisionIds
import Docx2Typed.XmlWalker.Tokens

/-!
# Copying a row

`insert-row` copies the row it stands behind with `clone_row_with_empty_cells`, which goes through
the tags of the row once: it puts `<w:p/>` where a paragraph begins and leaves everything out up to
the next `</w:p>`, and leaves out nested tables up to the next `</w:tbl>`.  Neither counts how many
are open, and a second paragraph of a cell is a second `<w:p/>`.
-/

namespace Docx2Typed

open Library List

/-! ## The copy -/

structure CloneScan where
  out : Bytes := []
  cursor : Nat := 0
  skipDepth : Nat := 0
  skipName : Option String := none
  deriving DecidableEq, Repr

def emptyParagraph : Bytes := bytes "<w:p/>"

def cloneStep (row : Bytes) (s : CloneScan) (tag : Tag) : CloneScan :=
  match s.skipName with
  | some skip =>
    { s with
      cursor := tag.stop
      skipName := if tag.closing = true ∧ tag.name = skip then none else some skip }
  | none =>
    let out := if s.skipDepth = 0 then s.out ++ slice row s.cursor tag.start else s.out
    let s := { s with out, cursor := tag.stop }
    if tag.name = "p" ∧ tag.closing = false ∧ tag.selfClosing = false then
      { s with out := s.out ++ emptyParagraph, skipDepth := 1 }
    else if tag.name = "p" ∧ tag.closing = true ∧ 0 < s.skipDepth then
      { s with skipDepth := s.skipDepth - 1 }
    else if tag.name = "tbl" ∧ tag.closing = false ∧ tag.selfClosing = false then
      { s with skipName := some tag.name }
    else if 0 < s.skipDepth then s
    else { s with out := s.out ++ slice row tag.start tag.stop }

/-- What stands behind the last tag is kept outside of everything left out. -/
def CloneScan.finish (row : Bytes) (s : CloneScan) : Bytes :=
  if s.skipDepth = 0 ∧ s.skipName = none then s.out ++ row.drop s.cursor else s.out

/-- `clone_row_with_empty_cells`. -/
def cloneRowWithEmptyCells (row : Bytes) : Bytes :=
  ((scanTags row).foldl (cloneStep row) {}).finish row

/-! ## The tags of the copy -/

abbrev isParagraph : String → Bool := hasLocalName "p"

abbrev isTable : String → Bool := hasLocalName "tbl"

/-- The tags left of those of a row. -/
def clearedTokens (tokens : List Bytes) : List Bytes :=
  leaveOutBoth tokenBracket isTable isParagraph [emptyParagraph] tokens

/-- Between two tags: the scan stands at the end of a tag, and what it has written is whole. -/
structure CloneScan.Stands (s : CloneScan) (offset : Nat) : Prop where
  cursor : s.cursor = offset
  whole : Complete s.out
  depth : s.skipDepth ≤ 1
  name : s.skipName = none ∨ s.skipName = some "tbl"

/-- What the scan will have left of the tags to come. -/
def CloneScan.keeps (s : CloneScan) (tokens : List Bytes) : List Bytes :=
  leaveOut tokenBracket isParagraph [emptyParagraph] (decide (0 < s.skipDepth))
    (leaveOut tokenBracket isTable [] s.skipName.isSome tokens)

theorem isToken_emptyParagraph : IsToken emptyParagraph := ⟨by decide, by decide⟩

theorem tokenTag_emptyParagraph : tokenTag emptyParagraph =
    some { name := "p", rawName := "w:p", closing := false, selfClosing := true, start := 0, stop := 0 } := by
  decide

section Step

variable {row gap token : Bytes} {s : CloneScan} {tag : Tag} {offset : Nat}

/-- One tag, and the bytes between it and the tag before it. -/
structure Reaches (row gap token : Bytes) (offset : Nat) (tag : Tag) : Prop where
  front : slice row offset tag.start = gap
  between : Complete gap
  noTag : tagTokens gap = []
  written : slice row tag.start tag.stop = token
  isToken : IsToken token
  parse : parseTag token tag.start tag.stop = some tag

theorem Reaches.opens (h : Reaches row gap token offset tag) (name : String) :
    opensNamed tokenBracket (hasLocalName name) token =
      decide (tag.name = name ∧ tag.closing = false ∧ tag.selfClosing = false) :=
  opensNamed_tokenBracket name h.parse

theorem Reaches.closes (h : Reaches row gap token offset tag) (name : String) :
    closesNamed tokenBracket (hasLocalName name) token =
      decide (tag.name = name ∧ tag.closing = true) :=
  closesNamed_tokenBracket name h.parse

section

variable (h : s.Stands offset)

include h

/-- Where a stretch is left out up to the end of a table, nothing is written. -/
theorem CloneScan.Stands.step_name (htag : Reaches row gap token offset tag)
    (hname : s.skipName = some "tbl") :
    (cloneStep row s tag).Stands tag.stop ∧ ∀ rest,
      tagTokens (cloneStep row s tag).out ++ (cloneStep row s tag).keeps rest =
        tagTokens s.out ++ s.keeps (token :: rest) := by
  rw [cloneStep, hname]
  dsimp only
  refine ⟨⟨rfl, h.whole, h.depth, ?_⟩, fun rest => ?_⟩
  · show (if tag.closing = true ∧ tag.name = "tbl" then none else some "tbl") = none ∨ _
    split
    · exact .inl rfl
    · exact .inr rfl
  · have hopens := htag.opens "tbl"
    have hcloses := htag.closes "tbl"
    simp only [CloneScan.keeps, hname, leaveOut, Option.isSome_some, if_true, nil_append,
      isTable, hopens, hcloses]
    cases hclosing : tag.closing with
    | true =>
      by_cases hn : tag.name = "tbl"
      · simp [hn]
      · simp [hn]
    | false => simp

/-- The gap in front of a tag holds none. -/
theorem CloneScan.Stands.inFront (htag : Reaches row gap token offset tag) :
    Complete (if s.skipDepth = 0 then s.out ++ slice row s.cursor tag.start else s.out) ∧
      tagTokens (if s.skipDepth = 0 then s.out ++ slice row s.cursor tag.start else s.out) =
        tagTokens s.out := by
  rw [h.cursor, htag.front]
  split
  · exact ⟨h.whole.append htag.between, by rw [tagTokens_append h.whole, htag.noTag, append_nil]⟩
  · exact ⟨h.whole, rfl⟩

theorem CloneScan.Stands.step_none (htag : Reaches row gap token offset tag)
    (hname : s.skipName = none) :
    (cloneStep row s tag).Stands tag.stop ∧ ∀ rest,
      tagTokens (cloneStep row s tag).out ++ (cloneStep row s tag).keeps rest =
        tagTokens s.out ++ s.keeps (token :: rest) := by
  obtain ⟨hwhole, htokens⟩ := h.inFront htag
  have hp := htag.opens "p"
  have hpc := htag.closes "p"
  have ht := htag.opens "tbl"
  rw [cloneStep, hname]
  dsimp only
  generalize (if s.skipDepth = 0 then s.out ++ slice row s.cursor tag.start else s.out) = out
    at hwhole htokens
  split_ifs with hopen hclose htable hdepth
  · -- a paragraph begins
    refine ⟨⟨rfl, hwhole.append (complete_token isToken_emptyParagraph), le_rfl, .inl rfl⟩,
      fun rest => ?_⟩
    rw [tagTokens_append hwhole, htokens,
      tagTokens_token isToken_emptyParagraph tokenTag_emptyParagraph, append_assoc]
    simp [CloneScan.keeps, hname, leaveOut, hp, ht, hopen]
  · -- it ends
    have hone : s.skipDepth = 1 := by
      have := h.depth
      omega
    refine ⟨⟨rfl, hwhole, by simp [hone], .inl rfl⟩, fun rest => ?_⟩
    rw [htokens]
    simp [CloneScan.keeps, hname, leaveOut, hp, hpc, ht, hclose, hone]
  · -- a nested table begins
    refine ⟨⟨rfl, hwhole, h.depth, .inr (congrArg some htable.1)⟩, fun rest => ?_⟩
    rw [htokens]
    simp [CloneScan.keeps, leaveOut, ht, htable]
  · -- inside a paragraph
    refine ⟨⟨rfl, hwhole, h.depth, .inl rfl⟩, fun rest => ?_⟩
    rw [htokens]
    have hstays : closesNamed tokenBracket isParagraph token = false := by
      rw [hpc]
      simp only [decide_eq_false_iff_not]
      exact fun hc => hclose ⟨hc.1, hc.2, hdepth⟩
    simp [CloneScan.keeps, hname, leaveOut, hp, ht, hopen, htable, hstays, hdepth]
  · -- outside of everything left out
    refine ⟨⟨rfl, ?_, h.depth, .inl rfl⟩, fun rest => ?_⟩
    · rw [htag.written]
      exact hwhole.append (complete_token htag.isToken)
    · rw [tagTokens_append hwhole, htokens, htag.written, tagTokens_token htag.isToken
        (tokenTag_of_parseTag htag.parse), append_assoc]
      simp [CloneScan.keeps, hname, leaveOut, hp, ht, hopen, htable, hdepth]

theorem CloneScan.Stands.step (htag : Reaches row gap token offset tag) :
    (cloneStep row s tag).Stands tag.stop ∧ ∀ rest,
      tagTokens (cloneStep row s tag).out ++ (cloneStep row s tag).keeps rest =
        tagTokens s.out ++ s.keeps (token :: rest) :=
  h.name.elim (h.step_none htag) (h.step_name htag)

end

end Step

theorem slice_middle_start (a b c : Bytes) {stop : Nat} (h : stop = a.length + b.length) :
    slice (a ++ (b ++ c)) a.length stop = b := by
  rw [h, show a.length = a.length + 0 from rfl, Nat.add_assoc, slice_append_right, Nat.zero_add,
    slice, take_left, drop_zero]

/-- The next tag of a row read up to some place. -/
theorem exists_reaches {row a b : Bytes} {tag : Tag} {tags : List Tag} (hrow : row = a ++ b)
    (hscan : scanAt a.length b = tag :: tags) : ∃ gap token rest,
      row = (a ++ (gap ++ token)) ++ rest ∧ Reaches row gap token a.length tag ∧
      tag.stop = (a ++ (gap ++ token)).length ∧
      scanAt (a ++ (gap ++ token)).length rest = tags ∧ tagTokens b = token :: tagTokens rest := by
  obtain ⟨gap, token, rest, rfl, hgap, htoken, hnone, hstart, hstop, hparse, hafter⟩ :=
    exists_split_of_scanAt (show scanAt a.length b = [] ++ tag :: tags from hscan)
  have hlength : tag.stop = (a ++ (gap ++ token)).length := by
    rw [length_append, length_append, hstop, hstart, Nat.add_assoc]
  refine ⟨gap, token, rest, by rw [hrow, append_assoc, append_assoc],
    { front := by rw [hrow]; exact slice_middle_start a gap _ hstart
      between := hgap
      noTag := tagTokens_of_scanAt_nil hnone
      written := by
        rw [hrow, ← append_assoc, hstart, ← length_append]
        exact slice_middle_start _ token rest (by rw [hstop, hstart, length_append])
      isToken := htoken
      parse := hparse }, hlength, hlength ▸ hafter, ?_⟩
  rw [tagTokens_append hgap, tagTokens_append (complete_token htoken),
    tagTokens_of_scanAt_nil hnone, tagTokens_token htoken (tokenTag_of_parseTag hparse),
    nil_append, singleton_append]

/-- The whole scan, from between two tags on. -/
theorem tagTokens_finish {row : Bytes} : ∀ {tags : List Tag} {a b : Bytes} {s : CloneScan},
    row = a ++ b → scanAt a.length b = tags → s.Stands a.length →
      tagTokens ((tags.foldl (cloneStep row) s).finish row) =
        tagTokens s.out ++ s.keeps (tagTokens b)
  | [], a, b, s, hrow, hscan, h => by
    have hnone : tagTokens b = [] := tagTokens_of_scanAt_nil hscan
    rw [foldl_nil, CloneScan.finish, hnone]
    have hkeeps : s.keeps [] = [] := rfl
    rw [hkeeps, append_nil]
    split
    · rw [tagTokens_append h.whole, hrow, h.cursor, drop_left, hnone, append_nil]
    · rfl
  | tag :: tags, a, b, s, hrow, hscan, h => by
    obtain ⟨gap, token, rest, hrow', htag, hlength, hafter, htokens⟩ := exists_reaches hrow hscan
    obtain ⟨hstands, hkeeps⟩ := h.step htag
    rw [foldl_cons, tagTokens_finish hrow' hafter (hlength ▸ hstands), hkeeps, htokens]

/-- The tags of the copy are those of the row, less what the two readers leave out. -/
theorem tagTokens_cloneRow (row : Bytes) :
    tagTokens (cloneRowWithEmptyCells row) = clearedTokens (tagTokens row) :=
  tagTokens_finish (a := []) rfl rfl
    ⟨rfl, complete_plain plain_nil, Nat.zero_le 1, .inl rfl⟩

/-! ## The copy of a copy -/

/-- A row without a start tag of a paragraph or of a table is copied as it is. -/
theorem cloneRow_quiet {row : Bytes} : ∀ {tags : List Tag} {a b : Bytes},
    row = a ++ b → scanAt a.length b = tags →
      (∀ t ∈ tagTokens b, opensNamed tokenBracket isTable t = false ∧
        opensNamed tokenBracket isParagraph t = false) →
      (tags.foldl (cloneStep row) { out := a, cursor := a.length }).finish row = row
  | [], a, b, hrow, _, _ => by
    rw [foldl_nil, CloneScan.finish, if_pos ⟨rfl, rfl⟩, hrow, drop_left]
  | tag :: tags, a, b, hrow, hscan, h => by
    obtain ⟨gap, token, rest, hrow', htag, hlength, hafter, htokens⟩ := exists_reaches hrow hscan
    rw [htokens, forall_mem_cons, htag.opens, htag.opens] at h
    obtain ⟨⟨htable, hparagraph⟩, hrest⟩ := h
    have hstep : cloneStep row { out := a, cursor := a.length } tag =
        { out := a ++ (gap ++ token), cursor := tag.stop } := by
      simp [cloneStep, of_decide_eq_false htable, of_decide_eq_false hparagraph, htag.front,
        htag.written]
    rw [foldl_cons, hstep, hlength]
    exact cloneRow_quiet hrow' hafter hrest

/-- Whatever the row, a copy of its copy is the same bytes again. -/
theorem cloneRow_cloneRow (row : Bytes) (n : Nat) :
    cloneRowWithEmptyCells^[n + 1] row = cloneRowWithEmptyCells row := by
  have hquiet : ∀ t ∈ tagTokens (cloneRowWithEmptyCells row),
      opensNamed tokenBracket isTable t = false ∧
        opensNamed tokenBracket isParagraph t = false := by
    intro t ht
    rw [tagTokens_cloneRow] at ht
    rcases mem_of_mem_leaveOut ht with hmark | ⟨hmem, hparagraph⟩
    · rw [mem_singleton.mp hmark]
      decide
    · exact ⟨((mem_of_mem_leaveOut hmem).resolve_left not_mem_nil).2, hparagraph⟩
  rw [Function.iterate_succ_apply]
  exact Function.iterate_fixed (cloneRow_quiet (a := []) rfl rfl hquiet) n

/-! ## What a row holds -/

/-- The cells of the row itself; what stands in a paragraph or in a nested table is none. -/
def rowCells : Forest Bytes → List (Forest Bytes)
  | .nil => []
  | .leaf t next => (if tokenName t = some "tc" then [.leaf t .nil] else []) ++ rowCells next
  | .node o children c next =>
    (if tokenName o = some "tc" then [.node o children c .nil]
      else if tokenName o = some "p" ∨ tokenName o = some "tbl" then []
      else rowCells children) ++ rowCells next

/-- The tags of the properties among the elements of a cell. -/
def propertyTokens : Forest Bytes → List Bytes
  | .nil => []
  | .leaf t next => (if tokenName t = some "tcPr" then [t] else []) ++ propertyTokens next
  | .node o children c next =>
    (if tokenName o = some "tcPr" then o :: (children.tokens ++ [c]) else []) ++ propertyTokens next

def cellProperties : Forest Bytes → List Bytes
  | .node _ children _ _ => propertyTokens children
  | _ => []

/-- How many paragraphs there are, at any depth. -/
def paragraphCount : Forest Bytes → Nat
  | .nil => 0
  | .leaf t next => (if tokenName t = some "p" then 1 else 0) + paragraphCount next
  | .node o children _ next =>
    (if tokenName o = some "p" then 1 else 0) + paragraphCount children + paragraphCount next

/-- The paragraphs that stand neither in another nor in a nested table. -/
def ownParagraphCount : Forest Bytes → Nat
  | .nil => 0
  | .leaf t next => (if tokenName t = some "p" then 1 else 0) + ownParagraphCount next
  | .node o children _ next =>
    (if tokenName o = some "tbl" then 0 else if tokenName o = some "p" then 1
      else ownParagraphCount children) + ownParagraphCount next

/-- The tags that stand neither in a paragraph nor in a nested table. -/
def ownTokens : Forest Bytes → List Bytes
  | .nil => []
  | .leaf t next => t :: ownTokens next
  | .node o children c next =>
    if tokenName o = some "tbl" ∨ tokenName o = some "p" then ownTokens next
    else o :: (ownTokens children ++ c :: ownTokens next)

/-- The tags of a row nest, one `w:tr` is around them, and no cell has a paragraph or a table in its
properties. -/
structure IsRow (row : Bytes) (F : Forest Bytes) : Prop where
  matched : F.Matched tokenBracket
  tokens : F.tokens = tagTokens row
  root : ∃ o children c, F = .node o children c .nil ∧ tokenName o = some "tr"
  properties : ∀ cell ∈ rowCells F, ∀ t ∈ cellProperties cell,
    opensNamed tokenBracket isTable t = false ∧ opensNamed tokenBracket isParagraph t = false

/-! ## What must not be copied -/

def textElements : List String := ["t", "delText"]

/-- The elements that record a tracked change. -/
def revisionMarks : List String :=
  ["ins", "del", "moveFrom", "moveTo", "moveFromRangeStart", "moveFromRangeEnd",
    "moveToRangeStart", "moveToRangeEnd", "cellIns", "cellDel", "cellMerge", "rPrChange",
    "pPrChange", "tcPrChange", "trPrChange", "tblPrChange", "tblPrExChange", "tblGridChange",
    "sectPrChange", "numberingChange"]

/-- The attributes whose values no two elements of a document may share. -/
def uniqueAttributes : List Bytes := [bytes "w:id", bytes "w14:paraId"]

def tokenAttributes (token : Bytes) : List (Bytes × Bytes) :=
  attributesFrom token.length ((token.drop 1).dropWhile isNameByte)

/-- Text, a mark of a tracked change, or an id: an attribute, or the `w:id` of a content control. -/
def carriesMark (token : Bytes) : Bool :=
  (tokenTag token).any (fun tag => decide (tag.name ∈ textElements ++ revisionMarks ++ ["id"])) ||
    (tokenAttributes token).any fun entry => decide (entry.1 ∈ uniqueAttributes)

/-- A row with the cells and the cell properties of another, one paragraph in each cell, and neither
text nor marks nor ids in it. -/
def IsEmptyCopy (F : Forest Bytes) (out : Bytes) : Prop :=
  ∃ G, IsRow out G ∧ (rowCells G).map cellProperties = (rowCells F).map cellProperties ∧
    ∀ cell ∈ rowCells G, paragraphCount cell = 1 ∧ ∀ t ∈ cell.tokens, carriesMark t = false

/-! ## The row without its paragraphs and nested tables -/

abbrev cleared (F : Forest Bytes) : Forest Bytes :=
  F.leftOut tokenBracket isTable isParagraph emptyParagraph

theorem apart_table_paragraph : Apart isTable isParagraph := by
  intro name hname
  simp only [hasLocalName, decide_eq_true_eq, decide_eq_false_iff_not] at hname ⊢
  rw [hname]
  decide

theorem tokenBracket_emptyParagraph : tokenBracket emptyParagraph = .single := by
  rw [tokenBracket, tokenTag_emptyParagraph]
  rfl

theorem tokenName_emptyParagraph : tokenName emptyParagraph = some "p" := by
  rw [tokenName, tokenTag_emptyParagraph]
  rfl

theorem carriesMark_emptyParagraph : carriesMark emptyParagraph = false := by
  decide

section Cleared

variable {o c : Bytes} {name : String} {children next : Forest Bytes}

theorem opensNamed_iff_tokenName (h : tokenBracket o = .opens name) (part : String) :
    opensNamed tokenBracket (hasLocalName part) o = true ↔ tokenName o = some part := by
  rw [opensNamed_of_opens h, hasLocalName, decide_eq_true_eq, tokenName]
  rw [tokenBracket] at h
  split at h
  · simp at h
  next tag htag =>
    have hname := parseTag_name htag
    split_ifs at h with hclosing hself
    rw [htag, Option.map_some, Option.some.injEq, hname, Bracket.opens.inj h]

theorem cleared_node (h : tokenBracket o = .opens name) :
    cleared (.node o children c next) =
      if tokenName o = some "tbl" then cleared next
      else if tokenName o = some "p" then .leaf emptyParagraph (cleared next)
      else .node o (cleared children) c (cleared next) := by
  simp only [cleared, Forest.leftOut, isTable, isParagraph, opensNamed_iff_tokenName h]

theorem cleared_eq_self : ∀ {F : Forest Bytes}, F.Matched tokenBracket →
    (∀ t ∈ F.tokens, opensNamed tokenBracket isTable t = false ∧
      opensNamed tokenBracket isParagraph t = false) → cleared F = F
  | .nil, _, _ => rfl
  | .leaf t next, hF, h =>
    congrArg (Forest.leaf t) (cleared_eq_self hF.2 fun s hs => h s (mem_cons_of_mem t hs))
  | .node o children c next, hF, h => by
    obtain ⟨⟨name, ho, hc⟩, hchildren, hnext⟩ := hF
    rw [Forest.tokens_node] at h
    obtain ⟨htable, hparagraph⟩ := h o mem_cons_self
    have hinside : cleared children = children := cleared_eq_self hchildren fun s hs =>
      h s (mem_cons_of_mem o (mem_append_left _ hs))
    have hafter : cleared next = next := cleared_eq_self hnext fun s hs =>
      h s (mem_cons_of_mem o (mem_append_right _ (mem_cons_of_mem c hs)))
    rw [Bool.eq_false_iff, ne_eq, opensNamed_iff_tokenName ho] at htable hparagraph
    rw [cleared_node ho, if_neg htable, if_neg hparagraph, hinside, hafter]

theorem rowCells_cleared : ∀ {F : Forest Bytes}, F.Matched tokenBracket →
    rowCells (cleared F) = (rowCells F).map cleared
  | .nil, _ => rfl
  | .leaf t next, hF => by
    have hnext := rowCells_cleared hF.2
    rw [cleared, Forest.leftOut, rowCells, rowCells, hnext, map_append]
    split
    · rfl
    · rfl
  | .node o children c next, hF => by
    obtain ⟨⟨name, ho, hc⟩, hchildren, hnext⟩ := hF
    have hinside := rowCells_cleared hchildren
    have hafter := rowCells_cleared hnext
    rw [cleared_node ho, rowCells, map_append, ← hafter]
    by_cases htable : tokenName o = some "tbl"
    · simp [htable]
    by_cases hparagraph : tokenName o = some "p"
    · simp [hparagraph, rowCells, tokenName_emptyParagraph]
    rw [if_neg htable, if_neg hparagraph, rowCells, hinside]
    congr 1
    by_cases hcell : tokenName o = some "tc"
    · rw [if_pos hcell, if_pos hcell, map_singleton, cleared_node ho, if_neg htable,
        if_neg hparagraph]
      rfl
    · simp [hcell, htable, hparagraph]

theorem propertyTokens_cleared : ∀ {F : Forest Bytes}, F.Matched tokenBracket →
    (∀ t ∈ propertyTokens F, opensNamed tokenBracket isTable t = false ∧
      opensNamed tokenBracket isParagraph t = false) →
      propertyTokens (cleared F) = propertyTokens F
  | .nil, _, _ => rfl
  | .leaf t next, hF, h => by
    rw [propertyTokens] at h
    rw [cleared, Forest.leftOut, propertyTokens, propertyTokens,
      propertyTokens_cleared hF.2 fun s hs => h s (mem_append_right _ hs)]
  | .node o children c next, hF, h => by
    obtain ⟨⟨name, ho, hc⟩, hchildren, hnext⟩ := hF
    rw [propertyTokens] at h
    have hafter := propertyTokens_cleared hnext fun s hs => h s (mem_append_right _ hs)
    rw [cleared_node ho, propertyTokens, ← hafter]
    by_cases htable : tokenName o = some "tbl"
    · simp [htable]
    by_cases hparagraph : tokenName o = some "p"
    · simp [hparagraph, propertyTokens, tokenName_emptyParagraph]
    rw [if_neg htable, if_neg hparagraph, propertyTokens]
    congr 1
    split
    next hprops =>
      rw [if_pos hprops] at h
      rw [cleared_eq_self hchildren fun s hs => h s (mem_append_left _
        (mem_cons_of_mem o (mem_append_left _ hs)))]
    · rfl

theorem paragraphCount_cleared : ∀ {F : Forest Bytes}, F.Matched tokenBracket →
    paragraphCount (cleared F) = ownParagraphCount F
  | .nil, _ => rfl
  | .leaf t next, hF => by
    rw [cleared, Forest.leftOut, paragraphCount, ownParagraphCount, paragraphCount_cleared hF.2]
  | .node o children c next, hF => by
    obtain ⟨⟨name, ho, hc⟩, hchildren, hnext⟩ := hF
    have hinside := paragraphCount_cleared hchildren
    have hafter := paragraphCount_cleared hnext
    rw [cleared_node ho, ownParagraphCount]
    split
    · rw [hafter, Nat.zero_add]
    next htable =>
      split
      · rw [paragraphCount, hafter, if_pos tokenName_emptyParagraph]
      next hparagraph =>
        rw [paragraphCount, hinside, hafter, if_neg hparagraph, Nat.zero_add]

/-- The marks put for paragraphs are the only tags of the copy that are not among the row's own. -/
theorem forall_mem_tokens_cleared {P : Bytes → Prop} (hmark : P emptyParagraph) :
    ∀ {F : Forest Bytes}, F.Matched tokenBracket →
      ((∀ t ∈ (cleared F).tokens, P t) ↔ ∀ t ∈ ownTokens F, P t)
  | .nil, _ => Iff.rfl
  | .leaf t next, hF => by
    rw [cleared, Forest.leftOut, Forest.tokens_leaf, ownTokens, forall_mem_cons,
      forall_mem_cons]
    exact and_congr_right fun _ => forall_mem_tokens_cleared hmark hF.2
  | .node o children c next, hF => by
    obtain ⟨⟨name, ho, hc⟩, hchildren, hnext⟩ := hF
    have hinside := forall_mem_tokens_cleared hmark hchildren
    have hafter := forall_mem_tokens_cleared hmark hnext
    rw [cleared_node ho, ownTokens]
    by_cases htable : tokenName o = some "tbl"
    · rw [if_pos htable, if_pos (.inl htable), hafter]
    by_cases hparagraph : tokenName o = some "p"
    · rw [if_neg htable, if_pos hparagraph, if_pos (.inr hparagraph), Forest.tokens_leaf,
        forall_mem_cons, hafter]
      exact and_iff_right hmark
    · rw [if_neg htable, if_neg hparagraph, if_neg (by simp [htable, hparagraph]),
        Forest.tokens_node]
      simp only [forall_mem_cons, forall_mem_append, hinside, hafter]

end Cleared

/-- A cell is one element. -/
theorem exists_of_mem_rowCells {cell : Forest Bytes} : ∀ {F : Forest Bytes},
    F.Matched tokenBracket → cell ∈ rowCells F → cell.Matched tokenBracket ∧
      ((∃ t, cell = .leaf t .nil) ∨
        ∃ o children c, cell = .node o children c .nil ∧ tokenName o = some "tc")
  | .nil, _, h => absurd h not_mem_nil
  | .leaf t next, hF, h => by
    rw [rowCells] at h
    rcases mem_append.mp h with h | h
    · split at h
      · obtain rfl := mem_singleton.mp h
        exact ⟨⟨hF.1, trivial⟩, .inl ⟨t, rfl⟩⟩
      · exact absurd h not_mem_nil
    · exact exists_of_mem_rowCells hF.2 h
  | .node o children c next, hF, h => by
    rw [rowCells] at h
    rcases mem_append.mp h with h | h
    · split at h
      next hcell =>
        obtain rfl := mem_singleton.mp h
        exact ⟨⟨hF.1, hF.2.1, trivial⟩, .inr ⟨o, children, c, rfl, hcell⟩⟩
      next =>
        split at h
        · exact absurd h not_mem_nil
        · exact exists_of_mem_rowCells hF.2.1 h
    · exact exists_of_mem_rowCells hF.2.2 h

theorem IsRow.cellProperties_cleared {row : Bytes} {F : Forest Bytes} (h : IsRow row F) :
    (rowCells (cleared F)).map cellProperties = (rowCells F).map cellProperties := by
  rw [rowCells_cleared h.matched, map_map]
  refine map_congr_left fun cell hcell => ?_
  have hproperties := h.properties cell hcell
  obtain ⟨hmatched, ⟨t, rfl⟩ | ⟨o, children, c, rfl, hname⟩⟩ :=
    exists_of_mem_rowCells h.matched hcell
  · rfl
  · obtain ⟨⟨name, ho, -⟩, hchildren, -⟩ := hmatched
    rw [Function.comp_apply, cleared_node ho, hname, if_neg (by decide), if_neg (by decide)]
    exact propertyTokens_cleared hchildren hproperties

/-- Where the readers end every paragraph and table, the copy is the row without them. -/
theorem IsRow.clone {row : Bytes} {F : Forest Bytes} (h : IsRow row F)
    (hends : F.Skippable tokenBracket isTable isParagraph) :
    IsRow (cloneRowWithEmptyCells row) (cleared F) := by
  refine ⟨h.matched.leftOut tokenBracket_emptyParagraph, ?_, ?_, ?_⟩
  · rw [tagTokens_cloneRow, clearedTokens, ← h.tokens,
      leaveOutBoth_tokens apart_table_paragraph h.matched hends]
  · obtain ⟨o, children, c, rfl, hname⟩ := h.root
    obtain ⟨⟨name, ho, -⟩, -⟩ := h.matched
    refine ⟨o, cleared children, c, ?_, hname⟩
    rw [cleared_node ho, hname, if_neg (by decide), if_neg (by decide)]
    rfl
  · intro cell hcell
    have hmem := mem_map_of_mem (f := cellProperties) hcell
    rw [h.cellProperties_cleared] at hmem
    obtain ⟨own, hown, heq⟩ := mem_map.mp hmem
    rw [← heq]
    exact h.properties own hown

/-- The copy is an empty one exactly when no table of the row holds another, no paragraph tag stands
in a paragraph other than between a `<w:tbl>` and the next `</w:tbl>`, every cell has one paragraph of
its own, and there is neither text nor a mark nor an id outside its paragraphs and tables. -/
theorem isEmptyCopy_iff {row : Bytes} {F : Forest Bytes} (h : IsRow row F) :
    IsEmptyCopy F (cloneRowWithEmptyCells row) ↔
      F.Skippable tokenBracket isTable isParagraph ∧ ∀ cell ∈ rowCells F,
        ownParagraphCount cell = 1 ∧ ∀ t ∈ ownTokens cell, carriesMark t = false := by
  have hcells : (∀ cell ∈ rowCells (cleared F), paragraphCount cell = 1 ∧
      ∀ t ∈ cell.tokens, carriesMark t = false) ↔ ∀ cell ∈ rowCells F,
        ownParagraphCount cell = 1 ∧ ∀ t ∈ ownTokens cell, carriesMark t = false := by
    rw [rowCells_cleared h.matched, List.forall_mem_map]
    refine forall₂_congr fun cell hcell => ?_
    have hmatched := (exists_of_mem_rowCells h.matched hcell).1
    rw [paragraphCount_cleared hmatched]
    exact and_congr_right fun _ =>
      forall_mem_tokens_cleared (P := fun t => carriesMark t = false) carriesMark_emptyParagraph
        hmatched
  constructor
  · rintro ⟨G, hG, -, hempty⟩
    have htokens : G.tokens = leaveOutBoth tokenBracket isTable isParagraph [emptyParagraph]
        F.tokens := by
      rw [hG.tokens, tagTokens_cloneRow, h.tokens]
      rfl
    have hends := skippable_of_matched apart_table_paragraph tokenBracket_emptyParagraph h.matched
      hG.matched htokens
    obtain rfl : G = cleared F := hG.matched.eq_of_tokens (h.clone hends).matched
      (hG.tokens.trans (h.clone hends).tokens.symm)
    exact ⟨hends, hcells.mp hempty⟩
  · rintro ⟨hends, hempty⟩
    exact ⟨cleared F, h.clone hends, h.cellProperties_cleared, hcells.mpr hempty⟩

/-! ## Two rows -/

def rowOpen : Bytes := bytes "<w:tr>"
def cellOpen : Bytes := bytes "<w:tc>"
def paragraphOpen : Bytes := bytes "<w:p>"
def paragraphClose : Bytes := bytes "</w:p>"
def cellClose : Bytes := bytes "</w:tc>"
def rowClose : Bytes := bytes "</w:tr>"

/-- A paragraph with one text. -/
def textParagraph (next : Forest Bytes) : Forest Bytes :=
  .node paragraphOpen (.node (bytes "<w:r>") (.node (bytes "<w:t>") .nil (bytes "</w:t>") .nil)
    (bytes "</w:r>") .nil) paragraphClose next

/-- A row of one cell. -/
def oneCellRow (content : Forest Bytes) : Forest Bytes :=
  .node rowOpen (.node cellOpen content cellClose .nil) rowClose .nil

def oneParagraphRow : Bytes := bytes "<w:tr><w:tc><w:p><w:r><w:t>a</w:t></w:r></w:p></w:tc></w:tr>"

def twoParagraphRow : Bytes :=
  bytes "<w:tr><w:tc><w:p><w:r><w:t>a</w:t></w:r></w:p><w:p><w:r><w:t>b</w:t></w:r></w:p></w:tc></w:tr>"

theorem matched_textParagraph {next : Forest Bytes} (h : next.Matched tokenBracket) :
    (textParagraph next).Matched tokenBracket :=
  ⟨⟨"w:p", by decide, by decide⟩, ⟨⟨"w:r", by decide, by decide⟩,
    ⟨⟨"w:t", by decide, by decide⟩, trivial, trivial⟩, trivial⟩, h⟩

theorem matched_oneCellRow {content : Forest Bytes} (h : content.Matched tokenBracket) :
    (oneCellRow content).Matched tokenBracket :=
  ⟨⟨"w:tr", by decide, by decide⟩, ⟨⟨"w:tc", by decide, by decide⟩, h, trivial⟩, trivial⟩

theorem isRow_oneParagraphRow : IsRow oneParagraphRow (oneCellRow (textParagraph .nil)) where
  matched := matched_oneCellRow (matched_textParagraph trivial)
  tokens := by decide
  root := ⟨_, _, _, rfl, by decide⟩
  properties := by decide

theorem isRow_twoParagraphRow :
    IsRow twoParagraphRow (oneCellRow (textParagraph (textParagraph .nil))) where
  matched := matched_oneCellRow (matched_textParagraph (matched_textParagraph trivial))
  tokens := by decide
  root := ⟨_, _, _, rfl, by decide⟩
  properties := by decide

theorem oneParagraphRow_isEmptyCopy :
    IsEmptyCopy (oneCellRow (textParagraph .nil)) (cloneRowWithEmptyCells oneParagraphRow) :=
  (isEmptyCopy_iff isRow_oneParagraphRow).mpr
    ⟨by decide, by decide⟩

/-- A second paragraph of a cell is a second empty one in the copy. -/
theorem twoParagraphRow_not_isEmptyCopy :
    IsRow twoParagraphRow (oneCellRow (textParagraph (textParagraph .nil))) ∧
      ¬ IsEmptyCopy (oneCellRow (textParagraph (textParagraph .nil)))
          (cloneRowWithEmptyCells twoParagraphRow) := by
  refine ⟨isRow_twoParagraphRow, ?_⟩
  rintro ⟨G, hG, -, hempty⟩
  have htwo : G = oneCellRow (.leaf emptyParagraph (.leaf emptyParagraph .nil)) := by
    refine hG.matched.eq_of_tokens (matched_oneCellRow ?_) ?_
    · exact ⟨tokenBracket_emptyParagraph, tokenBracket_emptyParagraph, trivial⟩
    · rw [hG.tokens, tagTokens_cloneRow]
      decide
  rw [htwo] at hempty
  revert hempty
  decide

end Docx2Typed
