import Mathlib.Data.List.Destutter
import Docx2Typed.Draft.Units

/-!
# Searching a draft

`document_search` looks for a query in the visible text of every paragraph block.  Unless the case
counts, both are put in lower case first; where the query is not found, both are folded
(`fold_text`) and the search is made again.  The places found are taken for places of the visible
text, which is sliced there.

`str::to_lowercase` rests on the tables of Unicode, which are not modelled: `CaseTables` is all
that is assumed of them.
-/

namespace Docx2Typed

/-! ## Lower case -/

/-- What `str::to_lowercase` looks up. -/
structure CaseTables where
  /-- The lower case of one character, which may be several. -/
  lower : Char → Text
  lower_ne_nil : ∀ c, lower c ≠ []
  cased : Char → Bool
  caseIgnorable : Char → Bool

namespace CaseTables

variable (tables : CaseTables)

/-- `case_ignorable_then_cased`. -/
def caseIgnorableThenCased (text : Text) : Bool :=
  (text.dropWhile tables.caseIgnorable).head?.any tables.cased

/-- `map_uppercase_sigma`: the form of the letter depends on what stands around it. -/
def mapUppercaseSigma (before behind : Text) : Char :=
  if tables.caseIgnorableThenCased before && !tables.caseIgnorableThenCased behind then 'ς'
  else 'σ'

/-- What each character of a text becomes; `before` is what precedes, the nearest one first. -/
def lowerChunks : Text → Text → List Text
  | _, [] => []
  | before, c :: behind =>
    (if c = 'Σ' then [tables.mapUppercaseSigma before behind] else tables.lower c) ::
      lowerChunks (c :: before) behind

/-- `str::to_lowercase`. -/
def toLowercase (text : Text) : Text := (tables.lowerChunks [] text).flatten

end CaseTables

/-! ## Folding -/

/-- The characters `fold_char` names. -/
def foldTable : List (Char × Char) :=
  [('\uff0c', ','), ('\u3002', '.'), ('\u3001', ','), ('\uff1b', ';'), ('\uff1a', ':'),
    ('\uff1f', '?'), ('\uff01', '!'), ('\uff08', '('), ('\uff09', ')'), ('\u3010', '['),
    ('\u3011', ']'), ('\u300a', '<'), ('\u300b', '>'), ('\u201c', '"'), ('\u201d', '"'),
    ('\u2018', '\x27'), ('\u2019', '\x27'), ('\u2014', '-'), ('\u2013', '-'), ('\u2212', '-'),
    ('\u2015', '-'), ('\u2012', '-'), ('\uff5e', '~'), ('\u301c', '~'), ('\uff05', '%'),
    ('\uff0b', '+'), ('\uff0d', '-'), ('\uff0f', '/'), ('\uff3c', '\\'), ('\uff1d', '='),
    ('\uff1c', '<'), ('\uff1e', '>'), ('\uff03', '#'), ('\uff06', '&'), ('\uff0a', '*'),
    ('\uff20', '@'), ('\uff5c', '|'), ('\uff3e', '^'), ('\uff3f', '_'), ('\uff40', '\x60'),
    ('\uff02', '"'), ('\uff07', '\x27'), ('\u3000', ' '), ('\u00a0', ' '), ('\u2002', ' '),
    ('\u2003', ' '), ('\u2004', ' '), ('\u2005', ' '), ('\u2006', ' '), ('\u2007', ' '),
    ('\u2008', ' '), ('\u2009', ' '), ('\u200a', ' '), ('\u202f', ' '), ('\u205f', ' '),
    ('\u00b5', '\u03bc')]

/-- `fold_char`. -/
def foldChar (c : Char) : Char :=
  match foldTable.lookup c with
  | some folded => folded
  | none =>
    -- the full-width ASCII block
    if 0xff01 ≤ c.toNat ∧ c.toNat ≤ 0xff5e then Char.ofNat (c.toNat - 0xfee0) else c

/-- `fold_text`. -/
def foldText (text : Text) : Text := text.map foldChar

/-! ## The places of the query -/

/-- `find_chars`. -/
def findChars (haystack needle : Text) (start : Nat) : Option Nat :=
  if needle = [] ∨ haystack.length < needle.length then none
  else
    (List.range' start (haystack.length - needle.length + 1 - start)).find? fun place =>
      decide ((haystack.drop place).take needle.length = needle)

/-- The loop that collects the offsets of one pass. -/
def collectOffsets (hay candidate : Text) : Nat → Nat → List Nat → List Nat
  | 0, _, offsets => offsets
  | fuel + 1, cursor, offsets =>
    match findChars hay candidate cursor with
    | none => offsets
    | some found =>
      collectOffsets hay candidate fuel (found + 1)
        (if found ∈ offsets then offsets else offsets ++ [found])

/-- The passes, each a query with the text it is looked for in, up to the first that finds it. -/
def passOffsets : List (Text × Text) → List Nat
  | [] => []
  | (candidate, hay) :: rest =>
    if candidate = [] then passOffsets rest
    else
      let offsets := collectOffsets hay candidate (hay.length + 1) 0 []
      if offsets ≠ [] then offsets else passOffsets rest

/-! ## What is reported -/

/-- What `encode_match_ref` writes into a reference; the text goes in as a hash. -/
structure MatchRef where
  revision : String
  paragraphId : Text
  start : Nat
  stop : Nat
  text : Text
  deriving DecidableEq, Repr

structure PatchableSpan where
  text : Text
  matchRef : MatchRef
  deriving DecidableEq, Repr

structure Occurrence where
  offset : Nat
  matchedText : Text
  region : Text
  patchableAsSingleHunk : Bool
  boundaryCrossings : List Text
  normalized : Bool
  matchRef : MatchRef
  patchableSpans : Option (List PatchableSpan)
  deriving DecidableEq, Repr

structure MatchBlock where
  id : Text
  kind : Text
  count : Nat
  occurrences : List Occurrence
  text : Text
  matchedText : Text
  offset : Nat
  region : Text
  normalized : Bool
  patchableAsSingleHunk : Bool
  boundaryCrossings : List Text
  spanIndices : List Nat
  matchRef : MatchRef
  prevId : Option Text
  nextId : Option Text
  deriving DecidableEq, Repr

structure SearchCounts where
  editable : Nat
  insideDeletedTrackedChanges : Nat
  totalInProjection : Nat
  note : Option String
  deriving DecidableEq, Repr

structure DocumentSearch where
  query : Text
  scope : Text
  offset : Nat
  counts : SearchCounts
  totalBlocks : Nat
  howToEdit : String
  revision : String
  state : String
  totalMatches : Nat
  returnedBlocks : Nat
  found : List MatchBlock
  deriving DecidableEq, Repr

/-! ## One block -/

/-- `&flat_chars[start..stop]`. -/
def sliceChars (flat : Text) (start stop : Nat) : Outcome Text :=
  if start ≤ stop ∧ stop ≤ flat.length then pure ((flat.take stop).drop start)
  else .error .panic

/-- `sort` and `dedup`. -/
def sortDedup {α : Type} [DecidableEq α] (le : α → α → Prop) [DecidableRel le]
    (entries : List α) : List α :=
  (entries.insertionSort le).destutter (· ≠ ·)

def leText (left right : Text) : Prop := ¬ right < left

instance : DecidableRel leText := fun _ _ => inferInstanceAs (Decidable (¬ _))

/-- The insertions open behind the boundaries up to an offset; the first one past it ends the
loop. -/
def depthAt (offset : Nat) (depth : Nat) : List (Nat × Text) → Nat
  | [] => depth
  | (boundary, kind) :: rest =>
    if offset < boundary then depth
    else
      depthAt offset
        (if kind = "insert-start".toList then depth + 1
          else if kind = "insert-end".toList then depth - 1 else depth) rest

/-- `region_at`. -/
def regionAt (boundaries : List (Nat × Text)) (offset : Nat) : Text :=
  if 0 < depthAt offset 0 boundaries then "insert".toList else "baseline".toList

structure EditableSpan where
  index : Nat
  start : Nat
  stop : Nat
  text : Text
  deriving DecidableEq, Repr

/-- `editable_spans`: the text cut at the boundaries inside it. -/
def editableSpans (flat : Text) (boundaries : List (Nat × Text)) : List EditableSpan :=
  let ordered := sortDedup (· ≤ ·)
    (0 :: flat.length ::
      (boundaries.map (·.1)).filter fun offset => 0 < offset ∧ offset < flat.length)
  let pieces := ((ordered.zip ordered.tail).map fun pair =>
    (pair, (flat.take pair.2).drop pair.1)).filter fun piece => piece.2 ≠ []
  pieces.zipIdx.map fun (piece, index) => ⟨index, piece.1.1, piece.1.2, piece.2⟩

def windowSeparator : Text := "\n\u22ef\n".toList

/-- One window of `excerpt`. -/
def excerptWindow (flat : Text) (hitLength half hit : Nat) : Outcome Text := do
  let windowStart := hit - half
  let windowEnd := min (hit + hitLength + half) flat.length
  let slice ← sliceChars flat windowStart windowEnd
  pure ((if 0 < windowStart then ['\u2026'] else []) ++ slice ++
    (if windowEnd < flat.length then ['\u2026'] else []))

/-- `excerpt`. -/
def excerpt (flat : Text) (offsets : List Nat) (hitLength contextChars : Nat) : Outcome Text :=
  if flat.length ≤ contextChars then pure flat
  else do
    let windows ← offsets.mapM (excerptWindow flat hitLength (contextChars / 2))
    pure (windowSeparator.intercalate windows)

/-- `neighbour_id`. -/
def neighbourId (blocks : List Text) (index : Nat) (step : Int) : Option Text := do
  let neighbour := (index : Int) + step
  if neighbour < 0 then none
  else
    let block ← blocks[neighbour.toNat]?
    let (_, id) ← blockIdent block
    pure id

section Search

variable (tables : CaseTables)
-- as in `bodyBoundaries`
variable (isAlphanumeric : Char → Bool)
variable (query : Text) (caseSensitive : Bool)

/-- The query as it is looked for. -/
def searchNeedle : Text := if caseSensitive then query else tables.toLowercase query

/-- The text as the query is looked for in it. -/
def searchHaystack (flat : Text) : Text :=
  if caseSensitive then flat else tables.toLowercase flat

/-- The offsets of the query in the text of one block: the exact pass, then the folded one. -/
def blockOffsets (flat : Text) : List Nat :=
  let needle := searchNeedle tables query caseSensitive
  let haystack := searchHaystack tables caseSensitive flat
  (passOffsets [(needle, haystack), (foldText needle, foldText haystack)]).insertionSort (· ≤ ·)

/-- One occurrence. -/
def occurrenceAt (revision : String) (id body flat : Text) (boundaries : List (Nat × Text))
    (hitLength offset : Nat) : Outcome Occurrence := do
  let stop := offset + hitLength
  let semanticText ← sliceChars flat offset stop
  let annotated ← annotatedSlice offset stop body
  let crossed := sortDedup leText
    ((boundaries.filter fun boundary => offset < boundary.1 ∧ boundary.1 < stop).map (·.2))
  let regions := sortDedup leText
    [regionAt boundaries offset, regionAt boundaries (max offset (stop - 1))]
  pure
    { offset := offset
      matchedText := annotated.getD semanticText
      region := if crossed = [] then regions.headD [] else "mixed".toList
      patchableAsSingleHunk := crossed = []
      boundaryCrossings := crossed
      normalized := semanticText ≠ query
      matchRef := ⟨revision, id, offset, stop, semanticText⟩
      patchableSpans :=
        if crossed = [] then none
        else
          some (((editableSpans flat boundaries).filter fun span =>
              offset ≤ span.start ∧ span.stop ≤ stop ∧ span.text ≠ []).map fun span =>
            ⟨span.text, ⟨revision, id, span.start, span.stop, span.text⟩⟩) }

/-- The entry of a block whose text holds the query. -/
def matchBlock (revision : String) (blocks : List Text) (index : Nat) (kind id body flat : Text)
    (boundaries : List (Nat × Text)) (contextChars : Nat) (offsets : List Nat) :
    Outcome (Option MatchBlock) := do
  let hitLength := (searchNeedle tables query caseSensitive).length
  let text ← excerpt flat offsets hitLength contextChars
  let occurrences ← offsets.mapM
    (occurrenceAt query revision id body flat boundaries hitLength)
  let first ← expect occurrences.head?
  let hitStart := first.offset
  let hitEnd := hitStart + hitLength
  let flatHit ← sliceChars flat hitStart hitEnd
  pure (some
    { id := id
      kind := kind
      count := offsets.length
      occurrences := occurrences
      text := text
      matchedText := first.matchedText
      offset := hitStart
      region := first.region
      normalized :=
        searchHaystack tables caseSensitive flatHit ≠ searchNeedle tables query caseSensitive
      patchableAsSingleHunk := first.patchableAsSingleHunk
      boundaryCrossings := first.boundaryCrossings
      spanIndices := ((editableSpans flat boundaries).filter fun span =>
        span.start < hitEnd ∧ hitStart < span.stop).map (·.index)
      matchRef := ⟨revision, id, hitStart, hitEnd, flatHit⟩
      prevId := neighbourId blocks index (-1)
      nextId := neighbourId blocks index 1 })

/-- The turn of the loop of `document_search` for one paragraph. -/
def searchParagraph (revision : String) (contextChars : Nat) (blocks : List Text) (index : Nat)
    (kind id body : Text) : Outcome (Option MatchBlock) := do
  let (flat, boundaries) ← bodyBoundaries isAlphanumeric body
  let offsets := blockOffsets tables query caseSensitive flat
  if offsets = [] then pure none
  else
    matchBlock tables query caseSensitive revision blocks index kind id body flat boundaries
      contextChars offsets

/-! ## The scope -/

/-- The ids of the paragraphs of a draft, inserted ones among them. -/
def paragraphIdsOf (blocks : List Text) : List Text :=
  ((blocks.filterMap blockIdent).filter fun ident =>
    ident.1 = "p".toList ∨ ident.1 = "new".toList).map (·.2)

/-- `P` or `N` and digits. -/
def isBodyId (id : Text) : Bool :=
  ['P', 'N'].any fun letter =>
    (stripPrefix [letter] id).any fun digits => digits ≠ [] ∧ digits.all Char.isDigit

/-- `scope_paragraph_ids`. -/
def scopeParagraphIds (blocks : List Text) (scope : Text) : Outcome (List Text) :=
  let ids := paragraphIdsOf blocks
  let stripped := if scope = ['/'] then "all".toList else (stripPrefix ['/'] scope).getD scope
  if stripped = "body".toList ∨ stripped = [] then pure (ids.filter isBodyId)
  else if stripped = "all".toList then pure ids
  else if stripped = "comments".toList then
    pure (ids.filter fun id => "comments.".toList.isPrefixOf id)
  else if stripped ∈ ids then pure [stripped]
  else
    let within := ids.filter fun id => (stripped ++ ['.']).isPrefixOf id
    if within ≠ [] then pure within
    else refuse ("replace-scope-invalid: unknown scope '" ++ String.ofList scope ++
      "'; use body (default), all, comments, a part prefix (header1, footer1, footnotes, " ++
      "endnotes, T0), or one paragraph id")

/-! ## The draft -/

/-- What `classify_edit_state` says of a draft. -/
structure DraftState where
  state : String
  editBodySha256 : String

/-- What the search reads from a workdir. -/
structure SearchedDraft where
  editState : Except CoreError DraftState
  projection : Except CoreError Text

/-- A read of the workdir, which may fail. -/
def readWorkdir {α : Type} (read : Except CoreError α) : Outcome α :=
  read.mapError .refused

def howToEdit : String :=
  "each occurrence carries match_ref: edit exactly that spot with " ++
  "document_patch(\x7b\"hunks\": [\x7b\"match_ref\": <ref>, \"new\": <text>\x7d]\x7d) or " ++
  "format_span(match_ref=<ref>, attributes=\x7b...\x7d); use document_replace only when you " ++
  "mean to change every match"

/-- The paragraph a block holds, where the search looks at it. -/
def searchedIdent (allowed : List Text) (block : Text) : Option (Text × Text) :=
  (blockIdent block).filter fun ident =>
    (ident.1 = "p".toList ∨ ident.1 = "new".toList) ∧ ident.2 ∈ allowed

/-- The turn of the loop of `document_search`. -/
def searchBlock (revision : String) (contextChars : Nat) (blocks allowed : List Text)
    (entry : Text × Nat) : Outcome (Option MatchBlock) :=
  match searchedIdent allowed entry.1 with
  | none => pure none
  | some (kind, id) =>
    searchParagraph tables isAlphanumeric query caseSensitive revision contextChars blocks
      entry.2 kind id (blockBody entry.1)

/-- `document_search`. -/
def documentSearch (draft : SearchedDraft) (contextChars limit offset : Nat) (scope : Text) :
    Outcome DocumentSearch :=
  if query = [] then refuse "document-search-empty-query: query must not be empty"
  else do
    let state ← readWorkdir draft.editState
    let text ← readWorkdir draft.projection
    let (_, blocks) ← splitEditBlocks text
    let allowed ← scopeParagraphIds blocks scope
    let searched ← blocks.zipIdx.mapM
      (searchBlock tables isAlphanumeric query caseSensitive state.editBodySha256 contextChars
        blocks allowed)
    let entries := searched.reduceOption
    let total := (entries.map (·.count)).sum
    let pageStart := min offset entries.length
    let pageEnd := min (pageStart + max limit 1) entries.length
    let returned := (entries.take pageEnd).drop pageStart
    pure
      { query := query
        scope := scope
        offset := offset
        counts := ⟨total, 0, total, none⟩
        totalBlocks := entries.length
        howToEdit := howToEdit
        revision := state.editBodySha256
        state := state.state
        totalMatches := total
        returnedBlocks := returned.length
        found := returned }

end Search

end Docx2Typed
