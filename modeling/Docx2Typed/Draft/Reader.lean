import Docx2Typed.Draft.Nodes

/-!
# Reading a draft body

`body_boundaries` cuts a body at its placeholders and reads the prose between them in two passes:
`validate_escaped_prose` undoes the escapes of the placeholder brackets, `split_vertical_tags`
drops the marks of `^{...}` and `_{...}`.  A placeholder is a boundary at the offset of the text
read before it.
-/

namespace Docx2Typed

/-! ## Escapes -/

def literalBracketMessage : String :=
  "edit-grammar-invalid: literal ⟦/⟧ must use \\u27E6/\\u27E7 escapes"

def invalidEscapeMessage : String := "edit-grammar-invalid: invalid escape sequence"

/-- `validate_escaped_prose`, on as much of the text as the fuel allows. -/
def validateEscapedFrom : Nat → Text → Outcome Text
  | _, [] => pure []
  | 0, _ :: _ => refuse invalidEscapeMessage
  | fuel + 1, c :: rest =>
    if c ≠ '\\' then
      if c = tokenStart ∨ c = tokenEnd then refuse literalBracketMessage
      else do
        let read ← validateEscapedFrom fuel rest
        pure (c :: read)
    else if rest.head? = some '\\' then do
      let read ← validateEscapedFrom fuel (rest.drop 1)
      pure ('\\' :: read)
    else
      let segment := (rest.take 5).map Char.toLower
      if segment = "u27e6".toList then do
        let read ← validateEscapedFrom fuel (rest.drop 5)
        pure (tokenStart :: read)
      else if segment = "u27e7".toList then do
        let read ← validateEscapedFrom fuel (rest.drop 5)
        pure (tokenEnd :: read)
      else refuse invalidEscapeMessage

def validateEscapedProse (text : Text) : Outcome Text := validateEscapedFrom text.length text

/-! ## Vertical tags -/

/-- `VERTICAL_ESCAPE_CHARS`. -/
def verticalEscapeChars : List Char := ['^', '_', '{', '}', '\\']

def isVerticalMarker (c : Char) : Bool := c == '^' || c == '_'

/-- A backslash and a character it escapes. -/
def isVerticalEscape (c : Char) (rest : Text) : Bool :=
  c == '\\' && rest.head?.any verticalEscapeChars.contains

def opensVerticalTag (c : Char) (rest : Text) : Bool :=
  isVerticalMarker c && rest.head? == some '{'

/-- `read_vertical_tag`: the text of one tag, and what follows its closing brace. -/
def readVerticalTag : Nat → Text → Text → Outcome (Text × Text)
  | _, _, [] => refuse "vertical-tag-unclosed: a vertical tag is missing its closing brace"
  | 0, _, _ :: _ => refuse "vertical-tag-unclosed: a vertical tag is missing its closing brace"
  | fuel + 1, body, c :: rest =>
    if isVerticalEscape c rest then
      readVerticalTag fuel (body ++ rest.take 1) (rest.drop 1)
    else if c = '}' then
      if body = [] then refuse "vertical-tag-empty: a vertical tag carries no text"
      else pure (body, rest)
    else if opensVerticalTag c rest then
      refuse "vertical-tag-nested: a vertical tag cannot contain another tag"
    else readVerticalTag fuel (body ++ [c]) rest

/-- The segment held in the buffer, where there is one. -/
def flushBuffer (buffer : Text) : List Text := if buffer = [] then [] else [buffer]

/-- `split_vertical_tags`, with the buffer read so far. -/
def splitVerticalFrom : Nat → Text → Text → Outcome (List Text)
  | _, buffer, [] => pure (flushBuffer buffer)
  | 0, buffer, _ :: _ => pure (flushBuffer buffer)
  | fuel + 1, buffer, c :: rest =>
    if isVerticalEscape c rest then
      splitVerticalFrom fuel (buffer ++ rest.take 1) (rest.drop 1)
    else if opensVerticalTag c rest then do
      let (inner, after) ← readVerticalTag rest.length [] (rest.drop 1)
      let segments ← splitVerticalFrom fuel [] after
      pure (flushBuffer buffer ++ inner :: segments)
    else splitVerticalFrom fuel (buffer ++ [c]) rest

def splitVerticalTags (text : Text) : Outcome (List Text) := splitVerticalFrom text.length [] text

def plainProse (raw : Text) : Outcome Text := do
  let text ← validateEscapedProse raw
  let segments ← splitVerticalTags text
  pure segments.flatten

/-! ## Boundaries -/

/-- `kind_attribute`: the first `kind="..."` with a value, searched from one point on. -/
def kindAttributeFrom : Nat → Text → Option Text
  | 0, _ => none
  | fuel + 1, attrs => do
    let offset ← Library.findSub "kind=\"".toList attrs
    let rest := attrs.drop (offset + "kind=\"".toList.length)
    let value := rest.takeWhile (· ≠ '"')
    if value ≠ [] then some value else kindAttributeFrom fuel rest

def kindAttribute (attrs : Text) : Option Text := kindAttributeFrom (attrs.length + 1) attrs

section Boundaries

-- `char::is_alphanumeric`, whose tables are not modelled; nothing is assumed of it
variable (isAlphanumeric : Char → Bool)

/-- The keyword ends where a word ends. -/
def stripKeyword (keyword content : Text) : Option Text := do
  let after ← stripPrefix keyword content
  if after.head?.any fun c => isAlphanumeric c || c == '_' then none else some after

/-- `token_boundary_kind` of `⟦content⟧`. -/
def tokenBoundaryKind (content : Text) : Text :=
  let chunk := placeholder content
  let closing := (stripPrefix ['/'] (content ++ [tokenEnd])).isSome
  let rest := (stripPrefix ['/'] (content ++ [tokenEnd])).getD (content ++ [tokenEnd])
  match ["insert".toList, "move-to".toList, "move-from".toList].find? fun keyword =>
      (stripKeyword isAlphanumeric keyword rest).isSome with
  | some keyword => keyword ++ (if closing then "-end".toList else "-start".toList)
  | none =>
    if "revision-gap".toList <+: rest then "revision-gap".toList
    else
      match kindAttribute chunk with
      | some kind => "token:".toList ++ kind
      | none => "token:unknown".toList

/-- Prose in front of a placeholder is read only where there is some. -/
def readProse (flat prose : Text) : Outcome Text :=
  if prose = [] then pure flat
  else do
    let read ← plainProse prose
    pure (flat ++ read)

/-- The loop of `body_boundaries`, from one point of the body on. -/
def boundariesFrom : Nat → Text → List (Nat × Text) → Text → Outcome (Text × List (Nat × Text))
  | 0, _, _, _ => refuse "edit-grammar-invalid: unclosed placeholder in draft"
  | fuel + 1, flat, boundaries, rest => do
    let flat' ← readProse flat (rest.takeWhile (· ≠ tokenStart))
    match rest.dropWhile (· ≠ tokenStart) with
    | [] => pure (flat', boundaries)
    | _ :: afterStart =>
      if tokenEnd ∉ afterStart then refuse "edit-grammar-invalid: unclosed placeholder in draft"
      else
        let content := afterStart.takeWhile (· ≠ tokenEnd)
        boundariesFrom fuel flat'
          (boundaries ++ [(flat'.length, tokenBoundaryKind isAlphanumeric content)])
          ((afterStart.dropWhile (· ≠ tokenEnd)).drop 1)

/-- `body_boundaries`: every turn but the last takes a placeholder. -/
def bodyBoundaries (body : Text) : Outcome (Text × List (Nat × Text)) :=
  boundariesFrom isAlphanumeric (body.length + 1) [] [] body

end Boundaries

end Docx2Typed
