import Docx2Typed.Library.Lines
import Docx2Typed.Style.Canonical

/-!
# The lines of a draft

A draft is a header line followed by paragraph blocks.  Two splitters read it: `py_splitlines`
(the read view and the body hash) breaks at every character Python calls a line break,
`str::lines` (the mutation path) at `\n` and `\r\n`.  Both then drop blank lines and start a block
at every line that looks like a marker.
-/

namespace Docx2Typed

open Library

/-- `CollaborationError`. -/
structure CollaborationError where
  code : String
  message : String
  deriving DecidableEq, Repr

/-- `Result<_, CollaborationError>`. -/
abbrev Answer (α : Type) := Except CollaborationError α

/-- `Err(CollaborationError::new(..))`. -/
def deny {α : Type} (code message : String) : Answer α := .error ⟨code, message⟩

theorem deny_ne_ok {α : Type} {code message : String} {a : α} :
    (deny code message : Answer α) ≠ .ok a := by
  simp [deny]

/-! ## Splitting -/

/-- What Python's `str.splitlines` breaks at. -/
def isPythonBreak (c : Char) : Bool :=
  [0x0A, 0x0B, 0x0C, 0x0D, 0x1C, 0x1D, 0x1E, 0x85, 0x2028, 0x2029].contains c.toNat

def pySplitlines (text : Text) : List Text := linesFrom isPythonBreak [] text

/-- `str::lines`. -/
def strLines (text : Text) : List Text := linesFrom (· == '\n') [] text

/-- `str::trim_start`. -/
def trimStart (text : Text) : Text := text.dropWhile isUnicodeWhitespace

/-- `str::trim_end`. -/
def trimEnd (text : Text) : Text := (text.reverse.dropWhile isUnicodeWhitespace).reverse

/-- `str::trim`. -/
def trim (text : Text) : Text := trimEnd (trimStart text)

/-- `join("\n")`. -/
def joinLines (lines : List Text) : Text := ['\n'].intercalate lines

/-! ## Blocks -/

/-- A line, once trimmed, at which a block starts. -/
def isBlockMarker (stripped : Text) : Bool :=
  "<!--@p".toList.isPrefixOf stripped || "<!--@new".toList.isPrefixOf stripped ||
    "<!--@delete".toList.isPrefixOf stripped

def pushBlock (current : List Text) (blocks : List Text) : List Text :=
  if current = [] then blocks else joinLines current :: blocks

/-- The loop both readers of a draft share, with the lines of the block read so far. -/
def blocksFrom (current : List Text) : List Text → List Text
  | [] => pushBlock current []
  | line :: rest =>
    if isBlockMarker (trim line) then pushBlock current (blocksFrom [line] rest)
    else if trim line = [] then blocksFrom current rest
    else blocksFrom (current ++ [line]) rest

/-- Leading lines that are blank. -/
def dropBlankLines (lines : List Text) : List Text := lines.dropWhile fun line => trim line = []

def editMarker : Text := "<!--@edit".toList

/-- `split_edit_blocks`. -/
def splitEditBlocks (text : Text) : Outcome (Text × List Text) :=
  match dropBlankLines (pySplitlines text) with
  | [] => refuse "edit-header-missing: edit.md must start with an @edit header"
  | header :: rest =>
    if editMarker <+: header then pure (header, blocksFrom [] rest)
    else refuse "edit-header-missing: edit.md must start with an @edit header"

/-- `paragraph_blocks`. -/
def paragraphBlocks (text : Text) : Answer (List Text) :=
  match dropBlankLines (strLines text) with
  | [] => deny "edit-header-missing" "edit.md must start with an @edit header"
  | header :: rest =>
    if editMarker <+: trimStart header then pure (blocksFrom [] rest)
    else deny "edit-header-missing" "edit.md must start with an @edit header"

/-- The first line that looks like a header. -/
def editHeader (text : Text) : Text :=
  ((strLines text).find? fun line => editMarker <+: trimStart line).getD []

/-! ## One block -/

/-- What stands between quotes at the start of a text. -/
def quotedValue (text : Text) : Text := text.takeWhile (· ≠ '"')

theorem quotedValue_append {value rest : Text} (h : '"' ∉ value) :
    quotedValue (value ++ '"' :: rest) = value :=
  takeWhile_ne_append h

/-- One attribute `block_ident` looks for, right after the kind. -/
def identAttribute (rest : Text) (name : Text) : Option Text := do
  let value := quotedValue (← stripPrefix "=\"".toList (← stripPrefix name rest))
  if value = [] then none else some value

/-- One kind `block_ident` looks for. -/
def identOfKind (rest : Text) (kind : Text) : Option (Text × Text) := do
  let attributes ← stripPrefix [' '] (← stripPrefix kind rest)
  let value ← ["id".toList, "temp".toList].findSome? (identAttribute attributes)
  pure (kind, value)

/-- `block_ident`. -/
def blockIdent (block : Text) : Option (Text × Text) := do
  let rest ← stripPrefix "<!--@".toList (trim ((strLines block).headD []))
  ["p".toList, "new".toList, "delete".toList].findSome? (identOfKind rest)

/-- `block_body`: every line after the marker line. -/
def blockBody (block : Text) : Text := (block.dropWhile (· ≠ '\n')).drop 1

/-- `split(needle).nth(1)`: what follows the first occurrence, up to the second. -/
def afterFirst (needle text : Text) : Option Text := do
  let at1 ← findSub needle text
  let rest := text.drop (at1 + needle.length)
  match findSub needle rest with
  | some at2 => pure (rest.take at2)
  | none => pure rest

/-- `split(needle).nth(1)` up to a quote, empty where the needle is missing. -/
def attrValue (needle text : Text) : Text := ((afterFirst needle text).map quotedValue).getD []

/-- `trim_end_matches(suffix)`, with as many turns as there is text. -/
def trimEndMatches (suffix : Text) : Nat → Text → Text
  | 0, text => text
  | fuel + 1, text =>
    match stripSuffix suffix text with
    | some rest => trimEndMatches suffix fuel rest
    | none => text

/-- `marker_of`: kind, id, and the marker line. -/
def markerOf (block : Text) : Option (Text × Text × Text) :=
  let line := trim (block.takeWhile (· ≠ '\n'))
  match stripPrefix "<!--@p id=\"".toList line with
  | some rest => some ("p".toList, quotedValue rest, line)
  | none =>
    match stripPrefix "<!--@new ".toList line with
    | some rest =>
      some ("new".toList, attrValue "temp=\"".toList (trimEndMatches "-->".toList rest.length rest),
        line)
    | none =>
      (stripPrefix "<!--@delete id=\"".toList line).map fun rest =>
        ("delete".toList, quotedValue rest, line)

end Docx2Typed
