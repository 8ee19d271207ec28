import Docx2Typed.Basic
import Docx2Typed.Library.Search

/-!
# The tag scanner and the element tree

`xml_walker.rs`: byte-level scanning of OOXML tags and the nesting-validated element tree that
every structural pass reads.  Comments, CDATA sections and processing instructions are skipped
as whole tokens, a tag ends at the first `>` outside a quoted attribute value, and a scan that
meets an unterminated token stops there without a word.

The scanner carries the offset of the bytes it still has to read, so that a tag records where
it stood in the whole part.
-/

namespace Docx2Typed

open Library (findSub)

/-- One structural token in the raw bytes. -/
structure Tag where
  /-- Local name, prefix stripped (`p` for `w:p`). -/
  name : String
  /-- QName exactly as written (`w:p`). -/
  rawName : String
  closing : Bool
  selfClosing : Bool
  /-- Byte offset of `<`. -/
  start : Nat
  /-- Byte offset just past `>`. -/
  stop : Nat
  deriving DecidableEq, Repr

/-- The bytes the scanner skips inside a tag. -/
def isTagSpace (b : UInt8) : Bool :=
  b == byte ' ' || b == byte '\t' || b == byte '\r' || b == byte '\n'

/-- `u8::is_ascii_whitespace`. -/
def isAsciiWhitespace (b : UInt8) : Bool := isTagSpace b || b == 12

/-- `u8::is_ascii_alphabetic`. -/
def isAsciiAlphabetic (b : UInt8) : Bool :=
  (byte 'a' ≤ b && b ≤ byte 'z') || (byte 'A' ≤ b && b ≤ byte 'Z')

/-- `u8::is_ascii_digit`. -/
def isAsciiDigit (b : UInt8) : Bool := byte '0' ≤ b && b ≤ byte '9'

def isNameByte (b : UInt8) : Bool :=
  isAsciiAlphabetic b || isAsciiDigit b || b == byte '_' || b == byte '.' || b == byte ':' ||
    b == byte '-'

/-- The string of a name: name bytes are ASCII, so each is one character. -/
def asciiString (name : Bytes) : String := String.ofList (name.map fun b => Char.ofNat b.toNat)

/-- Local name of a qname: what follows the last `:`. -/
def localName (rawName : String) : String :=
  String.ofList (rawName.toList.reverse.takeWhile (· != ':')).reverse

/-- How many bytes, from just past a `<`, the tag token still takes: up to the first `>` outside
a quoted value.  `quote` is the quote the scan stands in. -/
def scanAngleToken (quote : Option UInt8) : Bytes → Option Nat
  | [] => none
  | b :: rest =>
    match quote with
    | some q => (scanAngleToken (if b = q then none else some q) rest).map (· + 1)
    | none =>
      if b = byte '"' ∨ b = byte '\'' then (scanAngleToken (some b) rest).map (· + 1)
      else if b = byte '>' then some 1
      else (scanAngleToken none rest).map (· + 1)

/-- Classify one raw token; `none` for comments, instructions, CDATA and everything that fails
the tag grammar. -/
def parseTag (token : Bytes) (start stop : Nat) : Option Tag :=
  if bytes "<!--" <+: token ∨ bytes "<?" <+: token ∨ bytes "<!" <+: token then none
  else
    let body := (token.drop 1).dropWhile isTagSpace
    if body.head? = some (byte '/') then
      let afterSlash := (body.drop 1).dropWhile isTagSpace
      let rawName := afterSlash.takeWhile isNameByte
      let rest := (afterSlash.dropWhile isNameByte).dropWhile isTagSpace
      if rawName = [] then none
      else if rest ≠ [byte '>'] then none
      else some {
        name := localName (asciiString rawName)
        rawName := asciiString rawName
        closing := true
        selfClosing := false
        start, stop }
    else
      let rawName := body.takeWhile isNameByte
      if rawName = [] then none
      else some {
        name := localName (asciiString rawName)
        rawName := asciiString rawName
        closing := false
        selfClosing := decide (bytes "/>" <:+ token)
        start, stop }

/-- The length of the token that starts at the `<` heading `rest`. -/
def tokenLength (rest : Bytes) : Option Nat :=
  if bytes "<!--" <+: rest then (findSub (bytes "-->") (rest.drop 4)).map (· + 4 + 3)
  else if bytes "<![CDATA[" <+: rest then (findSub (bytes "]]>") (rest.drop 9)).map (· + 9 + 3)
  else if bytes "<?" <+: rest then (findSub (bytes "?>") (rest.drop 2)).map (· + 2 + 2)
  else (scanAngleToken none (rest.drop 1)).map (· + 1)

/-- The scan from `offset` on; every round takes at least one byte, so the length of the input
is fuel enough. -/
def scanTagsFrom : Nat → Nat → Bytes → List Tag
  | 0, _, _ => []
  | fuel + 1, offset, xml =>
    let lt := offset + (xml.takeWhile (· != byte '<')).length
    let rest := xml.dropWhile (· != byte '<')
    if rest = [] then []
    else
      match tokenLength rest with
      | none => []
      | some n =>
        (parseTag (rest.take n) lt (lt + n)).toList ++
          scanTagsFrom fuel (lt + n) (rest.drop n)

/-- Every structural tag of `xml`, in scan order. -/
def scanTags (xml : Bytes) : List Tag := scanTagsFrom xml.length 0 xml

/-! ## The element tree -/

/-- `usize::MAX`, the end of an element that is still open. -/
def usizeMax : Nat := 2 ^ 64 - 1

structure ElementNode where
  name : String
  rawName : String
  openStart : Nat
  /-- Byte offset just past the start tag. -/
  openEnd : Nat
  /-- Byte offset of the close tag (`openEnd` when self-closing). -/
  closeStart : Nat
  /-- Byte offset just past the close tag (`openEnd` when self-closing). -/
  stop : Nat
  selfClosing : Bool
  parent : Option Nat
  children : List Nat
  deriving DecidableEq, Repr

/-- The node an opening tag creates. -/
def Tag.toNode (tag : Tag) (parent : Option Nat) : ElementNode where
  name := tag.name
  rawName := tag.rawName
  openStart := tag.start
  openEnd := tag.stop
  closeStart := tag.stop
  stop := if tag.selfClosing then tag.stop else usizeMax
  selfClosing := tag.selfClosing
  parent := parent
  children := []

/-- One tag of `build_tree`: the nodes so far and the stack of open ones, innermost first. -/
def buildStep (state : List ElementNode × List Nat) (tag : Tag) :
    Outcome (List ElementNode × List Nat) :=
  let (nodes, stack) := state
  if tag.closing then
    match stack with
    | [] => refuse s!"malformed XML nesting near {tag.rawName} (unmatched close)"
    | top :: rest => do
      let node ← expect nodes[top]?
      if node.name ≠ tag.name then
        refuse s!"malformed XML nesting near {tag.rawName} (expected close of {node.rawName}, found {tag.rawName})"
      else
        pure (nodes.set top { node with closeStart := tag.start, stop := tag.stop }, rest)
  else
    let index := nodes.length
    let linked := match stack with
      | [] => nodes
      | top :: _ => nodes.modify top fun node => { node with children := node.children ++ [index] }
    pure (linked ++ [tag.toNode stack.head?], if tag.selfClosing then stack else index :: stack)

/-- Nesting-validated element forest of one part. -/
def buildTree (tags : List Tag) : Outcome (List ElementNode) := do
  let (nodes, stack) ← tags.foldlM buildStep ([], [])
  match stack with
  | [] => pure nodes
  | top :: _ => do
    let node ← expect nodes[top]?
    refuse s!"malformed XML nesting near {node.rawName} (unclosed element)"

end Docx2Typed
