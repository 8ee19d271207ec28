import Docx2Typed.Draft.Lines
import Mathlib.Data.Char
import Mathlib.Data.List.Lex

/-!
# A batch of staged patches

`review_apply_batch` carries a batch out on the draft in three steps: a guard refuses patches of
one paragraph that overlap, the patches are sorted so that in every paragraph the last range comes
first, and each is applied to the draft file as the one before it left it.

Offsets are counted in characters; the byte offsets of the source stand for the same places.
-/

namespace Docx2Typed

/-! ## Patches -/

/-- A semantic patch as `validate_patch` lets it through: `before` is the expected text. -/
structure StagedPatch where
  paragraphId : Text
  start : Nat
  stop : Nat
  expected : Text
  after : Text
  ordered : start ≤ stop
  insertion : start = stop ↔ expected = []
  deriving DecidableEq

/-- An offset as the guard and the sort read it, `as_i64().unwrap_or(0)`. -/
def asI64 (n : Nat) : Nat := if n < 2 ^ 63 then n else 0

/-! ## The overlap guard -/

def rangeLe (a b : Nat × Nat) : Prop := a.1 < b.1 ∨ a.1 = b.1 ∧ a.2 ≤ b.2

instance : DecidableRel rangeLe := fun _ _ => inferInstanceAs (Decidable (_ ∨ _))

/-- The ranges of one paragraph, sorted. -/
def paragraphRanges (patches : List StagedPatch) (id : Text) : List (Nat × Nat) :=
  ((patches.filter (·.paragraphId = id)).map fun patch =>
    (asI64 patch.start, asI64 patch.stop)).insertionSort rangeLe

/-- The loop over sorted ranges, with the range before. -/
def overlapsFrom (previousStart previousStop : Int) : List (Nat × Nat) → Bool
  | [] => false
  | (start, stop) :: rest =>
    if (start : Int) < previousStop ∨ ((start : Int) = previousStart ∧ start = stop) then true
    else overlapsFrom start stop rest

/-- The paragraphs of a batch in the order of their ids. -/
def patchedParagraphs (patches : List StagedPatch) : List Text :=
  (patches.map (·.paragraphId)).dedup.insertionSort (· ≤ ·)

def overlapGuard (patches : List StagedPatch) : Answer Unit :=
  match (patchedParagraphs patches).find? fun id =>
      overlapsFrom (-1) (-1) (paragraphRanges patches id) with
  | some id =>
    deny "patch-overlap"
      (String.ofList id ++ ": overlapping patches require a new selection")
  | none => pure ()

/-! ## One patch -/

/-- What the marker line of a block has to start with. -/
def blockStart (kind id : Text) : Text :=
  "<!--@".toList ++ kind ++ " id=\"".toList ++ id ++ ['"']

/-- `find_block`. -/
def findBlock (blocks : List Text) (kind id : Text) : Option Nat :=
  blocks.findIdx? fun block => blockStart kind id <+: block

def markerLine (block : Text) : Text := block.takeWhile (· ≠ '\n')

/-- A block from its marker line and a body, which may be empty. -/
def withBody (marker body : Text) : Text := if body = [] then marker else marker ++ '\n' :: body

def renderDraft (header : Text) (blocks : List Text) : Text := header ++ '\n' :: joinLines blocks

/-- The range of a body; offsets behind its end stand for the end. -/
def bodyRange (body : Text) (start stop : Nat) : Text := (body.take stop).drop start

/-- `apply_patch_to_draft_untracked`: the draft file before and after. -/
def applyPatchToDraft (text : Text) (patch : StagedPatch) : Answer Text := do
  let blocks ← paragraphBlocks text
  match findBlock blocks "p".toList patch.paragraphId with
  | none =>
    deny "paragraph-not-found"
      ("paragraph " ++ String.ofList patch.paragraphId ++ " not found in the draft")
  | some index =>
    let block := blocks.getD index []
    let body := blockBody block
    if bodyRange body patch.start patch.stop ≠ patch.expected then
      deny "patch-precondition"
        "target text no longer matches the draft; re-read the document and restage the patch"
    else
      let replaced := body.take patch.start ++ patch.after ++ body.drop patch.stop
      pure (renderDraft (editHeader text)
        (blocks.set index (withBody (markerLine block) replaced)))

/-! ## The batch -/

/-- By paragraph, the last start first. -/
def appliesFirst (a b : StagedPatch) : Prop :=
  a.paragraphId < b.paragraphId ∨
    a.paragraphId = b.paragraphId ∧ asI64 b.start ≤ asI64 a.start

instance : DecidableRel appliesFirst := fun _ _ => inferInstanceAs (Decidable (_ ∨ _))

/-- The sort is stable: equal starts keep the order of the queue. -/
def applicationOrder (patches : List StagedPatch) : List StagedPatch :=
  patches.insertionSort appliesFirst

/-- The draft that a batch produces, before the draft is committed. -/
def applyBatch (batchId : Option String) (draft : Text) (patches : List StagedPatch) :
    Answer Text := do
  if patches = [] then
    deny "patch-batch-empty" ("no queued patches in batch " ++ batchId.getD "<none>")
  else do
    overlapGuard patches
    (applicationOrder patches).foldlM applyPatchToDraft draft

end Docx2Typed
