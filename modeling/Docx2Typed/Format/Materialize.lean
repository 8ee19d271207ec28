import Docx2Typed.Format.Plan
import Docx2Typed.Format.Xml
import Docx2Typed.Library.Splice

/-!
# A plan written into a part

`materialize` reads the runs of a paragraph, checks them against the snapshot, and rewrites the
runs the plan cuts or restyles; every other byte is copied.  `runs_of` follows the tags of the
range it is given with a counter of open elements that starts at zero where the range starts: a run
is called nested when more than one element is open there.

What a refusal prints with `{:?}` is written by `debug`.
-/

namespace Docx2Typed.Format

open Library (Cut applyCuts)

/-- How the call ends that writes no part. -/
inductive Failed where
  | refused (error : FormatError)
  | panic
  deriving DecidableEq, Repr

/-! ## The runs of a paragraph -/

/-- One run as the part holds it; `nested` where it is not to be rewritten. -/
structure RunSpan where
  start : ℕ
  stop : ℕ
  openTag : Bytes
  rpr : Bytes
  text : Text
  hasText : Bool
  nested : Bool
  structured : Option String
  deriving DecidableEq, Repr

/-- A run whose end has not been met. -/
structure OpenRun where
  tag : Tag
  /-- The elements open in the paragraph, the run among them, past those around the run. -/
  innerDepth : ℕ
  /-- A range whose end has not been met has none. -/
  rpr : Option (ℕ × Option ℕ)
  text : Option (ℕ × Option ℕ)
  structured : Option String
  nested : Bool
  deriving DecidableEq, Repr

def noRuns : FormatError :=
  ⟨"format-paragraph-has-no-runs", "the paragraph holds no runs"⟩

section RunsOf

variable (paragraph : Bytes) (base : ℕ)

/-- A child of the run opens. -/
def OpenRun.openChild (run : OpenRun) (inner : Tag) : OpenRun :=
  if inner.name = "rPr" then { run with rpr := some (inner.start, none) }
  else if inner.name = "t" then { run with text := some (inner.stop, none) }
  else { run with structured := some inner.name }

/-- A child of the run closes. -/
def OpenRun.closeChild (run : OpenRun) (inner : Tag) : OpenRun :=
  if inner.name = "rPr" then
    { run with rpr := run.rpr.map fun entry => (entry.1, some inner.stop) }
  else if inner.name = "t" then
    { run with text := run.text.map fun entry => (entry.1, some inner.start) }
  else { run with structured := some inner.name }

/-- One tag inside a run. -/
def OpenRun.step (run : OpenRun) (inner : Tag) : OpenRun :=
  if !inner.closing && !inner.selfClosing then
    { (if run.innerDepth = 1 then run.openChild inner else run) with
      innerDepth := run.innerDepth + 1 }
  else if inner.selfClosing then
    if run.innerDepth = 1 then { run with structured := some inner.name } else run
  else
    { (if run.innerDepth = 2 then run.closeChild inner else run) with
      innerDepth := run.innerDepth - 1 }

/-- The bytes of a range of the run; a range that has no end is no slice. -/
def rangeBytes : Option (ℕ × Option ℕ) → Except Failed Bytes
  | none => .ok []
  | some (start, some stop) => .ok (slice paragraph start stop)
  | some (_, none) => .error .panic

def OpenRun.close (run : OpenRun) (runEnd : ℕ) : Except Failed RunSpan := do
  let raw ← rangeBytes paragraph run.text
  let rpr ← rangeBytes paragraph run.rpr
  pure
    { start := base + run.tag.start
      stop := base + runEnd
      openTag := slice paragraph run.tag.start run.tag.stop
      rpr
      text := decodeText raw
      hasText := run.text.isSome
      nested := run.nested
      structured := run.structured }

structure RunsState where
  runs : List RunSpan
  depth : ℕ
  current : Option OpenRun

def RunsState.push (s : RunsState) (run : OpenRun) (runEnd : ℕ) : Except Failed RunsState :=
  (run.close paragraph base runEnd).map fun span =>
    { s with runs := s.runs ++ [span], current := none }

/-- One tag of the paragraph. -/
def runsStep (s : RunsState) (tag : Tag) : Except Failed RunsState :=
  match s.current with
  | some run =>
    let run := run.step tag
    if run.innerDepth = 0 then s.push paragraph base run tag.stop
    else .ok { s with current := some run }
  | none =>
    if tag.closing then .ok { s with depth := s.depth - 1 }
    else if tag.name = "r" ∧ tag.selfClosing = false then
      .ok { s with current := some ⟨tag, 1, none, none, none, decide (1 < s.depth)⟩ }
    else if tag.selfClosing = false then .ok { s with depth := s.depth + 1 }
    else .ok s

/-- A run that the paragraph does not close ends with its open tag. -/
def RunsState.finish (s : RunsState) : Except Failed RunsState :=
  match s.current with
  | some run => s.push paragraph base run run.tag.stop
  | none => .ok s

def runsOf : Except Failed (List RunSpan) := do
  let s ← (scanTags paragraph).foldlM (runsStep paragraph base) ⟨[], 0, none⟩
  let s ← s.finish paragraph base
  if s.runs = [] then .error (.refused noRuns) else .ok s.runs

end RunsOf

/-! ## Rewriting -/

def FormatPlan.paragraph (plan : FormatPlan) (paragraphId : String) : Option ParagraphPlan :=
  plan.paragraphs.find? fun entry => entry.paragraphId == paragraphId

def planMissingParagraph (paragraphId : String) : FormatError where
  code := "format-plan-missing-paragraph"
  detail := "the plan holds no entry for " ++ paragraphId

def notInSnapshot (paragraphId : String) : FormatError where
  code := "format-paragraph-unknown"
  detail := paragraphId ++ " is not in this snapshot"

def paragraphRangeInvalid (start stop length : ℕ) : FormatError where
  code := "format-paragraph-range-invalid"
  detail := "the paragraph range " ++ describeRange ⟨start, stop⟩ ++
    " is not inside a part of " ++ toString length ++ " byte(s)"

def snapshotStale (debug : Text → String) (paragraphId : String) (partRuns : ℕ) (partText : Text)
    (snapshotRuns : ℕ) (snapshotText : Text) : FormatError where
  code := "format-snapshot-stale"
  detail := paragraphId ++ " holds " ++ toString partRuns ++ " text run(s) reading " ++
    debug partText ++ ", the snapshot has " ++ toString snapshotRuns ++ " reading " ++
    debug snapshotText ++ "; re-read the document and plan again"

def planIncomplete (range : DraftRange) (paragraphId : String) : FormatError where
  code := "format-plan-incomplete"
  detail := "the plan names no run for characters " ++ describeRange range ++ " of " ++
    paragraphId ++ "; a plan must tile the paragraph it plans"

def runNested (range : DraftRange) (paragraphId : String) : FormatError where
  code := "format-run-nested"
  detail := "the characters " ++ describeRange range ++ " of " ++ paragraphId ++
    " sit in a run inside another element (a hyperlink, a revision wrapper); " ++
    "restyling them would mean rewriting that element, which the format engine does not own. " ++
    "Format text in a run that is a direct child of the paragraph"

def runHasStructure (range : DraftRange) (paragraphId child : String) : FormatError where
  code := "format-run-has-structure"
  detail := "the run holding characters " ++ describeRange range ++ " of " ++ paragraphId ++
    " carries <" ++ child ++ "> besides its properties and text; splitting or restyling it " ++
    "would have to preserve more than properties, which v1 does not claim to do. " ++
    "Format a range inside a run that holds only text"

def styleNotRegistered (styleId : String) : FormatError where
  code := "format-style-unavailable"
  detail := styleId ++ " is not in this snapshot's registry"

section Rewrite

variable (snapshot : Snapshot)

/-- One piece of a rebuilt run. -/
def buildPiece (source : RunSpan) (sourceRange : DraftRange) (planned : PlannedRun) :
    Except Failed Bytes := do
  let range := planned.range
  let piece ←
    if sourceRange.start ≤ range.start ∧ range.start ≤ range.stop ∧
        range.stop - sourceRange.start ≤ source.text.length then
      .ok ((source.text.take (range.stop - sourceRange.start)).drop
        (range.start - sourceRange.start))
    else .error .panic
  let rpr ←
    match planned.style with
    | some styleId =>
      match snapshot.styles.lookup styleId with
      | some style => .ok (bytes style)
      | none => .error (.refused (styleNotRegistered styleId))
    | none => .ok source.rpr
  let openText :=
    if needsSpacePreservation piece then "<w:t xml:space=\"preserve\">" else "<w:t>"
  pure (source.openTag ++ rpr ++ bytes openText ++ utf8 (encodeText piece) ++ bytes "</w:t></w:r>")

/-- `sort_by_key(|planned| planned.range.start)`, which is stable. -/
def piecesOf (runs : List PlannedRun) (position : ℕ) : List PlannedRun :=
  (runs.filter fun planned => planned.sourceRun == position).insertionSort fun a b =>
    a.range.start ≤ b.range.start

/-- The text run at `position`: what replaces it, when something does. -/
def rewriteRun (paragraph : ParagraphPlan) (source : RunSpan) (position : ℕ)
    (sourceRange : DraftRange) : Except Failed (Option (Cut UInt8)) :=
  let pieces := piecesOf paragraph.runs position
  if pieces = [] then .error (.refused (planIncomplete sourceRange paragraph.paragraphId))
  else if source.nested then
    if pieces.any fun planned => planned.style.isSome then
      .error (.refused (runNested sourceRange paragraph.paragraphId))
    else .ok none
  else if pieces.map (fun planned => (planned.style, planned.range)) = [(none, sourceRange)] then
    .ok none
  else
    match source.structured with
    | some child => .error (.refused (runHasStructure sourceRange paragraph.paragraphId child))
    | none => do
      let built ← pieces.mapM (buildPiece snapshot source sourceRange)
      pure (some ⟨source.start, source.stop, built.flatten⟩)

/-- The splices of the text runs from `position` on, of which the first starts at `cursor`. -/
def splicesFrom (paragraph : ParagraphPlan) :
    ℕ → ℕ → List RunSpan → Except Failed (List (Cut UInt8))
  | _, _, [] => .ok []
  | position, cursor, source :: rest => do
    let stop := cursor + source.text.length
    let splice ← rewriteRun snapshot paragraph source position ⟨cursor, stop⟩
    let splices ← splicesFrom paragraph (position + 1) stop rest
    pure (splice.toList ++ splices)

variable (debug : Text → String) (plan : FormatPlan)

/-- The splices of a paragraph that lies at `base`. -/
def splicesOf (paragraphPlan : ParagraphPlan) (paragraphSnapshot : ParagraphSnapshot)
    (paragraph : Bytes) (base : ℕ) : Except Failed (List (Cut UInt8)) := do
  let runs ← runsOf paragraph base
  let textRuns := runs.filter (·.hasText)
  let snapshotText := paragraphSnapshot.runs.flatMap (·.text)
  let partText := textRuns.flatMap (·.text)
  if textRuns.length ≠ paragraphSnapshot.runs.length ∨ snapshotText ≠ partText then
    .error (.refused (snapshotStale debug paragraphSnapshot.paragraphId textRuns.length partText
      paragraphSnapshot.runs.length snapshotText))
  else splicesFrom snapshot paragraphPlan 0 0 textRuns

def materialize (part : Bytes) (range : ℕ × ℕ) (paragraphId : String) : Except Failed Bytes :=
  match plan.paragraph paragraphId with
  | none => .error (.refused (planMissingParagraph paragraphId))
  | some paragraphPlan =>
    match snapshot.paragraphs.find? fun entry => entry.paragraphId == paragraphId with
    | none => .error (.refused (notInSnapshot paragraphId))
    | some paragraphSnapshot =>
      if range.1 ≥ range.2 ∨ range.2 > part.length then
        .error (.refused (paragraphRangeInvalid range.1 range.2 part.length))
      else
        (splicesOf snapshot debug paragraphPlan paragraphSnapshot (slice part range.1 range.2)
          range.1).map (applyCuts part)

end Rewrite

end Docx2Typed.Format
