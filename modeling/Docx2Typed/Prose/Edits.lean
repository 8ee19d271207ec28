import Docx2Typed.Prose.Span
import Docx2Typed.Zip.Patch

/-!
# Island edits

`apply_edits`: every edit is resolved against the inventory of its part, becomes byte splices of
the part, and the parts are patched into the package one after the other.  A direct edit replaces
the bytes of each leaf's share; a tracked edit rewrites each covered run as a deletion and, behind
the last one, an insertion.

The run keeps a log of what it spliced, part by part.  The result does not depend on it.
-/

namespace Docx2Typed

open Library (findSub)
open Library.Utf8 (decodeLossy)

/-- One recorded island edit. -/
structure IslandEdit where
  part : String
  paragraphId : String
  leafIndex : Nat
  old : Text
  /-- Offset of `old` in the paragraph's visible text, when the edit came from a handle. -/
  charStart : Option Nat := none
  new : Text
  tracked : Bool := false
  author : Text := []
  date : Text := []
  deriving DecidableEq, Repr

/-- `resolve_leaf`: a leaf outside the editable surface is refused. -/
def resolveLeaf (inventory : ProseInventory) (part paragraphId : String) (leafIndex : Nat) :
    Outcome ProseLeaf :=
  match inventory.leaves.find? fun leaf =>
      leaf.partKey = part ∧ leaf.paragraphId = paragraphId ∧ leaf.leafIndex = leafIndex with
  | none => refuse s!"invalid-edit: leaf not found: {part}:{paragraphId}.{leafIndex}"
  | some leaf =>
    if leaf.editable then pure leaf
    else
      let locked := (inventory.opaques.filter (·.paragraphId = paragraphId)).map (·.tag)
      let what :=
        if locked = [] then "a non-editable surface (deletion revision or an unmodelled run)"
        else ", ".intercalate locked ++
          " — this is where a field, an equation or a drawing lives"
      refuse (s!"opaque-paragraph-mutated: {paragraphId}: leaf {leafIndex} sits inside {what}. " ++
        "The tool never rewrites a locked interior. Replace the whole paragraph instead: " ++
        s!"document_edit with kind=delete for {paragraphId}, then kind=insert_after carrying " ++
        "the text you want — that route needs no run match and preserves everything outside " ++
        "the paragraph byte-for-byte.")

/-! ## Revision ids -/

/-- Revision ids are `u32`, and adding to them saturates. -/
def u32Max : Nat := 2 ^ 32 - 1

def saturatingAdd (a b : Nat) : Nat := min (a + b) u32Max

def idMarker : Bytes := bytes "w:id=\""

/-- The largest id of the package's own bytes, from some point on. -/
def maxRevisionIdFrom : Nat → Bytes → Nat
  | 0, _ => 0
  | fuel + 1, raw =>
    match findSub idMarker raw with
    | none => 0
    | some i =>
      let rest := raw.drop (i + idMarker.length)
      let digits := rest.takeWhile isAsciiDigit
      max ((parseU32 10 (asciiString digits).toList).getD 0)
        (maxRevisionIdFrom fuel (rest.dropWhile isAsciiDigit))

/-- `max_revision_id`. -/
def maxRevisionId (package : Bytes) : Nat := maxRevisionIdFrom package.length package

/-! ## Tracked edits -/

/-- The last place at which a predicate of the rest of the bytes holds. -/
def findLast (p : Bytes → Bool) : Bytes → Option Nat
  | [] => none
  | b :: rest =>
    match findLast p rest with
    | some i => some (i + 1)
    | none => if p (b :: rest) then some 0 else none

/-- At how many places a pattern stands. -/
def countSub (pattern : Bytes) : Bytes → Nat
  | [] => 0
  | b :: rest => (if pattern <+: b :: rest then 1 else 0) + countSub pattern rest

/-- The rPr of a run, by substring search: up to the first close tag. -/
def rprOfRun (run : Bytes) : Text :=
  match findSub (bytes "<w:rPr") run with
  | none => []
  | some start =>
    match findSub (bytes "</w:rPr>") (run.drop start) with
    | none => []
    | some stop => decodeLossy (slice run start (start + stop + 8))

/-- `run_range_for_leaf`: the run around a leaf, with its raw rPr. -/
def runRangeForLeaf (part : Bytes) (leaf : ProseLeaf) : Outcome (Nat × Nat × Text) :=
  let before := part.take leaf.textStart
  match findLast (fun rest => decide (bytes "<w:r " <+: rest ∨ bytes "<w:r>" <+: rest)) before with
  | none => refuse "tracked-edit: owning run not found"
  | some runStart =>
    match findSub (bytes "</w:r>") (part.drop leaf.textEnd) with
    | none => refuse "tracked-edit: owning run end not found"
    | some runEnd =>
      let runEnd := min leaf.textEnd part.length + runEnd + 6
      let run := slice part runStart runEnd
      if countSub (bytes "<w:t>") run + countSub (bytes "<w:t ") run ≠ 1 ∨
          countSub (bytes "</w:t>") run ≠ 1 then
        refuse "tracked-edit: replacement must target one text run"
      else pure (runStart, runEnd, rprOfRun run)

/-- One template run an edit covers. -/
structure CoveredRun where
  start : Nat
  stop : Nat
  rpr : Text
  covered : Text
  deriving DecidableEq, Repr

/-- Covers that share one owning run are merged. -/
def pushRun (runs : List CoveredRun) (run : CoveredRun) : List CoveredRun :=
  match runs.getLast? with
  | some previous =>
    if previous.start = run.start ∧ previous.stop = run.stop then
      runs.dropLast ++ [{ previous with covered := previous.covered ++ run.covered }]
    else runs ++ [run]
  | none => [run]

def coveredRuns (part : Bytes) (inventory : ProseInventory) (partKey paragraphId : String) :
    List SpanCover → List CoveredRun → Outcome (List CoveredRun)
  | [], runs => pure runs
  | cover :: rest, runs =>
    if cover.covered = [] then coveredRuns part inventory partKey paragraphId rest runs
    else do
      let leaf ← resolveLeaf inventory partKey paragraphId cover.leafIndex
      let (start, stop, rpr) ← runRangeForLeaf part leaf
      coveredRuns part inventory partKey paragraphId rest
        (pushRun runs ⟨start, stop, rpr, cover.covered⟩)

/-- `xml_attr`. -/
def xmlAttr (text : Text) : Text :=
  text.flatMap fun c => if c = '"' then "&quot;".toList else escapeChar c

/-- `needs_xml_space`. -/
def needsXmlSpace (text : Text) : Bool := text.head? == some ' ' || text.getLast? == some ' '

/-- One run of a tracked rewrite. -/
structure RunPiece where
  rpr : Text
  tag : String
  text : Text
  deriving DecidableEq, Repr

def RunPiece.render (run : RunPiece) : Text :=
  let space := if needsXmlSpace run.text then " xml:space=\"preserve\"".toList else []
  "<w:r>".toList ++ run.rpr ++ "<w:".toList ++ run.tag.toList ++ space ++ ">".toList ++
    xmlEscape run.text ++ "</w:".toList ++ run.tag.toList ++ "></w:r>".toList

/-- What a tracked rewrite puts in the place of a run. -/
inductive Piece where
  | kept (run : RunPiece)
  | del (id : Nat) (author date : Text) (run : RunPiece)
  | ins (id : Nat) (author date : Text) (run : RunPiece)
  deriving DecidableEq, Repr

/-- The open tag of a revision. -/
def revisionTag (kind : String) (id : Nat) (author date : Text) : Text :=
  "<w:".toList ++ kind.toList ++ " w:id=\"".toList ++ (toString id).toList ++
    "\" w:author=\"".toList ++ xmlAttr author ++ "\" w:date=\"".toList ++ xmlAttr date ++ "\">".toList

def Piece.render : Piece → Text
  | .kept run => run.render
  | .del id author date run => revisionTag "del" id author date ++ run.render ++ "</w:del>".toList
  | .ins id author date run => revisionTag "ins" id author date ++ run.render ++ "</w:ins>".toList

/-- The ids a piece writes. -/
def Piece.ids : Piece → List Nat
  | .kept _ => []
  | .del id _ _ _ => [id]
  | .ins id _ _ _ => [id]

/-- What stands in the place of some bytes. -/
inductive Replacement where
  | raw (content : Bytes)
  | tracked (pieces : List Piece)
  deriving DecidableEq, Repr

def Replacement.bytes : Replacement → Bytes
  | .raw content => content
  | .tracked pieces => utf8 (pieces.flatMap Piece.render)

def Replacement.ids : Replacement → List Nat
  | .raw _ => []
  | .tracked pieces => pieces.flatMap Piece.ids

/-- One byte splice of a part. -/
structure Splice where
  start : Nat
  stop : Nat
  replacement : Replacement
  deriving DecidableEq, Repr

/-- The rewrite of one covered run. -/
def runPieces (edit : IslandEdit) (span : LeafSpanMatch) (insertRpr : Text) (deleteId : Nat)
    (isFirst isLast : Bool) (run : CoveredRun) : List Piece :=
  (if isFirst ∧ span.prefixText ≠ [] then [.kept ⟨run.rpr, "t", span.prefixText⟩] else []) ++
    [.del deleteId edit.author edit.date ⟨run.rpr, "delText", run.covered⟩] ++
    if isLast then
      .ins (saturatingAdd deleteId 1) edit.author edit.date ⟨insertRpr, "t", edit.new⟩ ::
        if span.suffixText ≠ [] then [.kept ⟨run.rpr, "t", span.suffixText⟩] else []
    else []

/-- The rewrites of the covered runs, one after the other. -/
def runSplices (edit : IslandEdit) (span : LeafSpanMatch) (insertRpr : Text) (deleteId : Nat) :
    Bool → List CoveredRun → List Splice
  | _, [] => []
  | isFirst, run :: rest =>
    ⟨run.start, run.stop,
        .tracked (runPieces edit span insertRpr deleteId isFirst (decide (rest = [])) run)⟩ ::
      runSplices edit span insertRpr deleteId false rest

/-- `tracked_span_replacement`. -/
def trackedSpanReplacement (part : Bytes) (inventory : ProseInventory) (partKey : String)
    (edit : IslandEdit) (span : LeafSpanMatch) (deleteId : Nat) : Outcome (List Splice) := do
  let runs ← coveredRuns part inventory partKey edit.paragraphId span.covers []
  match runs with
  | [] => refuse "tracked-edit: nothing to replace"
  | first :: _ => pure (runSplices edit span first.rpr deleteId true runs)

/-! ## Direct edits -/

def spaceAttribute : Bytes := bytes " xml:space=\"preserve\""

/-- `maybe_inject_xml_space`: the start tag of a text element, with the attribute. -/
def maybeInjectXmlSpace (part : Bytes) (openEnd : Nat) : Option Splice :=
  match findLast (fun rest => rest.head? == some (byte '<')) (part.take openEnd) with
  | none => none
  | some tagStart =>
    let tag := slice part tagStart openEnd
    if (findSub (bytes "xml:space=\"preserve\"") tag).isSome ∨
        (findSub (bytes "xml:space='preserve'") tag).isSome then none
    else
      let insertAt :=
        match findLast (fun rest => rest.head? == some (byte '>')) tag with
        | some position => position
        | none => tag.length
      some ⟨tagStart, openEnd, .raw (tag.take insertAt ++ spaceAttribute ++ tag.drop insertAt)⟩

/-- The splices of a direct edit: the new text takes the place of the first share. -/
def directSplices (part : Bytes) (inventory : ProseInventory) (partKey : String)
    (edit : IslandEdit) : Bool → List SpanCover → Outcome (List Splice)
  | _, [] => pure []
  | isFirst, cover :: rest =>
    if cover.covered = [] then directSplices part inventory partKey edit false rest
    else do
      let leaf ← resolveLeaf inventory partKey edit.paragraphId cover.leafIndex
      match ← findOldByteRange part leaf.textStart leaf.textEnd cover.covered with
      | none => refuse (s!"invalid-edit: {repr (String.ofList cover.covered)} not found in run " ++
          s!"{edit.paragraphId}.{cover.leafIndex} of {partKey}")
      | some (start, stop) => do
        let here : List Splice :=
          if isFirst then
            ⟨start, stop, .raw (utf8 (xmlEscape edit.new))⟩ ::
              (if needsXmlSpace edit.new then (maybeInjectXmlSpace part leaf.openEnd).toList else [])
          else [⟨start, stop, .raw []⟩]
        let others ← directSplices part inventory partKey edit false rest
        pure (here ++ others)

/-! ## The parts of a run -/

/-- The splices of one edit, and the next revision id. -/
def planEdit (part : Bytes) (inventory : ProseInventory) (partKey : String) (nextId : Nat)
    (edit : IslandEdit) : Outcome (List Splice × Nat) := do
  match ← matchLeafSpanAt inventory partKey edit.paragraphId edit.leafIndex edit.old edit.charStart with
  | none => refuse (s!"invalid-edit: old text {repr (String.ofList edit.old)} not found in " ++
      s!"paragraph {edit.paragraphId} of {partKey}")
  | some span =>
    if edit.tracked then do
      let splices ← trackedSpanReplacement part inventory partKey edit span nextId
      pure (splices, saturatingAdd nextId 2)
    else do
      let splices ← directSplices part inventory partKey edit true span.covers
      pure (splices, nextId)

def planEdits (part : Bytes) (inventory : ProseInventory) (partKey : String) :
    Nat → List IslandEdit → Outcome (List Splice × Nat)
  | nextId, [] => pure ([], nextId)
  | nextId, edit :: rest => do
    let (splices, nextId) ← planEdit part inventory partKey nextId edit
    let (others, nextId) ← planEdits part inventory partKey nextId rest
    pure (splices ++ others, nextId)

/-- `Vec::splice`. -/
def spliceBytes (part : Bytes) (splice : Splice) : Outcome Bytes :=
  if splice.start ≤ splice.stop ∧ splice.stop ≤ part.length then
    pure (part.take splice.start ++ splice.replacement.bytes ++ part.drop splice.stop)
  else .error .panic

/-- The splices sorted by start, applied from the last one to the first. -/
def applySplices (part : Bytes) (splices : List Splice) : Outcome Bytes :=
  (splices.insertionSort fun a b => a.start ≤ b.start).reverse.foldlM spliceBytes part

/-- What the run did to one part. -/
structure PartLog where
  partKey : String
  original : Bytes
  splices : List Splice
  patched : Bytes

/-- Edits by part: parts ascending, the edits of one in their order (`BTreeMap`). -/
def groupEdit (edit : IslandEdit) : List (String × List IslandEdit) → List (String × List IslandEdit)
  | [] => [(edit.part, [edit])]
  | group :: rest =>
    if edit.part = group.1 then (group.1, group.2 ++ [edit]) :: rest
    else if edit.part < group.1 then (edit.part, [edit]) :: group :: rest
    else group :: groupEdit edit rest

def groupEdits (edits : List IslandEdit) : List (String × List IslandEdit) :=
  edits.foldl (fun groups edit => groupEdit edit groups) []

/-- The edits of one part. -/
def applyPart (crates : Crates) (current : Bytes) (nextId : Nat) (group : String × List IslandEdit) :
    Outcome (PartLog × Bytes × Nat) := do
  let part ← readPartBytes crates current (partPath group.1)
  let inventory ← enumeratePackage crates current
  let (splices, nextId) ← planEdits part inventory group.1 nextId group.2
  let patched ← applySplices part splices
  let current ← Zip.patchZipMember crates current (partPath group.1) patched
  pure (⟨group.1, part, splices, patched⟩, current, nextId)

def applyParts (crates : Crates) :
    Bytes → Nat → List (String × List IslandEdit) → Outcome (List PartLog × Bytes)
  | current, _, [] => pure ([], current)
  | current, nextId, group :: rest => do
    let (log, current, nextId) ← applyPart crates current nextId group
    let (logs, final) ← applyParts crates current nextId rest
    pure (log :: logs, final)

/-- `apply_edits` with its log. -/
def editRun (crates : Crates) (package : Bytes) (edits : List IslandEdit) :
    Outcome (List PartLog × Bytes) :=
  if edits = [] then pure ([], package)
  else do
    validatePackage crates package
    applyParts crates package (saturatingAdd (maxRevisionId package) 1) (groupEdits edits)

/-- `apply_edits`. -/
def applyEdits (crates : Crates) (package : Bytes) (edits : List IslandEdit) : Outcome Bytes := do
  let (_, final) ← editRun crates package edits
  pure final

/-! ## What a run did -/

section Inversion

variable {crates : Crates} {part : Bytes} {inventory : ProseInventory} {partKey : String}
  {edit : IslandEdit} {nextId nextId' : Nat} {splices : List Splice}

theorem directSplices_cons_eq_ok {cover : SpanCover} {rest : List SpanCover} {isFirst : Bool}
    (hcovered : cover.covered ≠ [])
    (h : directSplices part inventory partKey edit isFirst (cover :: rest) = .ok splices) :
    ∃ leaf start stop others,
      resolveLeaf inventory partKey edit.paragraphId cover.leafIndex = .ok leaf ∧
      findOldByteRange part leaf.textStart leaf.textEnd cover.covered = .ok (some (start, stop)) ∧
      directSplices part inventory partKey edit false rest = .ok others ∧
      splices = (if isFirst then
          ⟨start, stop, .raw (utf8 (xmlEscape edit.new))⟩ ::
            (if needsXmlSpace edit.new then (maybeInjectXmlSpace part leaf.openEnd).toList else [])
        else [⟨start, stop, .raw []⟩]) ++ others := by
  rw [directSplices, if_neg hcovered] at h
  obtain ⟨leaf, hleaf, h⟩ := bind_eq_ok h
  obtain ⟨found, hfound, h⟩ := bind_eq_ok h
  cases found with
  | none => exact (refuse_ne_ok h).elim
  | some range =>
    obtain ⟨others, hothers, h⟩ := bind_eq_ok h
    exact ⟨leaf, range.1, range.2, others, hleaf, hfound, hothers, (Except.ok.inj h).symm⟩

theorem planEdit_eq_ok
    (h : planEdit part inventory partKey nextId edit = .ok (splices, nextId')) :
    ∃ span, matchLeafSpanAt inventory partKey edit.paragraphId edit.leafIndex edit.old
        edit.charStart = .ok (some span) ∧
      ((edit.tracked = true ∧ nextId' = saturatingAdd nextId 2 ∧ ∃ run rest,
          coveredRuns part inventory partKey edit.paragraphId span.covers [] = .ok (run :: rest) ∧
            splices = runSplices edit span run.rpr nextId true (run :: rest)) ∨
        edit.tracked = false ∧ nextId' = nextId ∧
          directSplices part inventory partKey edit true span.covers = .ok splices) := by
  obtain ⟨found, hfound, h⟩ := bind_eq_ok h
  cases found with
  | none => exact (refuse_ne_ok h).elim
  | some span =>
    refine ⟨span, hfound, ?_⟩
    cases htracked : edit.tracked with
    | true =>
      simp only [htracked, if_true] at h
      obtain ⟨_, hsplices, h⟩ := bind_eq_ok h
      obtain ⟨rfl, rfl⟩ := Prod.mk.inj (Except.ok.inj h)
      obtain ⟨runs, hruns, hsplices⟩ := bind_eq_ok hsplices
      cases runs with
      | nil => exact (refuse_ne_ok hsplices).elim
      | cons run rest =>
        exact .inl ⟨rfl, rfl, run, rest, hruns, (Except.ok.inj hsplices).symm⟩
    | false =>
      simp only [htracked, Bool.false_eq_true, if_false] at h
      obtain ⟨_, hsplices, h⟩ := bind_eq_ok h
      obtain ⟨rfl, rfl⟩ := Prod.mk.inj (Except.ok.inj h)
      exact .inr ⟨rfl, rfl, hsplices⟩

theorem planEdits_cons_eq_ok {rest : List IslandEdit}
    (h : planEdits part inventory partKey nextId (edit :: rest) = .ok (splices, nextId')) :
    ∃ here middle others, planEdit part inventory partKey nextId edit = .ok (here, middle) ∧
      planEdits part inventory partKey middle rest = .ok (others, nextId') ∧
      splices = here ++ others := by
  obtain ⟨⟨here, middle⟩, hhere, h⟩ := bind_eq_ok h
  obtain ⟨⟨others, last⟩, hothers, h⟩ := bind_eq_ok h
  obtain ⟨rfl, rfl⟩ := Prod.mk.inj (Except.ok.inj h)
  exact ⟨here, middle, others, hhere, hothers, rfl⟩

variable {current current' final : Bytes} {group : String × List IslandEdit} {logs : List PartLog}

theorem applyPart_eq_ok {log : PartLog}
    (h : applyPart crates current nextId group = .ok (log, current', nextId')) :
    ∃ part inventory splices patched, readPartBytes crates current (partPath group.1) = .ok part ∧
      enumeratePackage crates current = .ok inventory ∧
      planEdits part inventory group.1 nextId group.2 = .ok (splices, nextId') ∧
      applySplices part splices = .ok patched ∧ log = ⟨group.1, part, splices, patched⟩ := by
  obtain ⟨part, hpart, h⟩ := bind_eq_ok h
  obtain ⟨inventory, hinventory, h⟩ := bind_eq_ok h
  obtain ⟨⟨splices, middle⟩, hplan, h⟩ := bind_eq_ok h
  obtain ⟨patched, hpatched, h⟩ := bind_eq_ok h
  obtain ⟨package, -, h⟩ := bind_eq_ok h
  obtain ⟨hlog, hlast⟩ := Prod.mk.inj (Except.ok.inj h)
  obtain ⟨rfl, rfl⟩ := Prod.mk.inj hlast
  exact ⟨part, inventory, splices, patched, hpart, hinventory, hplan, hpatched, hlog.symm⟩

theorem applyParts_cons_eq_ok {rest : List (String × List IslandEdit)}
    (h : applyParts crates current nextId (group :: rest) = .ok (logs, final)) :
    ∃ log current' middle others,
      applyPart crates current nextId group = .ok (log, current', middle) ∧
      applyParts crates current' middle rest = .ok (others, final) ∧ logs = log :: others := by
  obtain ⟨⟨log, current', middle⟩, hpart, h⟩ := bind_eq_ok h
  obtain ⟨⟨others, last⟩, hothers, h⟩ := bind_eq_ok h
  obtain ⟨rfl, rfl⟩ := Prod.mk.inj (Except.ok.inj h)
  exact ⟨log, current', middle, others, hpart, hothers, rfl⟩

/-- A run without edits has no parts to go through. -/
theorem editRun_eq_ok {package : Bytes} {edits : List IslandEdit}
    (h : editRun crates package edits = .ok (logs, final)) :
    applyParts crates package (saturatingAdd (maxRevisionId package) 1) (groupEdits edits) =
      .ok (logs, final) := by
  rw [editRun] at h
  split at h
  next hempty =>
    rw [hempty]
    exact h
  next =>
    obtain ⟨-, -, h⟩ := bind_eq_ok h
    exact h

end Inversion

end Docx2Typed
