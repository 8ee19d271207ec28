import Mathlib.Data.List.Basic

/-!
# Editing through the surface

`document_edit` parses a batch, where a selector stands for the handles a search finds, runs it as
one mutation of the workspace, probes the members of a selector, and answers.  The mutation works
on a copy of the committed generation: `apply_and_sync` carries out the entries and settles the
draft, and its result is published, or the copy is discarded.

What the engine does to the files of a workdir is given by `Engine`, and what the store refuses by
`Store`; an operation that is refused has no result.  The refusals carry the codes of the source;
their texts are cut where they list the keys of an entry.
-/

namespace Docx2Typed.DocumentEdit

/-- A JSON value, as far as it is read here. -/
inductive Value where
  | null
  | flag (value : Bool)
  | number (value : ℕ)
  | string (text : String)
  | object (members : List (String × Value))
  | other

def Value.get (value : Value) (key : String) : Option Value :=
  match value with
  | .object members => members.lookup key
  | _ => none

def Value.asStr : Value → Option String
  | .string text => some text
  | _ => none

def Value.asU64 : Value → Option ℕ
  | .number value => some value
  | _ => none

def Value.asObject : Value → Option (List (String × Value))
  | .object members => some members
  | _ => none

def Value.isNull : Value → Bool
  | .null => true
  | _ => false

def Value.str (value : Value) (key : String) : Option String := (value.get key).bind Value.asStr

structure Refusal where
  code : String
  detail : String
  deriving DecidableEq

inductive FormatPolicy where
  | safeInherit
  | none
  deriving DecidableEq

structure EditTracking where
  tracked : Bool
  author : Option String
  date : Option String

/-- `ResolvedMatchRef`. -/
structure Resolved where
  paragraphId : String
  text : String
  start : ℕ

def Resolved.stop (resolved : Resolved) : ℕ := resolved.start + resolved.text.length

/-- The request of the engine, for the characters `start` to `stop`. -/
structure SpanRequest where
  paragraphId : String
  start : ℕ
  stop : ℕ
  styleId : String
  attributes : Option Value

structure EditRequest where
  handle : String
  replaceWith : String

/-- The request of the surface. -/
structure FormatRequest where
  handle : String
  styleId : String
  attributes : Option (List (String × Value))
  fromSelector : Bool

inductive Edit where
  | replace (request : EditRequest)
  | insertAfter (handle text : String) (format : FormatPolicy)
  | delete (handle : String)
  | format (request : FormatRequest)

def Edit.isFormat : Edit → Bool
  | .format _ => true
  | _ => false

/-- What a search gives: the handles of the occurrences, and whether it covered every match. -/
structure Found where
  handles : List String
  complete : Bool

/-- The engine, on the files of a workdir. -/
structure Engine (φ : Type) where
  /-- Whether `edit.state.json` is there. -/
  hasState : φ → Bool
  /-- What `classify_edit_state` has to object to. -/
  damage : φ → Option Refusal
  /-- `ensure_projection` where there is no state yet. -/
  render : φ → Except Refusal φ
  render_hasState : ∀ files files', render files = .ok files' → hasState files' = true
  search : φ → String → Option Value → Except Refusal Found
  resolveMatchRef : φ → String → Except String Resolved
  checkEditableSpan : φ → Resolved → Option Refusal
  insertParagraph : φ → String → String → FormatPolicy → Except Refusal φ
  deleteParagraph : φ → String → Except Refusal φ
  documentPatch : φ → List (String × String) → EditTracking → Except Refusal φ
  resolveStyle : φ → String → ℕ → ℕ → List (String × Value) → Except Refusal String
  alreadyHolds : φ → String → ℕ → ℕ → String → Except Refusal Bool
  probeFormat : φ → SpanRequest → Option Refusal
  recordFormatRequest : φ → SpanRequest → Except Refusal φ
  ensureSession : φ → Except Refusal φ
  /-- It also gives the paragraphs that changed. -/
  applyProjection : φ → EditTracking → Except Refusal (φ × List String)
  publishCurrent : φ → EditTracking → List String → Except Refusal φ

/-! ## Selectors -/

section Selectors

variable {φ : Type} (e : Engine φ)

def ensureProjection (root : φ) : Except Refusal φ :=
  if e.hasState root then
    match e.damage root with
    | some refusal => .error refusal
    | none => .ok root
  else e.render root

/-- `document_find`, with the files it leaves. -/
def documentFind (root : φ) (query : String) (scope : Option Value) : φ × Except Refusal Found :=
  if query = "" then
    (root, .error ⟨"invalid-arguments", "document_find needs a non-empty `query`; an empty " ++
      "query matches everything and would return the whole document rather than an answer"⟩)
  else
    match ensureProjection e root with
    | .error refusal => (root, .error refusal)
    | .ok root => (root, e.search root query (scope.filter fun scope => !scope.isNull))

def invalidArguments (detail : String) : Refusal := ⟨"invalid-arguments", detail⟩

/-- The handles of a complete search, as the selector wants them. -/
def selectHandles (selector : Value) (text mode : String) (found : Found) :
    Except Refusal (List String) :=
  if !found.complete then
    .error ⟨"selector-incomplete", "the search for " ++ text.quote ++ " did not cover every " ++
      "match, so a selector that edits \"all\" of them would be a guess. Narrow the query"⟩
  else
    let handles := if mode = "first" then found.handles.take 1 else found.handles
    match ((selector.get "expected_count").bind Value.asU64).filter (· ≠ handles.length) with
    | some expected =>
      .error ⟨"selector-count-mismatch", "the selector expected " ++ toString expected ++
        " match(es) of " ++ text.quote ++ " and the document holds " ++
        toString handles.length ++ "; nothing was written"⟩
    | none =>
      if handles = [] then
        .error ⟨"selector-matched-nothing", "no match for " ++ text.quote ++
          "; nothing was written"⟩
      else .ok handles

def selectorMode (selector : Value) : String := (selector.str "match").getD "all"

def handlesForSelector (root : φ) (selector : Value) : φ × Except Refusal (List String) :=
  match selector.str "text" with
  | none => (root, .error (invalidArguments ("a selector needs `text`: the text to enumerate. " ++
      "`match` may be `all` (the default) or `first`, and `expected_count` is checked when given")))
  | some text =>
    if selectorMode selector ≠ "all" ∧ selectorMode selector ≠ "first" then
      (root, .error (invalidArguments ("selector `match` is `" ++ selectorMode selector ++
        "`; it may be `all` or `first`")))
    else
      match documentFind e root text (selector.get "scope") with
      | (root, .error refusal) => (root, .error refusal)
      | (root, .ok found) => (root, selectHandles selector text (selectorMode selector) found)

/-- The selector of an entry. -/
def selectorOf (entry : Value) : Option Value :=
  (entry.get "selector").filter fun selector => !selector.isNull

def fromSelector : String := "__from_selector"

/-- The entry a selector stands for, with one of its handles. -/
def concreteEntry (entry : Value) (handle : String) : Value :=
  match entry with
  | .object members => .object (("handle", .string handle) :: (fromSelector, .flag true) ::
      members.filter fun member => member.1 ≠ "selector" ∧ member.1 ≠ "handle" ∧
        member.1 ≠ fromSelector)
  | entry => entry

/-- The entries with their selectors expanded. -/
def expand (root : φ) : List Value → φ × Except Refusal (List Value)
  | [] => (root, .ok [])
  | entry :: entries =>
    match selectorOf entry with
    | none =>
      match expand root entries with
      | (root, .ok expanded) => (root, .ok (entry :: expanded))
      | (root, .error refusal) => (root, .error refusal)
    | some selector =>
      match handlesForSelector e root selector with
      | (root, .error refusal) => (root, .error refusal)
      | (root, .ok handles) =>
        match expand root entries with
        | (root, .ok expanded) => (root, .ok (handles.map (concreteEntry entry) ++ expanded))
        | (root, .error refusal) => (root, .error refusal)

end Selectors

/-! ## Parsing -/

section Parsing

def universal : List String := ["kind", "handle", "selector"]

def consumed : String → Option (List String)
  | "replace" => some ["replace_with"]
  | "insert_after" => some ["text", "format_policy"]
  | "delete" => some []
  | "format" => some ["style_id", "format"]
  | _ => none

def unconsumedField (kind : String) (entry : Value) : Option String := do
  let consumed ← consumed kind
  let members ← entry.asObject
  (members.map (·.1)).find? fun key =>
    !(universal.contains key || consumed.contains key || key == fromSelector)

def editKind (entry : Value) : String := (entry.str "kind").getD "replace"

/-- The marker of an entry that a selector stands for. -/
def isFromSelector (entry : Value) : Bool :=
  match entry.get fromSelector with
  | some (.flag value) => value
  | _ => false

/-- One entry, once its handle is known and it carries nothing its kind does not use. -/
def parseKind (number : ℕ) (entry : Value) (kind handle : String) : Except Refusal Edit :=
  let place := "edit #" ++ toString number
  match kind with
  | "replace" =>
    match entry.str "replace_with" with
    | none => .error (invalidArguments (place ++
        " is kind `replace` and needs `replace_with` (the new text)"))
    | some replaceWith => .ok (.replace ⟨handle, replaceWith⟩)
  | "insert_after" =>
    match entry.str "text" with
    | none => .error (invalidArguments (place ++
        " is kind `insert_after` and needs `text` (the paragraph to insert)"))
    | some text =>
      match entry.str "format_policy" with
      | none | some "safe_inherit" => .ok (.insertAfter handle text .safeInherit)
      | some "none" => .ok (.insertAfter handle text .none)
      | some other => .error (invalidArguments (place ++ " has format_policy `" ++ other ++
          "`; the allowed values are safe_inherit (the default) and none"))
  | "delete" => .ok (.delete handle)
  | "format" =>
    match entry.str "style_id", (entry.get "format").bind Value.asObject with
    | some styleId, _ => .ok (.format ⟨handle, styleId, none, isFromSelector entry⟩)
    | none, some attributes =>
      .ok (.format ⟨handle, "", some attributes, isFromSelector entry⟩)
    | none, none => .error (invalidArguments (place ++ " is kind `format` and needs either " ++
        "`style_id` (one of the ids document_find reports for the span) or `format` (the " ++
        "properties to give the characters, which the engine resolves against the styles this " ++
        "document already carries)"))
  | other => .error (invalidArguments (place ++ " has kind `" ++ other ++
      "`; the allowed kinds are replace, insert_after, delete and format"))

def parseEdit (number : ℕ) (entry : Value) : Except Refusal Edit :=
  match entry.str "handle" with
  | none => .error (invalidArguments ("edit #" ++ toString number ++
      " needs a `handle` from document_find"))
  | some handle =>
    match unconsumedField (editKind entry) entry with
    | some field => .error ⟨"unsupported-combined-edit", "edit #" ++ toString number ++
        " is kind `" ++ editKind entry ++ "` and carries `" ++ field ++
        "`, which that kind does not use; nothing was written"⟩
    | none => parseKind number entry (editKind entry) handle

def parseFrom (number : ℕ) : List Value → Except Refusal (List Edit)
  | [] => .ok []
  | entry :: entries => do
    let edit ← parseEdit number entry
    let edits ← parseFrom (number + 1) entries
    pure (edit :: edits)

/-- `edits_from`, with the files that the searches of its selectors leave. -/
def editsFrom {φ : Type} (e : Engine φ) (root : φ) (entries : Option (List Value)) :
    φ × Except Refusal (List Edit) :=
  match entries with
  | none => (root, .error (invalidArguments ("document_edit requires `edits`: an array of " ++
      "edits, each with a `handle` from document_find and a `kind` of replace, insert_after, " ++
      "delete or format")))
  | some [] => (root, .error (invalidArguments ("document_edit needs at least one edit; an " ++
      "empty list would report success while changing nothing")))
  | some (entry :: entries) =>
    match expand e root (entry :: entries) with
    | (root, .error refusal) => (root, .error refusal)
    | (root, .ok expanded) => (root, parseFrom 1 expanded)

end Parsing

/-! ## The mutation -/

section Mutation

variable {φ : Type} (e : Engine φ)

/-- A refusal of the engine's core: its code stands before the first colon. -/
def ofMessage (message : String) : Refusal :=
  match message.splitOn ":" with
  | code :: detail :: rest =>
    if code.toList.contains ' ' then ⟨"invalid-edit", message⟩
    else ⟨code, (":".intercalate (detail :: rest)).trimAscii.toString⟩
  | _ => ⟨"invalid-edit", message⟩

def resolve (files : φ) (handle : String) : Except Refusal Resolved :=
  match e.resolveMatchRef files handle with
  | .ok resolved => .ok resolved
  | .error message => .error (ofMessage message)

/-- A format entry as it is reported. -/
structure Restyle where
  paragraphId : String
  start : ℕ
  stop : ℕ
  styleId : String
  deriving DecidableEq

inductive Structural where
  | insertAfter (anchor : String)
  | delete (paragraphId : String)
  deriving DecidableEq

/-- How far the loop of `apply_and_sync` has come. -/
structure Progress (φ : Type) where
  files : φ
  requests : List EditRequest
  structural : List Structural
  restyles : List Restyle
  skipped : List Restyle

/-- The style a format entry asks for, by its id or by its properties. -/
def requestedStyle (files : φ) (resolved : Resolved) (request : FormatRequest) :
    Except Refusal String :=
  match request.attributes with
  | some attributes =>
    e.resolveStyle files resolved.paragraphId resolved.start resolved.stop attributes
  | none => .ok request.styleId

/-- Whether a target of a selector holds the style already. -/
def holdsAlready (files : φ) (resolved : Resolved) (request : FormatRequest) (styleId : String) :
    Except Refusal Bool :=
  if request.fromSelector then
    e.alreadyHolds files resolved.paragraphId resolved.start resolved.stop styleId
  else .ok false

/-- A format entry: nothing is recorded where a selector's target holds the style already. -/
def applyFormat (progress : Progress φ) (request : FormatRequest) :
    Except Refusal (Progress φ) := do
  let resolved ← resolve e progress.files request.handle
  let styleId ← requestedStyle e progress.files resolved request
  let restyle : Restyle := ⟨resolved.paragraphId, resolved.start, resolved.stop, styleId⟩
  let held ← holdsAlready e progress.files resolved request styleId
  if held then pure { progress with skipped := progress.skipped ++ [restyle] }
  else
    let files ← e.recordFormatRequest progress.files
      ⟨resolved.paragraphId, resolved.start, resolved.stop, styleId,
        request.attributes.map Value.object⟩
    pure { progress with files, restyles := progress.restyles ++ [restyle] }

/-- One entry of the batch; a replacement is only collected. -/
def applyEntry (edits : List Edit) (progress : Progress φ) (edit : Edit) :
    Except Refusal (Progress φ) :=
  match edit with
  | .replace request => .ok { progress with requests := progress.requests ++ [request] }
  | .format request =>
    if edits.any fun other => !other.isFormat then
      .error ⟨"format-and-text-in-one-batch", "a batch cannot mix text edits with format " ++
        "edits: a format edit's span is measured against the text as it stands, so the two " ++
        "kinds would have to run in a fixed order to mean anything. Send the text edits, then " ++
        "a separate document_edit with the format edits"⟩
    else applyFormat e progress request
  | .insertAfter handle text format => do
    let resolved ← resolve e progress.files handle
    let files ← e.insertParagraph progress.files resolved.paragraphId text format
    pure { progress with
      files, structural := progress.structural ++ [.insertAfter resolved.paragraphId] }
  | .delete handle => do
    let resolved ← resolve e progress.files handle
    let files ← e.deleteParagraph progress.files resolved.paragraphId
    pure { progress with
      files, structural := progress.structural ++ [.delete resolved.paragraphId] }

/-- Why `stage_edits` blocks a replacement. -/
def blockedReason (files : φ) (request : EditRequest) : Option String :=
  match e.resolveMatchRef files request.handle with
  | .error message => some message
  | .ok resolved =>
    match e.checkEditableSpan files resolved with
    | some refusal => some (refusal.code ++ ": " ++ refusal.detail)
    | none => if resolved.text = request.replaceWith then some "replace-is-a-noop" else none

/-- The report on the replacements. -/
inductive EditReport where
  | null
  | blocked (reasons : List String)
  | committed (staged : ℕ)

/-- `facade::edit`, with the files it leaves. -/
def facadeEdit (files : φ) (requests : List EditRequest) (tracking : EditTracking) :
    Except Refusal (φ × EditReport) :=
  let reasons := requests.filterMap (blockedReason e files)
  if reasons ≠ [] then .ok (files, .blocked reasons)
  else do
    let files ← e.documentPatch files (requests.map fun request =>
      (request.handle, request.replaceWith)) tracking
    pure (files, .committed requests.length)

/-- No replacements are no empty batch for the facade. -/
def applyReplacements (files : φ) (requests : List EditRequest) (tracking : EditTracking) :
    Except Refusal (φ × EditReport) :=
  if requests = [] then .ok (files, .null) else facadeEdit e files requests tracking

/-- What a mutation returns. -/
structure Data where
  edit : EditReport
  structural : List Structural
  restyles : List Restyle
  skipped : List Restyle
  changed : List String

/-- Settles the draft, and gives the paragraphs that changed. -/
def settle (files : φ) (tracking : EditTracking) : Except Refusal (φ × List String) := do
  let files ← e.ensureSession files
  let (files, changed) ← e.applyProjection files tracking
  if changed = [] then pure (files, [])
  else
    let files ← e.publishCurrent files tracking changed
    pure (files, changed)

def applyAndSync (tracking : EditTracking) (edits : List Edit) (files : φ) :
    Except Refusal (φ × Data) := do
  let progress ← edits.foldlM (applyEntry e edits) ⟨files, [], [], [], []⟩
  let (files, edit) ← applyReplacements e progress.files progress.requests tracking
  let (files, changed) ← settle e files tracking
  pure (files, ⟨edit, progress.structural, progress.restyles, progress.skipped, changed⟩)

/-- A workspace with nothing left to recover: the files at its root, the generation its pointer
selects with the files of that generation, and the mutations its ledger knows. -/
structure Workspace (φ : Type) where
  root : φ
  generation : String
  committed : φ
  /-- The canonical input of an operation, and what it returned. -/
  ledger : String → Option (String × Data)

/-- The store, as far as a mutation of the surface meets it. -/
structure Store (φ : Type) where
  canonical : Option (List Value) → String
  /-- Why the store cannot be opened. -/
  closed : Workspace φ → Option Refusal
  /-- Why a new operation is not begun. -/
  notBegun : Workspace φ → Option Refusal
  /-- The copy of the committed generation, under what stands at the root. -/
  copy : Workspace φ → φ
  /-- Why the files that an operation leaves are not published. -/
  notPublished : Workspace φ → φ → Option Refusal
  /-- The root once a generation is published. -/
  materialize : φ → φ → φ
  nextGeneration : String → String
  fresh : ∀ generation, nextGeneration generation ≠ generation

variable (s : Store φ)

/-- How a mutation ends. -/
inductive Ended (φ : Type) where
  | refused (refusal : Refusal)
  | repeated (data : Data)
  | published (files : φ) (data : Data)

/-- The mutation of `edit_mutation`, in `store_save_boundary`. -/
def editMutation (tracking : EditTracking) (operationId : String) (entries : Option (List Value))
    (edits : List Edit) (w : Workspace φ) : Ended φ :=
  match s.closed w with
  | some refusal => .refused refusal
  | none =>
    match w.ledger operationId with
    | some (canonical, data) =>
      if canonical = s.canonical entries then .repeated data
      else .refused ⟨"operation-id-reused", "operation_id " ++ operationId ++
        " was already used with different canonical input"⟩
    | none =>
      match s.notBegun w with
      | some refusal => .refused refusal
      | none =>
        match applyAndSync e tracking edits (s.copy w) with
        | .error refusal => .refused refusal
        | .ok (files, data) =>
          match s.notPublished w files with
          | some refusal => .refused refusal
          | none => .published files data

/-- The workspace that a mutation leaves. -/
def Ended.workspace (operationId : String) (entries : Option (List Value)) (w : Workspace φ) :
    Ended φ → Workspace φ
  | .published files data =>
    { root := s.materialize w.root files
      generation := s.nextGeneration w.generation
      committed := files
      ledger := Function.update w.ledger operationId (some (s.canonical entries, data)) }
  | _ => w

def Ended.applied : Ended φ → Except Refusal Data
  | .refused refusal => .error refusal
  | .repeated data => .ok data
  | .published _ data => .ok data

end Mutation

/-! ## The call -/

section Call

variable {φ : Type} (e : Engine φ) (s : Store φ)

/-- The selector whose members are probed. -/
def probedSelector (entries : List Value) : Option Value :=
  (entries.findSome? fun entry => entry.get "selector").filter fun selector => !selector.isNull

/-- A member that a probe rejects. -/
structure Rejected where
  index : ℕ
  paragraphId : String
  code : String

def probeMember (root : φ) (index : ℕ) (handle : String) (entry : Value) : Option Rejected :=
  if editKind entry ≠ "format" then none
  else
    match e.resolveMatchRef root handle with
    | .error message => some ⟨index, "", ((message.splitOn ":").headD "refused").trimAscii.toString⟩
    | .ok resolved =>
      let request : SpanRequest := ⟨resolved.paragraphId, resolved.start, resolved.stop,
        (entry.str "style_id").getD "", entry.get "format"⟩
      (e.probeFormat root request).map fun refusal => ⟨index, resolved.paragraphId, refusal.code⟩

def probeMembers (root : φ) (entries : List Value) (handles : List String) : List Rejected :=
  handles.zipIdx.flatMap fun handle => entries.filterMap (probeMember e root handle.2 handle.1)

/-- `selector_member_probe`, with the files its search leaves. -/
def selectorMemberProbe (root : φ) (entries : Option (List Value)) : φ × Option Refusal :=
  match entries.bind fun entries => (probedSelector entries).map fun selector =>
      (entries, selector) with
  | none => (root, none)
  | some (entries, selector) =>
    match handlesForSelector e root selector with
    | (root, .error _) => (root, none)
    | (root, .ok handles) =>
      match probeMembers e root entries handles with
      | [] => (root, none)
      | failures =>
        (root, some ⟨"selector-member-rejected", "the selector matched " ++
          toString handles.length ++ " target(s) and " ++ toString failures.length ++
          " of them cannot be applied, so nothing was written (a selector batch is " ++
          "all-or-nothing). The members that would refuse: " ++
          ", ".intercalate (failures.map fun failure => "#" ++ toString failure.index ++ " " ++
            failure.paragraphId ++ " " ++ failure.code) ++
          ". Narrow the selector, or send the ones that work as their own edits"⟩)

/-- The entry with a handle in the place of its selector, for a dry run. -/
def singleEntry (handle : String) : Value → Value
  | .object members => .object (("handle", .string handle) ::
      members.filter fun member => member.1 ≠ "selector" ∧ member.1 ≠ "handle")
  | entry => entry

/-- `selector_member_diagnosis`: a dry run refuses what does not parse. -/
def selectorMemberDiagnosis (root : φ) (entries : Option (List Value)) (refusal : Refusal) :
    φ × Option Refusal :=
  match entries.bind fun entries => (probedSelector entries).map fun selector =>
      (entries, selector) with
  | none => (root, none)
  | some (entries, selector) =>
    match handlesForSelector e root selector with
    | (root, .error _) => (root, none)
    | (root, .ok handles) =>
      let failures := handles.zipIdx.filterMap fun handle =>
        match (editsFrom e root (some (entries.map (singleEntry handle.1)))).2 with
        | .ok _ => none
        | .error refusal => some (handle.2, refusal.code)
      if failures = [] then (root, none)
      else
        (root, some ⟨"selector-member-rejected", "the selector matched " ++
          toString handles.length ++ " target(s), " ++ toString failures.length ++
          " of them cannot be applied, and nothing was written (the batch is all-or-nothing). " ++
          "The members that refused: " ++ ", ".intercalate (failures.map fun failure =>
            "#" ++ toString failure.1 ++ " (" ++ failure.2 ++ ")") ++
          ". First refusal: " ++ refusal.detail⟩)

structure Session where
  opened : Bool
  tracking : EditTracking
  newOperationId : String

/-- The arguments of a call that is no dry run. -/
structure Args where
  edits : Option (List Value)
  operationId : Option String

def Args.operation (args : Args) (session : Session) : String :=
  (args.operationId.filter (· ≠ "")).getD session.newOperationId

structure Reply where
  operationId : String
  data : Data

def editBlocked (editCount : ℕ) (reasons : List String) : Refusal :=
  ⟨"edit-blocked", toString (max reasons.length 1) ++ " of " ++ toString editCount ++
    " edit(s) cannot be applied, so nothing was written: " ++ "; ".intercalate reasons⟩

/-- What is answered once the mutation has ended, with the workspace that is left. -/
def answer (session : Session) (args : Args) (ended : Ended φ) (w : Workspace φ) :
    Workspace φ × Except Refusal Reply :=
  match selectorMemberProbe e w.root args.edits with
  | (root, some refusal) => ({ w with root }, .error refusal)
  | (root, none) =>
    match ended.applied with
    | .error refusal =>
      let diagnosed := selectorMemberDiagnosis e root args.edits refusal
      ({ w with root := diagnosed.1 }, .error (diagnosed.2.getD refusal))
    | .ok data =>
      match data.edit with
      | .blocked reasons =>
        ({ w with root }, .error (editBlocked ((args.edits.map List.length).getD 0) reasons))
      | _ => ({ w with root }, .ok ⟨args.operation session, data⟩)

/-- `document_edit`, with the workspace it leaves. -/
def documentEdit (session : Session) (args : Args) (w : Workspace φ) :
    Workspace φ × Except Refusal Reply :=
  if !session.opened then
    (w, .error ⟨"workdir-not-open", "no document is open; call document_open first"⟩)
  else
    match editsFrom e w.root args.edits with
    | (root, .error refusal) => ({ w with root }, .error refusal)
    | (root, .ok edits) =>
      let w := { w with root }
      let ended := editMutation e s session.tracking (args.operation session) args.edits edits w
      answer e session args ended (ended.workspace s (args.operation session) args.edits w)

end Call

end Docx2Typed.DocumentEdit
