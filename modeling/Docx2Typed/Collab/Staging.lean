import Docx2Typed.Collab.Review

/-!
# Staging patches

`stage_patch` puts a patch on top of those staged before it: the patch names the snapshot that
stands, `upsert_event` writes it to the inbox as a draft, its id goes to the end of the session's
patch ids, and its event is told which snapshot it makes.  `dispatch` sends all drafts of the inbox
off as one batch, for `review_apply_batch` to read.

An event is a file of the inbox, and the name of the file need not be the id in it: a draft with the
client id of the patch is written over in its own file, under the id of the patch.

What a patch, an event or a session holds beyond the fields read here is left out.  So are failures
of the file system: the store runs each call as a whole or not at all.
-/

namespace Docx2Typed

/-! ## Patches as they come in -/

/-- `style_region_ids`. -/
inductive RegionIds where
  | absent
  | listed (ids : List Text)
  | other
  deriving DecidableEq

/-- The target of a patch.  A text that is absent, or none, reads as empty. -/
structure PatchTarget where
  startOffset : Option Nat
  endOffset : Option Nat
  expectedText : Text
  leftContext : Text := []
  rightContext : Text := []
  paragraphFingerprint : Text := []
  regionFingerprint : Text := []
  styleRegionIds : RegionIds := .absent
  deriving DecidableEq

/-- A patch, as a client sends it and as `validate_patch` leaves it.  `status`, `batchId` and
`createdAt` are no part of a patch, but pass through to its event. -/
structure PatchInput where
  type : Text
  eventId : Option Text := none
  clientId : Text := []
  origin : Text
  author : Text := []
  parentSnapshot : Text
  paragraphId : Text
  kind : Option Text := none
  target : Option PatchTarget
  before : Text
  after : Text
  reviewItemId : Text := []
  status : Option Text := none
  batchId : Option Text := none
  createdAt : Option Text := none
  deriving DecidableEq

/-- `bounded_text`. -/
def boundedText (text : Text) (name : String) (limit : Nat) : Answer Text :=
  if limit < (utf8 text).length then
    deny "patch-too-large" (name ++ " exceeds " ++ limit.repr ++ " characters")
  else pure text

/-- `if .. { return Err(..) }`. -/
def denyIf (refused : Prop) [Decidable refused] (code message : String) : Answer Unit :=
  if refused then deny code message else pure ()

def patchOrigins : List Text := ["human_ui", "human_external", "agent"].map String.toList

/-- What `validate_patch` does to the target, once it knows the offsets. -/
def validateTarget (patch : PatchInput) (target : PatchTarget) (start stop : Nat) :
    Answer PatchTarget := do
  denyIf (stop < start) "patch-range" "target offsets must be an ordered non-negative range"
  let before ← boundedText patch.before "before" 8000
  let _ ← boundedText patch.after "after" 8000
  let expected ← boundedText target.expectedText "target.expected_text" 8000
  denyIf (before ≠ expected) "patch-precondition" "before must equal target.expected_text"
  denyIf (start = stop ∧ before ≠ []) "patch-range" "insertions must use an empty before text"
  denyIf (start ≠ stop ∧ before = []) "patch-range"
    "deletions or replacements require non-empty before text"
  let _ ← boundedText target.leftContext "target.left_context" 2000
  let _ ← boundedText target.rightContext "target.right_context" 2000
  let _ ← boundedText target.paragraphFingerprint "target.paragraph_fingerprint" 200
  let _ ← boundedText target.regionFingerprint "target.region_fingerprint" 200
  pure { target with
    styleRegionIds :=
      if target.styleRegionIds = .absent then .listed [] else target.styleRegionIds }

/-- `validate_patch`; `freshId` is the id it makes up for a patch without one. -/
def validatePatch (freshId : Text) (patch : PatchInput) : Answer PatchInput := do
  denyIf (patch.type ≠ "patch".toList) "patch-type" "collaboration event must have type=patch"
  let eventId := patch.eventId.getD freshId
  let clientId ← boundedText patch.clientId "client_id" 200
  let origin ← boundedText patch.origin "origin" 32
  denyIf (origin ∉ patchOrigins) "patch-origin"
    "origin must be human_ui, human_external, or agent"
  let _ ← boundedText patch.author "author" 200
  let parentSnapshot ← boundedText patch.parentSnapshot "parent_snapshot" 120
  let paragraphId ← boundedText patch.paragraphId "paragraph_id" 120
  denyIf (parentSnapshot = [] ∨ paragraphId = []) "patch-target"
    "parent_snapshot and paragraph_id are required"
  denyIf (patch.kind.getD "replace".toList ≠ "replace".toList) "patch-kind"
    "only semantic text replacement patches are supported"
  match patch.target with
  | none => deny "patch-target" "target must be an object"
  | some target =>
    match target.startOffset, target.endOffset with
    | some start, some stop => do
      let target ← validateTarget patch target start stop
      let reviewItemId ← boundedText patch.reviewItemId "review_item_id" 200
      pure { patch with
        eventId := some eventId
        clientId := if clientId = [] then eventId else clientId
        kind := some "replace".toList
        target := some target
        reviewItemId := if reviewItemId = [] then "review-".toList ++ eventId else reviewItemId }
    | _, _ => deny "patch-range" "target offsets must be an ordered non-negative range"

/-- The patch a batch reads off an event. -/
def PatchInput.staged (patch : PatchInput) : Option StagedPatch :=
  match patch.target with
  | some { startOffset := some start, endOffset := some stop, expectedText := expected, .. } =>
    if h : start ≤ stop ∧ (start = stop ↔ expected = []) then
      some ⟨patch.paragraphId, start, stop, expected, patch.after, h.1, h.2⟩
    else none
  | _ => none

/-! ## The inbox -/

/-- An event of the inbox. -/
structure InboxEvent extends ReviewEvent where
  clientId : Text
  createdAt : Text
  deriving DecidableEq

/-- The files of the inbox by name, without their extension. -/
structure Inbox where
  files : List (Text × InboxEvent)
  distinct : (files.map Prod.fst).Nodup

def Inbox.read (inbox : Inbox) (name : Text) : Option InboxEvent :=
  (inbox.files.find? (·.1 = name)).map (·.2)

/-- `atomic_write`. -/
def Inbox.write (inbox : Inbox) (name : Text) (event : InboxEvent) : Inbox where
  files := inbox.files.filter (·.1 ≠ name) ++ [(name, event)]
  distinct := by
    rw [List.map_append, List.nodup_append]
    refine ⟨inbox.distinct.sublist (List.filter_sublist.map _), List.nodup_singleton _, ?_⟩
    rintro a ha b hb rfl
    obtain ⟨file, hfile, rfl⟩ := List.mem_map.mp ha
    rw [List.map_singleton, List.mem_singleton] at hb
    exact absurd hb (by simpa using (List.mem_filter.mp hfile).2)

/-- `event_path` takes the id. -/
def isEventName (eventId : Text) : Bool :=
  !eventId.isEmpty && eventId.all fun c => c.isAlphanum || c == '-' || c == '_'

/-- The order of `list_events`. -/
def listedBefore (a b : InboxEvent) : Prop :=
  a.createdAt < b.createdAt ∨ a.createdAt = b.createdAt ∧ a.eventId ≤ b.eventId

instance : DecidableRel listedBefore := fun _ _ => instDecidableOr

/-- `list_events`. -/
def listEvents (inbox : Inbox) : List InboxEvent :=
  ((inbox.files.map (·.2)).filter (·.status ∈ allowedStatuses)).insertionSort listedBefore

def allowedDeliveryStates : List Text :=
  ["staged", "queued", "in_progress", "applied", "acknowledged"].map String.toList

/-- `update_event`, on the file of an event. -/
def updateFile (now : Text) (inbox : Inbox) (eventId : Text) (update : InboxEvent → InboxEvent) :
    Answer Inbox :=
  if !isEventName eventId then deny "workdir-unreadable" "invalid event_id"
  else
    match inbox.read eventId with
    | none => deny "workdir-unreadable" "event not found"
    | some event =>
      let next := { update event with eventId, updatedAt := now }
      if next.status ∉ allowedStatuses then deny "workdir-unreadable" "invalid event status"
      else if next.deliveryState ∉ allowedDeliveryStates then
        deny "workdir-unreadable" "invalid delivery state"
      else if next.reviewDecision ∉ allowedReviewDecisions then
        deny "workdir-unreadable" "invalid review decision"
      else pure (inbox.write eventId next)

/-- The draft of the same client. -/
def existingDraft (inbox : Inbox) (clientId : Text) : Option InboxEvent :=
  (listEvents inbox).find? fun event =>
    event.clientId = clientId ∧ event.status = "draft".toList

/-- The event of a patch as `upsert_event` writes it: what the patch brings wins. -/
def eventRecord (now : Text) (patch : PatchInput) (eventId : Text)
    (existing : Option InboxEvent) : InboxEvent where
  eventId := patch.eventId.getD eventId
  patch := patch.staged
  status := patch.status.getD "draft".toList
  deliveryState := "staged".toList
  reviewDecision := "pending".toList
  batchId := patch.batchId
  parentSnapshot := patch.parentSnapshot
  stagedSnapshot := none
  updatedAt := now
  clientId := patch.clientId
  createdAt := patch.createdAt.getD ((existing.map (·.createdAt)).getD now)

/-- `upsert_event`, for a patch. -/
def upsertEvent (freshId now : Text) (patch : PatchInput) (inbox : Inbox) :
    Answer (InboxEvent × Inbox) :=
  match validatePatch freshId patch with
  | .error failure => deny "workdir-unreadable" failure.message
  | .ok patch =>
    let existing := existingDraft inbox patch.clientId
    let eventId := ((existing.map (·.eventId)).or patch.eventId).getD freshId
    let record := eventRecord now patch eventId existing
    if isEventName eventId then pure (record, inbox.write eventId record)
    else deny "workdir-unreadable" "invalid event_id"

/-! ## The session -/

/-- `staged_snapshot`. -/
structure StagedSnapshot where
  id : Text
  parentSnapshot : Text
  baseSnapshot : Text
  patchIds : List Text
  deriving DecidableEq

/-- A session: the id of its current snapshot, what is staged on it, and the document it belongs
to. -/
structure ReviewSession where
  schema : Text
  currentSnapshot : Text
  staged : StagedSnapshot
  baselineSha256 : Option Text
  baselineEpoch : Option Nat
  deriving DecidableEq

/-- What a session is checked against. -/
structure SessionDocument where
  path : String
  hasTypedMd : Bool
  templateSha256 : Option Text
  epoch : Option Nat

def collabSchema : Text := "docx2typed-review-session-1".toList

def emptyStaged (current : Text) : StagedSnapshot :=
  ⟨'H' :: current.drop 1, current, current, []⟩

def newSession : ReviewSession :=
  ⟨collabSchema, "C0".toList, emptyStaged "C0".toList, none, none⟩

def rebaseSession (baselineSha256 : Text) (epoch : Option Nat) : ReviewSession :=
  { newSession with baselineSha256 := some baselineSha256, baselineEpoch := epoch }

/-- The epoch was recorded, and is another one now. -/
def epochChanged (session : ReviewSession) (document : SessionDocument) : Bool :=
  match session.baselineEpoch, document.epoch with
  | some recorded, some now => recorded != now
  | _, _ => false

/-- `ensure_session`: the session that stands, which is then the one on disk. -/
def ensureSession (document : SessionDocument) (session : Option ReviewSession) :
    Answer ReviewSession :=
  if !document.hasTypedMd then
    deny "workdir-not-found" ("typed.md not found in " ++ document.path)
  else
    match session, document.templateSha256 with
    | none, some current => pure (rebaseSession current document.epoch)
    | none, none => pure newSession
    | some session, template =>
      if session.schema ≠ collabSchema then
        deny "session-schema" "unexpected collaboration session schema"
      else if epochChanged session document then
        pure (rebaseSession (template.getD []) document.epoch)
      else
        match session.baselineSha256, template with
        | some bound, some current =>
          if bound ≠ current then pure (rebaseSession current document.epoch) else pure session
        | none, some current =>
          pure { session with baselineSha256 := some current, baselineEpoch := document.epoch }
        | _, none => pure session

/-- The snapshot the next patch has to name. -/
def expectedParent (session : ReviewSession) : Text :=
  if session.staged.patchIds = [] then session.currentSnapshot else session.staged.id

/-- The id of the snapshot a number of patches makes. -/
def stagedSnapshotId (current : Text) (count : Nat) : Text :=
  'H' :: current.drop 1 ++ '.' :: count.repr.toList

/-- What is staged once another patch is. -/
def pushPatch (session : ReviewSession) (eventId : Text) : StagedSnapshot where
  id := stagedSnapshotId session.currentSnapshot (session.staged.patchIds.length + 1)
  parentSnapshot := expectedParent session
  baseSnapshot := session.currentSnapshot
  patchIds := session.staged.patchIds ++ [eventId]

/-! ## The calls -/

/-- What the calls read and write. -/
structure ReviewDesk where
  document : SessionDocument
  session : Option ReviewSession
  inbox : Inbox

/-- `verify_document_fingerprints`: the paragraph, the range, its text and the two fingerprints. -/
abbrev FingerprintCheck := Text → Nat → Nat → Text → Text → Text → Answer Unit

/-- `verify_patch_fingerprints`. -/
def verifyPatchFingerprints (verify : FingerprintCheck) (patch : PatchInput) : Answer Unit :=
  let target := patch.target.getD ⟨none, none, [], [], [], [], [], .absent⟩
  match target.styleRegionIds with
  | .absent | .listed [] =>
    verify patch.paragraphId (target.startOffset.getD 0) (target.endOffset.getD 0)
      target.expectedText target.paragraphFingerprint target.regionFingerprint
  | .listed (_ :: _) =>
    deny "style-region-unsupported"
      ("style_region_ids is not part of the projection contract; coverage is validated by " ++
        "region_fingerprint over (paragraph_id, start, end)")
  | .other => deny "invalid-arguments" "style_region_ids must be a string array"

/-- The checks of `stage_patch` before it writes. -/
def checkStaging (verify : FingerprintCheck) (freshId : Text) (session : ReviewSession)
    (patch : PatchInput) : Answer PatchInput := do
  let normalized ← validatePatch freshId patch
  verifyPatchFingerprints verify normalized
  denyIf (normalized.parentSnapshot ≠ expectedParent session) "staged-parent-mismatch"
    ("patch parent " ++ String.ofList normalized.parentSnapshot ++ " does not match " ++
      String.ofList (expectedParent session))
  pure normalized

/-- `stage_patch`: its answer, and what it leaves. -/
def stagePatch (verify : FingerprintCheck) (freshId now : Text) (patch : PatchInput)
    (desk : ReviewDesk) : Answer Unit × ReviewDesk :=
  match ensureSession desk.document desk.session with
  | .error failure => (.error failure, desk)
  | .ok session =>
    let desk := { desk with session := some session }
    match checkStaging verify freshId session patch with
    | .error failure => (.error failure, desk)
    | .ok normalized =>
      match upsertEvent freshId now normalized desk.inbox with
      | .error failure => (.error failure, desk)
      | .ok (record, inbox) =>
        let staged := pushPatch session record.eventId
        match updateFile now inbox record.eventId
            (fun event => { event with stagedSnapshot := some staged.id }) with
        | .error failure => (.error failure, { desk with inbox })
        | .ok inbox => (pure (), { desk with inbox, session := some { session with staged } })

/-- An event in a batch. -/
def queueEvent (batchId : Text) (event : InboxEvent) : InboxEvent :=
  { event with
    status := "queued".toList
    deliveryState := "queued".toList
    batchId := some batchId }

/-- The drafts of a list sent off one by one, up to the first that fails. -/
def dispatchEvents (batchId now : Text) : List InboxEvent → Inbox → Answer Unit × Inbox
  | [], inbox => (pure (), inbox)
  | event :: rest, inbox =>
    if event.status = "draft".toList then
      match updateFile now inbox event.eventId (queueEvent batchId) with
      | .error failure => (.error failure, inbox)
      | .ok inbox => dispatchEvents batchId now rest inbox
    else dispatchEvents batchId now rest inbox

/-- `dispatch`. -/
def dispatch (batchId now : Text) (desk : ReviewDesk) : Answer Unit × ReviewDesk :=
  let (answer, inbox) := dispatchEvents batchId now (listEvents desk.inbox) desk.inbox
  (answer, { desk with inbox })

/-- A call, with the ids and the time it makes up. -/
inductive DeskCall where
  | stage (patch : PatchInput) (freshId now : Text)
  | dispatch (batchId now : Text)

def DeskCall.run (verify : FingerprintCheck) (desk : ReviewDesk) :
    DeskCall → Answer Unit × ReviewDesk
  | .stage patch freshId now => stagePatch verify freshId now patch desk
  | .dispatch batchId now => Docx2Typed.dispatch batchId now desk

/-- One call after the other, whatever they answer. -/
def runCalls (verify : FingerprintCheck) (calls : List DeskCall) (desk : ReviewDesk) : ReviewDesk :=
  calls.foldl (fun desk call => (call.run verify desk).2) desk

/-- The events of the inbox as `review_apply_batch` reads them. -/
def reviewEvents (inbox : Inbox) : List ReviewEvent :=
  (listEvents inbox).map (·.toReviewEvent)

/-- The events of the staged patches. -/
def stagedEvents (session : ReviewSession) (inbox : Inbox) : List ReviewEvent :=
  session.staged.patchIds.filterMap fun id => (inbox.read id).map (·.toReviewEvent)

end Docx2Typed
