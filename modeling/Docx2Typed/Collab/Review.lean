import Docx2Typed.Collab.Batch
import Docx2Typed.Draft.Structure

/-!
# Applying a batch of the queue

`review_apply_batch` takes the queued patches of a batch, checks them, claims their events, applies
them to the draft, commits and publishes.  Whatever fails once the events are claimed takes one
branch: the draft is discarded and the claimed events go back to the queue with the failure.

The files are split in two: those of the draft, which the call itself writes, and all others
(`typed.md`, islands, structure, session, history), which only the functions it calls write.  These
functions are given as an `Engine`; nothing is assumed of them.
-/

namespace Docx2Typed

/-! ## The queue -/

/-- An event of the queue, with the fields a batch reads and writes; `patch` is there for events of
that type. -/
structure ReviewEvent where
  eventId : Text
  patch : Option StagedPatch
  status : Text
  deliveryState : Text
  reviewDecision : Text
  batchId : Option Text
  parentSnapshot : Text
  stagedSnapshot : Option Text
  lastError : Option String := none
  appliedSnapshot : Option Text := none
  updatedAt : Text
  deriving DecidableEq

/-- The updates a batch makes of an event. -/
inductive EventUpdate where
  | claim
  | settle (appliedSnapshot : Text)
  | requeue (lastError : String)

def EventUpdate.apply : EventUpdate → ReviewEvent → ReviewEvent
  | .claim, event => { event with deliveryState := "in_progress".toList }
  | .settle appliedSnapshot, event =>
    { event with
      deliveryState := "applied".toList
      reviewDecision := "adjusted".toList
      appliedSnapshot := some appliedSnapshot }
  | .requeue lastError, event =>
    { event with deliveryState := "queued".toList, lastError := some lastError }

/-- The event as it is written. -/
def EventUpdate.write (update : EventUpdate) (now : Text) (event : ReviewEvent) : ReviewEvent :=
  { update.apply event with updatedAt := now }

def allowedStatuses : List Text := ["draft", "queued", "acknowledged"].map String.toList

def allowedReviewDecisions : List Text :=
  ["pending", "accept", "reject", "defer", "adjusted", "comment"].map String.toList

/-- The number of a snapshot id that orders a batch. -/
def stagedNumber (event : ReviewEvent) : Int :=
  let staged := event.stagedSnapshot.getD "H0.0".toList
  (parseI64 (staged.reverse.takeWhile (· ≠ '.')).reverse).getD 0

/-! ## The workdir -/

/-- The files of the draft, and all others. -/
structure ReviewFiles (σ : Type) where
  draft : Option Text
  editState : Option (Text × Text)
  baselineView : Option Text
  others : σ

structure ReviewWorkdir (σ : Type) where
  files : ReviewFiles σ
  queue : List ReviewEvent

/-- `document_state`, as far as a batch reads it. -/
structure DocumentState where
  matchesFilesystem : Bool
  currentSnapshot : Text

/-- What a batch calls. -/
structure Engine (σ : Type) where
  crates : Crates
  typedMd : σ → Bytes
  /-- `inventory_paragraphs`. -/
  inventory : σ → Answer (List InventoryParagraph)
  /-- `document_state`; it may set up or rebind the session. -/
  documentState : σ → Answer DocumentState × σ
  /-- `classify_edit_state`. -/
  classifyEditState : ReviewFiles σ → Answer Unit
  applyProjection : ReviewFiles σ → Answer (List Text) × ReviewFiles σ
  /-- `publish_current`: the id of the new snapshot. -/
  publishCurrent : σ → Text → List Text → Option Text → Answer Text × σ
  /-- Whether the file of an event can be written. -/
  canWrite : Text → Bool
  now : Text
  path : String

section Batch

variable {σ : Type} (engine : Engine σ)

/-- `update_event`. -/
def updateEvent (queue : List ReviewEvent) (eventId : Text) (update : EventUpdate) :
    Answer (List ReviewEvent) :=
  match queue.find? (·.eventId = eventId) with
  | none => deny "workdir-unreadable" "event not found"
  | some event =>
    let next := update.write engine.now event
    if next.status ∉ allowedStatuses then deny "workdir-unreadable" "invalid event status"
    else if next.reviewDecision ∉ allowedReviewDecisions then
      deny "workdir-unreadable" "invalid review decision"
    else if engine.canWrite eventId then
      pure (queue.map fun other =>
        if other.eventId = eventId then update.write engine.now other else other)
    else deny "workdir-unreadable" ""

/-- The projection of the template, as `ensure_projection` and `discard_projection` write it. -/
def freshProjection (others : σ) : Answer (Text × Text × Text) := do
  let paragraphs ← engine.inventory others
  let (text, typedSha256) ← renderProjection engine.crates (engine.typedMd others) paragraphs
  let bodyHash ← withCode "workdir-invalid" (editBodySha256 engine.crates text)
  pure (text, typedSha256, bodyHash)

/-- `ensure_projection`. -/
def ensureProjection (files : ReviewFiles σ) : Answer Unit × ReviewFiles σ :=
  if files.editState.isSome then (engine.classifyEditState files, files)
  else if files.baselineView.isSome then
    (deny "workdir-invalid"
      ("baseline.view exists but edit.state.json is missing in " ++ engine.path ++
        "; refusing to rebuild the frozen baseline — re-extract the source into a fresh workdir"),
      files)
  else
    match freshProjection engine files.others with
    | .error failure => (.error failure, files)
    | .ok (text, typedSha256, bodyHash) =>
      let written := { files with
        draft := some text
        editState := some (typedSha256, bodyHash)
        baselineView := some text }
      (engine.classifyEditState written, written)

/-- `discard_projection`; a failure leaves the files as they are. -/
def discardProjection (files : ReviewFiles σ) : ReviewFiles σ :=
  match freshProjection engine files.others with
  | .error _ => files
  | .ok (text, typedSha256, bodyHash) =>
    { files with draft := some text, editState := some (typedSha256, bodyHash) }

/-! ## Before the claim -/

/-- The patches of a batch in the order in which they were staged. -/
def batchEvents (queue : List ReviewEvent) (batchId : Option Text) : List ReviewEvent :=
  (queue.filter fun event =>
    event.patch.isSome && event.status == "queued".toList &&
      (batchId.isNone || event.batchId == batchId)).insertionSort
    fun a b => stagedNumber a ≤ stagedNumber b

def batchPatches (events : List ReviewEvent) : List StagedPatch := events.filterMap (·.patch)

/-- Every patch was staged on the one before it, the first on the current snapshot. -/
def parentsMatch : Text → List ReviewEvent → Answer Unit
  | _, [] => pure ()
  | expected, event :: rest =>
    if event.parentSnapshot ≠ expected then
      deny "patch-parent-mismatch"
        ("patch parent " ++ String.ofList event.parentSnapshot ++ " does not match " ++
          String.ofList expected)
    else parentsMatch (event.stagedSnapshot.getD expected) rest

/-- What the checks come to: an event that is already applied, or a batch and the snapshot it is
applied to. -/
inductive Checked where
  | alreadyApplied (event : ReviewEvent)
  | batch (events : List ReviewEvent) (currentSnapshot : Text)

def requestedEvent (queue : List ReviewEvent) (requested : Option Text) :
    Answer (Option ReviewEvent) :=
  match requested with
  | none => pure none
  | some eventId =>
    match queue.find? (·.eventId = eventId) with
    | none =>
      deny "review-event-not-found" ("review event " ++ String.ofList eventId ++ " not found")
    | some event => pure (some event)

/-- The checks on the queue alone: an applied event, or the batch. -/
def checkQueue (queue : List ReviewEvent) (batchId requested : Option Text) :
    Answer (ReviewEvent ⊕ List ReviewEvent) := do
  let event ← requestedEvent queue requested
  match event with
  | some event =>
    if event.patch = none then
      deny "not-a-patch"
        ("review event " ++ String.ofList event.eventId ++ " is not a semantic patch")
    else if event.deliveryState = "applied".toList then pure (.inl event)
    else if event ∉ batchEvents queue batchId then
      deny "patch-not-queued" ("review event " ++ String.ofList event.eventId ++ " is not queued")
    else pure (.inr (batchEvents queue batchId))
  | none =>
    if batchEvents queue batchId = [] then
      deny "patch-batch-empty"
        ("no queued patches in batch " ++ ((batchId.map String.ofList).getD "<none>"))
    else pure (.inr (batchEvents queue batchId))

/-- All checks before the claim, with the files they may set up. -/
def checkBatch (workdir : ReviewWorkdir σ) (batchId requested : Option Text) :
    Answer Checked × ReviewFiles σ :=
  match checkQueue workdir.queue batchId requested with
  | .error failure => (.error failure, workdir.files)
  | .ok (.inl event) => (.ok (.alreadyApplied event), workdir.files)
  | .ok (.inr events) =>
    let (state, others) := engine.documentState workdir.files.others
    let files := { workdir.files with others }
    match state with
    | .error failure => (.error failure, files)
    | .ok state =>
      if !state.matchesFilesystem then
        (deny "current-snapshot-drift" "typed.md differs from the canonical snapshot", files)
      else
        let (ensured, files) := ensureProjection engine files
        (do
          ensured
          parentsMatch state.currentSnapshot events
          overlapGuard (batchPatches events)
          pure (.batch events state.currentSnapshot), files)

/-! ## The batch -/

/-- `update_event` for several events, up to the first that fails. -/
def updateEvents (update : EventUpdate) :
    List Text → List ReviewEvent → Answer Unit × List ReviewEvent
  | [], queue => (pure (), queue)
  | eventId :: rest, queue =>
    match updateEvent engine queue eventId update with
    | .error failure => (.error failure, queue)
    | .ok queue => updateEvents update rest queue

/-- The same with failures ignored, as the error branch does. -/
def requeueEvents (lastError : String) (claimed : List Text) (queue : List ReviewEvent) :
    List ReviewEvent :=
  claimed.foldl (fun queue eventId =>
    match updateEvent engine queue eventId (.requeue lastError) with
    | .error _ => queue
    | .ok queue => queue) queue

/-- The patches on the draft file, one after the other: each writes it. -/
def applyPatches : List StagedPatch → ReviewFiles σ → Answer Unit × ReviewFiles σ
  | [], files => (pure (), files)
  | patch :: rest, files =>
    match files.draft with
    | none => (deny "draft-unreadable" "", files)
    | some text =>
      match applyPatchToDraft text patch with
      | .error failure => (.error failure, files)
      | .ok text => applyPatches rest { files with draft := some text }

/-- Everything between the claim and the answer. -/
def carryOut (workdir : ReviewWorkdir σ) (batchId : Option Text) (events : List ReviewEvent)
    (currentSnapshot : Text) : Answer Unit × ReviewWorkdir σ :=
  let claimed := events.map (·.eventId)
  let (claim, queue) := updateEvents engine .claim claimed workdir.queue
  match claim with
  | .error failure => (.error failure, { workdir with queue })
  | .ok _ =>
    let (applied, files) :=
      applyPatches (applicationOrder (batchPatches events)) workdir.files
    match applied with
    | .error failure => (.error failure, ⟨files, queue⟩)
    | .ok _ =>
      let (committed, files) := engine.applyProjection files
      match committed with
      | .error failure => (.error failure, ⟨files, queue⟩)
      | .ok changed =>
        if changed = [] then
          (deny "patch-noop" "human patch batch produced no canonical change", ⟨files, queue⟩)
        else
          let (published, others) :=
            engine.publishCurrent files.others currentSnapshot changed batchId
          let files := { files with others }
          match published with
          | .error failure => (.error failure, ⟨files, queue⟩)
          | .ok snapshot =>
            let (settled, queue) := updateEvents engine (.settle snapshot) claimed queue
            (settled, ⟨files, queue⟩)

/-- `review_apply_batch`: its answer, and the workdir it leaves. -/
def reviewApplyBatch (workdir : ReviewWorkdir σ) (batchId requested : Option Text) :
    Answer Unit × ReviewWorkdir σ :=
  match checkBatch engine workdir batchId requested with
  | (.error failure, files) => (.error failure, { workdir with files })
  | (.ok (.alreadyApplied _), files) => (pure (), { workdir with files })
  | (.ok (.batch events currentSnapshot), files) =>
    match carryOut engine { workdir with files } batchId events currentSnapshot with
    | (.ok answer, done) => (.ok answer, done)
    | (.error failure, failed) =>
      (deny "patch-apply-failed" failure.message,
        { files := discardProjection engine failed.files
          queue := requeueEvents engine failure.message (events.map (·.eventId)) failed.queue })

end Batch

end Docx2Typed
