import Docx2Typed.Collab.Review
import Docx2Typed.Draft.Lossless

/-!
# What a failed batch leaves behind

A batch that a check refuses has claimed nothing: the queue is as it was, and the files are, apart
from what a first call sets up.  From the claim on, every failure ends in one branch.  It does not
restore the draft, it discards it, edits and all that were pending before the call; and it leaves
its mark on every event it had claimed.
-/

namespace Docx2Typed

open List

variable {σ : Type} (engine : Engine σ)

/-! ## Updates of the queue -/

/-- The event of an id is there, valid, and can be written. -/
def canUpdate (queue : List ReviewEvent) (eventId : Text) : Bool :=
  match queue.find? (·.eventId = eventId) with
  | none => false
  | some event =>
    decide (event.status ∈ allowedStatuses) &&
      decide (event.reviewDecision ∈ allowedReviewDecisions) && engine.canWrite eventId

/-- The queue with the events of some ids updated. -/
def writeEvents (update : EventUpdate) (eventIds : List Text) (queue : List ReviewEvent) :
    List ReviewEvent :=
  queue.map fun event => if event.eventId ∈ eventIds then update.write engine.now event else event

/-- The update leaves alone what an update checks. -/
def EventUpdate.Keeps (update : EventUpdate) : Prop :=
  ∀ event, (update.apply event).status = event.status ∧
    (update.apply event).reviewDecision = event.reviewDecision

theorem claim_keeps : EventUpdate.claim.Keeps := fun _ => ⟨rfl, rfl⟩

theorem requeue_keeps (lastError : String) : (EventUpdate.requeue lastError).Keeps :=
  fun _ => ⟨rfl, rfl⟩

@[simp] theorem eventId_write (update : EventUpdate) (now : Text) (event : ReviewEvent) :
    (update.write now event).eventId = event.eventId := by
  cases update <;> rfl

theorem write_claim_claim (now : Text) (event : ReviewEvent) :
    EventUpdate.claim.write now (EventUpdate.claim.write now event) =
      EventUpdate.claim.write now event := rfl

theorem write_requeue_claim (lastError : String) (now : Text) (event : ReviewEvent) :
    (EventUpdate.requeue lastError).write now (EventUpdate.claim.write now event) =
      (EventUpdate.requeue lastError).write now event := rfl

theorem write_requeue_requeue (lastError : String) (now : Text) (event : ReviewEvent) :
    (EventUpdate.requeue lastError).write now ((EventUpdate.requeue lastError).write now event) =
      (EventUpdate.requeue lastError).write now event := rfl

theorem writeEvents_nil (update : EventUpdate) (queue : List ReviewEvent) :
    writeEvents engine update [] queue = queue := by
  simp [writeEvents]

theorem find?_writeEvents (update : EventUpdate) (eventIds : List Text) (queue : List ReviewEvent)
    (eventId : Text) :
    (writeEvents engine update eventIds queue).find? (·.eventId = eventId) =
      (queue.find? (·.eventId = eventId)).map fun event =>
        if event.eventId ∈ eventIds then update.write engine.now event else event := by
  rw [writeEvents, find?_map]
  congr 2
  funext event
  simp only [Function.comp_apply]
  split
  · rw [eventId_write]
  · rfl

variable {update : EventUpdate}

theorem canUpdate_writeEvents (h : update.Keeps) (eventIds : List Text) (queue : List ReviewEvent)
    (eventId : Text) :
    canUpdate engine (writeEvents engine update eventIds queue) eventId =
      canUpdate engine queue eventId := by
  rw [canUpdate, canUpdate, find?_writeEvents]
  cases queue.find? (·.eventId = eventId) with
  | none => rfl
  | some event =>
    simp only [Option.map_some]
    split
    · obtain ⟨hstatus, hdecision⟩ := h event
      simp only [EventUpdate.write, hstatus, hdecision]
    · rfl

variable {eventId : Text} {queue : List ReviewEvent}

/-- Settled events can still be updated. -/
theorem canUpdate_settle (h : canUpdate engine queue eventId = true) (snapshot : Text)
    (eventIds : List Text) :
    canUpdate engine (writeEvents engine (.settle snapshot) eventIds queue) eventId = true := by
  rw [canUpdate] at h
  rw [canUpdate, find?_writeEvents]
  cases hfind : queue.find? (·.eventId = eventId) with
  | none =>
    rw [hfind] at h
    cases h
  | some event =>
    rw [hfind] at h
    simp only [Option.map_some]
    split
    · simp only [Bool.and_eq_true, decide_eq_true_eq] at h ⊢
      exact ⟨⟨h.1.1, by show "adjusted".toList ∈ allowedReviewDecisions; decide⟩, h.2⟩
    · exact h

theorem updateEvent_eq_ok (h : canUpdate engine queue eventId = true) (update : EventUpdate) :
    updateEvent engine queue eventId update = .ok (writeEvents engine update [eventId] queue) := by
  rw [canUpdate] at h
  rw [updateEvent]
  cases hfind : queue.find? (·.eventId = eventId) with
  | none =>
    rw [hfind] at h
    cases h
  | some event =>
    rw [hfind] at h
    simp only [Bool.and_eq_true, decide_eq_true_eq] at h
    obtain ⟨⟨hstatus, hdecision⟩, hwrite⟩ := h
    have hstatus' : (update.write engine.now event).status ∈ allowedStatuses := by
      cases update <;> exact hstatus
    have hdecision' : (update.write engine.now event).reviewDecision ∈ allowedReviewDecisions := by
      cases update with
      | claim => exact hdecision
      | settle snapshot => show "adjusted".toList ∈ allowedReviewDecisions; decide
      | requeue lastError => exact hdecision
    simp only [hstatus', hdecision', not_true_eq_false, if_false, hwrite, if_true, writeEvents,
      mem_singleton]
    rfl

theorem updateEvent_eq_error (h : canUpdate engine queue eventId = false) (hkeeps : update.Keeps) :
    ∃ failure, updateEvent engine queue eventId update = .error failure := by
  rw [canUpdate] at h
  rw [updateEvent]
  cases hfind : queue.find? (·.eventId = eventId) with
  | none => exact ⟨_, rfl⟩
  | some event =>
    rw [hfind] at h
    obtain ⟨hstatus, hdecision⟩ := hkeeps event
    simp only [EventUpdate.write, hstatus, hdecision]
    split
    · exact ⟨_, rfl⟩
    next hs =>
      split
      · exact ⟨_, rfl⟩
      next hd =>
        rw [not_not] at hs hd
        have hwrite : engine.canWrite eventId = false := by simpa [hs, hd] using h
        rw [hwrite]
        exact ⟨_, rfl⟩

theorem writeEvents_cons (h : ∀ event, update.write engine.now (update.write engine.now event) =
      update.write engine.now event) (eventId : Text) (eventIds : List Text)
    (queue : List ReviewEvent) :
    writeEvents engine update eventIds (writeEvents engine update [eventId] queue) =
      writeEvents engine update (eventId :: eventIds) queue := by
  rw [writeEvents, writeEvents, writeEvents, map_map]
  congr 1
  funext event
  simp only [Function.comp_apply, mem_cons]
  by_cases heq : event.eventId = eventId
  · by_cases hmem : event.eventId ∈ eventIds
    · simp [heq, heq ▸ hmem, h]
    · simp [heq, heq ▸ hmem]
  · simp [heq]

/-- Claiming events writes some of them, and all if it succeeds. -/
theorem updateEvents_claim : ∀ (eventIds : List Text) (queue : List ReviewEvent),
    ∃ claimed, (∀ eventId ∈ claimed, eventId ∈ eventIds ∧ canUpdate engine queue eventId = true) ∧
      (updateEvents engine .claim eventIds queue).2 = writeEvents engine .claim claimed queue ∧
      ((updateEvents engine .claim eventIds queue).1 = .ok () →
        ∀ eventId ∈ eventIds, canUpdate engine queue eventId = true)
  | [], queue => ⟨[], by simp, (writeEvents_nil engine _ queue).symm, by simp⟩
  | eventId :: rest, queue => by
    rw [updateEvents]
    by_cases hcan : canUpdate engine queue eventId = true
    · rw [updateEvent_eq_ok engine hcan]
      obtain ⟨claimed, hclaimed, hqueue, hall⟩ :=
        updateEvents_claim rest (writeEvents engine .claim [eventId] queue)
      simp only [canUpdate_writeEvents engine claim_keeps] at hclaimed hall
      refine ⟨eventId :: claimed, ?_, ?_, ?_⟩
      · intro other hother
        rcases mem_cons.mp hother with rfl | hother
        · exact ⟨mem_cons_self, hcan⟩
        · exact ⟨mem_cons_of_mem _ (hclaimed other hother).1, (hclaimed other hother).2⟩
      · exact hqueue.trans (writeEvents_cons engine (write_claim_claim _) eventId claimed queue)
      · intro h other hother
        rcases mem_cons.mp hother with rfl | hother
        · exact hcan
        · exact hall h other hother
    · obtain ⟨failure, hfailure⟩ :=
        updateEvent_eq_error engine (Bool.not_eq_true _ ▸ hcan) claim_keeps
      rw [hfailure]
      refine ⟨[], by simp, (writeEvents_nil engine _ queue).symm, fun h => ?_⟩
      cases h

/-- What could be claimed can be settled. -/
theorem updateEvents_settle (snapshot : Text) :
    ∀ (eventIds : List Text) {queue : List ReviewEvent},
      (∀ eventId ∈ eventIds, canUpdate engine queue eventId = true) →
        (updateEvents engine (.settle snapshot) eventIds queue).1 = .ok ()
  | [], _, _ => rfl
  | eventId :: rest, queue, h => by
    rw [updateEvents, updateEvent_eq_ok engine (h eventId mem_cons_self)]
    exact updateEvents_settle snapshot rest fun other hother =>
      canUpdate_settle engine (h other (mem_cons_of_mem _ hother)) snapshot [eventId]

theorem requeueEvents_eq (lastError : String) : ∀ (eventIds : List Text) (queue : List ReviewEvent),
    requeueEvents engine lastError eventIds queue =
      writeEvents engine (.requeue lastError) (eventIds.filter (canUpdate engine queue)) queue
  | [], queue => (writeEvents_nil engine _ queue).symm
  | eventId :: rest, queue => by
    rw [requeueEvents, foldl_cons, ← requeueEvents]
    by_cases hcan : canUpdate engine queue eventId = true
    · have hfilter : rest.filter (canUpdate engine
          (writeEvents engine (.requeue lastError) [eventId] queue)) =
            rest.filter (canUpdate engine queue) := by
        congr 1
        funext other
        exact canUpdate_writeEvents engine (requeue_keeps lastError) [eventId] queue other
      rw [updateEvent_eq_ok engine hcan, filter_cons_of_pos hcan]
      dsimp only
      rw [requeueEvents_eq lastError rest, hfilter,
        writeEvents_cons engine (write_requeue_requeue lastError _)]
    · obtain ⟨failure, hfailure⟩ := updateEvent_eq_error engine (Bool.not_eq_true _ ▸ hcan)
        (requeue_keeps lastError)
      rw [hfailure, filter_cons_of_neg hcan]
      exact requeueEvents_eq lastError rest queue

/-- Requeueing hides the claim. -/
theorem requeueEvents_claimed {lastError : String} {eventIds claimed : List Text}
    (hclaimed : ∀ eventId ∈ claimed, eventId ∈ eventIds ∧ canUpdate engine queue eventId = true) :
    requeueEvents engine lastError eventIds (writeEvents engine .claim claimed queue) =
      writeEvents engine (.requeue lastError) (eventIds.filter (canUpdate engine queue)) queue := by
  have hfilter : eventIds.filter (canUpdate engine (writeEvents engine .claim claimed queue)) =
      eventIds.filter (canUpdate engine queue) := by
    congr 1
    funext other
    exact canUpdate_writeEvents engine claim_keeps claimed queue other
  rw [requeueEvents_eq, hfilter, writeEvents, writeEvents, writeEvents, map_map]
  congr 1
  funext event
  simp only [Function.comp_apply]
  by_cases hmem : event.eventId ∈ claimed
  · have h := mem_filter.mpr (hclaimed _ hmem)
    simp only [hmem, if_true, eventId_write, h, write_requeue_claim]
  · simp only [hmem, if_false]

/-! ## The files -/

/-- The call has set up no more than what was missing. -/
def SetUp (before after : ReviewFiles σ) : Prop :=
  after = before ∨ after = { before with others := (engine.documentState before.others).2 } ∨
    (before.editState = none ∧ before.baselineView = none ∧ ∃ text typedSha256 bodyHash,
      freshProjection engine (engine.documentState before.others).2 =
        .ok (text, typedSha256, bodyHash) ∧
      after = ⟨some text, some (typedSha256, bodyHash), some text,
        (engine.documentState before.others).2⟩)

theorem ensureProjection_files (files : ReviewFiles σ) :
    (ensureProjection engine files).2 = files ∨
      (files.editState = none ∧ files.baselineView = none ∧ ∃ text typedSha256 bodyHash,
        freshProjection engine files.others = .ok (text, typedSha256, bodyHash) ∧
        (ensureProjection engine files).2 =
          ⟨some text, some (typedSha256, bodyHash), some text, files.others⟩) := by
  rw [ensureProjection]
  split
  · exact .inl rfl
  next hstate =>
    split
    · exact .inl rfl
    next hbaseline =>
      cases hfresh : freshProjection engine files.others with
      | error failure => exact .inl rfl
      | ok projection =>
        obtain ⟨text, typedSha256, bodyHash⟩ := projection
        exact .inr ⟨by simpa using hstate, by simpa using hbaseline, text, typedSha256, bodyHash,
          rfl, rfl⟩

theorem checkBatch_setUp (workdir : ReviewWorkdir σ) (batchId requested : Option Text) :
    SetUp engine workdir.files (checkBatch engine workdir batchId requested).2 := by
  rw [checkBatch]
  split
  · exact .inl rfl
  · exact .inl rfl
  next events _ =>
    dsimp only
    split
    · exact .inr (.inl rfl)
    next state _ =>
      split
      · exact .inr (.inl rfl)
      · rcases ensureProjection_files engine
          { workdir.files with others := (engine.documentState workdir.files.others).2 } with
          h | ⟨hstate, hbaseline, text, typedSha256, bodyHash, hfresh, h⟩
        · exact .inr (.inl h)
        · exact .inr (.inr ⟨hstate, hbaseline, text, typedSha256, bodyHash, hfresh, h⟩)

theorem applyPatches_others : ∀ (patches : List StagedPatch) (files : ReviewFiles σ),
    (applyPatches patches files).2.others = files.others ∧
      (applyPatches patches files).2.baselineView = files.baselineView
  | [], _ => ⟨rfl, rfl⟩
  | patch :: rest, files => by
    rw [applyPatches]
    split
    · exact ⟨rfl, rfl⟩
    · split
      · exact ⟨rfl, rfl⟩
      · exact applyPatches_others rest _

theorem discardProjection_others (files : ReviewFiles σ) :
    (discardProjection engine files).others = files.others ∧
      (discardProjection engine files).baselineView = files.baselineView := by
  rw [discardProjection]
  split
  · exact ⟨rfl, rfl⟩
  · exact ⟨rfl, rfl⟩

/-- The draft and its state are the projection of the template, whatever they were. -/
def Discarded (files : ReviewFiles σ) : Prop :=
  ∀ text typedSha256 bodyHash,
    freshProjection engine files.others = .ok (text, typedSha256, bodyHash) →
      files.draft = some text ∧ files.editState = some (typedSha256, bodyHash)

theorem discardProjection_discarded (files : ReviewFiles σ) :
    Discarded engine (discardProjection engine files) := by
  intro text typedSha256 bodyHash h
  rw [(discardProjection_others engine files).1] at h
  rw [discardProjection, h]
  exact ⟨rfl, rfl⟩

/-! ## The failed batch -/

/-- What a batch that failed behind its claim leaves of a workdir, `files` being there after the
checks. -/
structure RolledBack (queue : List ReviewEvent) (files : ReviewFiles σ) (events : List ReviewEvent)
    (failure : CollaborationError) (after : ReviewWorkdir σ) : Prop where
  code : failure.code = "patch-apply-failed"
  requeued : after.queue = writeEvents engine (.requeue failure.message)
    ((events.map (·.eventId)).filter (canUpdate engine queue)) queue
  draft : Discarded engine after.files
  /-- Where an event could not be claimed or a patch did not apply, nothing was committed. -/
  uncommitted : ¬ ((∀ event ∈ events, canUpdate engine queue event.eventId = true) ∧
      (applyPatches (applicationOrder (batchPatches events)) files).1 = .ok ()) →
    after.files.others = files.others ∧ after.files.baselineView = files.baselineView

variable {failure : CollaborationError}

/-- A failure of `carryOut`, with what the error branch makes of it. -/
theorem carryOut_error {workdir : ReviewWorkdir σ} {batchId : Option Text}
    {events : List ReviewEvent} {snapshot : Text} {failed : ReviewWorkdir σ}
    (h : carryOut engine workdir batchId events snapshot = (.error failure, failed)) :
    RolledBack engine workdir.queue workdir.files events ⟨"patch-apply-failed", failure.message⟩
      { files := discardProjection engine failed.files
        queue := requeueEvents engine failure.message (events.map (·.eventId)) failed.queue } := by
  obtain ⟨claimed, hclaimed, hqueue, hall⟩ :=
    updateEvents_claim engine (events.map (·.eventId)) workdir.queue
  have hrolled : failed.queue = writeEvents engine .claim claimed workdir.queue →
      (¬ ((∀ event ∈ events, canUpdate engine workdir.queue event.eventId = true) ∧
          (applyPatches (applicationOrder (batchPatches events)) workdir.files).1 = .ok ()) →
        failed.files.others = workdir.files.others ∧
          failed.files.baselineView = workdir.files.baselineView) →
      RolledBack engine workdir.queue workdir.files events ⟨"patch-apply-failed", failure.message⟩
        { files := discardProjection engine failed.files
          queue := requeueEvents engine failure.message (events.map (·.eventId)) failed.queue } := by
    intro hfailed huncommitted
    refine ⟨rfl, ?_, discardProjection_discarded engine failed.files, fun hnot => ?_⟩
    · show requeueEvents engine failure.message _ failed.queue = _
      rw [hfailed]
      exact requeueEvents_claimed engine hclaimed
    · obtain ⟨hothers, hbaseline⟩ := discardProjection_others engine failed.files
      obtain ⟨hothers', hbaseline'⟩ := huncommitted hnot
      exact ⟨hothers.trans hothers', hbaseline.trans hbaseline'⟩
  rw [carryOut] at h
  dsimp only at h
  rw [hqueue] at h
  have hothers := applyPatches_others (applicationOrder (batchPatches events)) workdir.files
  split at h
  · -- an event could not be claimed
    obtain ⟨-, rfl⟩ := Prod.mk.inj h
    exact hrolled rfl fun _ => ⟨rfl, rfl⟩
  next hclaim =>
    have hcan : ∀ event ∈ events, canUpdate engine workdir.queue event.eventId = true :=
      fun event hevent => hall hclaim _ (mem_map_of_mem hevent)
    split at h
    · -- a patch did not apply
      obtain ⟨-, rfl⟩ := Prod.mk.inj h
      exact hrolled rfl fun _ => hothers
    next hpatches =>
      have hcommitted : ∀ {p : Prop}, ¬ ((∀ event ∈ events,
          canUpdate engine workdir.queue event.eventId = true) ∧
            (applyPatches (applicationOrder (batchPatches events)) workdir.files).1 = .ok ()) → p :=
        fun hnot => absurd ⟨hcan, hpatches⟩ hnot
      split at h
      · obtain ⟨-, rfl⟩ := Prod.mk.inj h
        exact hrolled rfl hcommitted
      · split at h
        · obtain ⟨-, rfl⟩ := Prod.mk.inj h
          exact hrolled rfl hcommitted
        · split at h
          · obtain ⟨-, rfl⟩ := Prod.mk.inj h
            exact hrolled rfl hcommitted
          · -- what was claimed is settled
            obtain ⟨hsettled, -⟩ := Prod.mk.inj h
            rw [updateEvents_settle engine _ _ fun eventId heventId => ?_] at hsettled
            · cases hsettled
            · obtain ⟨event, hevent, rfl⟩ := mem_map.mp heventId
              rw [canUpdate_writeEvents engine claim_keeps]
              exact hcan event hevent

/-- A batch that fails behind its checks has discarded the draft. -/
theorem reviewApplyBatch_discarded {workdir after : ReviewWorkdir σ}
    {batchId requested : Option Text}
    (h : reviewApplyBatch engine workdir batchId requested = (.error failure, after))
    (hchecked : (checkBatch engine workdir batchId requested).1.isOk = true) :
    Discarded engine after.files := by
  rw [reviewApplyBatch] at h
  split at h
  next hcheck =>
    rw [hcheck] at hchecked
    cases hchecked
  · cases (Prod.mk.inj h).1
  · split at h
    · cases (Prod.mk.inj h).1
    · obtain ⟨-, rfl⟩ := Prod.mk.inj h
      exact discardProjection_discarded engine _

/-! ## A pending edit -/

/-- A workdir of one paragraph, where nothing fails but the patch. -/
def oneParagraphEngine : Engine Unit where
  crates := draftCrates
  typedMd _ := []
  inventory _ := pure [⟨"P0".toList, ['a']⟩]
  documentState _ := (pure ⟨true, "C0".toList⟩, ())
  classifyEditState _ := pure ()
  applyProjection files := (pure ["P0".toList], files)
  publishCurrent _ _ _ _ := (pure "C1".toList, ())
  canWrite _ := true
  now := "now".toList
  path := "workdir"

/-- A patch whose text is not there. -/
def stalePatch : ReviewEvent where
  eventId := "e1".toList
  patch := some ⟨"P0".toList, 0, 1, ['x'], ['y'], by decide, by decide⟩
  status := "queued".toList
  deliveryState := "queued".toList
  reviewDecision := "pending".toList
  batchId := none
  parentSnapshot := "C0".toList
  stagedSnapshot := some "H0.1".toList
  updatedAt := "then".toList

/-- The draft reads `ab`, the template `a`. -/
def pendingWorkdir : ReviewWorkdir Unit where
  files :=
    { draft := some "<!--@edit-->\n<!--@p id=\"P0\"-->\nab".toList
      editState := some ([], [])
      baselineView := some "<!--@edit-->\n<!--@p id=\"P0\"-->\na".toList
      others := () }
  queue := [stalePatch]

def staleFailure : CollaborationError :=
  ⟨"patch-apply-failed",
    "target text no longer matches the draft; re-read the document and restage the patch"⟩

theorem pendingWorkdir_fails :
    reviewApplyBatch oneParagraphEngine pendingWorkdir none none =
      (.error staleFailure,
        (reviewApplyBatch oneParagraphEngine pendingWorkdir none none).2) :=
  Prod.ext (by
    rw [pendingWorkdir, String.toList_ofList, String.toList_ofList]
    decide) rfl

/-- A projection starts with the header that says what it was written from. -/
theorem freshProjection_oneParagraph : ∃ text typedSha256 bodyHash,
    freshProjection oneParagraphEngine () = .ok (text, typedSha256, bodyHash) ∧
      "<!--@edit schema".toList <+: text := by
  obtain ⟨typedSha256, bodyHash, hrender, htyped, hhash⟩ :=
    renderProjection_eq draftCrates_hexDigests [] [⟨"P0".toList, ['a']⟩]
  obtain ⟨bodySha256, hbody⟩ : ∃ bodySha256, editBodySha256 draftCrates
      (projectionHeader typedSha256 bodyHash ++
        '\n' :: joinLines ([⟨"P0".toList, ['a']⟩].map renderBlock)) = .ok bodySha256 := by
    unfold editBodySha256 pySplitlines
    rw [dropBlankLines_projection (by decide) (fun _ h => h) htyped hhash]
    dsimp only
    rw [if_pos (trim_projectionHeader _ _).2.2]
    exact ⟨_, rfl⟩
  have hopening : "<!--@edit schema".toList <+: projectionHeader typedSha256 bodyHash := by
    unfold projectionHeader
    simp only [append_assoc]
    exact List.IsPrefix.trans (by decide) (List.prefix_append _ _)
  refine ⟨projectionHeader typedSha256 bodyHash ++
      '\n' :: joinLines ([⟨"P0".toList, ['a']⟩].map renderBlock), typedSha256, bodySha256, ?_,
    hopening.trans (List.prefix_append _ _)⟩
  unfold freshProjection
  dsimp only [oneParagraphEngine]
  rw [pure_bind, hrender]
  dsimp only [bind, Except.bind]
  rw [hbody]
  rfl

end Docx2Typed
