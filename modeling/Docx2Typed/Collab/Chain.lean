import Docx2Typed.Collab.Staging
import Docx2Typed.Draft.Allocation
import Docx2Typed.Prose.ParagraphIds.Names

/-!
# The chain of the staged patches

`stage_patch` writes the chain that `review_apply_batch` checks: the first patch names the current
snapshot, every later one the snapshot of the one before.  It stays whole as long as every patch
that is taken has an event of its own: an id that is not staged yet, no draft of the same client in
another file, no status of its own, and nothing of the chain sent off before.  A client that stages
its patch a second time gets the same event staged twice, and no batch with it is ever accepted.
-/

namespace Docx2Typed

open List

/-! ## The inbox -/

theorem find?_fst {α β : Type} [DecidableEq α] {files : List (α × β)}
    (h : (files.map Prod.fst).Nodup) (name : α) (value : β) :
    (files.find? (·.1 = name)).map (·.2) = some value ↔ (name, value) ∈ files := by
  induction files with
  | nil => simp
  | cons file rest ih =>
    rw [map_cons, nodup_cons] at h
    by_cases hname : file.1 = name
    · rw [find?_cons_of_pos (by simpa using hname), Option.map_some, Option.some_inj]
      constructor
      · rintro rfl
        exact hname ▸ mem_cons_self
      · intro hmem
        rcases mem_cons.mp hmem with rfl | hmem
        · rfl
        · exact absurd (hname ▸ mem_map_of_mem (f := Prod.fst) hmem) h.1
    · rw [find?_cons_of_neg (by simpa using hname), ih h.2, mem_cons]
      constructor
      · exact Or.inr
      · rintro (rfl | hmem)
        · exact absurd rfl hname
        · exact hmem

namespace Inbox

variable (inbox : Inbox) (name : Text) (event : InboxEvent)

theorem read_eq_some_iff : inbox.read name = some event ↔ (name, event) ∈ inbox.files :=
  find?_fst inbox.distinct name event

theorem mem_files_write {file : Text × InboxEvent} :
    file ∈ (inbox.write name event).files ↔
      file ∈ inbox.files ∧ file.1 ≠ name ∨ file = (name, event) := by
  simp [write, mem_append, mem_filter]

@[simp] theorem read_write_self : (inbox.write name event).read name = some event := by
  rw [read_eq_some_iff, mem_files_write]
  exact .inr rfl

theorem eq_of_mem {event' : InboxEvent} (h : (name, event) ∈ inbox.files)
    (h' : (name, event') ∈ inbox.files) : event = event' := by
  rw [← read_eq_some_iff] at h h'
  exact Option.some_inj.mp (h.symm.trans h')

end Inbox

variable {inbox : Inbox}

theorem mem_listEvents {event : InboxEvent} :
    event ∈ listEvents inbox ↔
      (∃ name, (name, event) ∈ inbox.files) ∧ event.status ∈ allowedStatuses := by
  rw [listEvents, mem_insertionSort, mem_filter, mem_map, decide_eq_true_eq]
  simp [Prod.exists]

/-- An update that passes its checks. -/
theorem updateFile_eq_ok {now : Text} {eventId : Text} {update : InboxEvent → InboxEvent}
    {event : InboxEvent} (hname : isEventName eventId = true)
    (hread : inbox.read eventId = some event) (hstatus : (update event).status ∈ allowedStatuses)
    (hdelivery : (update event).deliveryState ∈ allowedDeliveryStates)
    (hdecision : (update event).reviewDecision ∈ allowedReviewDecisions) :
    updateFile now inbox eventId update =
      .ok (inbox.write eventId { update event with eventId, updatedAt := now }) := by
  unfold updateFile
  simp only [hname, hread, hstatus, hdelivery, hdecision, not_true_eq_false, if_false,
    Bool.not_true, Bool.false_eq_true]
  rfl

/-! ## What a validated patch is -/

/-- The client id of an event. -/
def clientOf (freshId : Text) (patch : PatchInput) : Text :=
  if patch.clientId = [] then patch.eventId.getD freshId else patch.clientId

theorem boundedText_eq_ok {text : Text} {name : String} {limit : Nat} {bounded : Text}
    (h : boundedText text name limit = .ok bounded) : bounded = text := by
  unfold boundedText at h
  split at h
  · exact absurd h deny_ne_ok
  · exact (Except.ok.inj h).symm

theorem denyIf_eq_ok {refused : Prop} [Decidable refused] {code message : String}
    (h : denyIf refused code message = .ok ()) : ¬ refused := by
  unfold denyIf at h
  split at h
  · exact absurd h deny_ne_ok
  · assumption

variable {patch : PatchInput}

theorem validateTarget_eq_ok {target target' : PatchTarget} {start stop : Nat}
    (h : validateTarget patch target start stop = .ok target') :
    target'.startOffset = target.startOffset ∧ target'.endOffset = target.endOffset ∧
      target'.expectedText = target.expectedText ∧ start ≤ stop ∧
      (start = stop ↔ target.expectedText = []) := by
  obtain ⟨_, hordered, h⟩ := bind_eq_ok h
  obtain ⟨before, hbefore, h⟩ := bind_eq_ok h
  obtain ⟨_, -, h⟩ := bind_eq_ok h
  obtain ⟨expected, hexpected, h⟩ := bind_eq_ok h
  obtain ⟨_, hsame, h⟩ := bind_eq_ok h
  obtain ⟨_, hinsertion, h⟩ := bind_eq_ok h
  obtain ⟨_, hreplacement, h⟩ := bind_eq_ok h
  iterate 4 obtain ⟨_, -, h⟩ := bind_eq_ok h
  cases h
  have hle := denyIf_eq_ok hordered
  have hbefore : before = target.expectedText := by
    rw [not_not.mp (denyIf_eq_ok hsame), boundedText_eq_ok hexpected]
  refine ⟨rfl, rfl, rfl, by omega, ?_⟩
  rw [← hbefore]
  constructor
  · intro heq
    by_contra hne
    exact denyIf_eq_ok hinsertion ⟨heq, hne⟩
  · intro hnil
    by_contra hne
    exact denyIf_eq_ok hreplacement ⟨hne, hnil⟩

/-- The patch of an event whose target is in order. -/
theorem isSome_staged {target : PatchTarget} {start stop : Nat}
    (htarget : patch.target = some target) (hstart : target.startOffset = some start)
    (hstop : target.endOffset = some stop) (hle : start ≤ stop)
    (hinsertion : start = stop ↔ target.expectedText = []) : patch.staged.isSome = true := by
  obtain ⟨_, _, expected, _, _, _, _, _⟩ := target
  subst hstart hstop
  simp only [PatchInput.staged, htarget]
  rw [dif_pos ⟨hle, hinsertion⟩]
  rfl

/-- What `validate_patch` leaves of a patch it takes. -/
structure Validated (freshId : Text) (patch normalized : PatchInput) : Prop where
  eventId : normalized.eventId = some (patch.eventId.getD freshId)
  clientId : normalized.clientId = clientOf freshId patch
  parentSnapshot : normalized.parentSnapshot = patch.parentSnapshot
  status : normalized.status = patch.status
  staged : normalized.staged.isSome = true

variable {patch normalized : PatchInput}

theorem validatePatch_eq_ok {freshId : Text} (h : validatePatch freshId patch = .ok normalized) :
    Validated freshId patch normalized := by
  obtain ⟨_, -, h⟩ := bind_eq_ok h
  obtain ⟨clientId, hclient, h⟩ := bind_eq_ok h
  iterate 7 obtain ⟨_, -, h⟩ := bind_eq_ok h
  split at h
  · exact absurd h deny_ne_ok
  next target htarget =>
    split at h
    · next start stop hstart hstop =>
      obtain ⟨target', hvalid, h⟩ := bind_eq_ok h
      obtain ⟨_, -, h⟩ := bind_eq_ok h
      obtain ⟨hstart', hstop', hexpected, hle, hinsertion⟩ := validateTarget_eq_ok hvalid
      cases h
      refine ⟨rfl, ?_, rfl, rfl, isSome_staged rfl (hstart'.trans hstart) (hstop'.trans hstop) hle ?_⟩
      · rw [boundedText_eq_ok hclient]
        rfl
      · rwa [hexpected]
    · exact absurd h deny_ne_ok

/-! ## Chains -/

/-- The snapshot that stands once some patches are staged. -/
def standingSnapshot (current : Text) (count : Nat) : Text :=
  if count = 0 then current else stagedSnapshotId current count

/-- Events that name each other's snapshots, from the one a number of patches makes. -/
def Chain (current : Text) : Nat → List ReviewEvent → Prop
  | _, [] => True
  | count, event :: rest =>
    (event.parentSnapshot = standingSnapshot current count ∧
      event.stagedSnapshot = some (stagedSnapshotId current (count + 1))) ∧
    Chain current (count + 1) rest

variable {current : Text}

theorem standingSnapshot_succ (count : Nat) :
    standingSnapshot current (count + 1) = stagedSnapshotId current (count + 1) := if_neg (by omega)

variable {event : ReviewEvent}

theorem Chain.concat : ∀ {events : List ReviewEvent} {count : Nat},
    Chain current count events →
    event.parentSnapshot = standingSnapshot current (count + events.length) →
    event.stagedSnapshot = some (stagedSnapshotId current (count + events.length + 1)) →
    Chain current count (events ++ [event])
  | [], count, _, hparent, hstaged => by
    rw [length_nil, Nat.add_zero] at hparent hstaged
    exact ⟨⟨hparent, hstaged⟩, trivial⟩
  | first :: rest, count, h, hparent, hstaged => by
    have hlength : count + (first :: rest).length = count + 1 + rest.length := by
      rw [length_cons]
      omega
    rw [hlength] at hparent hstaged
    exact ⟨h.1, h.2.concat hparent hstaged⟩

theorem Chain.of_map {α : Type} {f g : α → ReviewEvent}
    (hparent : ∀ a, (f a).parentSnapshot = (g a).parentSnapshot)
    (hstaged : ∀ a, (f a).stagedSnapshot = (g a).stagedSnapshot) :
    ∀ {events : List α} {count : Nat}, Chain current count (events.map g) →
      Chain current count (events.map f)
  | [], _, _ => trivial
  | _ :: _, _, h =>
    ⟨⟨(hparent _).trans h.1.1, (hstaged _).trans h.1.2⟩, h.2.of_map hparent hstaged⟩

/-- The check of `review_apply_batch` accepts a chain. -/
theorem Chain.parentsMatch : ∀ {events : List ReviewEvent} {count : Nat},
    Chain current count events →
      parentsMatch (standingSnapshot current count) events = .ok ()
  | [], _, _ => rfl
  | event :: rest, count, h => by
    unfold Docx2Typed.parentsMatch
    rw [if_neg (not_not_intro h.1.1), h.1.2, Option.getD_some, ← standingSnapshot_succ]
    exact h.2.parentsMatch

theorem stagedNumber_eq {count : Nat} (hcount : count < 2 ^ 63)
    (h : event.stagedSnapshot = some (stagedSnapshotId current count)) :
    stagedNumber event = count := by
  have hlast : ((stagedSnapshotId current count).reverse.takeWhile (· ≠ '.')).reverse =
      count.repr.toList := by
    rw [stagedSnapshotId, reverse_append, reverse_cons, append_assoc,
      singleton_append, Library.takeWhile_ne_append, reverse_reverse]
    rw [mem_reverse]
    exact dot_notMem_repr_nat count
  rw [stagedNumber, h, Option.getD_some]
  rw [hlast, Nat.toList_repr, parseI64_toDigits hcount, Option.getD_some]

theorem Chain.lt_stagedNumber : ∀ {events : List ReviewEvent} {count : Nat},
    Chain current count events → count + events.length < 2 ^ 63 →
    ∀ event ∈ events, (count : Int) < stagedNumber event
  | first :: rest, count, h, hroom, event, hevent => by
    rw [length_cons] at hroom
    rcases mem_cons.mp hevent with rfl | hevent
    · rw [stagedNumber_eq (by omega) h.1.2]
      omega
    · have := h.2.lt_stagedNumber (by omega) event hevent
      omega

/-- The numbers that order a batch grow along a chain. -/
theorem Chain.pairwise : ∀ {events : List ReviewEvent} {count : Nat},
    Chain current count events → count + events.length < 2 ^ 63 →
    events.Pairwise fun a b => stagedNumber a < stagedNumber b
  | [], _, _, _ => .nil
  | first :: rest, count, h, hroom => by
    rw [length_cons] at hroom
    refine .cons (fun event hevent => ?_) (h.2.pairwise (by omega))
    rw [stagedNumber_eq (by omega) h.1.2]
    exact h.2.lt_stagedNumber (by omega) event hevent

/-- A chain that a batch holds, in whatever order, is the batch. -/
theorem Chain.eq_batchEvents {events queue : List ReviewEvent} {batchId : Option Text}
    (h : Chain current 0 events) (hroom : events.length < 2 ^ 63) (hqueue : queue.Nodup)
    (hmem : ∀ event, event ∈ events ↔ event ∈ queue ∧ event.patch.isSome = true ∧
      event.status = "queued".toList ∧ (batchId = none ∨ event.batchId = batchId)) :
    batchEvents queue batchId = events := by
  have hpairwise := h.pairwise (by omega)
  have hnodup : events.Nodup := hpairwise.imp fun hlt heq => by rw [heq] at hlt; omega
  have hperm : (batchEvents queue batchId).Perm events := by
    refine (perm_insertionSort _ _).trans
      ((perm_ext_iff_of_nodup (hqueue.filter _) hnodup).mpr fun event => ?_)
    rw [hmem, mem_filter]
    simp [Option.isNone_iff_eq_none, and_assoc]
  have hsorted : (batchEvents queue batchId).Pairwise
      fun a b => stagedNumber a ≤ stagedNumber b := pairwise_insertionSort _ _
  refine hperm.eq_of_pairwise ?_ hsorted (hpairwise.imp le_of_lt)
  intro a b ha hb hab hba
  by_contra hne
  have hsymm : Std.Symm fun a b : ReviewEvent => stagedNumber a ≠ stagedNumber b :=
    ⟨fun _ _ h => h.symm⟩
  have hapart : events.Pairwise fun a b => stagedNumber a ≠ stagedNumber b :=
    hpairwise.imp ne_of_lt
  exact hapart.forall (hperm.mem_iff.mp ha) hb hne (le_antisymm hab hba)

/-! ## Dispatch -/

/-- An event after `dispatch`. -/
def sendOff (batchId now : Text) (event : InboxEvent) : InboxEvent :=
  if event.status = "draft".toList then { queueEvent batchId event with updatedAt := now }
  else event

section SendOff

variable (batchId now : Text) (event : InboxEvent)

@[simp] theorem eventId_sendOff : (sendOff batchId now event).eventId = event.eventId := by
  unfold sendOff
  split <;> rfl

@[simp] theorem patch_sendOff : (sendOff batchId now event).patch = event.patch := by
  unfold sendOff
  split <;> rfl

@[simp] theorem parentSnapshot_sendOff :
    (sendOff batchId now event).parentSnapshot = event.parentSnapshot := by
  unfold sendOff
  split <;> rfl

@[simp] theorem stagedSnapshot_sendOff :
    (sendOff batchId now event).stagedSnapshot = event.stagedSnapshot := by
  unfold sendOff
  split <;> rfl

variable {event}

theorem sendOff_of_ne (h : event.status ≠ "draft".toList) : sendOff batchId now event = event :=
  if_neg h

theorem status_sendOff_ne : (sendOff batchId now event).status ≠ "draft".toList := by
  unfold sendOff
  split
  · exact show "queued".toList ≠ "draft".toList by decide
  · assumption

end SendOff

/-- The inbox is one `upsert_event` wrote: every event lies in the file of its id, and every draft
can be updated. -/
structure Inbox.Orderly (inbox : Inbox) : Prop where
  named : ∀ file ∈ inbox.files, file.2.eventId = file.1
  sendable : ∀ file ∈ inbox.files, file.2.status = "draft".toList →
    isEventName file.1 = true ∧ file.2.reviewDecision ∈ allowedReviewDecisions

namespace Inbox.Orderly

variable {inbox : Inbox}

theorem mem_files (h : inbox.Orderly) {event : InboxEvent} (hevent : event ∈ listEvents inbox) :
    (event.eventId, event) ∈ inbox.files := by
  obtain ⟨⟨name, hfile⟩, -⟩ := mem_listEvents.mp hevent
  rwa [h.named _ hfile]

theorem nodup_eventIds (h : inbox.Orderly) : ((listEvents inbox).map (·.eventId)).Nodup := by
  have hperm : ((listEvents inbox).map (·.eventId)).Perm
      (((inbox.files.map (·.2)).filter (·.status ∈ allowedStatuses)).map (·.eventId)) :=
    (perm_insertionSort _ _).map _
  rw [hperm.nodup_iff]
  refine List.Nodup.sublist (filter_sublist.map _) ?_
  rw [map_map]
  have hnames : inbox.files.map ((·.eventId) ∘ (·.2)) = inbox.files.map Prod.fst :=
    map_congr_left h.named
  rw [hnames]
  exact inbox.distinct

theorem nodup_reviewEvents (h : inbox.Orderly) : (reviewEvents inbox).Nodup := by
  refine List.Nodup.of_map (·.eventId) ?_
  rw [reviewEvents, map_map]
  exact h.nodup_eventIds

end Inbox.Orderly

/-- Events that are all stored, sent off one by one. -/
theorem dispatchEvents_eq_ok (batchId now : Text) : ∀ {events : List InboxEvent} {inbox : Inbox},
    (events.map (·.eventId)).Nodup →
    (∀ event ∈ events, (event.eventId, event) ∈ inbox.files ∧
      (event.status = "draft".toList →
        isEventName event.eventId = true ∧ event.reviewDecision ∈ allowedReviewDecisions)) →
    ∃ inbox', dispatchEvents batchId now events inbox = (.ok (), inbox') ∧ ∀ file,
      file ∈ inbox'.files ↔
        (∃ event ∈ events, file = (event.eventId, sendOff batchId now event)) ∨
          file ∈ inbox.files ∧ file.1 ∉ events.map (·.eventId)
  | [], inbox, _, _ => ⟨inbox, rfl, by simp⟩
  | event :: rest, inbox, hids, hstored => by
    rw [map_cons, nodup_cons] at hids
    obtain ⟨hfile, hsend⟩ := hstored event mem_cons_self
    by_cases hdraft : event.status = "draft".toList
    · obtain ⟨hname, hdecision⟩ := hsend hdraft
      have hupdate : updateFile now inbox event.eventId (queueEvent batchId) =
          .ok (inbox.write event.eventId (sendOff batchId now event)) := by
        rw [updateFile_eq_ok hname ((inbox.read_eq_some_iff _ _).mpr hfile)
          (show "queued".toList ∈ allowedStatuses by decide)
          (show "queued".toList ∈ allowedDeliveryStates by decide) hdecision, sendOff, if_pos hdraft]
        rfl
      have hstored' : ∀ other ∈ rest, (other.eventId, other) ∈
          (inbox.write event.eventId (sendOff batchId now event)).files ∧
          (other.status = "draft".toList →
            isEventName other.eventId = true ∧ other.reviewDecision ∈ allowedReviewDecisions) := by
        intro other hother
        obtain ⟨hmem, hother'⟩ := hstored other (mem_cons_of_mem _ hother)
        refine ⟨(Inbox.mem_files_write _ _ _).mpr (.inl ⟨hmem, fun heq => hids.1 ?_⟩), hother'⟩
        exact heq ▸ mem_map_of_mem (f := (·.eventId)) hother
      obtain ⟨inbox', hrest, hmem⟩ := dispatchEvents_eq_ok batchId now hids.2 hstored'
      refine ⟨inbox', ?_, fun file => ?_⟩
      · rw [dispatchEvents, if_pos hdraft, hupdate]
        exact hrest
      · rw [hmem, Inbox.mem_files_write, exists_mem_cons_iff, map_cons, mem_cons]
        constructor
        · rintro (hsent | ⟨⟨hold, hne⟩ | rfl, hnot⟩)
          · exact .inl (.inr hsent)
          · exact .inr ⟨hold, by simp [hne, hnot]⟩
          · exact .inl (.inl rfl)
        · rintro ((rfl | hsent) | ⟨hold, hnot⟩)
          · exact .inr ⟨.inr rfl, hids.1⟩
          · exact .inl hsent
          · rw [not_or] at hnot
            exact .inr ⟨.inl ⟨hold, hnot.1⟩, hnot.2⟩
    · obtain ⟨inbox', hrest, hmem⟩ := dispatchEvents_eq_ok batchId now hids.2
        fun other hother => hstored other (mem_cons_of_mem _ hother)
      refine ⟨inbox', ?_, fun file => ?_⟩
      · rw [dispatchEvents, if_neg hdraft]
        exact hrest
      · rw [hmem, exists_mem_cons_iff, map_cons, mem_cons,
          sendOff_of_ne batchId now hdraft]
        constructor
        · rintro (hsent | ⟨hold, hnot⟩)
          · exact .inl (.inr hsent)
          · by_cases heq : file.1 = event.eventId
            · refine .inl (.inl (Prod.ext heq ?_))
              exact inbox.eq_of_mem event.eventId file.2 (heq ▸ hold) hfile
            · exact .inr ⟨hold, by simp [heq, hnot]⟩
        · rintro ((rfl | hsent) | ⟨hold, hnot⟩)
          · exact .inr ⟨hfile, hids.1⟩
          · exact .inl hsent
          · rw [not_or] at hnot
            exact .inr ⟨hold, hnot.2⟩

/-- `dispatch` of an orderly inbox succeeds, and sends off every draft. -/
theorem dispatch_eq_ok (batchId now : Text) (h : inbox.Orderly) :
    ∃ inbox', dispatchEvents batchId now (listEvents inbox) inbox = (.ok (), inbox') ∧ ∀ file,
      file ∈ inbox'.files ↔ ∃ old ∈ inbox.files, file = (old.1, sendOff batchId now old.2) := by
  obtain ⟨inbox', hok, hmem⟩ := dispatchEvents_eq_ok batchId now h.nodup_eventIds
    fun event hevent => ⟨h.mem_files hevent, h.sendable _ (h.mem_files hevent)⟩
  refine ⟨inbox', hok, fun file => (hmem file).trans ?_⟩
  constructor
  · rintro (⟨event, hevent, rfl⟩ | ⟨hold, hnot⟩)
    · exact ⟨_, h.mem_files hevent, rfl⟩
    · refine ⟨file, hold, Prod.ext rfl (sendOff_of_ne _ _ fun hdraft => hnot ?_).symm⟩
      have hlisted : file.2 ∈ listEvents inbox :=
        mem_listEvents.mpr ⟨⟨file.1, hold⟩, by rw [hdraft]; decide⟩
      exact h.named _ hold ▸ mem_map_of_mem (f := (·.eventId)) hlisted
  · rintro ⟨old, hold, rfl⟩
    by_cases hlisted : old.2 ∈ listEvents inbox
    · exact .inl ⟨old.2, hlisted, by rw [h.named _ hold]⟩
    · have hdraft : old.2.status ≠ "draft".toList := fun hdraft =>
        hlisted (mem_listEvents.mpr ⟨⟨old.1, hold⟩, by rw [hdraft]; decide⟩)
      refine .inr ⟨by rwa [sendOff_of_ne _ _ hdraft], fun hmem => hlisted ?_⟩
      obtain ⟨event, hevent, heq⟩ := mem_map.mp hmem
      have hfile : (old.1, event) ∈ inbox.files := heq ▸ h.mem_files hevent
      rwa [← inbox.eq_of_mem _ _ hfile hold]

/-! ## The invariant -/

/-- How the staged patches stand: still drafts, or sent off in a batch. -/
def Stands : Option Text → InboxEvent → Prop
  | none, event => event.status = "draft".toList
  | some batchId, event => event.status = "queued".toList ∧ event.batchId = some batchId

/-- `staged` are the events of the session's patches, `sent` the batch they went off with. -/
structure Chained (session : ReviewSession) (inbox : Inbox) (staged : List InboxEvent)
    (sent : Option Text) : Prop where
  orderly : inbox.Orderly
  ids : staged.map (·.eventId) = session.staged.patchIds
  distinct : session.staged.patchIds.Nodup
  room : session.staged.patchIds.length < 2 ^ 63
  top : session.staged.patchIds ≠ [] → session.staged.id =
    stagedSnapshotId session.currentSnapshot session.staged.patchIds.length
  chain : Chain session.currentSnapshot 0 (staged.map (·.toReviewEvent))
  stored : ∀ event ∈ staged, (event.eventId, event) ∈ inbox.files
  patches : ∀ event ∈ staged, event.patch.isSome = true
  stands : ∀ event ∈ staged, Stands sent event
  others : ∀ file ∈ inbox.files, file.2.patch.isSome = true →
    file.1 ∉ session.staged.patchIds → file.2.status ≠ "draft".toList ∧
      ∀ batchId, sent = some batchId → file.2.batchId ≠ some batchId

namespace Chained

variable {session : ReviewSession} {inbox : Inbox} {staged : List InboxEvent} {sent : Option Text}

section

variable (h : Chained session inbox staged sent)

include h

theorem length_eq : session.staged.patchIds.length = staged.length := by
  rw [← h.ids, length_map]

/-- The parent the next patch has to name is the snapshot that stands. -/
theorem expectedParent_eq :
    expectedParent session = standingSnapshot session.currentSnapshot staged.length := by
  rw [← h.length_eq, expectedParent, standingSnapshot]
  by_cases hnil : session.staged.patchIds = []
  · rw [if_pos hnil, hnil, length_nil, if_pos rfl]
  · rw [if_neg hnil, if_neg (by simpa using hnil), h.top hnil]

theorem stagedEvents_eq : stagedEvents session inbox = staged.map (·.toReviewEvent) := by
  rw [stagedEvents, ← h.ids, filterMap_map, ← filterMap_eq_map]
  refine filterMap_congr fun event hevent => ?_
  have hread := (inbox.read_eq_some_iff _ _).mpr (h.stored event hevent)
  simp [hread]

end

/-- The batch of the staged patches holds just these, in their order. -/
theorem batchEvents_eq {batchId : Text} (h : Chained session inbox staged (some batchId)) :
    batchEvents (reviewEvents inbox) (some batchId) = staged.map (·.toReviewEvent) := by
  refine h.chain.eq_batchEvents ?_ h.orderly.nodup_reviewEvents fun event => ?_
  · rw [length_map, ← h.length_eq]
    exact h.room
  constructor
  · intro hmem
    obtain ⟨event, hevent, rfl⟩ := mem_map.mp hmem
    obtain ⟨hqueued, hbatch⟩ := h.stands event hevent
    have hlisted : event ∈ listEvents inbox :=
      mem_listEvents.mpr ⟨⟨_, h.stored event hevent⟩, by rw [hqueued]; decide⟩
    exact ⟨mem_map_of_mem hlisted, h.patches event hevent, hqueued, .inr hbatch⟩
  · rintro ⟨hmem, hpatch, -, hbatch⟩
    obtain ⟨event, hevent, rfl⟩ := mem_map.mp hmem
    have hbatch : event.batchId = some batchId := hbatch.resolve_left (by simp)
    have hfile := h.orderly.mem_files hevent
    by_cases hid : event.eventId ∈ session.staged.patchIds
    · rw [← h.ids] at hid
      obtain ⟨other, hother, heq⟩ := mem_map.mp hid
      have hsame : other = event :=
        inbox.eq_of_mem event.eventId other (heq ▸ h.stored other hother) hfile
      exact hsame ▸ mem_map_of_mem (f := (·.toReviewEvent)) hother
    · exact absurd hbatch ((h.others _ hfile hpatch hid).2 batchId rfl)

/-- With nothing staged, nothing is sent. -/
theorem unsent (h : Chained session inbox staged sent)
    (hdraft : ∀ event ∈ staged, event.status = "draft".toList) :
    Chained session inbox staged none :=
  { h with
    stands := hdraft
    others := fun file hfile hpatch hid => ⟨(h.others file hfile hpatch hid).1, by simp⟩ }

/-- `dispatch` sends off the patches that are drafts. -/
theorem dispatch (h : Chained session inbox staged sent) {batchId now : Text} {inbox' : Inbox}
    (hfresh : ∀ file ∈ inbox.files, file.2.batchId ≠ some batchId)
    (hfiles : ∀ file, file ∈ inbox'.files ↔
      ∃ old ∈ inbox.files, file = (old.1, sendOff batchId now old.2)) :
    Chained session inbox' (staged.map (sendOff batchId now)) (some (sent.getD batchId)) where
  orderly :=
    { named := fun file hfile => by
        obtain ⟨old, hold, rfl⟩ := (hfiles file).mp hfile
        exact (eventId_sendOff _ _ _).trans (h.orderly.named old hold)
      sendable := fun file hfile hdraft => by
        obtain ⟨old, -, rfl⟩ := (hfiles file).mp hfile
        exact absurd hdraft (status_sendOff_ne _ _) }
  ids := by
    rw [map_map, ← h.ids]
    exact map_congr_left fun event _ => eventId_sendOff _ _ event
  distinct := h.distinct
  room := h.room
  top := h.top
  chain := by
    rw [map_map]
    exact Chain.of_map (fun event => parentSnapshot_sendOff _ _ event)
      (fun event => stagedSnapshot_sendOff _ _ event) h.chain
  stored := fun event hevent => by
    obtain ⟨old, hold, rfl⟩ := mem_map.mp hevent
    exact (hfiles _).mpr ⟨_, h.stored old hold, Prod.ext (eventId_sendOff _ _ _) rfl⟩
  patches := fun event hevent => by
    obtain ⟨old, hold, rfl⟩ := mem_map.mp hevent
    exact (congrArg Option.isSome (patch_sendOff _ _ old)).trans (h.patches old hold)
  stands := fun event hevent => by
    obtain ⟨old, hold, rfl⟩ := mem_map.mp hevent
    have hstands := h.stands old hold
    cases sent with
    | none =>
      rw [sendOff, if_pos (show old.status = "draft".toList from hstands)]
      exact ⟨rfl, rfl⟩
    | some sent =>
      rw [sendOff_of_ne _ _ (by rw [hstands.1]; decide)]
      exact hstands
  others := fun file hfile hpatch hid => by
    obtain ⟨old, hold, rfl⟩ := (hfiles file).mp hfile
    dsimp only at hpatch hid ⊢
    rw [patch_sendOff] at hpatch
    obtain ⟨hdraft, hbatch⟩ := h.others old hold hpatch hid
    rw [sendOff_of_ne _ _ hdraft]
    refine ⟨hdraft, fun other hother => ?_⟩
    cases sent with
    | none => exact Option.some_inj.mp hother ▸ hfresh old hold
    | some sent => exact hbatch other hother

/-- A patch with an event of its own goes to the end of the chain. -/
theorem stage (h : Chained session inbox staged none) {event : InboxEvent} {inbox' : Inbox}
    (hnew : event.eventId ∉ session.staged.patchIds)
    (hroom : session.staged.patchIds.length + 1 < 2 ^ 63)
    (hname : isEventName event.eventId = true) (hdraft : event.status = "draft".toList)
    (hdecision : event.reviewDecision ∈ allowedReviewDecisions)
    (hpatch : event.patch.isSome = true) (hparent : event.parentSnapshot = expectedParent session)
    (hstaged : event.stagedSnapshot = some (pushPatch session event.eventId).id)
    (hfiles : ∀ file, file ∈ inbox'.files ↔
      file ∈ inbox.files ∧ file.1 ≠ event.eventId ∨ file = (event.eventId, event)) :
    Chained { session with staged := pushPatch session event.eventId } inbox' (staged ++ [event])
      none where
  orderly :=
    { named := fun file hfile => by
        rcases (hfiles file).mp hfile with ⟨hold, -⟩ | rfl
        · exact h.orderly.named file hold
        · rfl
      sendable := fun file hfile hdraft => by
        rcases (hfiles file).mp hfile with ⟨hold, -⟩ | rfl
        · exact h.orderly.sendable file hold hdraft
        · exact ⟨hname, hdecision⟩ }
  ids := by
    rw [map_append, h.ids]
    rfl
  distinct := nodup_append.mpr
    ⟨h.distinct, nodup_singleton _, fun id hid other hother heq =>
      hnew (mem_singleton.mp hother ▸ heq ▸ hid)⟩
  room := by
    rw [pushPatch, length_append]
    exact hroom
  top := fun _ => by
    rw [pushPatch, length_append]
    rfl
  chain := by
    rw [map_append]
    refine h.chain.concat ?_ ?_
    · rw [Nat.zero_add, length_map, ← h.expectedParent_eq]
      exact hparent
    · rw [Nat.zero_add, length_map, ← h.length_eq]
      exact hstaged
  stored := fun other hother => by
    rw [hfiles]
    rcases mem_append.mp hother with hother | hother
    · refine .inl ⟨h.stored other hother, fun heq => hnew ?_⟩
      rw [← h.ids, ← heq]
      exact mem_map_of_mem hother
    · rw [mem_singleton.mp hother]
      exact .inr rfl
  patches := fun other hother => by
    rcases mem_append.mp hother with hother | hother
    · exact h.patches other hother
    · rwa [mem_singleton.mp hother]
  stands := fun other hother => by
    rcases mem_append.mp hother with hother | hother
    · exact h.stands other hother
    · rw [mem_singleton.mp hother]
      exact hdraft
  others := fun file hfile hpatch' hid => by
    rw [pushPatch, mem_append, mem_singleton, not_or] at hid
    rcases (hfiles file).mp hfile with ⟨hold, -⟩ | rfl
    · exact h.others file hold hpatch' hid.1
    · exact absurd rfl hid.2

end Chained

/-! ## The calls -/

/-- A patch that is taken gets an event of its own: its id is not staged yet, no draft of its client
lies in another file, it brings no status of its own, and no staged patch was sent off before it.
The last part is the length a vector can have. -/
structure StagesOnce (session : ReviewSession) (inbox : Inbox) (freshId : Text)
    (patch : PatchInput) : Prop where
  unstaged : patch.eventId.getD freshId ∉ session.staged.patchIds
  client : ∀ event ∈ listEvents inbox, event.status = "draft".toList →
    event.clientId = clientOf freshId patch → event.eventId = patch.eventId.getD freshId
  status : patch.status = none ∨ patch.status = some "draft".toList
  unsent : ∀ event ∈ stagedEvents session inbox, event.status = "draft".toList
  room : session.staged.patchIds.length + 1 < 2 ^ 63

/-- What a call must meet in the state before it: a patch that names the right parent is staged
once, and the id of a batch is a new one. -/
def DeskCall.Meets (desk : ReviewDesk) : DeskCall → Prop
  | .stage patch freshId _ => ∀ session, ensureSession desk.document desk.session = .ok session →
    patch.parentSnapshot = expectedParent session → StagesOnce session desk.inbox freshId patch
  | .dispatch batchId _ => ∀ file ∈ desk.inbox.files, file.2.batchId ≠ some batchId

/-- Every call of a run meets the condition in the state before it. -/
def RunMeets (verify : FingerprintCheck) : List DeskCall → ReviewDesk → Prop
  | [], _ => True
  | call :: rest, desk => call.Meets desk ∧ RunMeets verify rest (call.run verify desk).2

/-- Nothing is staged: the session has no patches, and no patch is a draft. -/
structure Settles (desk : ReviewDesk) : Prop where
  session : ∃ session, ensureSession desk.document desk.session = .ok session ∧
    session.staged.patchIds = []
  orderly : desk.inbox.Orderly
  noDrafts : ∀ file ∈ desk.inbox.files, file.2.patch.isSome = true →
    file.2.status ≠ "draft".toList

/-- The chain of a session is one `review_apply_batch` accepts: its patch ids are distinct and have
events that name each other in order, they can be sent off, and once they are, the batch holds just
these events and passes the check. -/
structure ChainAccepted (session : ReviewSession) (inbox : Inbox) : Prop where
  distinct : session.staged.patchIds.Nodup
  events : (stagedEvents session inbox).map (·.eventId) = session.staged.patchIds
  parents : parentsMatch session.currentSnapshot (stagedEvents session inbox) = .ok ()
  dispatches : ∀ batchId now, (dispatchEvents batchId now (listEvents inbox) inbox).1 = .ok ()
  batches : ∀ event ∈ stagedEvents session inbox, ∀ batchId, event.status = "queued".toList →
    event.batchId = some batchId →
    (batchEvents (reviewEvents inbox) (some batchId)).map (·.eventId) = session.staged.patchIds ∧
      parentsMatch session.currentSnapshot (batchEvents (reviewEvents inbox) (some batchId)) =
        .ok ()

variable {session : ReviewSession}

theorem Chained.accepted {staged : List InboxEvent} {sent : Option Text}
    (h : Chained session inbox staged sent) : ChainAccepted session inbox where
  distinct := h.distinct
  events := by
    rw [h.stagedEvents_eq, map_map]
    exact h.ids
  parents := by
    rw [h.stagedEvents_eq]
    exact h.chain.parentsMatch
  dispatches := fun batchId now => by
    obtain ⟨inbox', hok, -⟩ := dispatch_eq_ok batchId now h.orderly
    rw [hok]
  batches := fun event hevent batchId hqueued hbatch => by
    rw [h.stagedEvents_eq] at hevent
    obtain ⟨event, hstaged, rfl⟩ := mem_map.mp hevent
    have hstands := h.stands event hstaged
    cases sent with
    | none => exact absurd (hqueued.symm.trans hstands) (by decide)
    | some sent =>
      cases Option.some_inj.mp (hstands.2.symm.trans hbatch)
      rw [h.batchEvents_eq, map_map]
      exact ⟨h.ids, h.chain.parentsMatch⟩

/-- A session of the document as it is. -/
structure BelongsTo (document : SessionDocument) (session : ReviewSession) : Prop where
  typedMd : document.hasTypedMd = true
  schema : session.schema = collabSchema
  epoch : epochChanged session document = false
  baseline : ∀ template, document.templateSha256 = some template →
    session.baselineSha256 = some template

variable {document : SessionDocument}

theorem ensureSession_of_belongs (h : BelongsTo document session) :
    ensureSession document (some session) = .ok session := by
  unfold ensureSession
  rw [if_neg (by simp [h.typedMd])]
  simp only [h.schema, ne_eq, not_true_eq_false, if_false, h.epoch, Bool.false_eq_true]
  cases htemplate : document.templateSha256 with
  | none => cases session.baselineSha256 <;> rfl
  | some template =>
    rw [h.baseline template htemplate]
    simp only [not_true_eq_false, if_false]
    rfl

theorem belongsTo_rebase (htyped : document.hasTypedMd = true) :
    BelongsTo document (rebaseSession (document.templateSha256.getD []) document.epoch) where
  typedMd := htyped
  schema := rfl
  epoch := by
    unfold epochChanged rebaseSession
    cases document.epoch <;> simp
  baseline := fun template htemplate => by
    rw [htemplate]
    rfl

variable {before : Option ReviewSession}

theorem ensureSession_belongs (h : ensureSession document before = .ok session) :
    BelongsTo document session := by
  unfold ensureSession at h
  split at h
  · exact absurd h deny_ne_ok
  next htyped =>
    have htyped : document.hasTypedMd = true := by simpa using htyped
    have hrebase := belongsTo_rebase htyped
    split at h
    · next template htemplate =>
      cases h
      rwa [htemplate] at hrebase
    · next htemplate =>
      cases h
      exact ⟨htyped, rfl, rfl, fun template h => absurd (h.symm.trans htemplate) (by simp)⟩
    next old =>
      split at h
      · exact absurd h deny_ne_ok
      next hschema =>
        rw [not_not] at hschema
        split at h
        · cases h
          exact hrebase
        next hepoch =>
          rw [Bool.not_eq_true] at hepoch
          split at h
          · next bound template hbound htemplate =>
            split at h
            · cases h
              rwa [htemplate] at hrebase
            next hsame =>
              cases h
              rw [not_not] at hsame
              refine ⟨htyped, hschema, hepoch, fun other hother => ?_⟩
              rw [hbound, hsame, ← htemplate, hother]
          · next template hbound htemplate =>
            cases h
            refine ⟨htyped, hschema, ?_, fun other hother => ?_⟩
            · unfold epochChanged
              cases document.epoch <;> simp
            · rw [← htemplate, hother]
          · next htemplate =>
            cases h
            exact ⟨htyped, hschema, hepoch, fun other hother => absurd (hother.symm.trans htemplate) (by simp)⟩

/-- The session that stands is found again, whatever is staged on it. -/
theorem ensureSession_ensured (h : ensureSession document before = .ok session)
    (staged : StagedSnapshot) :
    ensureSession document (some { session with staged }) = .ok { session with staged } :=
  have hbelongs := ensureSession_belongs h
  ensureSession_of_belongs ⟨hbelongs.typedMd, hbelongs.schema, hbelongs.epoch, hbelongs.baseline⟩

/-- What holds in every state of a run. -/
def DeskHolds (desk : ReviewDesk) : Prop :=
  ∃ session staged sent, ensureSession desk.document desk.session = .ok session ∧
    Chained session desk.inbox staged sent

variable {desk : ReviewDesk}

theorem Settles.holds (h : Settles desk) : DeskHolds desk := by
  obtain ⟨session, hsession, hnil⟩ := h.session
  refine ⟨session, [], none, hsession, ?_⟩
  exact
    { orderly := h.orderly
      ids := hnil.symm
      distinct := hnil ▸ nodup_nil
      room := by rw [hnil]; decide
      top := fun hne => absurd hnil hne
      chain := trivial
      stored := by simp
      patches := by simp
      stands := by simp
      others := fun file hfile hpatch _ => ⟨h.noDrafts file hfile hpatch, by simp⟩ }

theorem clientOf_validated {freshId : Text} (h : Validated freshId patch normalized) :
    clientOf freshId normalized = clientOf freshId patch := by
  rw [clientOf, h.clientId, h.eventId, Option.getD_some]
  split
  · next hnil =>
    rw [clientOf] at hnil ⊢
    split
    · rfl
    · next hne =>
      rw [if_neg hne] at hnil
      exact absurd hnil hne
  · rfl

variable {freshId now : Text}

/-- What `upsert_event` writes for a patch that is staged once: its file is the one of its id. -/
theorem upsertEvent_once {inbox inbox' : Inbox} {record : InboxEvent}
    (honce : StagesOnce session inbox freshId patch) (hvalid : Validated freshId patch normalized)
    (h : upsertEvent freshId now normalized inbox = .ok (record, inbox')) :
    inbox' = inbox.write (patch.eventId.getD freshId) record ∧
      record.eventId = patch.eventId.getD freshId ∧
      isEventName (patch.eventId.getD freshId) = true ∧ record.status = "draft".toList ∧
      record.deliveryState = "staged".toList ∧ record.reviewDecision = "pending".toList ∧
      record.patch.isSome = true ∧ record.parentSnapshot = patch.parentSnapshot := by
  unfold upsertEvent at h
  split at h
  · exact absurd h deny_ne_ok
  next again hagain =>
    have hvalid' := validatePatch_eq_ok hagain
    have heventId : again.eventId = some (patch.eventId.getD freshId) := by
      rw [hvalid'.eventId, hvalid.eventId, Option.getD_some]
    have hclient : again.clientId = clientOf freshId patch := by
      rw [hvalid'.clientId, clientOf_validated hvalid]
    have hpath : (((existingDraft inbox again.clientId).map (·.eventId)).or
        again.eventId).getD freshId = patch.eventId.getD freshId := by
      cases hexisting : existingDraft inbox again.clientId with
      | none => rw [heventId]; rfl
      | some existing =>
        have hfound := find?_some hexisting
        have hlisted := mem_of_find?_eq_some hexisting
        rw [decide_eq_true_eq] at hfound
        exact honce.client existing hlisted hfound.2 (hfound.1.trans hclient)
    dsimp only at h
    rw [hpath] at h
    split at h
    · next hname =>
      cases h
      have hstatus : again.status.getD "draft".toList = "draft".toList := by
        rw [hvalid'.status, hvalid.status]
        rcases honce.status with hnone | hsome
        · rw [hnone, Option.getD_none]
        · rw [hsome, Option.getD_some]
      refine ⟨rfl, ?_, hname, hstatus, rfl, rfl, hvalid'.staged, ?_⟩
      · rw [eventRecord, heventId, Option.getD_some]
      · exact hvalid'.parentSnapshot.trans hvalid.parentSnapshot
    · exact absurd h deny_ne_ok

variable {verify : FingerprintCheck}

/-- A staging keeps the invariant, refused or not. -/
theorem stagePatch_holds (h : DeskHolds desk)
    (hmeets : DeskCall.Meets desk (.stage patch freshId now)) :
    DeskHolds (stagePatch verify freshId now patch desk).2 := by
  obtain ⟨session, staged, sent, hsession, hchained⟩ := h
  have hensured := ensureSession_ensured hsession session.staged
  have hrefused : DeskHolds { desk with session := some session } :=
    ⟨session, staged, sent, hensured, hchained⟩
  rw [stagePatch, hsession]
  dsimp only
  cases hcheck : checkStaging verify freshId session patch with
  | error failure => exact hrefused
  | ok normalized =>
    obtain ⟨_, hvalidate, hcheck⟩ := bind_eq_ok hcheck
    obtain ⟨_, -, hcheck⟩ := bind_eq_ok hcheck
    obtain ⟨_, hparent, hcheck⟩ := bind_eq_ok hcheck
    cases hcheck
    have hvalid := validatePatch_eq_ok hvalidate
    have hparent : patch.parentSnapshot = expectedParent session := by
      rw [← hvalid.parentSnapshot]
      exact not_not.mp (denyIf_eq_ok hparent)
    have honce := hmeets session hsession hparent
    dsimp only
    cases hupsert : upsertEvent freshId now normalized desk.inbox with
    | error failure => exact hrefused
    | ok written =>
      obtain ⟨record, inbox⟩ := written
      obtain ⟨rfl, hid, hname, hdraft, hdelivery, hdecision, hpatch, hrecord⟩ :=
        upsertEvent_once honce hvalid hupsert
      rw [← hid] at hname ⊢
      dsimp only
      have hunsent : Chained session desk.inbox staged none := by
        refine hchained.unsent fun event hevent => ?_
        refine honce.unsent event.toReviewEvent ?_
        rw [hchained.stagedEvents_eq]
        exact mem_map_of_mem hevent
      rw [updateFile_eq_ok hname (Inbox.read_write_self _ _ _) (by dsimp only; rw [hdraft]; decide)
        (by dsimp only; rw [hdelivery]; decide) (by dsimp only; rw [hdecision]; decide)]
      let event : InboxEvent := { record with
        stagedSnapshot := some (pushPatch session record.eventId).id
        updatedAt := now }
      refine ⟨_, staged ++ [event], none, ensureSession_ensured hsession _, ?_⟩
      have hdecided : event.reviewDecision ∈ allowedReviewDecisions := by
        show record.reviewDecision ∈ allowedReviewDecisions
        rw [hdecision]
        decide
      have hnew : event.eventId ∉ session.staged.patchIds := by
        show record.eventId ∉ session.staged.patchIds
        rw [hid]
        exact honce.unstaged
      refine @Chained.stage session desk.inbox staged hunsent event _ hnew honce.room hname hdraft
        hdecided hpatch (hrecord.trans hparent) rfl fun file => ?_
      rw [Inbox.mem_files_write, Inbox.mem_files_write]
      constructor
      · rintro (⟨⟨hold, hne⟩ | rfl, hne'⟩ | rfl)
        · exact .inl ⟨hold, hne⟩
        · exact absurd rfl hne'
        · exact .inr rfl
      · rintro (⟨hold, hne⟩ | rfl)
        · exact .inl ⟨.inl ⟨hold, hne⟩, hne⟩
        · exact .inr rfl

theorem call_holds {call : DeskCall} (h : DeskHolds desk) (hmeets : call.Meets desk) :
    DeskHolds (call.run verify desk).2 := by
  cases call with
  | stage patch freshId now => exact stagePatch_holds h hmeets
  | dispatch batchId now =>
    obtain ⟨session, staged, sent, hsession, hchained⟩ := h
    obtain ⟨inbox', hok, hfiles⟩ := dispatch_eq_ok batchId now hchained.orderly
    rw [DeskCall.run, dispatch, hok]
    exact ⟨session, _, _, hsession, hchained.dispatch hmeets hfiles⟩

theorem run_holds : ∀ {calls : List DeskCall} {desk : ReviewDesk},
    DeskHolds desk → RunMeets verify calls desk → DeskHolds (runCalls verify calls desk)
  | [], _, h, _ => h
  | call :: rest, desk, h, hmeets =>
    show DeskHolds (runCalls verify rest (call.run verify desk).2) from
      run_holds (call_holds h hmeets.1) hmeets.2

/-- In every run from a desk with nothing staged whose calls meet the condition, the chain is one
`review_apply_batch` accepts.  The run is any prefix of a longer one, so this is every state
reached. -/
theorem runCalls_chainAccepted (verify : FingerprintCheck) {calls : List DeskCall}
    {desk : ReviewDesk} (hsettled : Settles desk) (hmeets : RunMeets verify calls desk) :
    ∃ session, ensureSession (runCalls verify calls desk).document
        (runCalls verify calls desk).session = .ok session ∧
      ChainAccepted session (runCalls verify calls desk).inbox := by
  obtain ⟨session, staged, sent, hsession, hchained⟩ := run_holds hsettled.holds hmeets
  exact ⟨session, hsession, hchained.accepted⟩

/-- An insertion at the start of a paragraph. -/
def stagedInsertion (eventId clientId parentSnapshot : Text) : PatchInput where
  type := "patch".toList
  eventId := some eventId
  clientId := clientId
  origin := "agent".toList
  parentSnapshot := parentSnapshot
  paragraphId := "P0".toList
  target := some ⟨some 0, some 0, [], [], [], [], [], .absent⟩
  before := []
  after := "x".toList

/-- A desk no call was made on. -/
def freshDesk : ReviewDesk := ⟨⟨"w", true, none, none⟩, none, ⟨[], by decide⟩⟩

theorem settles_freshDesk : Settles freshDesk where
  session := ⟨newSession, rfl, rfl⟩
  orderly := ⟨by simp [freshDesk], by simp [freshDesk]⟩
  noDrafts := by simp [freshDesk]

def acceptAll : FingerprintCheck := fun _ _ _ _ _ _ => pure ()

/-- Two clients stage a patch each, and both go off together. -/
def twoClients : List DeskCall :=
  [.stage (stagedInsertion ['a'] ['c'] ['C', '0']) [] [],
    .stage (stagedInsertion ['b'] ['d'] ['H', '0', '.', '1']) [] [], .dispatch ['q'] []]

theorem twoClients_chainAccepted :
    RunMeets acceptAll twoClients freshDesk ∧
      ∃ session, ensureSession (runCalls acceptAll twoClients freshDesk).document
          (runCalls acceptAll twoClients freshDesk).session = .ok session ∧
        ChainAccepted session (runCalls acceptAll twoClients freshDesk).inbox := by
  have hmeets : RunMeets acceptAll twoClients freshDesk := by
    refine ⟨fun session hsession _ => ?_, fun session hsession _ => ?_, ?_, trivial⟩
    · cases Except.ok.inj (show Except.ok newSession = Except.ok session from hsession)
      exact ⟨by decide, by decide, .inl rfl, by decide, by decide⟩
    · cases Except.ok.inj (show Except.ok _ = Except.ok session from hsession)
      exact ⟨by decide, by decide, .inl rfl, by decide, by decide⟩
    · unfold DeskCall.Meets
      decide
  exact ⟨hmeets, runCalls_chainAccepted acceptAll settles_freshDesk hmeets⟩

/-- A client stages a patch, and then stages it again. -/
def stagedAgain : List DeskCall :=
  [.stage (stagedInsertion ['a'] ['c'] ['C', '0']) [] [],
    .stage (stagedInsertion ['a'] ['c'] ['H', '0', '.', '1']) [] [], .dispatch ['q'] []]

/-- Both stagings are accepted, the event is in the patch ids twice, and its batch is refused: the
parent of the event is the snapshot it made itself the first time. -/
theorem stagedAgain_refused :
    (runCalls acceptAll stagedAgain freshDesk).session.map (·.staged.patchIds) =
      some [['a'], ['a']] ∧
    (parentsMatch ['C', '0'] (batchEvents
      (reviewEvents (runCalls acceptAll stagedAgain freshDesk).inbox) (some ['q']))).toOption =
        none ∧
    ¬ ∀ (verify : FingerprintCheck) (calls : List DeskCall) (desk : ReviewDesk), Settles desk →
      ∃ session, ensureSession (runCalls verify calls desk).document
          (runCalls verify calls desk).session = .ok session ∧
        ChainAccepted session (runCalls verify calls desk).inbox := by
  refine ⟨by decide, by decide, fun h => ?_⟩
  obtain ⟨session, hsession, haccepted⟩ := h acceptAll stagedAgain freshDesk settles_freshDesk
  cases Except.ok.inj (show Except.ok _ = Except.ok session from hsession)
  exact absurd haccepted.distinct (by decide)

end Docx2Typed
