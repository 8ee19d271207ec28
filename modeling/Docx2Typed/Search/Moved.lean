import Docx2Typed.Search.References

/-!
# References after edits

A reference is handed back later, when the draft was edited: characters of the paragraph were
replaced, the paragraph was taken out, another one was put in under its id.  `DraftEdit.moved` says
where the characters it was reported for stand after an edit, if they are still there, and
`stands_moved` that they do.

`resolve_match_ref` knows the offsets and a digest.  A text that was moved to these offsets and has
the digest is taken for the one that was found there, so a reference keeps its address as long as
no such text appears (`keepsAddress_iff`).
-/

namespace Docx2Typed

open List

/-! ## Edits -/

/-- What an edit does to the texts of a draft. -/
inductive DraftEdit where
  /-- The characters `[start, start + removed)` of a paragraph are replaced. -/
  | splice (id : Text) (start removed : Nat) (new : Text)
  | remove (id : Text)
  /-- Under the id another paragraph stands from now on. -/
  | put (id : Text) (text : Text)

namespace DraftEdit

/-- The text of a paragraph after the edit. -/
def shown (id : Text) (before : Option Text) : DraftEdit → Option Text
  | splice edited start removed new =>
    if edited = id then
      before.map fun text => text.take start ++ new ++ text.drop (start + removed)
    else before
  | remove edited => if edited = id then none else before
  | put edited text => if edited = id then some text else before

/-- Where characters of a paragraph stand after the edit, if they were not touched. -/
def moved (id : Text) (length place : Nat) : DraftEdit → Option Nat
  | splice edited start removed new =>
    if edited ≠ id then some place
    else if start + removed ≤ place then some (place - removed + new.length)
    else if place + length ≤ start then some place
    else none
  | remove edited => if edited = id then none else some place
  | put edited _ => if edited = id then none else some place

end DraftEdit

/-- A word stands at a place of a text. -/
def HasWord (word : Text) (place : Nat) (text : Text) : Prop := word <+: text.drop place

instance (word : Text) (place : Nat) (text : Text) : Decidable (HasWord word place text) :=
  inferInstanceAs (Decidable (word <+: text.drop place))

variable {place start removed : Nat} {word text new : Text}

theorem stands_of_before (hword : word ≠ []) (h : HasWord word place text)
    (hle : start + removed ≤ place) :
    HasWord word (place - removed + new.length)
      (text.take start ++ new ++ text.drop (start + removed)) := by
  have hplace := add_length_le hword h
  have hstart : (text.take start).length = start := length_take_of_le (by omega)
  have hfront : (text.take start ++ new).length ≤ place - removed + new.length := by
    rw [length_append, hstart]
    omega
  rw [HasWord, drop_append, drop_eq_nil_of_le hfront, nil_append, drop_drop,
    length_append, hstart]
  rwa [show start + removed + (place - removed + new.length - (start + new.length)) = place by
    omega]

theorem stands_of_behind (h : HasWord word place text) (hle : place + word.length ≤ start) :
    HasWord word place (text.take start ++ new ++ text.drop (start + removed)) := by
  have hinside : word <+: (text.take start).drop place := by
    rw [List.drop_take]
    exact prefix_take_iff.mpr ⟨h, by omega⟩
  rw [HasWord, append_assoc]
  exact hinside.trans (drop_append .. ▸ List.prefix_append _ _)

/-- Characters that were not touched stand where they were moved to. -/
theorem stands_moved {word text : Text} {place place' : Nat} {id : Text} {edit : DraftEdit}
    (hword : word ≠ []) (h : HasWord word place text)
    (hmoved : edit.moved id word.length place = some place') :
    ∃ text', edit.shown id (some text) = some text' ∧ HasWord word place' text' := by
  cases edit with
  | splice edited start removed new =>
    rw [DraftEdit.moved] at hmoved
    rw [DraftEdit.shown]
    split at hmoved
    next hother =>
      obtain rfl := Option.some.inj hmoved
      exact ⟨text, if_neg hother, h⟩
    next hsame =>
      rw [if_pos (not_not.mp hsame)]
      refine ⟨_, rfl, ?_⟩
      split at hmoved
      next hbefore =>
        obtain rfl := Option.some.inj hmoved
        exact stands_of_before hword h hbefore
      next =>
        split at hmoved
        next hbehind =>
          obtain rfl := Option.some.inj hmoved
          exact stands_of_behind h hbehind
        next => cases hmoved
  | remove edited =>
    rw [DraftEdit.moved] at hmoved
    rw [DraftEdit.shown]
    split at hmoved
    next => cases hmoved
    next hother =>
      obtain rfl := Option.some.inj hmoved
      exact ⟨text, if_neg hother, h⟩
  | put edited put =>
    rw [DraftEdit.moved] at hmoved
    rw [DraftEdit.shown]
    split at hmoved
    next => cases hmoved
    next hother =>
      obtain rfl := Option.some.inj hmoved
      exact ⟨text, if_neg hother, h⟩

/-! ## Runs -/

/-- The reads of a workdir have refusals of their own. -/
def SearchedDraft.OwnRefusals (draft : SearchedDraft) : Prop :=
  ∀ detail, draft.editState ≠ .error (.domain ("match-ref-stale: " ++ detail)) ∧
    draft.projection ≠ .error (.domain ("match-ref-stale: " ++ detail))

/-- An edit and the draft after it. -/
structure DraftStep where
  edit : DraftEdit
  draft : SearchedDraft
  ownRefusals : draft.OwnRefusals

/-- The drafts of a run, each with the place where the characters of a reference stand. -/
def reachedFrom (ref : MatchRef) (place : Option Nat) :
    List DraftStep → List (Option Nat × SearchedDraft)
  | [] => []
  | step :: rest =>
    let place := place.bind fun place => step.edit.moved ref.paragraphId ref.text.length place
    (place, step.draft) :: reachedFrom ref place rest

section Runs

variable (crates : Crates) (json : JsonCrate) (isAlphanumeric : Char → Bool)

/-- As long as a draft can be read, it shows what the edits made of a paragraph. -/
def Edited (id : Text) (shown : Option Text) : List DraftStep → Prop
  | [] => True
  | step :: rest =>
    (∀ read, shownText isAlphanumeric step.draft id = .ok read → read = step.edit.shown id shown) ∧
      Edited id (step.edit.shown id shown) rest

/-- A reference resolves to what it was reported for. -/
def ResolvesTo (draft : SearchedDraft) (ref : MatchRef) : Prop :=
  resolveMatchRef crates json isAlphanumeric draft (encodeMatchRef crates json ref) =
    .ok ⟨ref.paragraphId, ref.text, ref.start⟩

/-- A reference is refused as stale. -/
def IsStale (draft : SearchedDraft) (ref : MatchRef) : Prop :=
  ∃ detail, resolveMatchRef crates json isAlphanumeric draft (encodeMatchRef crates json ref) =
    refuse ("match-ref-stale: " ++ detail)

/-- A reference leads to the characters it was reported for, or nowhere. -/
structure KeepsAddress (draft : SearchedDraft) (ref : MatchRef) (steps : List DraftStep) :
    Prop where
  resolves : ResolvesTo crates json isAlphanumeric draft ref
  later : ∀ state ∈ reachedFrom ref (some ref.start) steps,
    ResolvesTo crates json isAlphanumeric state.2 ref ∧ state.1 = some ref.start ∨
      IsStale crates json isAlphanumeric state.2 ref

/-- At the offsets of a reference a text shows the digest of the reference. -/
def ShowsDigest (ref : MatchRef) (flat : Text) : Prop :=
  ref.stop ≤ flat.length ∧
    matchRefDigest crates ((flat.take ref.stop).drop ref.start) = matchRefDigest crates ref.text

/-- No other text comes to the offsets of a reference with its digest. -/
structure NotRetaken (draft : SearchedDraft) (ref : MatchRef) (steps : List DraftStep) :
    Prop where
  /-- The first block that carries the id is one in which the text was found. -/
  first : ∃ flat, shownText isAlphanumeric draft ref.paragraphId = .ok (some flat) ∧
    HasWord ref.text ref.start flat
  later : ∀ state ∈ reachedFrom ref (some ref.start) steps, ∃ shown,
    shownText isAlphanumeric state.2 ref.paragraphId = .ok shown ∧
      (state.1 = some ref.start ∨ ∀ flat ∈ shown, ¬ ShowsDigest crates ref flat)

end Runs

/-! ## One draft -/

section Address

variable {crates : Crates} {json : JsonCrate} {isAlphanumeric : Char → Bool} {ref : MatchRef}
  {draft : SearchedDraft}

theorem exists_staleRef {α : Type} {reason current : String} {payload : MatchRefPayload}
    {currentText : Text} {offset : Nat} : ∃ detail,
      (staleRef json reason payload current currentText offset : Outcome α) =
        refuse ("match-ref-stale: " ++ detail) := by
  unfold staleRef
  rw [String.append_assoc, String.append_assoc]
  exact ⟨_, rfl⟩

/-- In a text that shows the digest a reference resolves to what stands at its offsets, and in any
other it is stale. -/
theorem resolveIn_cases {payload : MatchRefPayload} (hlt : payload.start < payload.stop)
    (current : String) (flat : Text) :
    ((payload.stop ≤ flat.length ∧
        matchRefDigest crates ((flat.take payload.stop).drop payload.start) = payload.sha256) ∧
      resolveIn crates json current payload flat =
        .ok ⟨payload.paragraphId, (flat.take payload.stop).drop payload.start, payload.start⟩) ∨
    (¬ (payload.stop ≤ flat.length ∧
        matchRefDigest crates ((flat.take payload.stop).drop payload.start) = payload.sha256) ∧
      ∃ detail, resolveIn crates json current payload flat =
        refuse ("match-ref-stale: " ++ detail)) := by
  rw [resolveIn]
  dsimp only
  split
  next hout => exact .inr ⟨fun h => by omega, exists_staleRef⟩
  next hin =>
    split
    next hdigest => exact .inr ⟨fun h => hdigest h.2, exists_staleRef⟩
    next hdigest => exact .inl ⟨⟨by omega, not_not.mp hdigest⟩, rfl⟩

/-- What is reported with an occurrence. -/
structure MatchRef.WellFormed (ref : MatchRef) : Prop where
  ne_nil : ref.text ≠ []
  stop_eq : ref.stop = ref.start + ref.text.length

theorem MatchRef.WellFormed.start_lt (hwell : ref.WellFormed) : ref.start < ref.stop := by
  have hpos := length_pos_of_ne_nil hwell.ne_nil
  have hstop := hwell.stop_eq
  omega

theorem stands_iff (hwell : ref.WellFormed) {flat : Text} : HasWord ref.text ref.start flat ↔
    ref.stop ≤ flat.length ∧ (flat.take ref.stop).drop ref.start = ref.text := by
  have hslice : (flat.take ref.stop).drop ref.start =
      (flat.drop ref.start).take ref.text.length := by
    rw [List.drop_take, hwell.stop_eq, Nat.add_sub_cancel_left]
  rw [hslice]
  constructor
  · intro h
    have hle := add_length_le hwell.ne_nil h
    exact ⟨hwell.stop_eq ▸ hle, (prefix_iff_eq_take.mp h).symm⟩
  · rintro ⟨-, h⟩
    exact prefix_iff_eq_take.mpr h.symm

/-- A text in which the reference stands shows its digest. -/
theorem showsDigest_of_stands (hwell : ref.WellFormed) {flat : Text}
    (h : HasWord ref.text ref.start flat) : ShowsDigest crates ref flat := by
  obtain ⟨hle, htext⟩ := (stands_iff hwell).mp h
  exact ⟨hle, by rw [htext]⟩

/-- A draft that can be read either shows the digest at the offsets of a reference, and the
reference resolves to what stands there, or the reference is stale. -/
theorem resolve_cases (hreads : json.ReadsBack (ref.payload crates)) (hwell : ref.WellFormed)
    {shown : Option Text}
    (hshown : shownText isAlphanumeric draft ref.paragraphId = .ok shown) :
    (∃ flat, shown = some flat ∧ ShowsDigest crates ref flat ∧
      resolveMatchRef crates json isAlphanumeric draft (encodeMatchRef crates json ref) =
        .ok ⟨ref.paragraphId, (flat.take ref.stop).drop ref.start, ref.start⟩) ∨
    ((∀ flat ∈ shown, ¬ ShowsDigest crates ref flat) ∧
      IsStale crates json isAlphanumeric draft ref) := by
  obtain ⟨current, hresolve⟩ := resolveMatchRef_eq hreads draft
  rw [bind_ok hshown] at hresolve
  rw [IsStale, hresolve]
  cases shown with
  | none => exact .inr ⟨fun _ h => (by cases h), exists_staleRef⟩
  | some flat =>
    rcases @resolveIn_cases crates json (ref.payload crates) hwell.start_lt current flat with
      ⟨hdigest, hok⟩ | ⟨hdigest, hstale⟩
    · exact .inl ⟨flat, rfl, hdigest, hok⟩
    · refine .inr ⟨fun flat' h => ?_, hstale⟩
      obtain rfl := Option.some.inj h
      exact hdigest

theorem head_stale (detail : String) :
    ("match-ref-stale: " ++ detail).toList.head? = some 'm' := by
  rw [String.toList_append]
  rfl

theorem head_bodyRefusals {message : String} (h : message ∈ bodyRefusals) :
    message.toList.head? ≠ some 'm' := by
  simp only [bodyRefusals, literalBracketMessage, invalidEscapeMessage, mem_cons,
    not_mem_nil, or_false] at h
  rcases h with rfl | rfl | rfl | rfl | rfl | rfl <;> rw [String.toList_ofList] <;> decide

/-- A refusal `stale` is none of those of a body that cannot be read. -/
theorem foreign_stale (detail : String) :
    Foreign (.refused (.domain ("match-ref-stale: " ++ detail))) := by
  intro message hmessage h
  have hhead := head_stale detail
  rw [CoreError.domain.inj (Failure.refused.inj h)] at hhead
  exact head_bodyRefusals hmessage hhead

theorem splitEditBlocks_ne_stale {text : Text} {detail : String} :
    splitEditBlocks text ≠ .error (.refused (.domain ("match-ref-stale: " ++ detail))) := by
  have hrefuse : (refuse "edit-header-missing: edit.md must start with an @edit header" :
      Outcome (Text × List Text)) ≠
        .error (.refused (.domain ("match-ref-stale: " ++ detail))) := by
    intro h
    have hhead := head_stale detail
    rw [← CoreError.domain.inj (Failure.refused.inj (Except.error.inj h)),
      String.toList_ofList] at hhead
    exact absurd hhead (by decide)
  rw [splitEditBlocks]
  split
  · exact hrefuse
  · split
    · exact pure_ne_error
    · exact hrefuse

/-- A draft that cannot be read is not refused as stale. -/
theorem shownText_ne_stale (hown : draft.OwnRefusals) {id : Text} {detail : String} :
    shownText isAlphanumeric draft id ≠
      .error (.refused (.domain ("match-ref-stale: " ++ detail))) := by
  have hread : ∀ {α : Type} {read : Except CoreError α},
      read ≠ .error (.domain ("match-ref-stale: " ++ detail)) →
      readWorkdir read ≠ .error (.refused (.domain ("match-ref-stale: " ++ detail))) := by
    intro α read hne h
    cases read with
    | ok a => cases h
    | error e => exact hne (congrArg _ (Failure.refused.inj (Except.error.inj h)))
  rw [shownText]
  refine bind_ne_error (hread (hown detail).1) fun _ _ => ?_
  refine bind_ne_error (hread (hown detail).2) fun _ _ => ?_
  refine bind_ne_error splitEditBlocks_ne_stale fun split _ => ?_
  obtain ⟨_, blocks⟩ := split
  cases hbody : bodyOf blocks id with
  | none =>
    simp only [hbody]
    exact pure_ne_error
  | some body =>
    simp only [hbody]
    exact bind_ne_error (boundariesFrom_ne_error (foreign_stale detail)) fun _ _ => pure_ne_error

/-- A reference that resolves, or is stale, was looked for in a draft that can be read. -/
theorem exists_shown (hreads : json.ReadsBack (ref.payload crates)) (hown : draft.OwnRefusals)
    (h : ResolvesTo crates json isAlphanumeric draft ref ∨
      IsStale crates json isAlphanumeric draft ref) :
    ∃ shown, shownText isAlphanumeric draft ref.paragraphId = .ok shown := by
  obtain ⟨current, hresolve⟩ := @resolveMatchRef_eq crates json isAlphanumeric ref hreads draft
  cases hshown : shownText isAlphanumeric draft ref.paragraphId with
  | ok shown => exact ⟨shown, rfl⟩
  | error e =>
    rw [hshown] at hresolve
    rcases h with h | ⟨detail, h⟩
    · exact absurd (hresolve.symm.trans h) (fun h => by cases h)
    · obtain rfl := Except.error.inj (hresolve.symm.trans h)
      exact absurd hshown (shownText_ne_stale hown)

/-- A reference resolves to what it was reported for exactly in a draft that shows it at its
offsets. -/
theorem resolvesTo_iff (hreads : json.ReadsBack (ref.payload crates)) (hwell : ref.WellFormed) :
    ResolvesTo crates json isAlphanumeric draft ref ↔ ∃ flat,
      shownText isAlphanumeric draft ref.paragraphId = .ok (some flat) ∧
        HasWord ref.text ref.start flat := by
  constructor
  · intro h
    obtain ⟨current, hresolve⟩ := @resolveMatchRef_eq crates json isAlphanumeric ref hreads draft
    obtain ⟨shown, hshown, -⟩ := bind_eq_ok (hresolve.symm.trans h)
    rcases resolve_cases hreads hwell hshown with ⟨flat, rfl, hdigest, hok⟩ | ⟨-, detail, hstale⟩
    · refine ⟨flat, hshown, (stands_iff hwell).mpr ⟨hdigest.1, ?_⟩⟩
      exact (ResolvedMatchRef.mk.inj (Except.ok.inj (hok.symm.trans h))).2.1
    · exact absurd (hstale.symm.trans h) refuse_ne_ok
  · rintro ⟨flat, hshown, hstands⟩
    rcases resolve_cases hreads hwell hshown with ⟨flat', hflat, hdigest, hok⟩ | ⟨hnot, -⟩
    · obtain rfl := Option.some.inj hflat
      rw [ResolvesTo, hok, ((stands_iff hwell).mp hstands).2]
    · exact absurd (showsDigest_of_stands hwell hstands) (hnot flat rfl)

/-! ## A run -/

theorem ownRefusals_of_reachedFrom : ∀ {steps : List DraftStep} {place : Option Nat},
    ∀ state ∈ reachedFrom ref place steps, state.2.OwnRefusals
  | [], _, _, hstate => absurd hstate not_mem_nil
  | step :: rest, _, state, hstate => by
    rcases mem_cons.mp hstate with rfl | hstate
    · exact step.ownRefusals
    · exact ownRefusals_of_reachedFrom state hstate

/-- Where the characters of a reference still stand somewhere, a draft that can be read shows them
there. -/
theorem stands_of_reachedFrom (hwell : ref.WellFormed) : ∀ {steps : List DraftStep}
    {place : Option Nat} {shown : Option Text}, Edited isAlphanumeric ref.paragraphId shown steps →
    (∀ start ∈ place, ∃ text, shown = some text ∧ HasWord ref.text start text) →
    ∀ state ∈ reachedFrom ref place steps, ∀ start ∈ state.1, ∀ read,
      shownText isAlphanumeric state.2 ref.paragraphId = .ok read →
        ∃ text, read = some text ∧ HasWord ref.text start text
  | [], _, _, _, _, _, hstate => absurd hstate not_mem_nil
  | step :: rest, place, shown, hedited, hplace, state, hstate => by
    obtain ⟨hread, hrest⟩ := hedited
    have hmoved : ∀ start ∈ place.bind fun place =>
        step.edit.moved ref.paragraphId ref.text.length place,
        ∃ text, step.edit.shown ref.paragraphId shown = some text ∧
          HasWord ref.text start text := by
      intro start hstart
      obtain ⟨before, hbefore, hstart⟩ := Option.bind_eq_some_iff.mp hstart
      obtain ⟨text, rfl, hstands⟩ := hplace before hbefore
      exact stands_moved hwell.ne_nil hstands hstart
    rcases mem_cons.mp hstate with rfl | hstate
    · intro start hstart read hshown
      rw [hread read hshown]
      exact hmoved start hstart
    · exact stands_of_reachedFrom hwell hrest hmoved state hstate

end Address

/-! ## What is reported -/

variable {occurrence : Occurrence}

section Reported

variable {tables : CaseTables} {isAlphanumeric : Char → Bool} {query : Text} {caseSensitive : Bool}

/-- The reference of an occurrence says what stands at its offsets. -/
theorem stands_of_occurrenceAt {revision : String} {id body flat : Text}
    {boundaries : List (Nat × Text)} {hitLength offset : Nat} (hpos : 0 < hitLength)
    (h : occurrenceAt query revision id body flat boundaries hitLength offset = .ok occurrence) :
    occurrence.matchRef.paragraphId = id ∧ occurrence.matchRef.WellFormed ∧
      HasWord occurrence.matchRef.text occurrence.matchRef.start flat := by
  obtain ⟨text, htext, h⟩ := bind_eq_ok h
  obtain ⟨sliced, -, h⟩ := bind_eq_ok h
  obtain rfl := Except.ok.inj h
  have hinside := (sliceChars_eq_ok_iff.mp ⟨text, htext⟩).2
  rw [sliceChars, if_pos ⟨Nat.le_add_right _ _, hinside⟩] at htext
  have hlength : text.length = hitLength := by
    rw [← Except.ok.inj htext, length_drop, length_take_of_le hinside,
      Nat.add_sub_cancel_left]
  have hwell : MatchRef.WellFormed ⟨revision, id, offset, offset + hitLength, text⟩ :=
    ⟨ne_nil_of_length_pos (hlength ▸ hpos), by rw [hlength]⟩
  exact ⟨rfl, hwell, (stands_iff hwell).mpr ⟨hinside, Except.ok.inj htext⟩⟩

/-- The occurrences of a paragraph stand in its text, where their references say. -/
theorem occurrence_of_searchParagraph {revision : String} {contextChars index : Nat}
    {blocks : List Text} {kind id body : Text} {entry : MatchBlock} (hquery : query ≠ [])
    (h : searchParagraph tables isAlphanumeric query caseSensitive revision contextChars blocks
      index kind id body = .ok (some entry)) (hoccurrence : occurrence ∈ entry.occurrences) :
    occurrence.matchRef.paragraphId = id ∧ occurrence.matchRef.WellFormed ∧
      ∃ flat boundaries, bodyBoundaries isAlphanumeric body = .ok (flat, boundaries) ∧
        HasWord occurrence.matchRef.text occurrence.matchRef.start flat := by
  obtain ⟨⟨flat, boundaries⟩, hread, h⟩ := bind_eq_ok h
  dsimp only at h
  split at h
  next => cases h
  next =>
    obtain ⟨excerpted, -, h⟩ := bind_eq_ok h
    obtain ⟨occurrences, hoccurrences, h⟩ := bind_eq_ok h
    obtain ⟨first, -, h⟩ := bind_eq_ok h
    obtain ⟨part, -, h⟩ := bind_eq_ok h
    obtain rfl := Option.some.inj (Except.ok.inj h)
    obtain ⟨offset, -, hat⟩ :=
      exists_of_forall₂_of_mem (mapM_eq_ok hoccurrences) hoccurrence
    have hneedle : 0 < (searchNeedle tables query caseSensitive).length :=
      length_pos_of_ne_nil (searchNeedle_ne_nil hquery)
    obtain ⟨hid, hwell, hstands⟩ := stands_of_occurrenceAt hneedle hat
    exact ⟨hid, hwell, flat, boundaries, hread, hstands⟩

variable {draft : SearchedDraft} {contextChars limit offset : Nat} {scope : Text}
  {reply : DocumentSearch}

/-! ## Every run -/

variable {crates : Crates} {json : JsonCrate}

/-- A reference of an occurrence that is reported leads to its characters or nowhere, in the draft
and after any edits, exactly when the first block with the id shows them in the draft, and no other
text comes to their offsets with their digest. -/
theorem keepsAddress_iff (hreply : documentSearch tables isAlphanumeric query caseSensitive draft
      contextChars limit offset scope = .ok reply)
    {entry : MatchBlock} (hentry : entry ∈ reply.found) {occurrence : Occurrence}
    (hoccurrence : occurrence ∈ entry.occurrences)
    (hreads : json.ReadsBack (occurrence.matchRef.payload crates)) {steps : List DraftStep}
    (hedited : ∀ shown,
      shownText isAlphanumeric draft occurrence.matchRef.paragraphId = .ok shown →
        Edited isAlphanumeric occurrence.matchRef.paragraphId shown steps) :
    KeepsAddress crates json isAlphanumeric draft occurrence.matchRef steps ↔
      NotRetaken crates isAlphanumeric draft occurrence.matchRef steps := by
  obtain ⟨hquery, state, text, header, blocks, allowed, -, -, -, -, hfound⟩ :=
    documentSearch_blocks hreply
  obtain ⟨block, -, index, kind, id, -, hparagraph⟩ := hfound entry hentry
  obtain ⟨-, hwell, -⟩ := occurrence_of_searchParagraph hquery hparagraph hoccurrence
  generalize occurrence.matchRef = ref at hreads hedited hwell ⊢
  have hown := @ownRefusals_of_reachedFrom ref steps (some ref.start)
  constructor
  · intro h
    refine ⟨(resolvesTo_iff hreads hwell).mp h.resolves, fun state hstate => ?_⟩
    have hlater := h.later state hstate
    obtain ⟨shown, hshown⟩ := exists_shown hreads (hown state hstate) (hlater.imp_left And.left)
    refine ⟨shown, hshown, hlater.imp And.right fun hstale flat hflat hdigest => ?_⟩
    rcases resolve_cases hreads hwell hshown with ⟨_, -, -, hok⟩ | ⟨hnot, -⟩
    · obtain ⟨detail, hstale⟩ := hstale
      exact refuse_ne_ok (hstale.symm.trans hok)
    · exact hnot flat hflat hdigest
  · intro h
    refine ⟨(resolvesTo_iff hreads hwell).mpr h.first, fun state hstate => ?_⟩
    obtain ⟨flat, hflat, hstands⟩ := h.first
    obtain ⟨shown, hshown, hcase⟩ := h.later state hstate
    rcases hcase with hplace | hdigest
    · obtain ⟨later, rfl, hlater⟩ := stands_of_reachedFrom hwell (hedited _ hflat)
        (fun start hstart => ⟨flat, rfl, Option.some.inj hstart ▸ hstands⟩) state hstate ref.start
        hplace shown hshown
      exact .inl ⟨(resolvesTo_iff hreads hwell).mpr ⟨later, hshown, hlater⟩, hplace⟩
    · rcases resolve_cases hreads hwell hshown with ⟨flat', rfl, hshows, -⟩ | ⟨-, hstale⟩
      · exact absurd hshows (hdigest flat' rfl)
      · exact .inr hstale

end Reported

/-! ### `ab ab` -/

/-- The hash of `ab`. -/
def abCrates : Crates where
  members _ := none
  wellFormed _ := false
  sha256Hex raw :=
    if raw = bytes "ab" then "fb8e20fc2e4c3f248c60c39bd652f3c1347298bb977b8b4d5903b85055620603"
    else ""
  crc32 _ := 0
  deflate := id

/-- The payload of the first `ab`, as it is written. -/
def abPayload : Text :=
  ("\x7b\"revision\":\"\",\"paragraph_id\":\"P1\",\"start\":0,\"end\":2," ++
    "\"sha256\":\"fb8e20fc2e4c3f24\"\x7d").toList

def abValue : JsonValue :=
  .object [("revision", .string []), ("paragraph_id", .string "P1".toList), ("start", .unsigned 0),
    ("end", .unsigned 2), ("sha256", .string "fb8e20fc2e4c3f24".toList)]

def abJson : JsonCrate where
  stringText text := ['"'] ++ text ++ ['"']
  fromStr text := if text = abPayload then some abValue else none
  objectText _ := ""
  debugText text := "\"" ++ String.ofList text ++ "\""

/-- The reference of the first `ab`. -/
def firstAb : MatchRef := ⟨"", "P1".toList, 0, 2, "ab".toList⟩

theorem firstAb_reported : ∃ reply, documentSearch dottedTables Char.isAlphanum "ab".toList false
    (draftOf "ab ab") 80 10 0 "all".toList = .ok reply ∧
      ∃ entry ∈ reply.found, ∃ occurrence ∈ entry.occurrences, occurrence.matchRef = firstAb := by
  have hrefs : (documentSearch dottedTables Char.isAlphanum "ab".toList false (draftOf "ab ab") 80
      10 0 "all".toList).toOption.map (fun reply =>
        reply.found.map fun entry => entry.occurrences.map (·.matchRef)) =
      some [[firstAb, ⟨"", "P1".toList, 3, 5, "ab".toList⟩]] := by decide +kernel
  obtain ⟨reply, hreply, hrefs⟩ := exists_ok_of_map hrefs
  obtain ⟨entry, hentry, hrefs⟩ := mem_map.mp (hrefs ▸ mem_cons_self)
  obtain ⟨occurrence, hoccurrence, href⟩ := mem_map.mp (hrefs ▸ mem_cons_self)
  exact ⟨reply, hreply, entry, hentry, occurrence, hoccurrence, href⟩

theorem firstAb_digest : matchRefDigest abCrates "ab".toList = "fb8e20fc2e4c3f24".toList := by
  have hhash : abCrates.sha256Hex (utf8 "ab".toList) =
      "fb8e20fc2e4c3f248c60c39bd652f3c1347298bb977b8b4d5903b85055620603" := by
    change (if utf8 "ab".toList = bytes "ab" then _ else "") = _
    exact if_pos rfl
  rw [matchRefDigest, hhash, String.toList_ofList, String.toList_ofList]
  rfl

theorem firstAb_readsBack : abJson.ReadsBack (firstAb.payload abCrates) := by
  have htext : payloadText abJson ⟨[], "P1".toList, 0, 2, "fb8e20fc2e4c3f24".toList⟩ =
      abPayload := by
    unfold payloadText abPayload abJson
    rw [String.toList_append]
    repeat rw [String.toList_ofList]
    decide +kernel
  have hpayload : firstAb.payload abCrates =
      ⟨[], "P1".toList, 0, 2, "fb8e20fc2e4c3f24".toList⟩ := by
    rw [← firstAb_digest]
    rfl
  rw [hpayload]
  refine ⟨abValue, ?_, rfl, rfl, rfl, rfl, rfl⟩
  rw [htext]
  exact (if_pos rfl : (if abPayload = abPayload then some abValue else none) = some abValue)

theorem shownText_draftOf : shownText Char.isAlphanum (draftOf "ab ab") "P1".toList =
      .ok (some "ab ab".toList) ∧
    shownText Char.isAlphanum (draftOf "ab-ab") "P1".toList = .ok (some "ab-ab".toList) ∧
    shownText Char.isAlphanum (draftOf "ab") "P1".toList = .ok (some "ab".toList) := by
  unfold draftOf
  simp only [String.toList_append]
  repeat rw [String.toList_ofList]
  decide +kernel

theorem ownRefusals_draftOf (body : String) : (draftOf body).OwnRefusals :=
  fun _ => ⟨fun h => (by cases h), fun h => (by cases h)⟩

/-- The blank becomes a hyphen. -/
def hyphenStep : DraftStep :=
  ⟨.splice "P1".toList 2 1 ['-'], draftOf "ab-ab", ownRefusals_draftOf _⟩

/-- The first word is taken out, and the second moves to its place. -/
def cutStep : DraftStep :=
  ⟨.splice "P1".toList 0 3 [], draftOf "ab", ownRefusals_draftOf _⟩

theorem firstAb_kept :
    KeepsAddress abCrates abJson Char.isAlphanum (draftOf "ab ab") firstAb [hyphenStep] := by
  obtain ⟨reply, hreply, entry, hentry, occurrence, hoccurrence, href⟩ := firstAb_reported
  obtain ⟨hbefore, hafter, -⟩ := shownText_draftOf
  have hedited : ∀ shown, shownText Char.isAlphanum (draftOf "ab ab") firstAb.paragraphId =
      .ok shown → Edited Char.isAlphanum firstAb.paragraphId shown [hyphenStep] := by
    intro shown hshown
    obtain rfl := Except.ok.inj (hbefore.symm.trans hshown)
    refine ⟨fun read hread => ?_, trivial⟩
    obtain rfl := Except.ok.inj (hafter.symm.trans hread)
    decide
  have hkept : NotRetaken abCrates Char.isAlphanum (draftOf "ab ab") firstAb [hyphenStep] := by
    refine ⟨⟨_, hbefore, by decide⟩, fun state hstate => ?_⟩
    obtain rfl := List.mem_singleton.mp hstate
    exact ⟨_, hafter, .inl (by decide)⟩
  rw [← href] at hedited hkept ⊢
  exact (keepsAddress_iff hreply hentry hoccurrence (href ▸ firstAb_readsBack) hedited).mpr hkept

/-- The second `ab` is taken for the first one. -/
theorem secondAb_retaken : (∃ reply, documentSearch dottedTables Char.isAlphanum "ab".toList false
    (draftOf "ab ab") 80 10 0 "all".toList = .ok reply ∧
      ∃ entry ∈ reply.found, ∃ occurrence ∈ entry.occurrences, occurrence.matchRef = firstAb) ∧
    abJson.ReadsBack (firstAb.payload abCrates) ∧
    (∀ shown, shownText Char.isAlphanum (draftOf "ab ab") firstAb.paragraphId = .ok shown →
      Edited Char.isAlphanum firstAb.paragraphId shown [cutStep]) ∧
    ¬ KeepsAddress abCrates abJson Char.isAlphanum (draftOf "ab ab") firstAb [cutStep] := by
  obtain ⟨hbefore, -, hafter⟩ := shownText_draftOf
  refine ⟨firstAb_reported, firstAb_readsBack, fun shown hshown => ?_, fun h => ?_⟩
  · obtain rfl := Except.ok.inj (hbefore.symm.trans hshown)
    refine ⟨fun read hread => ?_, trivial⟩
    obtain rfl := Except.ok.inj (hafter.symm.trans hread)
    decide
  · have hresolves : ResolvesTo abCrates abJson Char.isAlphanum (draftOf "ab") firstAb :=
      (resolvesTo_iff firstAb_readsBack ⟨by decide, by decide⟩).mpr ⟨_, hafter, by decide⟩
    rcases h.later _ List.mem_cons_self with ⟨-, hplace⟩ | ⟨detail, hstale⟩
    · exact absurd hplace (by decide)
    · exact refuse_ne_ok (hstale.symm.trans hresolves)

end Docx2Typed
