import Docx2Typed.Surface.Publish

/-!
# What an interrupted publication leaves

The sidecars renamed before the first rename that does not take effect are a prefix of the staged
ones (`placed`), so what a call leaves is told by that prefix and by the step that ends it.
`meetsClaim_iff`: the files at the output are all old, all new or reported as mixed, and all old
after a refusal, exactly when `Safe` holds of the site and of what becomes of the operations.
-/

namespace Docx2Typed.Surface

open Library (Fate)
open List

variable {r : Readers} {faults : Step → Fate} {site : Site} {captured : PublishExpectation}
  {set : OutputSet} {suffix : Suffix} {suffixes l : List Suffix}

/-! ## Mixed sets -/

/-- Some sidecar records other bytes than the document has. -/
def Told (r : Readers) (set : OutputSet) : Prop :=
  ∃ suffix sha256, recordedDocxSha256 r (set.sidecar suffix) = some sha256 ∧
    sha256 ≠ publishedSha256 r set.document

theorem mem_sidecars (suffix : Suffix) : suffix ∈ sidecars := by
  cases suffix <;> simp [sidecars]

theorem nodup_sidecars : sidecars.Nodup := by decide

theorem sidecarSetState_mixed_iff :
    (∃ disagree sha256, sidecarSetState r set = .mixed disagree sha256) ↔ Told r set := by
  have hdisagree : ((sidecars.filterMap fun suffix =>
      (recordedDocxSha256 r (set.sidecar suffix)).map fun sha256 => (suffix, sha256)).filter
        fun entry => entry.2 != publishedSha256 r set.document) ≠ [] ↔ Told r set := by
    simp only [ne_eq, filter_eq_nil_iff, mem_filterMap, Option.map_eq_some_iff, not_forall,
      bne_iff_ne, not_not, Told]
    constructor
    · rintro ⟨_, ⟨suffix, -, sha256, hrecorded, rfl⟩, hne⟩
      exact ⟨suffix, sha256, hrecorded, hne⟩
    · rintro ⟨suffix, sha256, hrecorded, hne⟩
      exact ⟨(suffix, sha256), ⟨suffix, mem_sidecars suffix, sha256, hrecorded, rfl⟩, hne⟩
  rw [← hdisagree, sidecarSetState]
  by_cases hnil : (sidecars.filterMap fun suffix =>
      (recordedDocxSha256 r (set.sidecar suffix)).map fun sha256 => (suffix, sha256)) = []
  · simp [hnil]
  · simp only [if_neg hnil, map_eq_nil_iff]
    split
    next hempty => simp [hempty]
    next hne => simp [hne]

/-! ## What the steps leave -/

theorem Site.move_nil (site : Site) : site.move [] = site := by
  simp [Site.move]

theorem Site.move_move (h : suffix ∉ suffixes) (site : Site) :
    (site.move [suffix]).move suffixes = site.move (suffix :: suffixes) := by
  simp only [Site.move, mem_cons, Site.mk.injEq, OutputSet.mk.injEq,
    true_and, and_true]
  constructor
  · funext other
    by_cases hother : other = suffix
    · subst hother
      simp [h]
    · simp [hother]
  · funext other
    by_cases hother : other = suffix
    · subst hother
      simp [h]
    · simp [hother]

/-- The staged ones among some sidecars. -/
def stagedIn (site : Site) (l : List Suffix) : List Suffix :=
  l.filter fun suffix => (site.staging.sidecar suffix).isSome

/-- The sidecars renamed before the first rename that does not take effect. -/
def placedIn (faults : Step → Fate) (site : Site) (l : List Suffix) : List Suffix :=
  (stagedIn site l).takeWhile fun suffix => faults (.place suffix) = .done

/-- The first sidecar whose rename does not take effect. -/
def haltIn (faults : Step → Fate) (site : Site) (l : List Suffix) : Option Suffix :=
  ((stagedIn site l).dropWhile fun suffix => faults (.place suffix) = .done).head?

theorem mem_of_mem_placedIn (h : suffix ∈ placedIn faults site l) : suffix ∈ l :=
  (mem_filter.mp ((takeWhile_sublist _).mem h)).1

theorem stagedIn_move (h : suffix ∉ l) : stagedIn (site.move [suffix]) l = stagedIn site l := by
  refine filter_congr fun other hother => ?_
  have hne : other ≠ suffix := fun heq => h (heq ▸ hother)
  simp [Site.move, hne]

theorem placedIn_move (h : suffix ∉ l) :
    placedIn faults (site.move [suffix]) l = placedIn faults site l := by
  rw [placedIn, placedIn, stagedIn_move h]

theorem haltIn_move (h : suffix ∉ l) :
    haltIn faults (site.move [suffix]) l = haltIn faults site l := by
  rw [haltIn, haltIn, stagedIn_move h]

section Cons

/-- A sidecar that is not staged is passed over. -/
theorem stagedIn_cons_none (h : (site.staging.sidecar suffix).isNone = true) :
    stagedIn site (suffix :: l) = stagedIn site l :=
  filter_cons_of_neg (by simpa using h)

theorem stagedIn_cons_some (h : ¬ (site.staging.sidecar suffix).isNone = true) :
    stagedIn site (suffix :: l) = suffix :: stagedIn site l :=
  filter_cons_of_pos (by simpa [Option.isSome_iff_ne_none] using h)

variable (h : ¬ (site.staging.sidecar suffix).isNone = true)

include h

theorem placedIn_cons_done (hfate : faults (.place suffix) = .done) :
    placedIn faults site (suffix :: l) = suffix :: placedIn faults site l := by
  rw [placedIn, stagedIn_cons_some h, takeWhile_cons_of_pos (by simp [hfate]), placedIn]

theorem haltIn_cons_done (hfate : faults (.place suffix) = .done) :
    haltIn faults site (suffix :: l) = haltIn faults site l := by
  rw [haltIn, stagedIn_cons_some h, dropWhile_cons_of_pos (by simp [hfate]), haltIn]

theorem placedIn_cons_halt (hfate : faults (.place suffix) ≠ .done) :
    placedIn faults site (suffix :: l) = [] := by
  rw [placedIn, stagedIn_cons_some h, takeWhile_cons_of_neg (by simp [hfate])]

theorem haltIn_cons_halt (hfate : faults (.place suffix) ≠ .done) :
    haltIn faults site (suffix :: l) = some suffix := by
  rw [haltIn, stagedIn_cons_some h, dropWhile_cons_of_neg (by simp [hfate]), head?_cons]

end Cons

/-- The renames of a call, and what ends them. -/
theorem placeSidecars_eq : ∀ {l : List Suffix} {site : Site}, l.Nodup →
    placeSidecars faults l site =
      ((match haltIn faults site l with
        | none => .ok ()
        | some suffix => act (faults (.place suffix)) (.sidecarNotPlaced suffix)),
        site.move (placedIn faults site l))
  | [], site, _ => by simp [placeSidecars, haltIn, placedIn, stagedIn, Site.move_nil]
  | suffix :: l, site, hnodup => by
    obtain ⟨hnotMem, hnodup⟩ := nodup_cons.mp hnodup
    rw [placeSidecars]
    split
    next hnone =>
      rw [placeSidecars_eq hnodup, haltIn, haltIn, placedIn, placedIn, stagedIn_cons_none hnone]
    next hsome =>
      cases hfate : faults (.place suffix) with
      | done =>
        simp only
        rw [placeSidecars_eq hnodup, haltIn_move hnotMem, placedIn_move hnotMem,
          Site.move_move fun hmem => hnotMem (mem_of_mem_placedIn hmem),
          haltIn_cons_done hsome hfate, placedIn_cons_done hsome hfate]
      | fail | stop =>
        have hne : faults (.place suffix) ≠ .done := by simp [hfate]
        rw [haltIn_cons_halt hsome hne, placedIn_cons_halt hsome hne, Site.move_nil]
        simp [hfate, act]

/-- Those of some sidecars that had nothing to overwrite. -/
def createdIn (site : Site) (l : List Suffix) : List Suffix :=
  l.filter fun suffix => (site.output.sidecar suffix).isNone

theorem createdIn_move (h : suffix ∉ l) : createdIn (site.move [suffix]) l = createdIn site l := by
  refine filter_congr fun other hother => ?_
  have hne : other ≠ suffix := fun heq => h (heq ▸ hother)
  simp [Site.move, hne]

theorem placeNew_eq : ∀ {l acc : List Suffix} {site : Site}, l.Nodup →
    placeNew faults l acc site =
      match haltIn faults site l with
      | none => (.ok (), site.move (placedIn faults site l))
      | some suffix =>
        if faults (.place suffix) = .stop then (.error none, site.move (placedIn faults site l))
        else rollBack faults suffix (acc ++ createdIn site (placedIn faults site l))
          (site.move (placedIn faults site l))
  | [], acc, site, _ => by simp [placeNew, haltIn, placedIn, stagedIn, Site.move_nil]
  | suffix :: l, acc, site, hnodup => by
    obtain ⟨hnotMem, hnodup⟩ := nodup_cons.mp hnodup
    rw [placeNew]
    split
    next hnone =>
      rw [placeNew_eq hnodup, haltIn, haltIn, placedIn, placedIn, stagedIn_cons_none hnone]
    next hsome =>
      cases hfate : faults (.place suffix) with
      | done =>
        have hplaced : suffix ∉ placedIn faults site l := fun hmem =>
          hnotMem (mem_of_mem_placedIn hmem)
        have hcreated : (if (site.output.sidecar suffix).isSome then acc else acc ++ [suffix]) ++
            createdIn site (placedIn faults site l) =
            acc ++ createdIn site (suffix :: placedIn faults site l) := by
          cases hold : site.output.sidecar suffix with
          | none => simp [createdIn, hold]
          | some old => simp [createdIn, hold]
        simp only
        rw [placeNew_eq hnodup, haltIn_move hnotMem, placedIn_move hnotMem,
          Site.move_move hplaced, createdIn_move hplaced, hcreated,
          haltIn_cons_done hsome hfate, placedIn_cons_done hsome hfate]
      | fail =>
        have hne : faults (.place suffix) ≠ .done := by simp [hfate]
        rw [haltIn_cons_halt hsome hne, placedIn_cons_halt hsome hne, Site.move_nil]
        simp [hfate, createdIn]
      | stop =>
        have hne : faults (.place suffix) ≠ .done := by simp [hfate]
        rw [haltIn_cons_halt hsome hne, placedIn_cons_halt hsome hne, Site.move_nil]
        simp [hfate]

/-! ## The roll-back -/

/-- Remove sidecars of the output. -/
def Site.remove (suffixes : List Suffix) (site : Site) : Site :=
  { site with output := { site.output with
      sidecar := fun suffix => if suffix ∈ suffixes then none else site.output.sidecar suffix } }

/-- The removals made before the process stops. -/
def undone (faults : Step → Fate) (l : List Suffix) : List Suffix :=
  (l.takeWhile fun suffix => faults (.undoSidecar suffix) ≠ .stop).filter fun suffix =>
    faults (.undoSidecar suffix) = .done

/-- Whether the process stops at a removal. -/
def stopsUndoing (faults : Step → Fate) (l : List Suffix) : Bool :=
  l.any fun suffix => faults (.undoSidecar suffix) = .stop

theorem Site.remove_nil (site : Site) : site.remove [] = site := by
  simp [Site.remove]

theorem Site.remove_removeSidecar (site : Site) :
    (site.removeSidecar suffix).remove suffixes = site.remove (suffix :: suffixes) := by
  simp only [Site.remove, Site.removeSidecar, mem_cons, Site.mk.injEq, OutputSet.mk.injEq,
    true_and, and_true]
  funext other
  by_cases hother : other = suffix <;> simp [hother]

theorem undoSidecars_eq : ∀ {l : List Suffix} {site : Site},
    undoSidecars faults suffix l site =
      (if stopsUndoing faults l then .error none else .error (some (.sidecarRolledBack suffix)),
        site.remove (undone faults l))
  | [], site => by simp [undoSidecars, stopsUndoing, undone, Site.remove_nil]
  | created :: l, site => by
    rw [undoSidecars]
    cases hfate : faults (.undoSidecar created) with
    | done =>
      simp only
      rw [undoSidecars_eq, Site.remove_removeSidecar]
      simp [stopsUndoing, undone, hfate]
    | fail =>
      simp only
      rw [undoSidecars_eq]
      simp [stopsUndoing, undone, hfate]
    | stop => simp [stopsUndoing, undone, hfate, Site.remove_nil]

/-! ## Recognisable sets -/

/-- The set is all old, all new, or tells that it is mixed. -/
def Recognised (r : Readers) (site : Site) (set : OutputSet) : Prop :=
  set = site.output ∨ set = site.staging ∨ Told r set

/-- The renamed sidecars are as they were. -/
def Unmoved (site : Site) (placed : List Suffix) : Prop :=
  ∀ suffix ∈ placed, site.staging.sidecar suffix = site.output.sidecar suffix

/-- The sidecars that were not renamed are those of the build. -/
def RestNew (site : Site) (placed : List Suffix) : Prop :=
  ∀ suffix ∉ placed, site.output.sidecar suffix = site.staging.sidecar suffix

/-- The staged document beside the sidecars renamed so far. -/
def Site.withDocument (site : Site) (placed : List Suffix) : OutputSet :=
  ⟨site.staging.document, (site.move placed).output.sidecar⟩

variable {placed : List Suffix}

theorem sidecar_eq_output :
    (site.move placed).output.sidecar = site.output.sidecar ↔ Unmoved site placed := by
  constructor
  · intro h suffix hplaced
    simpa [Site.move, hplaced] using congrFun h suffix
  · intro h
    funext suffix
    by_cases hplaced : suffix ∈ placed
    · simpa [Site.move, hplaced] using h suffix hplaced
    · simp [Site.move, hplaced]

theorem sidecar_eq_staging :
    (site.move placed).output.sidecar = site.staging.sidecar ↔ RestNew site placed := by
  constructor
  · intro h suffix hplaced
    simpa [Site.move, hplaced] using congrFun h suffix
  · intro h
    funext suffix
    by_cases hplaced : suffix ∈ placed
    · simp [Site.move, hplaced]
    · simpa [Site.move, hplaced] using h suffix hplaced

theorem OutputSet.eq_iff {set set' : OutputSet} :
    set = set' ↔ set.document = set'.document ∧ set.sidecar = set'.sidecar := by
  cases set
  cases set'
  simp

/-- What is left when the process stops over the old document: its sidecars are as they were, or
the build's document is the same and so are the other sidecars, or the evidence tells. -/
def StopsOver (r : Readers) (site : Site) (placed : List Suffix) : Prop :=
  Unmoved site placed ∨ (site.output.document = site.staging.document ∧ RestNew site placed) ∨
    Told r (site.move placed).output

/-- What is left with the staged document in place. -/
def LeavesNew (r : Readers) (site : Site) (placed : List Suffix) : Prop :=
  (site.staging.document = site.output.document ∧ Unmoved site placed) ∨ RestNew site placed ∨
    Told r (site.withDocument placed)

theorem recognised_move :
    Recognised r site (site.move placed).output ↔ StopsOver r site placed := by
  rw [Recognised, StopsOver, OutputSet.eq_iff, OutputSet.eq_iff, sidecar_eq_output,
    sidecar_eq_staging]
  simp [Site.move]

theorem recognised_withDocument :
    Recognised r site (site.withDocument placed) ↔ LeavesNew r site placed := by
  rw [Recognised, LeavesNew, OutputSet.eq_iff, OutputSet.eq_iff]
  simp [Site.withDocument, sidecar_eq_output, sidecar_eq_staging]

/-! ## The claim of a call -/

/-- The files at the output are all old, all new or reported as mixed, and all old after a
refusal. -/
def MeetsClaim (r : Readers) (site : Site) (left : Ending × Site) : Prop :=
  (left.2.output = site.output ∨ left.2.output = site.staging ∨
    ∃ disagree sha256, sidecarSetState r left.2.output = .mixed disagree sha256) ∧
  ∀ error, left.1 = .error (some error) → left.2.output = site.output

section MeetsClaim

variable {final : Site}

theorem meetsClaim_ok : MeetsClaim r site (.ok (), final) ↔ Recognised r site final.output := by
  simp [MeetsClaim, Recognised, sidecarSetState_mixed_iff]

theorem meetsClaim_stopped :
    MeetsClaim r site (.error none, final) ↔ Recognised r site final.output := by
  simp [MeetsClaim, Recognised, sidecarSetState_mixed_iff]

theorem meetsClaim_failed {error : PublishError} :
    MeetsClaim r site (.error (some error), final) ↔ final.output = site.output := by
  simp only [MeetsClaim, Except.error.injEq, Option.some.injEq, forall_eq']
  exact and_iff_right_of_imp .inl

end MeetsClaim

/-- Over an existing document. -/
def SafeOver (r : Readers) (faults : Step → Fate) (site : Site) : Prop :=
  let placed := placedIn faults site sidecars
  match haltIn faults site sidecars with
  | some suffix =>
    if faults (.place suffix) = .stop then StopsOver r site placed else Unmoved site placed
  | none =>
    match faults .replace, site.staging.document with
    | .done, some _ => LeavesNew r site placed
    | .stop, _ => StopsOver r site placed
    | _, _ => Unmoved site placed

theorem haltIn_ne_done (h : haltIn faults site l = some suffix) :
    faults (.place suffix) ≠ .done := by
  have hhead := head?_dropWhile_not (fun suffix => decide (faults (.place suffix) = .done))
    (stagedIn site l)
  rw [haltIn] at h
  rw [h] at hhead
  simpa using hhead

theorem replaceOutput_iff (site : Site) :
    MeetsClaim r site (replaceOutput faults site) ↔ SafeOver r faults site := by
  rw [replaceOutput, SafeOver, placeSidecars_eq nodup_sidecars]
  cases hhalt : haltIn faults site sidecars with
  | some suffix =>
    have hne := haltIn_ne_done hhalt
    cases hfate : faults (.place suffix) with
    | done => exact absurd hfate hne
    | fail =>
      simp only [act, hfate, reduceCtorEq, if_false]
      rw [meetsClaim_failed, OutputSet.eq_iff, sidecar_eq_output]
      simp [Site.move]
    | stop =>
      simp only [act, hfate, if_true]
      rw [meetsClaim_stopped, recognised_move]
  | none =>
    simp only [coordinatedOutputReplace]
    cases hfate : faults .replace with
    | done =>
      cases hdocument : site.staging.document with
      | some document =>
        simp only [Site.move, hdocument]
        rw [meetsClaim_ok, ← recognised_withDocument, Site.withDocument, hdocument]
        rfl
      | none =>
        simp only [Site.move, hdocument]
        rw [meetsClaim_failed, ← sidecar_eq_output, OutputSet.eq_iff]
        simp [Site.move]
    | fail =>
      simp only [Site.move]
      rw [meetsClaim_failed, ← sidecar_eq_output, OutputSet.eq_iff]
      simp [Site.move]
    | stop =>
      simp only
      rw [meetsClaim_stopped, recognised_move]

/-- What a roll-back leaves that is not stopped at the document: `removed` of the sidecars are
gone, and the document unless its removal failed. -/
def Site.rolledBack (site : Site) (faults : Step → Fate) (placed : List Suffix) : OutputSet where
  document := if faults .undoDocument = .done then none else site.staging.document
  sidecar := fun suffix =>
    if suffix ∈ undone faults (createdIn site placed) then none
    else (site.move placed).output.sidecar suffix

theorem mem_of_mem_undone (h : suffix ∈ undone faults l) : suffix ∈ l :=
  (takeWhile_sublist _).mem (mem_filter.mp h).1

/-- The roll-back restores the sidecars exactly when each renamed one is removed again, or is as
it was. -/
theorem rolledBack_sidecar_iff :
    (site.rolledBack faults placed).sidecar = site.output.sidecar ↔
      ∀ suffix ∈ placed, suffix ∈ undone faults (createdIn site placed) ∨
        site.staging.sidecar suffix = site.output.sidecar suffix := by
  constructor
  · intro h suffix hplaced
    refine or_iff_not_imp_left.mpr fun hundone => ?_
    simpa [Site.rolledBack, hundone, Site.move, hplaced] using congrFun h suffix
  · intro h
    funext suffix
    by_cases hundone : suffix ∈ undone faults (createdIn site placed)
    · have hcreated := (mem_filter.mp (mem_of_mem_undone hundone)).2
      simpa [Site.rolledBack, hundone] using (Option.isNone_iff_eq_none.mp hcreated).symm
    · by_cases hplaced : suffix ∈ placed
      · simpa [Site.rolledBack, hundone, Site.move, hplaced] using
          (h suffix hplaced).resolve_left hundone
      · simp [Site.rolledBack, hundone, Site.move, hplaced]

/-- A failed rename at a new path. -/
def SafeRollBack (r : Readers) (faults : Step → Fate) (site : Site) (placed : List Suffix) : Prop :=
  if faults .undoDocument = .stop then LeavesNew r site placed
  else if stopsUndoing faults (createdIn site placed) then
    Recognised r site (site.rolledBack faults placed)
  else
    faults .undoDocument = .done ∧ ∀ suffix ∈ placed,
      suffix ∈ undone faults (createdIn site placed) ∨
        site.staging.sidecar suffix = site.output.sidecar suffix

/-- At a new path. -/
def SafeNew (r : Readers) (faults : Step → Fate) (site : Site) : Prop :=
  let placed := placedIn faults site sidecars
  match faults .link, site.staging.document with
  | .done, some _ =>
    if faults .removeStaging = .stop then LeavesNew r site []
    else
      match haltIn faults site sidecars with
      | none => LeavesNew r site placed
      | some suffix =>
        if faults (.place suffix) = .stop then LeavesNew r site placed
        else SafeRollBack r faults site placed
  | _, _ => True

section Linked

variable {linked : Site} {placed : List Suffix} {document : Bytes}
  (hnone : site.output.document = none) (hdocument : site.staging.document = some document)
  (hlinked : linked.output = ⟨some document, site.output.sidecar⟩)
  (hstaging : linked.staging.sidecar = site.staging.sidecar)

include hdocument hlinked hstaging

/-- Renames after the link. -/
theorem move_linked : (linked.move placed).output = site.withDocument placed := by
  simp [Site.move, Site.withDocument, hlinked, hstaging, hdocument]

include hnone

theorem rollBack_iff :
    MeetsClaim r site (rollBack faults suffix (createdIn site placed) (linked.move placed)) ↔
      SafeRollBack r faults site placed := by
  have hmove : (linked.move placed).output = site.withDocument placed :=
    move_linked hdocument hlinked hstaging
  have hset : ∀ final : Site, final.output = site.rolledBack faults placed →
      (MeetsClaim r site (if stopsUndoing faults (createdIn site placed) then .error none
          else .error (some (.sidecarRolledBack suffix)), final) ↔
        if stopsUndoing faults (createdIn site placed) then
          Recognised r site (site.rolledBack faults placed)
        else
          faults .undoDocument = .done ∧ ∀ suffix ∈ placed,
            suffix ∈ undone faults (createdIn site placed) ∨
              site.staging.sidecar suffix = site.output.sidecar suffix) := by
    intro final hfinal
    split
    · rw [meetsClaim_stopped, hfinal]
    · rw [meetsClaim_failed, hfinal, OutputSet.eq_iff, rolledBack_sidecar_iff]
      simp [Site.rolledBack, hnone, hdocument]
  rw [rollBack, SafeRollBack]
  cases hfate : faults .undoDocument with
  | done =>
    have hset' := hset (((linked.move placed).removeDocument).remove
      (undone faults (createdIn site placed)))
      (by simp [Site.remove, Site.removeDocument, hmove, Site.rolledBack, hfate, Site.withDocument])
    simp only [reduceCtorEq, if_false]
    rw [undoSidecars_eq, hset']
    simp [hfate]
  | fail =>
    have hset' := hset ((linked.move placed).remove (undone faults (createdIn site placed)))
      (by simp [Site.remove, hmove, Site.rolledBack, hfate, Site.withDocument])
    simp only [reduceCtorEq, if_false]
    rw [undoSidecars_eq, hset']
    simp [hfate]
  | stop =>
    simp only [if_true]
    rw [meetsClaim_stopped, hmove, recognised_withDocument]

theorem placeNew_iff (hsame : linked.output.sidecar = site.output.sidecar) :
    MeetsClaim r site (placeNew faults sidecars [] linked) ↔
      match haltIn faults site sidecars with
      | none => LeavesNew r site (placedIn faults site sidecars)
      | some suffix =>
        if faults (.place suffix) = .stop then LeavesNew r site (placedIn faults site sidecars)
        else SafeRollBack r faults site (placedIn faults site sidecars) := by
  have hstaged : stagedIn linked sidecars = stagedIn site sidecars := by
    rw [stagedIn, stagedIn, hstaging]
  have hplaced : placedIn faults linked sidecars = placedIn faults site sidecars := by
    rw [placedIn, placedIn, hstaged]
  have hhalt : haltIn faults linked sidecars = haltIn faults site sidecars := by
    rw [haltIn, haltIn, hstaged]
  have hcreated : ∀ l, createdIn linked l = createdIn site l := by
    intro l
    rw [createdIn, createdIn, hsame]
  rw [placeNew_eq nodup_sidecars, hhalt, hplaced, hcreated]
  cases haltIn faults site sidecars with
  | none =>
    simp only
    rw [meetsClaim_ok, move_linked hdocument hlinked hstaging, recognised_withDocument]
  | some suffix =>
    simp only [nil_append]
    split
    · rw [meetsClaim_stopped, move_linked hdocument hlinked hstaging, recognised_withDocument]
    · exact rollBack_iff hnone hdocument hlinked hstaging

end Linked

theorem meetsClaim_unchanged {e : Option PublishError} : MeetsClaim r site (.error e, site) := by
  cases e with
  | none => exact meetsClaim_stopped.mpr (.inl rfl)
  | some error => exact meetsClaim_failed.mpr rfl

theorem createOutput_iff (hnone : site.output.document = none) :
    MeetsClaim r site (createOutput faults site) ↔ SafeNew r faults site := by
  rw [createOutput, SafeNew]
  cases hlink : faults .link with
  | fail => simpa using meetsClaim_unchanged
  | stop => simpa using meetsClaim_unchanged
  | done =>
    cases hdocument : site.staging.document with
    | none => simpa [hnone] using meetsClaim_unchanged
    | some document =>
      rw [hnone]
      simp only
      cases hremove : faults .removeStaging with
      | stop =>
        simp only [if_true]
        rw [meetsClaim_stopped, ← recognised_withDocument, Site.withDocument, hdocument,
          Site.move_nil]
      | done =>
        simp only [reduceCtorEq, if_false]
        exact placeNew_iff hnone hdocument rfl rfl rfl
      | fail =>
        simp only [reduceCtorEq, if_false]
        exact placeNew_iff hnone hdocument rfl rfl rfl

/-! ## The whole call -/

/-- The condition on the site and on what becomes of the operations: nothing is asked of a call
that is refused, or stopped, before it writes. -/
def Safe (r : Readers) (faults : Step → Fate) (captured : PublishExpectation) (site : Site) : Prop :=
  checkBeforeWrites r faults captured site = .ok () →
    if captured.present then SafeOver r faults site else SafeNew r faults site

theorem document_eq_none_of_checked (h : checkBeforeWrites r faults captured site = .ok ())
    (hpresent : captured.present = false) : site.output.document = none := by
  rw [checkBeforeWrites] at h
  obtain ⟨_, -, h⟩ := bind_eq_ok h
  obtain ⟨_, h, -⟩ := bind_eq_ok h
  rw [recheck, hpresent] at h
  by_contra hne
  rw [if_pos (Option.isSome_iff_ne_none.mpr hne)] at h
  cases h

theorem meetsClaim_iff (r : Readers) (faults : Step → Fate) (captured : PublishExpectation)
    (site : Site) :
    MeetsClaim r site (publishBuild r faults captured site) ↔ Safe r faults captured site := by
  rw [publishBuild, Safe]
  cases hchecked : checkBeforeWrites r faults captured site with
  | error e => exact iff_of_true meetsClaim_unchanged fun h => by cases h
  | ok _ =>
    simp only [forall_const]
    split
    next => exact replaceOutput_iff site
    next hpresent =>
      exact createOutput_iff (document_eq_none_of_checked hchecked (by simpa using hpresent))

/-! ## Two interrupted calls -/

/-- Hashes that spell the bytes, and evidence that records what it holds. -/
def spellingReaders : Readers where
  sha256 := fun content => String.ofList (content.map fun b => Char.ofNat b.toNat)
  fromStr := fun content => some <| .object [("payload", .object [("outputs", .object [("docx",
    .object [("sha256", .string (String.ofList (content.map fun b => Char.ofNat b.toNat)))])])])]

/-- A build with evidence and a ledger, over `output`. -/
def stagedOver (output : OutputSet) : Site where
  output := output
  staging := ⟨some (bytes "new"), fun suffix =>
    match suffix with
    | .evidence => some (bytes "new")
    | .verifyEvidence => some (bytes "new")
    | .operationLedger => none⟩
  parentIsDir := true

def oldOutput : OutputSet := ⟨some (bytes "old"), fun _ => none⟩

def noOutput : OutputSet := ⟨none, fun _ => none⟩

/-- Over a document, the last rename fails: the call is refused, and new evidence stands beside the
old document.  At a new path, the process stops after the link: the new document has no evidence
beside it, and nothing says so. -/
theorem publishBuild_leaves_part :
    (∃ error, (publishBuild spellingReaders (fun step => if step = .replace then .fail else .done)
        ⟨true, some "old"⟩ (stagedOver oldOutput)).1 = .error (some error) ∧
      (publishBuild spellingReaders (fun step => if step = .replace then .fail else .done)
        ⟨true, some "old"⟩ (stagedOver oldOutput)).2.output ≠ oldOutput) ∧
    ¬ MeetsClaim spellingReaders (stagedOver noOutput)
      (publishBuild spellingReaders (fun step => if step = .place .evidence then .stop else .done)
        ⟨false, none⟩ (stagedOver noOutput)) := by
  refine ⟨⟨.notReplaced, by decide, fun h => ?_⟩, fun h => ?_⟩
  · have hevidence := congrArg (fun set : OutputSet => set.sidecar .evidence) h
    revert hevidence
    decide
  · rcases h.1 with h | h | ⟨disagree, sha256, h⟩
    · have hdocument := congrArg OutputSet.document h
      revert hdocument
      decide
    · have hevidence := congrArg (fun set : OutputSet => set.sidecar .evidence) h
      revert hevidence
      decide
    · have habsent : sidecarSetState spellingReaders
          (publishBuild spellingReaders
            (fun step => if step = .place .evidence then .stop else .done)
            ⟨false, none⟩ (stagedOver noOutput)).2.output = .absent := by decide
      rw [habsent] at h
      cases h

end Docx2Typed.Surface
