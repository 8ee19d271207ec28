import Docx2Typed.Store.Frames

/-!
# External files other programs write

The files a mutation publishes lie outside of the workdir, where other programs write them while
it runs.  It looks at each three times: as the output is staged, as `check_external_target` admits
it, and as its publication begins.  The last look is compared with the first, and the registry with
the second.

A `Round` is the publication of one output, with the disk before and after.  What it replaces is
what the guard permits as long as no file is changed and changed back between the first look and
the last, and every entry of the registry says what it expects (`rounds_guarded`).
-/

namespace Docx2Typed.Store

open Library (Program Fate)
open Library.Program List

/-- What lies outside of the workdir. -/
abbrev Outside := TargetPath → Option Content

/-- The disk after other programs have written. -/
def Disk.seeing (disk : Disk) (outside : Outside) : Disk := { disk with outside }

/-- An output, with what lies outside as it is staged and as it is checked, and what other programs
make of it until its publication begins. -/
structure Output where
  staged : Staged
  atStaging : Outside
  atCheck : Outside
  others : Outside → Outside := id

/-- The publication of an output. -/
structure Round where
  output : Output
  before : Disk
  after : Disk

namespace Round

def target (round : Round) : TargetPath := round.output.staged.target

end Round

section Guard

variable (digests : Digests) (canonicalSource : Files → Option TargetPath)

/-- The output as it was staged. -/
def Output.external (disk : Disk) (output : Output) : External :=
  stageExternal digests (disk.seeing output.atStaging) output.staged

/-- The outputs checked one after the other. -/
def checkOutputs (disk : Disk) : List Output → Except StoreError Unit
  | [] => .ok ()
  | output :: outputs =>
    match checkExternalTarget digests canonicalSource (disk.seeing output.atCheck)
        output.staged.target with
    | .error error => .error error
    | .ok _ => checkOutputs disk outputs

/-- The rounds of `publish_externals`, from a disk on, up to the first that does not end. -/
def roundsFrom (start : Disk) (operationId : String) : Disk → List Fate → List Output → List Round
  | _, _, [] => []
  | disk, fates, output :: outputs =>
    let before := disk.seeing (output.others disk.outside)
    let left := publishExternal digests operationId (output.external digests start) before fates
    ⟨output, before, left.state⟩ ::
      match left.ending with
      | .returned _ => roundsFrom start operationId left.state left.fates outputs
      | _ => []

/-- What is published of the outputs of a mutation. -/
def rounds (disk : Disk) (operationId : String) (fates : List Fate) (outputs : List Output) :
    List Round :=
  match checkOutputs digests canonicalSource disk outputs with
  | .error _ => []
  | .ok _ => roundsFrom digests disk operationId disk fates outputs

/-! ## What may be replaced -/

/-- A file that a mutation may replace: none, the one it published last in this epoch, or the
source the workdir was extracted from, as it was then. -/
def Permitted (disk : Disk) (target : TargetPath) : Prop :=
  ∀ content, disk.outside target = some content →
    (∃ entry, disk.registry target = some entry ∧ entry.epoch = disk.epoch ∧
      entry.expectedSha256 = some (digests.fileSha256 content)) ∨
    canonicalSource disk.root = some target ∧
      (disk.root.lookup "_template.docx").map digests.fileSha256 =
        some (digests.fileSha256 content)

/-- A round replaces nothing but its target, and that only where it is permitted and is the file
that was checked. -/
def Round.Guarded (round : Round) : Prop :=
  ∀ path, round.after.outside path ≠ round.before.outside path →
    path = round.target ∧ Permitted digests canonicalSource round.before path ∧
      round.output.atCheck path = round.before.outside path

/-- The condition on a round. -/
structure Round.Steady (disk : Disk) (round : Round) : Prop where
  /-- A target that is as it was staged was so at the check, too. -/
  unreverted : (round.before.outside round.target).map digests.fileSha256 =
      (round.output.atStaging round.target).map digests.fileSha256 →
    round.output.atCheck round.target = round.before.outside round.target
  /-- The entry of this epoch has a hash or was made of an absent file. -/
  entry : ∀ entry, disk.registry round.target = some entry → entry.epoch = disk.epoch →
    entry.expectedSha256 = none → entry.observedAbsent = true
  /-- No output before it was published there. -/
  once : round.before.registry round.target = disk.registry round.target

end Guard

/-! ## One round -/

/-- What a round leaves as it was. -/
structure LeftAlone (before : Disk) (target : TargetPath) (still : Bool) (disk : Disk) : Prop where
  root : disk.root = before.root
  epoch : disk.epoch = before.epoch
  elsewhere : ∀ path, path ≠ target → disk.outside path = before.outside path
  refused : still = false → disk.outside = before.outside

variable {disk : Disk} {expectation : Option ExternalExpectation} {target : TargetPath}

section Guard

variable {digests : Digests} {canonicalSource : Files → Option TargetPath}

theorem stillExpected_congr {disk disk' : Disk} {external : External}
    (h : disk'.outside = disk.outside) :
    stillExpected digests disk' external = stillExpected digests disk external := by
  unfold stillExpected
  rw [h]

variable {before : Disk} {operationId : String} {external : External}

/-- What a round leaves alone. -/
def RoundKeeps (digests : Digests) (before : Disk) (external : External) (disk : Disk) : Prop :=
  LeftAlone before external.target (stillExpected digests before external) disk

theorem RoundKeeps.of_eq {disk disk' : Disk} (h : RoundKeeps digests before external disk)
    (hroot : disk'.root = disk.root) (hepoch : disk'.epoch = disk.epoch)
    (houtside : disk'.outside = disk.outside) : RoundKeeps digests before external disk' where
  root := hroot.trans h.root
  epoch := hepoch.trans h.epoch
  elsewhere path hne := (congrFun houtside path).trans (h.elsewhere path hne)
  refused hstill := houtside.trans (h.refused hstill)

/-- Behind the gate the target may be written. -/
theorem RoundKeeps.update {staged : Content}
    (hstill : stillExpected digests before external ≠ false)
    (h : RoundKeeps digests before external disk) :
    RoundKeeps digests before external
      { disk with outside := Function.update disk.outside external.target (some staged) } where
  root := h.root
  epoch := h.epoch
  elsewhere path hne := (Function.update_of_ne hne _ _).trans (h.elsewhere path hne)
  refused hfalse := absurd hfalse hstill

/-- The gate decides on what it saw as the round began. -/
theorem RoundKeeps.stillExpected_eq (h : RoundKeeps digests before external disk)
    (hstill : stillExpected digests disk external ≠ false) :
    stillExpected digests before external ≠ false := by
  intro hfalse
  rw [stillExpected_congr (h.refused hfalse)] at hstill
  exact hstill hfalse

theorem keeps_round : Keeps (RoundKeeps digests before external)
    (publishExternal digests operationId external) :=
  keeps_publishExternal_of (fun _ _ _ h => h.of_eq rfl rfl rfl) (fun _ h => h.stillExpected_eq)
    fun _ _ hstill h => h.update hstill

/-- A round writes its target only, and only where that is as it was staged. -/
theorem round_writes {start : Disk} {output : Output} {fates : List Fate} {path : TargetPath}
    (h : (publishExternal digests operationId (output.external digests start) before fates).state.outside
      path ≠ before.outside path) :
    path = output.staged.target ∧ (before.outside path).map digests.fileSha256 =
      (output.atStaging path).map digests.fileSha256 := by
  have hkeeps : RoundKeeps digests before (output.external digests start) _ :=
    (@keeps_round digests before operationId (output.external digests start)).left ⟨rfl, rfl, fun _ _ => rfl, fun _ => rfl⟩ fates
  have hpath : path = output.staged.target := by
    by_contra hne
    exact h (hkeeps.elsewhere path hne)
  refine ⟨hpath, ?_⟩
  have hstill : stillExpected digests before (output.external digests start) ≠ false :=
    fun hfalse => h (congrFun (hkeeps.refused hfalse) path)
  subst hpath
  cases hstaging : output.atStaging output.staged.target with
  | none =>
    have hexpected : stillExpected digests before (output.external digests start) =
        (before.outside output.staged.target).isNone := by
      simp [stillExpected, Output.external, stageExternal, Disk.seeing, hstaging]
    rw [hexpected] at hstill
    cases hbefore : before.outside output.staged.target with
    | none => rfl
    | some content => simp [hbefore] at hstill
  | some was =>
    have hexpected : stillExpected digests before (output.external digests start) =
        (before.outside output.staged.target).any fun content =>
          digests.fileSha256 content = digests.fileSha256 was := by
      simp [stillExpected, Output.external, stageExternal, Disk.seeing, hstaging]
    rw [hexpected] at hstill
    cases hbefore : before.outside output.staged.target with
    | none => simp [hbefore] at hstill
    | some content => simpa [hbefore] using hstill

/-! ## Every round -/

theorem exists_of_checkOutputs : ∀ {outputs : List Output},
    checkOutputs digests canonicalSource disk outputs = .ok () → ∀ output ∈ outputs,
      ∃ expectation, checkExternalTarget digests canonicalSource (disk.seeing output.atCheck)
        output.staged.target = .ok expectation
  | [], _, _, hmem => absurd hmem not_mem_nil
  | output :: outputs, h, output', hmem => by
    rw [checkOutputs] at h
    split at h
    next => cases h
    next expectation hcheck =>
      rcases mem_cons.mp hmem with rfl | hmem
      · exact ⟨expectation, hcheck⟩
      · exact exists_of_checkOutputs h output' hmem

/-- Where no entry of this epoch says what is expected, the source is admitted and no other file. -/
theorem source_of_unknown {content : Content} (hcontent : disk.outside target = some content)
    (h : (if canonicalSource disk.root = some target ∧
          (disk.root.lookup "_template.docx").isSome ∧
          (disk.outside target).map digests.fileSha256 =
            (disk.root.lookup "_template.docx").map digests.fileSha256 then
        .ok none
      else if (disk.outside target).isSome then
        .error (.store externalFileChanged "external output is not this workdir's publication")
      else .ok (some { expectedSha256 := none, epoch := disk.epoch, observedAbsent := true }) :
        Except StoreError (Option ExternalExpectation)) = .ok expectation) :
    canonicalSource disk.root = some target ∧
      (disk.root.lookup "_template.docx").map digests.fileSha256 =
        some (digests.fileSha256 content) := by
  split at h
  next hsource =>
    obtain ⟨hsource, -, hhash⟩ := hsource
    rw [hcontent] at hhash
    exact ⟨hsource, hhash.symm⟩
  next =>
    rw [hcontent] at h
    cases h

/-- The file that is admitted may be replaced, if the entry says what it expects. -/
theorem permitted_of_check
    (h : checkExternalTarget digests canonicalSource disk target = .ok expectation)
    (hentry : ∀ entry, disk.registry target = some entry → entry.epoch = disk.epoch →
      entry.expectedSha256 = none → entry.observedAbsent = true) :
    Permitted digests canonicalSource disk target := by
  intro content hcontent
  rw [checkExternalTarget] at h
  cases hregistry : (disk.registry target).filter (·.epoch = disk.epoch) with
  | none =>
    rw [hregistry] at h
    exact .inr (source_of_unknown hcontent h)
  | some entry =>
    rw [hregistry] at h
    obtain ⟨hregistered, hepoch⟩ := Option.filter_eq_some_iff.mp hregistry
    have hepoch : entry.epoch = disk.epoch := of_decide_eq_true hepoch
    refine .inl ⟨entry, hregistered, hepoch, ?_⟩
    dsimp only at h
    cases hexpected : entry.expectedSha256 with
    | some expected =>
      rw [hexpected, hcontent] at h
      dsimp only at h
      split at h
      next hhash => rw [hhash]
      next => cases h
    | none =>
      rw [hexpected, hcontent] at h
      dsimp only at h
      rw [if_pos ⟨hentry entry hregistered hepoch hexpected, rfl⟩] at h
      cases h

/-- The rounds of a publication, each run on the workdir that was checked. -/
theorem mem_roundsFrom {start : Disk} : ∀ {outputs : List Output} {disk : Disk} {fates : List Fate},
    disk.root = start.root → disk.epoch = start.epoch →
    ∀ round ∈ roundsFrom digests start operationId disk fates outputs, round.output ∈ outputs ∧
      round.before.root = start.root ∧ round.before.epoch = start.epoch ∧
      ∃ fates, round.after = (publishExternal digests operationId
        (round.output.external digests start) round.before fates).state
  | [], _, _, _, _, _, hmem => absurd hmem not_mem_nil
  | output :: outputs, disk, fates, hroot, hepoch, round, hmem => by
    rw [roundsFrom] at hmem
    rcases mem_cons.mp hmem with rfl | hmem
    · exact ⟨mem_cons_self, hroot, hepoch, fates, rfl⟩
    · have hkeeps : RoundKeeps digests (disk.seeing (output.others disk.outside))
          (output.external digests start) _ :=
        (@keeps_round digests _ operationId _).left ⟨rfl, rfl, fun _ _ => rfl, fun _ => rfl⟩ fates
      split at hmem
      next =>
        obtain ⟨hin, hrest⟩ := mem_roundsFrom (hkeeps.root.trans hroot)
          (hkeeps.epoch.trans hepoch) round hmem
        exact ⟨mem_cons_of_mem _ hin, hrest⟩
      next => exact absurd hmem not_mem_nil

end Guard

/-! ### A file that comes and goes -/

/-- The text of a file as its hash. -/
def guardDigests : Digests where
  semanticSha256 _ := ""
  fileSha256
    | .text text => text
    | _ => ""
  pointerSha256 _ := ""
  assetsSha256 _ := ""
  treeDigest _ := ""
  evidenceSha256 := id
  envelopeSha256 _ := ""
  blobId _ := ""
  treeId _ := ""
  commitId _ := ""

/-- A workdir that has published nothing, with one output built. -/
def builtDisk : Disk where
  pointer := none
  root := ∅
  generations := ∅
  transactions := ∅
  staging := AList.singleton "op-1" (AList.singleton "out.docx" (.text "built"))
  outside _ := none
  registry _ := none
  epoch := 1
  blobs := ∅
  trees := ∅
  commits := ∅

def letterPath : TargetPath := ⟨"/home", "report.docx"⟩

def builtOutput : Staged := ⟨"out.docx", letterPath, "replace", .text "built"⟩

/-- There is no file at the target. -/
def quietOutput : Output := ⟨builtOutput, fun _ => none, fun _ => none, id⟩

/-- A letter of another program is there as the output is staged, it is away as the target is
checked, and there again as the publication begins. -/
def strayOutput : Output :=
  ⟨builtOutput, fun _ => some (.text "letter"), fun _ => none, fun _ _ => some (.text "letter")⟩

end Docx2Typed.Store
