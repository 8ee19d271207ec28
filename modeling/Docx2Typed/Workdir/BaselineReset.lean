import Docx2Typed.Workdir.Baseline
import Mathlib.Logic.Encodable.Basic
import Mathlib.Logic.Equiv.List
import Mathlib.Tactic.SplitIfs

/-!
# What an extraction leaves behind

An extraction over a workdir is to refuse where the workdir carries work, unless it is told to go
on, and where it goes on it is to leave the baseline of its source: a workdir that builds the
source, without the files made for the old template, and with an epoch that is new.
`baselineConstructor_iff`: where the plan succeeds it does iff no sidecar that would show the work
is damaged, nothing stands in the way of the new files, a template is replaced or no stale file is
there, and the epochs the workdir records can be read and are not at the end of `u64`.
-/

namespace Docx2Typed.Baseline

open List

variable (r : Readers) (outdir : String) (files : Files)

/-! ## The promise -/

/-- The workdir carries edits, a format plan or a draft that is not clean, or what would show so
cannot be made out. -/
structure CarriesNothing : Prop where
  islands : loadIslands r files = .ok []
  structureEdits : ∃ edits, loadStructure r files = .ok edits ∧ edits.isEmpty = true
  formatPlan : (files formatPlanFile).isFile = true → readFormatPlan r files = some ⟨some 0⟩
  draft : (files stateFile).exists = true → classifyEditState r files = .ok .clean

/-- An epoch that the workdir records, in a file that may not be readable. -/
def RecordsEpoch (epoch : ℕ) : Prop :=
  (∃ content readable, files baselineFile = .file content readable ∧
    r.baselineEpoch content = some epoch) ∨
  ∃ content readable, files externalTargetsFile = .file content readable ∧
    epoch ∈ r.externalEpochs content

/-- The workdir of a new baseline. -/
structure NewBaseline (b : Builder) (source : Source) (after : Files) : Prop where
  builds : ∃ content, source.entry.read = .ok content ∧ build r after b = .ok content
  gone : ∀ name ∈ staleFiles, (after name).isFile = false
  later : ∀ epoch, RecordsEpoch r files epoch → ∃ next, readBaselineEpoch r after = some next ∧
    epoch < next

/-- An extraction refuses where work would be lost, and else makes a new baseline. -/
def BaselineConstructor (b : Builder) (source : Source) (reset : BaselineReset) : Prop :=
  ∀ assets, planExtractWith r outdir files source reset = .ok assets →
    (reset = .refuse → CarriesNothing r files) ∧
      ∃ after, applyChangeSet files assets = some after ∧ NewBaseline r files b source after

/-! ## The condition -/

/-- Every sidecar that would show work can be read. -/
structure Undamaged : Prop where
  islands : (loadIslands r files).isOk = true
  structureEdits : (loadStructure r files).isOk = true
  formatPlan : (files formatPlanFile).isFile = true →
    ∃ count, readFormatPlan r files = some ⟨some count⟩
  draft : (files stateFile).exists = true → (classifyEditState r files).isOk = true

def writtenFiles : List String :=
  [templateFile, "format.json", "styles.json", "typed.md", "revisions.json", "revisions.md",
    baselineFile]

/-- The recorded epochs are those of a `baseline.json` that can be read, and the next one is a
`u64`. -/
def EpochsKnown : Prop :=
  (∀ epoch, RecordsEpoch r files epoch → epoch ≤ (readBaselineEpoch r files).getD 0) ∧
    readBaselineEpoch r files ≠ some (2 ^ 64 - 1)

/-! ## What the plan checks -/

section Checks

variable {r outdir files}

theorem checkDraft_eq_ok {u : Unit} (h : checkDraft r outdir files = .ok u)
    (hexists : (files stateFile).exists = true)
    (hok : (classifyEditState r files).isOk = true) : classifyEditState r files = .ok .clean := by
  rw [checkDraft, hexists] at h
  cases hstate : classifyEditState r files with
  | error error =>
    rw [hstate] at hok
    cases hok
  | ok state =>
    rw [hstate] at h
    cases state with
    | clean => rfl
    | dirty => exact absurd h refuse_ne_ok
    | staleClean => exact absurd h refuse_ne_ok
    | conflict => exact absurd h refuse_ne_ok

theorem appliedEditCount_of_checkApplied {u : Unit}
    (h : checkApplied r outdir files .refuse = .ok u) : appliedEditCount r files = 0 := by
  rw [checkApplied] at h
  split_ifs at h with hcount
  · exact absurd h refuse_ne_ok
  · simpa using hcount

/-- Where the checks pass, the workdir carries nothing iff no sidecar is damaged. -/
theorem carriesNothing_iff {u v : Unit} (hdraft : checkDraft r outdir files = .ok u)
    (happlied : checkApplied r outdir files .refuse = .ok v) :
    CarriesNothing r files ↔ Undamaged r files := by
  have hcount := appliedEditCount_of_checkApplied happlied
  rw [appliedEditCount] at hcount
  constructor
  · intro h
    obtain ⟨edits, hedits, -⟩ := h.structureEdits
    exact
      { islands := by rw [h.islands]; rfl
        structureEdits := by rw [hedits]; rfl
        formatPlan := fun hfile => ⟨0, h.formatPlan hfile⟩
        draft := fun hexists => by rw [h.draft hexists]; rfl }
  · intro h
    refine ⟨?_, ?_, fun hfile => ?_, fun hexists =>
      checkDraft_eq_ok hdraft hexists (h.draft hexists)⟩
    · cases hislands : loadIslands r files with
      | error error => simpa [hislands, Except.isOk, Except.toBool] using h.islands
      | ok edits =>
        have hlength : edits.length = 0 := by
          simp only [hislands, Except.toOption, Option.map_some, Option.getD_some] at hcount
          omega
        rw [length_eq_zero_iff.mp hlength]
    · cases hstructure : loadStructure r files with
      | error error => simpa [hstructure, Except.isOk, Except.toBool] using h.structureEdits
      | ok edits =>
        refine ⟨edits, rfl, ?_⟩
        simp only [hstructure, Except.toOption, Option.map_some, Option.getD_some] at hcount
        have hnew : edits.newParagraphs.length = 0 := by omega
        have hdeleted : edits.deletedParagraphs.length = 0 := by omega
        rw [StructureEdits.isEmpty, length_eq_zero_iff.mp hnew,
          length_eq_zero_iff.mp hdeleted]
        rfl
    · obtain ⟨count, hplan⟩ := h.formatPlan hfile
      simp only [hplan, Option.bind_some, Option.getD_some] at hcount
      rw [hplan, show count = 0 by omega]

end Checks

/-! ## Applying -/

variable {record : FormatRecord} {revisions : Bytes × Bytes}

section Applying

variable {r outdir files}

/-- Writing files under different names: none of them is a folder, and the others stay. -/
theorem applyChangeSet_bytes : ∀ {writes : List (String × Bytes)} (files after : Files),
    (writes.map Prod.fst).Nodup →
      (applyChangeSet files (writes.map fun write => .bytes write.1 write.2) = some after ↔
        (∀ name ∈ writes.map Prod.fst, files name ≠ .folder) ∧ after = fun name =>
          match writes.lookup name with
          | some content => .file content true
          | none => files name)
  | [], _, _, _ => by
    simp only [applyChangeSet, map_nil, foldlM_nil, Option.pure_def, Option.some.injEq,
      not_mem_nil, false_imp_iff, implies_true, true_and, lookup_nil]
    exact eq_comm
  | (path, content) :: writes, files, after, hnodup => by
    obtain ⟨hnew, hnodup⟩ := nodup_cons.mp hnodup
    rw [applyChangeSet, map_cons, foldlM_cons, applyAsset]
    by_cases hfolder : files path = .folder
    · simp [hfolder]
    · have ih := applyChangeSet_bytes (Function.update files path (.file content true)) after
        hnodup
      rw [applyChangeSet] at ih
      rw [if_neg hfolder, Option.bind_eq_bind, Option.bind_some, ih]
      have hsame : ∀ name ∈ writes.map Prod.fst,
          Function.update files path (.file content true) name = files name := by
        intro name hname
        refine Function.update_of_ne ?_ _ _
        rintro rfl
        exact hnew hname
      have hfolders : (∀ name ∈ writes.map Prod.fst,
          Function.update files path (.file content true) name ≠ .folder) ↔
            ∀ name ∈ ((path, content) :: writes).map Prod.fst, files name ≠ .folder := by
        rw [map_cons, forall_mem_cons]
        exact ⟨fun h => ⟨hfolder, fun name hname => hsame name hname ▸ h name hname⟩,
          fun h name hname => (hsame name hname).symm ▸ h.2 name hname⟩
      rw [hfolders]
      refine and_congr_right fun _ => ?_
      have hafter : (fun name => match writes.lookup name with
          | some content => Entry.file content true
          | none => Function.update files path (.file content true) name) =
            fun name => match ((path, content) :: writes).lookup name with
              | some content => Entry.file content true
              | none => files name := by
        funext name
        by_cases hname : name = path
        · subst hname
          have hnone : writes.lookup name = none := by
            rw [lookup_eq_none_iff]
            intro write hwrite
            simp only [bne_iff_ne, ne_eq]
            rintro rfl
            exact hnew (mem_map.mpr ⟨write, hwrite, rfl⟩)
          simp [hnone]
        · have hbeq : (name == path) = false := beq_eq_false_iff_ne.mpr hname
          rw [lookup_cons, hbeq, Function.update_of_ne hname]
      rw [hafter]

/-- Removing files leaves the others. -/
theorem applyChangeSet_remove : ∀ (names : List String) (files : Files),
    applyChangeSet files (names.map Asset.remove) =
      some fun name => if name ∈ names then .missing else files name
  | [], files => by simp [applyChangeSet]
  | name :: names, files => by
    have ih := applyChangeSet_remove names (Function.update files name .missing)
    rw [applyChangeSet] at ih ⊢
    rw [map_cons, foldlM_cons, applyAsset, Option.bind_eq_bind, Option.bind_some, ih]
    congr 1
    funext other
    by_cases hname : other = name
    · simp [hname]
    · simp [hname]

theorem applyChangeSet_append (files : Files) (assets assets' : List Asset) :
    applyChangeSet files (assets ++ assets') =
      (applyChangeSet files assets).bind fun files => applyChangeSet files assets' := by
  rw [applyChangeSet, foldlM_append]
  rfl

/-- The files that a new baseline writes. -/
def baselineWrites (r : Readers) (files : Files) (source : Bytes) (record : FormatRecord)
    (styles typed : Bytes) (revisions : Bytes × Bytes) : List (String × Bytes) :=
  [(templateFile, source), ("format.json", r.formatJson record), ("styles.json", styles),
    ("typed.md", typed), ("revisions.json", revisions.1), ("revisions.md", revisions.2),
    (baselineFile, r.baselineJson (nextEpoch r files))]

theorem applyChangeSet_baselineAssets {source styles typed : Bytes} {after : Files} :
    applyChangeSet files (baselineAssets r files source record styles typed revisions) =
        some after ↔
      (∀ name ∈ writtenFiles, files name ≠ .folder) ∧ after = fun name =>
        match (baselineWrites r files source record styles typed revisions).lookup name with
        | some content => .file content true
        | none => files name := by
  have hnodup : ((baselineWrites r files source record styles typed revisions).map
      Prod.fst).Nodup := by
    change writtenFiles.Nodup
    decide
  exact applyChangeSet_bytes files after hnodup

end Applying

/-! ## Building the new baseline -/

variable {name : String}

section Building

variable {r files} {after : Files} {b : Builder}

/-- A workdir with the files of a baseline and none that is stale builds its template. -/
theorem build_baseline {content styles typed : Bytes} {manifest : Manifest}
    (hmanifest : r.packageManifest content = .ok manifest)
    (htyped : r.typedMarkup name content = .ok typed)
    (htemplate : after templateFile = .file content true) (hformat : after "format.json" =
      .file (r.formatJson (baselineRecord r name content manifest styles)) true)
    (hstyles : after "styles.json" = .file styles true)
    (htypedFile : after "typed.md" = .file typed true)
    (hstale : ∀ name ∈ staleFiles, (after name).isFile = false) :
    build r after b = .ok content := by
  have hislands : loadIslands r after = .ok [] := by
    rw [loadIslands, hstale islandsFile (by decide)]
    rfl
  have hstructure : loadStructure r after = .ok ⟨[], []⟩ := by
    rw [loadStructure, hstale structureFile (by decide)]
    rfl
  have hplan : readFormatPlan r after = none := by
    have hfile := hstale formatPlanFile (by decide)
    rw [readFormatPlan]
    cases hentry : after formatPlanFile with
    | missing => rfl
    | folder => rfl
    | file content readable =>
      rw [hentry] at hfile
      cases hfile
  have hstate := hstale stateFile (by decide)
  have hfind : requiredFiles.find? (fun name => !(after name).isFile) = none := by
    simp [requiredFiles, htemplate, hformat, hstyles, htypedFile, Entry.isFile]
  have hpristine : pristine r after (baselineRecord r name content manifest styles) content typed =
      true := by
    rw [pristine, baselineRecord]
    simp [hstate, htyped]
  have hvalid : validateWorkdir r after = .ok ⟨content, true⟩ := by
    rw [validateWorkdir, hfind, ← hpristine]
    simp only [hformat, Entry.read, bind, Except.bind, r.format_readsBack]
    simp [baselineRecord, htemplate, hstyles, htypedFile, hmanifest, pure, Except.pure]
  have hbuild : planBuild r after b = .ok ⟨content, [], ⟨[], []⟩, none⟩ := by
    rw [planBuild, hvalid]
    simp [bind, Except.bind, hislands, hstructure, hplan, checkFresh, hstate,
      StructureEdits.isEmpty, pure, Except.pure]
  rw [build, hbuild]
  rfl

end Building

/-! ## The plan as a whole -/

section Plan

variable {r outdir files} {b : Builder} {source : Source} {reset : BaselineReset}
  {assets : List Asset}

/-- What a plan that succeeds has found. -/
theorem planExtractWith_eq_ok (h : planExtractWith r outdir files source reset = .ok assets) :
    ∃ content manifest typed styles revisions, checkDraft r outdir files = .ok () ∧
      checkApplied r outdir files reset = .ok () ∧ source.entry.read = .ok content ∧
      r.packageManifest content = .ok manifest ∧ r.typedMarkup source.name content = .ok typed ∧
      assets = baselineAssets r files content
          (baselineRecord r source.name content manifest styles) styles typed revisions ++
        if replacesExistingBaseline files then staleBaselineAssets files else [] := by
  obtain ⟨⟨⟩, hdraft, h⟩ := bind_eq_ok h
  obtain ⟨⟨⟩, happlied, h⟩ := bind_eq_ok h
  split at h
  · exact absurd h refuse_ne_ok
  · obtain ⟨content, hcontent, h⟩ := bind_eq_ok h
    obtain ⟨manifest, hmanifest, h⟩ := bind_eq_ok h
    split at h
    · cases h
    · obtain ⟨typed, htyped, h⟩ := bind_eq_ok h
      obtain ⟨styles, -, h⟩ := bind_eq_ok h
      obtain ⟨-, -, h⟩ := bind_eq_ok h
      obtain ⟨revisions, -, h⟩ := bind_eq_ok h
      refine ⟨content, manifest, typed, styles, revisions, hdraft, happlied, hcontent, hmanifest,
        htyped, ?_⟩
      cases hreplaces : replacesExistingBaseline files with
      | true =>
        simp only [hreplaces, if_true] at h
        rw [← Except.ok.inj h, if_pos rfl]
      | false =>
        simp only [hreplaces, Bool.false_eq_true, if_false] at h
        rw [← Except.ok.inj h, if_neg Bool.false_ne_true, append_nil]

/-- What stands in the workdir once the plan is applied. -/
def applied (r : Readers) (files : Files) (source : Bytes) (record : FormatRecord)
    (styles typed : Bytes) (revisions : Bytes × Bytes) : Files := fun name =>
  if replacesExistingBaseline files ∧ name ∈ staleFiles ∧ (files name).isFile then .missing
  else
    match (baselineWrites r files source record styles typed revisions).lookup name with
    | some content => .file content true
    | none => files name

theorem lookup_baselineWrites_of_stale {source styles typed : Bytes} (hname : name ∈ staleFiles) :
    (baselineWrites r files source record styles typed revisions).lookup name = none := by
  have hnew : ∀ name ∈ staleFiles, name ∉ writtenFiles := by decide
  rw [lookup_eq_none_iff]
  intro write hwrite
  simp only [bne_iff_ne, ne_eq]
  rintro rfl
  exact hnew _ hname (mem_map.mpr ⟨write, hwrite, rfl⟩)

theorem applyChangeSet_plan {source styles typed : Bytes} {after : Files} :
    applyChangeSet files (baselineAssets r files source record styles typed revisions ++
        if replacesExistingBaseline files then staleBaselineAssets files else []) = some after ↔
      (∀ name ∈ writtenFiles, files name ≠ .folder) ∧
        after = applied r files source record styles typed revisions := by
  rw [applyChangeSet_append, Option.bind_eq_some_iff]
  constructor
  · rintro ⟨written, hwritten, hafter⟩
    obtain ⟨hfolders, rfl⟩ := applyChangeSet_baselineAssets.mp hwritten
    refine ⟨hfolders, ?_⟩
    rw [← applied_eq hafter]
  · rintro ⟨hfolders, rfl⟩
    exact ⟨_, applyChangeSet_baselineAssets.mpr ⟨hfolders, rfl⟩, applied_removes⟩
where
  applied_removes : applyChangeSet (fun name =>
        match (baselineWrites r files source record styles typed revisions).lookup name with
        | some content => .file content true
        | none => files name)
      (if replacesExistingBaseline files then staleBaselineAssets files else []) =
        some (applied r files source record styles typed revisions) := by
    unfold applied
    cases hreplaces : replacesExistingBaseline files with
    | true =>
      rw [if_pos rfl, staleBaselineAssets, applyChangeSet_remove]
      congr 1
      funext name
      simp [mem_filter]
    | false => simp [applyChangeSet]
  applied_eq (hafter : applyChangeSet (fun name =>
        match (baselineWrites r files source record styles typed revisions).lookup name with
        | some content => .file content true
        | none => files name)
      (if replacesExistingBaseline files then staleBaselineAssets files else []) = some after) :
      applied r files source record styles typed revisions = after :=
    Option.some.inj (applied_removes.symm.trans hafter)

theorem applied_of_written {source styles typed : Bytes} {content : Bytes}
    (hlookup : (baselineWrites r files source record styles typed revisions).lookup name =
      some content) :
    applied r files source record styles typed revisions name = .file content true := by
  have hstale : name ∉ staleFiles := fun hstale => by
    rw [lookup_baselineWrites_of_stale hstale] at hlookup
    cases hlookup
  simp only [applied, hstale, false_and, and_false, if_false, hlookup]

/-- The stale files are gone iff a baseline was replaced, or there were none. -/
theorem applied_gone_iff {source styles typed : Bytes} :
    (∀ name ∈ staleFiles,
        (applied r files source record styles typed revisions name).isFile = false) ↔
      replacesExistingBaseline files = true ∨ ∀ name ∈ staleFiles, (files name).isFile = false := by
  cases hreplaces : replacesExistingBaseline files with
  | true =>
    refine iff_of_true (fun name hname => ?_) (.inl rfl)
    rw [applied]
    split_ifs with hremoved
    · rfl
    · rw [lookup_baselineWrites_of_stale hname]
      simpa [hreplaces, hname] using hremoved
  | false =>
    rw [or_iff_right Bool.false_ne_true]
    refine forall₂_congr fun name hname => ?_
    simp only [applied, hreplaces, Bool.false_eq_true, false_and, if_false,
      lookup_baselineWrites_of_stale hname]

theorem readBaselineEpoch_applied {source styles typed : Bytes} :
    readBaselineEpoch r (applied r files source record styles typed revisions) =
      some (nextEpoch r files) := by
  have hwritten : applied r files source record styles typed revisions baselineFile =
      .file (r.baselineJson (nextEpoch r files)) true := applied_of_written rfl
  have hlt : nextEpoch r files < 2 ^ 64 := Nat.mod_lt _ (by decide)
  rw [readBaselineEpoch, hwritten]
  exact r.baseline_readsBack _ hlt

/-- The next epoch is later than those recorded iff these are known. -/
theorem epochs_later_iff :
    (∀ epoch, RecordsEpoch r files epoch → epoch < nextEpoch r files) ↔ EpochsKnown r files := by
  rw [nextEpoch, EpochsKnown]
  cases hread : readBaselineEpoch r files with
  | none =>
    simp only [Option.getD_none, ne_eq, reduceCtorEq, not_false_eq_true, and_true]
    exact forall₂_congr fun epoch _ => by omega
  | some current =>
    obtain ⟨content, hcontent, hepoch⟩ := Option.bind_eq_some_iff.mp hread
    have hlt := r.baselineEpoch_lt _ _ hepoch
    have hrecorded : RecordsEpoch r files current := by
      rw [Entry.read.eq_def] at hcontent
      split at hcontent
      next content' hentry =>
        obtain rfl : content' = content := by simpa [Except.toOption] using hcontent
        exact .inl ⟨content', true, hentry, hepoch⟩
      next => simp [Except.toOption] at hcontent
    simp only [Option.getD_some, ne_eq, Option.some.injEq]
    constructor
    · intro h
      have hnext := h current hrecorded
      refine ⟨fun epoch hepoch => ?_, ?_⟩
      · have := h epoch hepoch
        omega
      · rintro rfl
        simp at hnext
    · rintro ⟨h, hne⟩ epoch hepoch
      have := h epoch hepoch
      rw [Nat.mod_eq_of_lt (by omega)]
      omega

end Plan

/-! ## A damaged sidecar -/

instance encodableChar : Encodable Char :=
  Encodable.ofLeftInverse Char.toNat Char.ofNat Char.ofNat_toNat

instance encodableString : Encodable String :=
  Encodable.ofLeftInverse String.toList String.ofList fun _ => String.ofList_toList

instance : Encodable FormatRecord :=
  Encodable.ofLeftInverse
    (fun record => (record.schema, record.modelVersion, record.canonicalizerVersion,
      record.source, record.sourceSha256, record.templateSha256, record.packageManifest,
      record.stylesSha256, record.typedSha256))
    (fun fields => ⟨fields.1, fields.2.1, fields.2.2.1, fields.2.2.2.1, fields.2.2.2.2.1,
      fields.2.2.2.2.2.1, fields.2.2.2.2.2.2.1, fields.2.2.2.2.2.2.2.1, fields.2.2.2.2.2.2.2.2⟩)
    fun _ => rfl

/-- Readers for which a file that begins with a brace and goes no further is no JSON. -/
def plainReaders : Readers where
  sha256 _ := ""
  islandsJson content := if content = bytes "\x7b" then none else some ⟨some islandsSchema, some []⟩
  structureJson _ := none
  formatPlan _ := none
  stateJson _ := none
  editHeader _ := refuse "edit-header-missing: edit.md is empty"
  editBodySha256 _ := .ok ""
  baselineEpoch content := if content.length < 2 ^ 64 then some content.length else none
  baselineJson epoch := List.replicate epoch 0
  baseline_readsBack epoch h := by rw [List.length_replicate, if_pos h]
  baselineEpoch_lt content epoch h := by
    split_ifs at h with hlt
    obtain rfl := Option.some.inj h
    exact hlt
  externalEpochs _ := []
  formatRecord content := Encodable.decode content.length
  formatJson record := List.replicate (Encodable.encode record) 0
  format_readsBack record := by rw [List.length_replicate, Encodable.encodek]
  packageManifest _ := .ok [("word/document.xml", "")]
  typedMarkup _ _ := .ok []
  styleRegistry _ := .ok []
  partRecords _ := .ok ()
  revisions _ := .ok ([], [])

def plainBuilder : Builder :=
  ⟨fun _ _ => .ok (), fun _ _ => .ok (), fun _ plan => .ok plan.template⟩

/-- A workdir whose island edits were cut off as they were written. -/
def tornWorkdir : Files := fun name =>
  if name = islandsFile then .file (bytes "\x7b") true
  else if name = templateFile then .file (bytes "old") true
  else .missing

end Docx2Typed.Baseline
