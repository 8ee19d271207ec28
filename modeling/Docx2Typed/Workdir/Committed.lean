import Docx2Typed.Workdir.Commit
import Mathlib.Algebra.Order.BigOperators.Group.List
import Mathlib.Algebra.Order.Ring.Nat

/-!
# What a commit keeps

A commit that returns without an error is to leave the named assets as the ChangeSet asks and every
other file as it was, and one that fails is to leave the workdir as it was.  `allOrNothing_iff`:
it does iff, where the staging succeeds and the old workdir can be moved aside, the new one can be
published or the old one put back, every other file is of a kind the inventory lists, and copying
`workspace.json` back changes nothing.
-/

namespace Docx2Typed.Workdir

open Library.PathTree List

/-! ## The promise -/

/-- What an asset asks for at its path and below. -/
def Asset.leafAt (env : Env) (asset : Asset) (p : Path) : Option Leaf :=
  match asset with
  | .bytes path content => if p = path.names then some (.file content) else none
  | .copySource path source =>
    if p = path.names then (env.source source).map Leaf.file else none
  | .remove _ => none

def Named (changes : List Asset) (p : Path) : Prop := ∃ asset ∈ changes, asset.path <+: p

instance (changes : List Asset) (p : Path) : Decidable (Named changes p) :=
  inferInstanceAs (Decidable (∃ asset ∈ changes, _))

/-- What stands at a path once the ChangeSet is applied over `before`: the last asset that names
the path, or a path above it, decides. -/
def requested (env : Env) (changes : List Asset) (before : Option Leaf) (p : Path) : Option Leaf :=
  changes.foldl (fun before asset => if asset.path <+: p then asset.leafAt env p else before) before

/-- The named assets are as asked, and every other file is still there. -/
structure Committed (env : Env) (tree : Tree) (changes : List Asset) (after : Files) : Prop where
  named : ∀ p, Named changes p → leafAt after p = requested env changes none p
  others : ∀ p leaf, ¬ Named changes p → leafAt tree.contents p = some leaf →
    leafAt after p = some leaf

/-- A commit that succeeds keeps its promise, one that fails leaves the workdir as it was. -/
def AllOrNothing (env : Env) (tree : Tree) (changes : List Asset) : Prop :=
  match commitWorkdir env tree changes with
  | ⟨.ok (), after⟩ => ∃ files, after = some files ∧ Committed env tree changes files
  | ⟨.error _, after⟩ => after = some tree.contents

/-! ## The condition -/

/-- A file the inventory lists: a regular file that stands in the root under a name of its own, or
below directories that can be listed, the first of which is not known by its name. -/
def Carried (tree : Tree) (p : Path) : Prop :=
  (∃ content, tree.contents p = some (.leaf (.file content))) ∧
    match p with
    | [] => False
    | [name] => name ≠ reviewDir ∧ name ∉ storeMetadata
    | name :: _ => (name = reviewDir ∨ knownTopLevel name = false) ∧
        Reachable tree.contents [name] p

/-- Whether the ChangeSet leaves a directory at a path. -/
def leavesDir (changes : List Asset) (before : Bool) (p : Path) : Bool :=
  changes.foldl (fun before asset =>
    match asset with
    | .remove path => !decide (path.names <+: p) && before
    | .bytes path _ | .copySource path _ => decide (p <+: path.names.dropLast) || before) before

/-- There is no `workspace.json` to copy back, the ChangeSet leaves a directory in its place, or
the copy writes what is staged already. -/
def IdentityHarmless (env : Env) (tree : Tree) (changes : List Asset) : Prop :=
  ∀ content, identityContent tree = some content → leavesDir changes false identityFile = false →
    match env.identity with
    | .whole => requested env changes (leafAt tree.contents identityFile) identityFile =
        some (.file content)
    | .untouched => True
    | .torn left => requested env changes (leafAt tree.contents identityFile) identityFile =
        some (.file left)

/-! ## Applying -/

variable {p : Path}

section Apply

variable {env : Env} {tree : Tree} {staging staging' : Files} {path : Path} {content : Bytes}

/-- A staging directory. -/
structure Staged (files : Files) : Prop where
  closed : Closed files
  root : isDir files [] = true

theorem orFail_eq_ok {step : Step} {files : Option Files} (h : orFail step files = .ok staging) :
    files = some staging := by
  cases files with
  | none => cases h
  | some files => rw [Except.ok.inj h]

theorem staged_emptyDir : Staged emptyDir where
  closed p n h := by simp [emptyDir] at h
  root := rfl

theorem leafAt_emptyDir (p : Path) : leafAt emptyDir p = none := by
  rw [leafAt, emptyDir]
  split_ifs <;> rfl

theorem requested_cons (asset : Asset) (changes : List Asset) (before : Option Leaf) (p : Path) :
    requested env (asset :: changes) before p = requested env changes
      (if asset.path <+: p then asset.leafAt env p else before) p := rfl

/-- One asset decides what stands at its path and below. -/
theorem applyAsset_eq_ok {index : ℕ} {asset : Asset} (hstaged : Staged staging)
    (h : applyAsset env staging index asset = .ok staging') : Staged staging' ∧ ∀ p,
      leafAt staging' p = if asset.path <+: p then asset.leafAt env p else leafAt staging p := by
  obtain ⟨-, -, h⟩ := bind_eq_ok h
  have hwrite : ∀ {path : AssetPath} {content : Bytes},
      orFail (.change index) (writeFile staging path.names (.file content)) = .ok staging' →
        Staged staging' ∧ ∀ p, leafAt staging' p = if path.names <+: p then
          (if p = path.names then some (.file content) else none) else leafAt staging p := by
    intro path content h
    obtain ⟨hclosed, hroot, hleaf⟩ :=
      writeFile_eq_some hstaged.closed hstaged.root path.nonempty (orFail_eq_ok h)
    refine ⟨⟨hclosed, hroot⟩, fun p => ?_⟩
    rw [hleaf]
    by_cases hp : p = path.names
    · simp [hp]
    · simp [hp]
  cases asset with
  | bytes path content => exact hwrite h
  | copySource path source =>
    simp only at h
    cases hsource : env.source source with
    | none => simp [hsource] at h
    | some content =>
      rw [hsource] at h
      obtain ⟨hstaged', hleaf⟩ := hwrite h
      refine ⟨hstaged', fun p => ?_⟩
      rw [hleaf, Asset.path, Asset.leafAt, hsource]
      rfl
  | remove path =>
    simp only at h
    split_ifs at h
    obtain rfl := Except.ok.inj h
    refine ⟨⟨hstaged.closed.removeBelow, ?_⟩, leafAt_removeBelow staging path.names⟩
    rw [isDir, removeBelow, if_neg (by simpa using path.nonempty)]
    exact hstaged.root

/-- What a ChangeSet leaves at each path. -/
theorem applyFrom_eq_ok : ∀ {changes : List Asset} {index : ℕ} {staging : Files},
    Staged staging → applyFrom env index staging changes = .ok staging' → Staged staging' ∧ ∀ p,
      leafAt staging' p = requested env changes (leafAt staging p) p
  | [], _, staging, hstaged, h => by
    obtain rfl := Except.ok.inj h
    exact ⟨hstaged, fun p => rfl⟩
  | asset :: changes, index, staging, hstaged, h => by
    obtain ⟨next, hnext, h⟩ := bind_eq_ok h
    obtain ⟨hstaged', hleaf⟩ := applyAsset_eq_ok hstaged hnext
    obtain ⟨hstaged'', hleaf'⟩ := applyFrom_eq_ok hstaged' h
    refine ⟨hstaged'', fun p => ?_⟩
    rw [hleaf', hleaf, requested_cons]

theorem isDir_applyAsset {index : ℕ} {asset : Asset}
    (h : applyAsset env staging index asset = .ok staging') :
    isDir staging' p = leavesDir [asset] (isDir staging p) p := by
  obtain ⟨-, -, h⟩ := bind_eq_ok h
  rw [Bool.eq_iff_iff]
  cases asset with
  | bytes path content =>
    rw [isDir_writeFile path.nonempty (orFail_eq_ok h)]
    simp [leavesDir]
  | copySource path source =>
    simp only at h
    cases hsource : env.source source with
    | none => simp [hsource] at h
    | some content =>
      rw [hsource] at h
      rw [isDir_writeFile path.nonempty (orFail_eq_ok h)]
      simp [leavesDir]
  | remove path =>
    simp only at h
    split_ifs at h
    obtain rfl := Except.ok.inj h
    rw [isDir_removeBelow]
    simp [leavesDir]

theorem isDir_applyFrom : ∀ {changes : List Asset} {index : ℕ} {staging : Files} {p : Path},
    applyFrom env index staging changes = .ok staging' →
      isDir staging' p = leavesDir changes (isDir staging p) p
  | [], _, _, _, h => by
    obtain rfl := Except.ok.inj h
    rfl
  | asset :: changes, index, staging, p, h => by
    obtain ⟨next, hnext, h⟩ := bind_eq_ok h
    rw [isDir_applyFrom h, isDir_applyAsset hnext]
    rfl

theorem requested_of_not_named {changes : List Asset} (h : ¬ Named changes p) (before : Option Leaf)
    : requested env changes before p = before := by
  induction changes generalizing before with
  | nil => rfl
  | cons asset changes ih =>
    rw [requested_cons, if_neg fun hpre => h ⟨asset, mem_cons_self, hpre⟩]
    exact ih (fun ⟨other, hother, hpre⟩ => h ⟨other, mem_cons_of_mem _ hother, hpre⟩) _

/-- Where an asset names the path, what stood there before does not matter. -/
theorem requested_of_named {changes : List Asset} (h : Named changes p)
    (before before' : Option Leaf) :
    requested env changes before p = requested env changes before' p := by
  induction changes generalizing before before' with
  | nil => simp [Named] at h
  | cons asset changes ih =>
    rw [requested_cons, requested_cons]
    by_cases hpre : asset.path <+: p
    · rw [if_pos hpre, if_pos hpre]
    · rw [if_neg hpre, if_neg hpre]
      obtain ⟨other, hother, hbelow⟩ := h
      rcases mem_cons.mp hother with rfl | hother
      · exact absurd hbelow hpre
      · exact ih ⟨other, hother, hbelow⟩ _ _

end Apply

/-! ## Copying -/

variable {asset : AssetEntry} {assets : List AssetEntry}

section Copy

variable {env : Env} {tree : Tree} {staging staging' : Files}

/-- The files an inventory row stands for. -/
def filesOf (tree : Tree) (asset : AssetEntry) : List Path :=
  if !asset.present then []
  else if asset.folder then walkFiles tree asset.path
  else [asset.path]

/-- The staging directory holds the copies of some files of the workdir, and no other. -/
structure Copies (tree : Tree) (staging : Files) (copied : List Path) : Prop where
  staged : Staged staging
  leaves : ∀ p, leafAt staging p = if p ∈ copied then leafAt tree.contents p else none
  dirs : ∀ p, isDir staging p = true → isDir tree.contents p = true

theorem Copies.copyFile {copied : List Path} {path : Path} (hcopies : Copies tree staging copied)
    (h : copyFile env tree staging path = .ok staging') :
    Copies tree staging' (copied ++ [path]) := by
  obtain ⟨-, -, h⟩ := bind_eq_ok h
  split at h
  next content hcontent =>
    have hne : path ≠ [] := by
      rintro rfl
      have hroot := tree.root
      rw [isDir, hcontent] at hroot
      cases hroot
    obtain ⟨hclosed, hroot, hleaf⟩ :=
      writeFile_eq_some hcopies.staged.closed hcopies.staged.root hne (orFail_eq_ok h)
    refine ⟨⟨hclosed, hroot⟩, fun p => ?_, fun p hp => ?_⟩
    · rw [hleaf]
      by_cases hp : p = path
      · subst hp
        simp [leafAt, hcontent]
      · rw [if_neg hp]
        simp only [mem_append, mem_singleton, hp, or_false]
        split_ifs with hbelow hmem hmem
        · -- nothing stands below a file of the workdir
          refine (leafAt_eq_none_of_below hbelow (Ne.symm hp) ?_).symm
          rw [isDir, hcontent]
        · rfl
        · rw [hcopies.leaves, if_pos hmem]
        · rw [hcopies.leaves, if_neg hmem]
    · rcases (isDir_writeFile hne (orFail_eq_ok h)).mp hp with habove | hold
      · have hlast := (List.dropLast_prefix path).trans (prefix_refl _)
        refine tree.closed.isDir_of_prefix (habove.trans hlast) ?_ (by simp [hcontent])
        rintro rfl
        have := habove.length_le
        rw [length_dropLast] at this
        have := length_pos_iff.mpr hne
        omega
      · exact hcopies.dirs p hold
  next => cases h
where
  leafAt_eq_none_of_below {p q : Path} (hbelow : p <+: q) (hne : p ≠ q)
      (hdir : isDir tree.contents p = false) : leafAt tree.contents q = none := by
    have hnone : tree.contents q = none := by
      by_contra hsome
      rw [tree.closed.isDir_of_prefix hbelow hne hsome] at hdir
      cases hdir
    rw [leafAt, hnone]

theorem Copies.copyFiles : ∀ {paths : List Path} {copied : List Path} {staging : Files},
    Copies tree staging copied → paths.foldlM (Workdir.copyFile env tree) staging = .ok staging' →
      Copies tree staging' (copied ++ paths)
  | [], copied, _, hcopies, h => by
    obtain rfl := Except.ok.inj h
    rwa [append_nil]
  | path :: paths, copied, _, hcopies, h => by
    rw [foldlM_cons] at h
    obtain ⟨next, hnext, h⟩ := bind_eq_ok h
    have := (hcopies.copyFile hnext).copyFiles h
    rwa [append_assoc, singleton_append] at this

theorem Copies.copyAsset {copied : List Path} (hcopies : Copies tree staging copied)
    (hasset : asset.folder = true → isDir tree.contents asset.path = true)
    (h : Workdir.copyAsset env tree staging asset = .ok staging') :
    Copies tree staging' (copied ++ filesOf tree asset) := by
  rw [Workdir.copyAsset] at h
  rw [filesOf]
  split_ifs at h ⊢ with hpresent hfolder
  · obtain rfl := Except.ok.inj h
    rwa [append_nil]
  · obtain ⟨dirs, hdirs, h⟩ := bind_eq_ok h
    have hmade := orFail_eq_ok hdirs
    refine Copies.copyFiles
      ⟨⟨hcopies.staged.closed.makeDirs hmade, ?_⟩, fun p => ?_, fun p hp => ?_⟩ h
    · exact (isDir_makeDirs hmade).mpr (.inr hcopies.staged.root)
    · rw [leafAt_makeDirs hmade, hcopies.leaves]
    · rcases (isDir_makeDirs hmade).mp hp with habove | hold
      · by_cases heq : p = asset.path
        · rw [heq]
          exact hasset hfolder
        · refine tree.closed.isDir_of_prefix habove heq fun hnone => ?_
          have := hasset hfolder
          rw [isDir, hnone] at this
          cases this
      · exact hcopies.dirs p hold
  · exact hcopies.copyFile h

theorem Copies.copyAssets : ∀ {assets : List AssetEntry} {copied : List Path} {staging : Files},
    (∀ asset ∈ assets, asset.folder = true → isDir tree.contents asset.path = true) →
      Copies tree staging copied →
        assets.foldlM (Workdir.copyAsset env tree) staging = .ok staging' →
          Copies tree staging' (copied ++ assets.flatMap (filesOf tree))
  | [], copied, _, _, hcopies, h => by
    obtain rfl := Except.ok.inj h
    rwa [flatMap_nil, append_nil]
  | asset :: assets, copied, _, hfolders, hcopies, h => by
    rw [foldlM_cons] at h
    obtain ⟨next, hnext, h⟩ := bind_eq_ok h
    have := copyAssets (fun other hother => hfolders other (mem_cons_of_mem _ hother))
      (hcopies.copyAsset (hfolders asset mem_cons_self) hnext) h
    rwa [append_assoc, ← flatMap_cons] at this

theorem folder_of_fileAsset (h : fileAsset env tree p = .ok asset) : asset.folder = false := by
  rw [fileAsset] at h
  split at h
  · obtain ⟨-, -, h⟩ := bind_eq_ok h
    rw [← Except.ok.inj h]
  · rw [← Except.ok.inj h]

/-- A row of the inventory that is a folder is a directory of the workdir. -/
theorem isDir_of_folder (h : inventoryAssets env tree = .ok assets) (hmem : asset ∈ assets)
    (hfolder : asset.folder = true) : isDir tree.contents asset.path = true := by
  have hfiles : ∀ {paths : List Path} {rows : List AssetEntry},
      paths.mapM (fileAsset env tree) = .ok rows → asset ∉ rows := by
    intro paths rows hrows hrow
    obtain ⟨p, -, hp⟩ := exists_of_forall₂_of_mem (mapM_eq_ok hrows) hrow
    rw [folder_of_fileAsset hp] at hfolder
    cases hfolder
  obtain ⟨known, hknown, h⟩ := bind_eq_ok h
  obtain ⟨review, hreview, h⟩ := bind_eq_ok h
  obtain ⟨top, -, h⟩ := bind_eq_ok h
  obtain ⟨attachments, hattachments, h⟩ := bind_eq_ok h
  rw [← Except.ok.inj h, mem_append, mem_append] at hmem
  rcases hmem with (hmem | hmem) | hmem
  · exact absurd hmem (hfiles hknown)
  · rw [reviewAssets] at hreview
    split_ifs at hreview
    · exact absurd hmem (hfiles hreview)
    · rw [← Except.ok.inj hreview] at hmem
      cases hmem
  · obtain ⟨rows, hrows, hmem⟩ := mem_flatten.mp hmem
    obtain ⟨p, -, hp⟩ := exists_of_forall₂_of_mem (mapM_eq_ok hattachments) hrows
    rw [opaqueAsset] at hp
    split at hp
    next readable hdir =>
      obtain ⟨-, -, hp⟩ := bind_eq_ok hp
      rw [← Except.ok.inj hp] at hmem
      rw [mem_singleton.mp hmem, isDir, hdir]
    next =>
      obtain ⟨row, hrow, hp⟩ := bind_eq_ok hp
      rw [← Except.ok.inj hp] at hmem
      rw [mem_singleton.mp hmem, folder_of_fileAsset hrow] at hfolder
      cases hfolder
    next =>
      rw [← Except.ok.inj hp] at hmem
      cases hmem

theorem isDir_emptyDir : isDir emptyDir p = true ↔ p = [] := by
  rw [isDir, emptyDir]
  split_ifs with hp <;> simp [hp]

theorem copyWorkdir_eq_ok (h : copyWorkdir env tree = .ok staging) : ∃ assets,
    inventoryAssets env tree = .ok assets ∧
      Copies tree staging (assets.flatMap (filesOf tree)) := by
  obtain ⟨assets, hassets, h⟩ := bind_eq_ok h
  have hempty : Copies tree emptyDir [] := by
    refine ⟨staged_emptyDir, fun p => ?_, fun p hp => ?_⟩
    · rw [leafAt_emptyDir, if_neg not_mem_nil]
    · rw [isDir_emptyDir.mp hp]
      exact tree.root
  exact ⟨assets, hassets, Copies.copyAssets (fun _ => isDir_of_folder hassets) hempty h⟩

end Copy

/-! ## What the inventory lists -/

section Inventory

variable {env : Env} {tree : Tree}

def isFileAt (tree : Tree) (p : Path) : Bool :=
  match tree.contents p with
  | some (.leaf (.file _)) => true
  | _ => false

theorem isFileAt_iff : isFileAt tree p = true ↔
    ∃ content, tree.contents p = some (.leaf (.file content)) := by
  rw [isFileAt]
  split <;> simp_all

theorem mem_walkFiles {top p : Path} : p ∈ walkFiles tree top ↔
    top <+: p ∧ top ≠ p ∧ isFileAt tree p = true ∧ Reachable tree.contents top p := by
  have hkeep : isFileAt tree p = true ↔
      ∃ leaf, tree.contents p = some (.leaf leaf) ∧ leaf.isFile = true := by
    rw [isFileAt_iff]
    constructor
    · rintro ⟨content, h⟩
      exact ⟨_, h, rfl⟩
    · rintro ⟨leaf, h, hfile⟩
      cases leaf with
      | file content => exact ⟨content, h⟩
      | link target => cases hfile
      | special => cases hfile
  rw [hkeep, walkFiles]
  constructor
  · exact of_mem_walk
  · rintro ⟨hpre, hne, hfile, hreach⟩
    refine mem_walk tree.listed ?_ hpre hne hfile hreach
    obtain ⟨leaf, hleaf, -⟩ := hfile
    have hmem := tree.listed p (by simp [hleaf])
    have := single_le_sum (fun _ _ => Nat.zero_le _) _
      (mem_map_of_mem (f := List.length) hmem)
    omega

/-- The files of a row that is given by its path. -/
def fileIfAny (tree : Tree) (p : Path) : List Path := if isFileAt tree p then [p] else []

theorem fileAsset_eq_ok (h : fileAsset env tree p = .ok asset) :
    filesOf tree asset = fileIfAny tree p := by
  rw [fileAsset] at h
  split at h
  next content hcontent =>
    obtain ⟨-, -, h⟩ := bind_eq_ok h
    rw [← Except.ok.inj h, fileIfAny, if_pos (isFileAt_iff.mpr ⟨content, hcontent⟩)]
    rfl
  next hnot =>
    rw [← Except.ok.inj h, fileIfAny, if_neg]
    · rfl
    · rw [isFileAt_iff]
      rintro ⟨content, hcontent⟩
      exact hnot content hcontent

/-- The files of an entry of the root. -/
def filesBelow (tree : Tree) (p : Path) : List Path :=
  match tree.contents p with
  | some (.dir _) => walkFiles tree p
  | _ => fileIfAny tree p

theorem opaqueAsset_eq_ok (h : opaqueAsset env tree p = .ok assets) :
    assets.flatMap (filesOf tree) = filesBelow tree p := by
  rw [opaqueAsset] at h
  rw [filesBelow]
  split at h
  next readable hdir =>
    obtain ⟨-, -, h⟩ := bind_eq_ok h
    rw [← Except.ok.inj h, flatMap_singleton, hdir]
    rfl
  next content hcontent =>
    obtain ⟨asset, hasset, h⟩ := bind_eq_ok h
    rw [← Except.ok.inj h, flatMap_singleton, fileAsset_eq_ok hasset, hcontent]
  next hdir hfile =>
    rw [← Except.ok.inj h]
    have hnot : isFileAt tree p = false := by
      rw [← Bool.not_eq_true, isFileAt_iff]
      rintro ⟨content, hcontent⟩
      exact hfile content hcontent
    cases hcontents : tree.contents p with
    | none => simp [fileIfAny, hnot]
    | some node =>
      cases node with
      | dir readable => exact absurd hcontents (hdir readable)
      | leaf leaf => simp [fileIfAny, hnot]

theorem flatMap_of_forall₂ {α β γ : Type} {f : β → List γ} {g : α → List γ} {xs : List α}
    {ys : List β} (h : List.Forall₂ (fun x y => f y = g x) xs ys) :
    ys.flatMap f = xs.flatMap g := by
  induction h with
  | nil => rfl
  | cons hxy _ ih => rw [flatMap_cons, flatMap_cons, hxy, ih]

theorem mem_flatMap_fileIfAny {paths : List Path} :
    p ∈ paths.flatMap (fileIfAny tree) ↔ p ∈ paths ∧ isFileAt tree p = true := by
  rw [mem_flatMap]
  constructor
  · rintro ⟨q, hq, hp⟩
    rw [fileIfAny] at hp
    split_ifs at hp with hfile
    · obtain rfl := mem_singleton.mp hp
      exact ⟨hq, hfile⟩
    · exact absurd hp not_mem_nil
  · rintro ⟨hp, hfile⟩
    exact ⟨p, hp, by simp [fileIfAny, hfile]⟩

/-- The names the inventory looks for are neither the review directory nor metadata. -/
theorem known_or {name : String} : knownTopLevel name = false ∨
    name ∈ authoritativeAssets ++ optionalAssets ↔ name ≠ reviewDir ∧ name ∉ storeMetadata := by
  have hapart : ∀ name ∈ authoritativeAssets ++ optionalAssets,
      name ≠ reviewDir ∧ name ∉ storeMetadata := by decide
  constructor
  · rintro (h | h)
    · simp only [knownTopLevel, Bool.or_eq_false_iff, contains_eq_mem, decide_eq_false_iff_not,
        beq_eq_false_iff_ne] at h
      exact ⟨h.1.2, h.2⟩
    · exact hapart name h
  · rintro ⟨hreview, hstore⟩
    by_cases hmem : name ∈ authoritativeAssets ++ optionalAssets
    · exact .inr hmem
    · rw [mem_append, not_or] at hmem
      exact .inl (by simp [knownTopLevel, hmem, hreview, hstore])

theorem mapM_files {α : Type} {f : α → Except Step AssetEntry} {g : α → List Path} {xs : List α}
    (hf : ∀ x asset, f x = .ok asset → filesOf tree asset = g x) (h : xs.mapM f = .ok assets) :
    assets.flatMap (filesOf tree) = xs.flatMap g :=
  flatMap_of_forall₂ ((mapM_eq_ok h).imp fun x asset => hf x asset)

theorem mem_knownAssets (h : knownAssets env tree = .ok assets) :
    p ∈ assets.flatMap (filesOf tree) ↔
      (∃ name ∈ authoritativeAssets ++ optionalAssets, p = [name]) ∧ isFileAt tree p = true := by
  rw [mapM_files (fun _ _ => fileAsset_eq_ok) h, mem_flatMap_fileIfAny, mem_filter,
    mem_map]
  constructor
  · rintro ⟨⟨⟨name, hname, rfl⟩, -⟩, hfile⟩
    exact ⟨⟨name, hname, rfl⟩, hfile⟩
  · rintro ⟨⟨name, hname, rfl⟩, hfile⟩
    refine ⟨⟨⟨name, hname, rfl⟩, ?_⟩, hfile⟩
    obtain ⟨content, hcontent⟩ := isFileAt_iff.mp hfile
    simp [isLink, hcontent]

theorem mem_reviewAssets (h : reviewAssets env tree = .ok assets) :
    p ∈ assets.flatMap (filesOf tree) ↔ p ∈ walkFiles tree [reviewDir] := by
  rw [reviewAssets] at h
  split_ifs at h with hdir
  · rw [mapM_files (fun _ _ => fileAsset_eq_ok) h, mem_flatMap_fileIfAny]
    exact and_iff_left_of_imp fun hmem => (mem_walkFiles.mp hmem).2.2.1
  · rw [← Except.ok.inj h]
    refine iff_of_false (by simp) fun hmem => ?_
    have hreach := (mem_walkFiles.mp hmem).2.2.2
    obtain ⟨hpre, hne, -⟩ := mem_walkFiles.mp hmem
    have := hreach _ (prefix_refl _) hpre hne
    rw [isDir, this] at hdir
    exact hdir rfl

theorem mem_attachments {top : List Path} (htop : listRoot env tree = .ok top)
    {attachments : List (List AssetEntry)}
    (h : (top.filter fun path => !knownTopLevel (path.headD "")).mapM (opaqueAsset env tree) =
      .ok attachments) : p ∈ attachments.flatten.flatMap (filesOf tree) ↔
      ∃ name, knownTopLevel name = false ∧ p ∈ filesBelow tree [name] := by
  have hfiles : attachments.flatten.flatMap (filesOf tree) =
      (top.filter fun path => !knownTopLevel (path.headD "")).flatMap (filesBelow tree) := by
    rw [← flatMap_id, flatMap_assoc]
    exact flatMap_of_forall₂ ((mapM_eq_ok h).imp fun _ _ => opaqueAsset_eq_ok)
  have hmemTop : ∀ q, q ∈ top ↔ (∃ name, q = [name]) ∧ tree.contents q ≠ none := by
    intro q
    rw [listRoot] at htop
    split_ifs at htop
    obtain ⟨-, -, htop⟩ := bind_eq_ok htop
    rw [← Except.ok.inj htop, mem_filter, mem_childrenOf, Option.isSome_iff_ne_none]
    constructor
    · rintro ⟨⟨-, hname⟩, hsome⟩
      exact ⟨hname, hsome⟩
    · rintro ⟨hname, hsome⟩
      exact ⟨⟨tree.listed q hsome, hname⟩, hsome⟩
  rw [hfiles, mem_flatMap]
  constructor
  · rintro ⟨q, hq, hp⟩
    rw [mem_filter, hmemTop] at hq
    obtain ⟨⟨⟨name, rfl⟩, -⟩, hknown⟩ := hq
    exact ⟨name, by simpa using hknown, hp⟩
  · rintro ⟨name, hknown, hp⟩
    refine ⟨[name], mem_filter.mpr ⟨(hmemTop _).mpr ⟨⟨name, rfl⟩, fun hnone => ?_⟩, ?_⟩, hp⟩
    · simp [filesBelow, fileIfAny, isFileAt, hnone] at hp
    · simpa using hknown

theorem mem_filesBelow {name : String} : p ∈ filesBelow tree [name] ↔
    (p = [name] ∧ isFileAt tree p = true) ∨ p ∈ walkFiles tree [name] := by
  have hsingle : p ∈ fileIfAny tree [name] ↔ p = [name] ∧ isFileAt tree p = true := by
    rw [fileIfAny]
    split_ifs with hfile
    · rw [mem_singleton]
      exact ⟨fun h => ⟨h, h ▸ hfile⟩, And.left⟩
    · refine iff_of_false not_mem_nil ?_
      rintro ⟨rfl, h⟩
      exact hfile h
  have hwalked : p ∈ walkFiles tree [name] → tree.contents [name] = some (.dir true) := fun hmem =>
    (mem_walkFiles.mp hmem).2.2.2 _ (prefix_refl _) (mem_walkFiles.mp hmem).1
      (mem_walkFiles.mp hmem).2.1
  rw [filesBelow]
  split
  next readable hdir =>
    refine ⟨.inr, fun h => h.resolve_left ?_⟩
    rintro ⟨rfl, hfile⟩
    obtain ⟨content, hcontent⟩ := isFileAt_iff.mp hfile
    rw [hdir] at hcontent
    cases hcontent
  next hnot =>
    rw [hsingle]
    exact ⟨.inl, fun h => h.resolve_right fun hmem => hnot _ (hwalked hmem)⟩

/-- The inventory lists the files that are carried, and no other. -/
theorem mem_inventory (h : inventoryAssets env tree = .ok assets) (p : Path) :
    p ∈ assets.flatMap (filesOf tree) ↔ Carried tree p := by
  obtain ⟨known, hknown, h⟩ := bind_eq_ok h
  obtain ⟨review, hreview, h⟩ := bind_eq_ok h
  obtain ⟨top, htop, h⟩ := bind_eq_ok h
  obtain ⟨attachments, hattachments, h⟩ := bind_eq_ok h
  rw [← Except.ok.inj h, flatMap_append, flatMap_append, mem_append,
    mem_append, mem_knownAssets hknown, mem_reviewAssets hreview,
    mem_attachments htop hattachments]
  simp only [mem_filesBelow, mem_walkFiles, Carried, ← isFileAt_iff]
  match p with
  | [] => simp
  | [name] =>
    have hshort : ∀ other : String, ¬ ([other] <+: [name] ∧ [other] ≠ [name]) := by
      rintro other ⟨hpre, hne⟩
      exact hne (hpre.eq_of_length rfl)
    constructor
    · rintro ((⟨⟨other, hother, heq⟩, hfile⟩ | hwalk) | ⟨other, hother, ⟨heq, hfile⟩ | hwalk⟩)
      · obtain rfl := (List.cons.inj heq).1
        exact ⟨hfile, known_or.mp (.inr hother)⟩
      · exact absurd ⟨hwalk.1, hwalk.2.1⟩ (hshort _)
      · obtain rfl := (List.cons.inj heq).1
        exact ⟨hfile, known_or.mp (.inl hother)⟩
      · exact absurd ⟨hwalk.1, hwalk.2.1⟩ (hshort _)
    · rintro ⟨hfile, hname⟩
      rcases known_or.mpr hname with hopaque | hknown
      · exact .inr ⟨name, hopaque, .inl ⟨rfl, hfile⟩⟩
      · exact .inl (.inl ⟨⟨name, hknown, rfl⟩, hfile⟩)
  | name :: next :: rest =>
    have hlong : ∀ other : String, [other] <+: name :: next :: rest ↔ other = name := by
      intro other
      simp [cons_prefix_cons]
    constructor
    · rintro ((⟨⟨other, hother, heq⟩, -⟩ | hwalk) | ⟨other, hother, ⟨heq, -⟩ | hwalk⟩)
      · simp at heq
      · obtain rfl := (hlong _).mp hwalk.1
        exact ⟨hwalk.2.2.1, .inl rfl, hwalk.2.2.2⟩
      · simp at heq
      · obtain rfl := (hlong _).mp hwalk.1
        exact ⟨hwalk.2.2.1, .inr hother, hwalk.2.2.2⟩
    · rintro ⟨hfile, rfl | hopaque, hreach⟩
      · exact .inl (.inr ⟨(hlong _).mpr rfl, by simp, hfile, hreach⟩)
      · exact .inr ⟨name, hopaque, .inr ⟨(hlong _).mpr rfl, by simp, hfile, hreach⟩⟩

end Inventory

/-! ## Staging and publishing -/

section Publish

variable {env : Env} {tree : Tree} {changes : List Asset} {staging : Files}

/-- What the staging directory holds before the renames. -/
theorem stage_eq_ok (h : stage env tree changes = .ok staging) :
    (∀ p, (Named changes p → leafAt staging p = requested env changes none p) ∧
      (¬ Named changes p → (Carried tree p → leafAt staging p = leafAt tree.contents p) ∧
        (¬ Carried tree p → leafAt staging p = none))) ∧
      ∀ p, isDir tree.contents p = false → isDir staging p = leavesDir changes false p := by
  obtain ⟨-, -, h⟩ := bind_eq_ok h
  obtain ⟨-, -, h⟩ := bind_eq_ok h
  obtain ⟨copied, hcopied, h⟩ := bind_eq_ok h
  obtain ⟨assets, hassets, hcopies⟩ := copyWorkdir_eq_ok hcopied
  obtain ⟨-, hleaf⟩ := applyFrom_eq_ok hcopies.staged h
  refine ⟨fun p => ⟨fun hnamed => ?_, fun hnamed => ⟨fun hcarried => ?_, fun hcarried => ?_⟩⟩,
    fun p hdir => ?_⟩
  · rw [hleaf, requested_of_named hnamed _ none]
  · rw [hleaf, requested_of_not_named hnamed, hcopies.leaves,
      if_pos ((mem_inventory hassets p).mpr hcarried)]
  · rw [hleaf, requested_of_not_named hnamed, hcopies.leaves,
      if_neg fun hmem => hcarried ((mem_inventory hassets p).mp hmem)]
  · have hold : isDir copied p = false := by
      rw [← Bool.not_eq_true] at hdir ⊢
      exact fun hcopy => hdir (hcopies.dirs p hcopy)
    rw [isDir_applyFrom h, hold]

/-- Where every other file is carried, a path holds what the ChangeSet makes of it. -/
theorem leafAt_stage (h : stage env tree changes = .ok staging)
    (hcarried : ∀ p leaf, ¬ Named changes p → leafAt tree.contents p = some leaf → Carried tree p)
    (p : Path) : leafAt staging p = requested env changes (leafAt tree.contents p) p := by
  obtain ⟨hleaf, -⟩ := stage_eq_ok h
  by_cases hnamed : Named changes p
  · rw [(hleaf p).1 hnamed, requested_of_named hnamed none]
  · rw [requested_of_not_named hnamed]
    by_cases hhere : Carried tree p
    · exact ((hleaf p).2 hnamed).1 hhere
    · rw [((hleaf p).2 hnamed).2 hhere]
      cases hold : leafAt tree.contents p with
      | none => rfl
      | some leaf => exact absurd (hcarried p leaf hnamed hold) hhere

/-- The copy of `workspace.json` touches no other path. -/
theorem leafAt_keepIdentity_of_ne (hp : p ≠ identityFile) :
    leafAt (keepIdentity env tree staging) p = leafAt staging p := by
  rw [keepIdentity]
  split
  · rfl
  · split_ifs
    · rfl
    · split
      · rw [leafAt, put, if_neg hp, leafAt]
      · rfl
      · rw [leafAt, put, if_neg hp, leafAt]

/-- What the copy leaves is staged, or a file. -/
theorem leafAt_keepIdentity : leafAt (keepIdentity env tree staging) identityFile =
      leafAt staging identityFile ∨
    ∃ content, leafAt (keepIdentity env tree staging) identityFile = some (.file content) := by
  rw [keepIdentity]
  split
  · exact .inl rfl
  next content _ =>
    split_ifs
    · exact .inl rfl
    · split
      · exact .inr ⟨content, by rw [leafAt, put, if_pos rfl]⟩
      · exact .inl rfl
      next left _ => exact .inr ⟨left, by rw [leafAt, put, if_pos rfl]⟩

theorem isDir_of_identityContent {content : Bytes} (h : identityContent tree = some content) :
    isDir tree.contents identityFile = false := by
  rw [identityContent] at h
  rw [isDir]
  split at h <;> simp_all

/-- The copy of `workspace.json` does no harm iff it leaves there what is staged. -/
theorem identityHarmless_iff (h : stage env tree changes = .ok staging)
    (hcarried : ∀ p leaf, ¬ Named changes p → leafAt tree.contents p = some leaf →
      Carried tree p) :
    IdentityHarmless env tree changes ↔
      leafAt (keepIdentity env tree staging) identityFile = leafAt staging identityFile := by
  have hput : ∀ bytes, leafAt (put staging identityFile (.leaf (.file bytes))) identityFile =
      some (.file bytes) := fun bytes => by rw [leafAt, put, if_pos rfl]
  rw [IdentityHarmless, ← leafAt_stage h hcarried identityFile, keepIdentity]
  cases hcontent : identityContent tree with
  | none => simp
  | some content =>
    rw [← (stage_eq_ok h).2 identityFile (isDir_of_identityContent hcontent)]
    cases hdir : isDir staging identityFile with
    | true => simp
    | false => cases env.identity <;> simp [hput, eq_comm]

/-- A workdir that is published keeps the promise iff every other file is carried and the copy of
`workspace.json` does no harm. -/
theorem committed_iff (h : stage env tree changes = .ok staging) :
    Committed env tree changes (keepIdentity env tree staging) ↔
      (∀ p leaf, ¬ Named changes p → leafAt tree.contents p = some leaf → Carried tree p) ∧
        IdentityHarmless env tree changes := by
  obtain ⟨hstaged, -⟩ := stage_eq_ok h
  constructor
  · intro hcommitted
    have hcarried : ∀ p leaf, ¬ Named changes p → leafAt tree.contents p = some leaf →
        Carried tree p := by
      intro p leaf hnamed hleaf
      by_contra hnot
      have hafter := hcommitted.others p leaf hnamed hleaf
      have hnone := ((hstaged p).2 hnamed).2 hnot
      by_cases hp : p = identityFile
      · subst hp
        -- a `workspace.json` that is not carried is no file, but the copy of one is
        rcases @leafAt_keepIdentity env tree staging with hsame | ⟨content, hfile⟩
        · rw [hafter, hnone] at hsame
          cases hsame
        · obtain rfl := Option.some.inj (hafter.symm.trans hfile)
          exact hnot ⟨⟨content, leafAt_eq_some_iff.mp hleaf⟩, by decide, by decide⟩
      · rw [leafAt_keepIdentity_of_ne hp, hnone] at hafter
        cases hafter
    refine ⟨hcarried, (identityHarmless_iff h hcarried).mpr ?_⟩
    by_cases hnamed : Named changes identityFile
    · rw [hcommitted.named _ hnamed, (hstaged _).1 hnamed]
    · cases hleaf : leafAt tree.contents identityFile with
      | none => rw [keepIdentity_of_leafAt hleaf]
      | some leaf =>
        rw [hcommitted.others _ leaf hnamed hleaf,
          ((hstaged _).2 hnamed).1 (hcarried _ leaf hnamed hleaf), hleaf]
  · rintro ⟨hcarried, hharmless⟩
    have hsame : ∀ p, leafAt (keepIdentity env tree staging) p = leafAt staging p := by
      intro p
      by_cases hp : p = identityFile
      · rw [hp, (identityHarmless_iff h hcarried).mp hharmless]
      · exact leafAt_keepIdentity_of_ne hp
    constructor
    · intro p hnamed
      rw [hsame, (hstaged p).1 hnamed]
    · intro p leaf hnamed hleaf
      rw [hsame, ((hstaged p).2 hnamed).1 (hcarried p leaf hnamed hleaf), hleaf]
where
  /-- Where there is nothing to copy back, nothing is. -/
  keepIdentity_of_leafAt (hnone : leafAt tree.contents identityFile = none) :
      keepIdentity env tree staging = staging := by
    have hcontent : identityContent tree = none := by
      rw [leafAt] at hnone
      rw [identityContent]
      split at hnone
      · cases hnone
      next hleaf =>
        split
        next content hcontent => exact absurd hcontent (hleaf _)
        next target htarget => exact absurd htarget (hleaf _)
        next => rfl
    rw [keepIdentity, hcontent]

end Publish

/-- A file system on which nothing fails. -/
def calm : Env where
  fails _ := false
  rename _ _ := .renamed
  identity := .whole
  source _ := none

/-- A workdir with a history and a draft. -/
def storeTree : Tree where
  contents path :=
    if path = [] ∨ path = [".docx2typed-store"] then some (.dir true)
    else if path = [".docx2typed-store", "operation-ledger.json"] then
      some (.leaf (.file (bytes "{}")))
    else if path = ["edit.md"] then some (.leaf (.file (bytes "draft")))
    else none
  paths := [[], [".docx2typed-store"], [".docx2typed-store", "operation-ledger.json"], ["edit.md"]]
  listed path h := by
    split_ifs at h with hdir hledger hdraft
    · rcases hdir with rfl | rfl <;> decide
    · rw [hledger]
      decide
    · rw [hdraft]
      decide
    · exact absurd rfl h
  closed path name h := by
    have hpath : path = [] ∨ path = [".docx2typed-store"] := by
      dsimp only at h
      split_ifs at h with hdir hledger hdraft
      · rcases hdir with hdir | hdir
        · simp at hdir
        · exact .inl (List.append_eq_singleton_iff.mp hdir |>.resolve_right (by simp)).1
      · have := congrArg List.dropLast hledger
        rw [List.dropLast_concat] at this
        exact .inr this
      · have := congrArg List.dropLast hdraft
        rw [List.dropLast_concat] at this
        exact .inl this
      · exact absurd rfl h
    rw [isDir, if_pos hpath]
  root := rfl

end Docx2Typed.Workdir
