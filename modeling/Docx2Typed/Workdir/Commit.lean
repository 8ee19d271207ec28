import Docx2Typed.Basic
import Docx2Typed.Library.PathTree

/-!
# Committing into a workdir

`commit_workdir` puts a ChangeSet into a workdir that exists: what the asset inventory lists is
copied to a staging directory, the ChangeSet is applied there, and the staging directory is renamed
over the workdir.  What becomes of each operation is given by `Env`.

A path is the list of its names.  An asset is named by the path below the workdir; the order in
which a directory is listed, modification times and the temporary directories are left out.
-/

namespace Docx2Typed.Workdir

open Library.PathTree

abbrev Path := List String

/-- What stands at a path and is no directory; `target` is what reading through a link gives. -/
inductive Leaf where
  | file (content : Bytes)
  | link (target : Option Bytes)
  | special
  deriving DecidableEq

def Leaf.isFile : Leaf → Bool
  | .file _ => true
  | _ => false

/-- A workdir that exists: `paths` lists all its paths. -/
structure Tree where
  contents : Contents String Leaf
  paths : List Path
  listed : ∀ p, contents p ≠ none → p ∈ paths
  closed : Closed contents
  root : isDir contents [] = true

/-! ## The inventory -/

def authoritativeAssets : List String :=
  ["typed.md", "format.json", "styles.json", "_template.docx"]

def optionalAssets : List String :=
  ["edit.md", "edit.state.json", "edit.state.json.run.json", "revisions.json", "revisions.md",
    "regions.md", "decisions.json", "run.evidence.json", "operation-ledger.json",
    "workdir.manifest.json"]

def reviewDir : String := ".review"

def storeMetadata : List String := [".docx2typed-store", "workdir.json"]

def knownTopLevel (name : String) : Bool :=
  authoritativeAssets.contains name || optionalAssets.contains name || name == reviewDir ||
    storeMetadata.contains name

/-- The operations of a commit that can fail before anything is published. -/
inductive Step where
  | createParent
  | createStaging
  | readRoot
  | hash (path : Path)
  | copy (path : Path)
  | change (index : ℕ)
  deriving DecidableEq

inductive Move where
  | aside
  | publish
  | restore
  deriving DecidableEq

/-- How one attempt to rename ends. -/
inductive Attempt where
  | renamed
  | transient
  | refused
  deriving DecidableEq

/-- How the copy of `workspace.json` ends, whose result is ignored: a torn copy leaves bytes. -/
inductive Copied where
  | whole
  | untouched
  | torn (left : Bytes)
  deriving DecidableEq

/-- What the file system does. -/
structure Env where
  fails : Step → Bool
  rename : Move → ℕ → Attempt
  identity : Copied
  /-- What a source outside the workdir holds. -/
  source : String → Option Bytes

/-- A row of the inventory, as far as a copy reads it. -/
structure AssetEntry where
  path : Path
  folder : Bool
  present : Bool
  deriving DecidableEq

section Inventory

variable (env : Env) (tree : Tree)

def attempt (step : Step) : Except Step Unit :=
  if env.fails step then .error step else .ok ()

/-- `walk_files`: every regular file under a directory. -/
def walkFiles (top : Path) : List Path :=
  walk Leaf.isFile tree.contents tree.paths (tree.paths.map List.length).sum top

def isLink (path : Path) : Bool :=
  match tree.contents path with
  | some (.leaf (.link _)) => true
  | _ => false

def fileAsset (path : Path) : Except Step AssetEntry :=
  match tree.contents path with
  | some (.leaf (.file _)) => do
    attempt env (.hash path)
    pure ⟨path, false, true⟩
  | _ => pure ⟨path, false, false⟩

/-- An entry of the root that is none of the known names. -/
def opaqueAsset (path : Path) : Except Step (List AssetEntry) :=
  match tree.contents path with
  | some (.dir _) => do
    (walkFiles tree path).forM fun file => attempt env (.hash file)
    pure [⟨path, true, true⟩]
  | some (.leaf (.file _)) => do
    pure [← fileAsset env tree path]
  | _ => pure []

def knownAssets : Except Step (List AssetEntry) :=
  (((authoritativeAssets ++ optionalAssets).map fun name => [name]).filter
    fun path => !isLink tree path).mapM (fileAsset env tree)

def reviewAssets : Except Step (List AssetEntry) :=
  if isDir tree.contents [reviewDir] then
    (walkFiles tree [reviewDir]).mapM (fileAsset env tree)
  else pure []

def listRoot : Except Step (List Path) :=
  if tree.contents [] = some (.dir true) then do
    attempt env .readRoot
    pure ((childrenOf tree.paths []).filter fun path => (tree.contents path).isSome)
  else .error .readRoot

def inventoryAssets : Except Step (List AssetEntry) := do
  let known ← knownAssets env tree
  let review ← reviewAssets env tree
  let top ← listRoot env tree
  let attachments ← (top.filter fun path => !knownTopLevel (path.headD "")).mapM
    (opaqueAsset env tree)
  pure (known ++ review ++ attachments.flatten)

end Inventory

/-! ## Staging -/

/-- The names of an asset below the workdir. -/
structure AssetPath where
  names : Path
  nonempty : names ≠ []
  deriving DecidableEq

inductive Asset where
  | bytes (path : AssetPath) (content : Bytes)
  | copySource (path : AssetPath) (source : String)
  | remove (path : AssetPath)
  deriving DecidableEq

/-- `asset_path`. -/
def Asset.path : Asset → Path
  | .bytes path _ => path.names
  | .copySource path _ => path.names
  | .remove path => path.names

section Staging

variable (env : Env) (tree : Tree)

abbrev Files := Contents String Leaf

/-- A result, or the failure of a step. -/
def orFail (step : Step) : Option Files → Except Step Files
  | some files => .ok files
  | none => .error step

/-- A directory that was just made. -/
def emptyDir : Files := fun path => if path = [] then some (.dir true) else none

def copyFile (staging : Files) (path : Path) : Except Step Files := do
  attempt env (.copy path)
  match tree.contents path with
  | some (.leaf (.file content)) =>
    orFail (.copy path) (writeFile staging path (.file content))
  | _ => .error (.copy path)

/-- One asset of `copy_workdir`; a directory asset is copied by `copy_dir_preserving_mtimes`. -/
def copyAsset (staging : Files) (asset : AssetEntry) : Except Step Files := do
  if !asset.present then pure staging
  else if asset.folder then
    let staging ← orFail (.copy asset.path) (makeDirs staging asset.path)
    (walkFiles tree asset.path).foldlM (copyFile env tree) staging
  else copyFile env tree staging asset.path

def copyWorkdir : Except Step Files := do
  let assets ← inventoryAssets env tree
  assets.foldlM (copyAsset env tree) emptyDir

/-- One asset of `apply_change_set`. -/
def applyAsset (staging : Files) (index : ℕ) (asset : Asset) : Except Step Files := do
  attempt env (.change index)
  match asset with
  | .bytes path content => orFail (.change index) (writeFile staging path.names (.file content))
  | .copySource path source =>
    match env.source source with
    | some content => orFail (.change index) (writeFile staging path.names (.file content))
    | none => .error (.change index)
  | .remove path =>
    -- a path below a file is not a missing one
    if path.names.dropLast.inits.any fun above => (leafAt staging above).isSome then
      .error (.change index)
    else pure (removeBelow staging path.names)

def applyFrom (index : ℕ) (staging : Files) : List Asset → Except Step Files
  | [] => .ok staging
  | asset :: changes => do
    applyFrom (index + 1) (← applyAsset env staging index asset) changes

/-- Everything before the renames: the staging directory, seeded and changed. -/
def stage (changes : List Asset) : Except Step Files := do
  attempt env .createParent
  attempt env .createStaging
  let staging ← copyWorkdir env tree
  applyFrom env 0 staging changes

end Staging

/-! ## Publishing -/

def identityFile : Path := ["workspace.json"]

/-- What reading `workspace.json` of the workdir gives, if it is a file or a link to one. -/
def identityContent (tree : Tree) : Option Bytes :=
  match tree.contents identityFile with
  | some (.leaf (.file content)) => some content
  | some (.leaf (.link target)) => target
  | _ => none

/-- `workspace.json` is copied back over the staged one; a failure is ignored. -/
def keepIdentity (env : Env) (tree : Tree) (staging : Files) : Files :=
  match identityContent tree with
  | none => staging
  | some content =>
    if isDir staging identityFile then staging
    else
      match env.identity with
      | .whole => put staging identityFile (.leaf (.file content))
      | .untouched => staging
      | .torn left => put staging identityFile (.leaf (.file left))

/-- The attempts from the `k`-th on, of which `left` are left. -/
def renameFrom (attempts : ℕ → Attempt) : ℕ → ℕ → Bool
  | 0, _ => false
  | left + 1, k =>
    match attempts k with
    | .renamed => true
    | .transient => renameFrom attempts left (k + 1)
    | .refused => false

def renameWithRetry (env : Env) (move : Move) : Bool := renameFrom (env.rename move) 10 0

inductive CommitError where
  | step (step : Step)
  | move (move : Move)
  deriving DecidableEq

/-- What a commit returns, and what then stands at the path of the workdir. -/
structure Outcome where
  result : Except CommitError Unit
  workdir : Option Files

def commitWorkdir (env : Env) (tree : Tree) (changes : List Asset) : Outcome :=
  match stage env tree changes with
  | .error step => ⟨.error (.step step), some tree.contents⟩
  | .ok staging =>
    if !renameWithRetry env .aside then ⟨.error (.move .aside), some tree.contents⟩
    else if renameWithRetry env .publish then ⟨.ok (), some (keepIdentity env tree staging)⟩
    else if renameWithRetry env .restore then ⟨.error (.move .publish), some tree.contents⟩
    else ⟨.error (.move .publish), none⟩

end Docx2Typed.Workdir
