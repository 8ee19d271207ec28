import Docx2Typed.Library.Interrupt
import Docx2Typed.Store.Journal
import Mathlib.Data.List.AList
import Mathlib.Data.List.Sort

/-!
# What the store keeps on disk

The workdir root with the pointer `workdir.json`; the generations, each a directory of its own;
the transaction directories with their journals; the staging directories; the pool of objects; and
outside of the workdir the files that builds publish, with the registry of what is expected of
them.

A file is what it holds: a text, the rows of an operation ledger, or the manifest of a generation.
Its hash is `fileSha256`, one of the digests that are parameters here.  Files are replaced by a
rename, so writing one is one step; so is copying or removing a directory.  The recovery reserve
is not modelled.
-/

namespace Docx2Typed.Store

open Library (Program)

/-- Entries under names. -/
abbrev Table (β : Type) := AList fun _ : String => β

/-- The names in a table, in order. -/
def Table.names {β : Type} (table : Table β) : List String := table.keys.insertionSort (· ≤ ·)

/-! ## Files -/

/-- A row of an operation ledger; `pending` may be of another JSON type than a boolean. -/
structure LedgerRecord where
  inputSha256 : Option String
  pending : Option (Option Bool) := none
  envelope : Option Envelope
  deriving DecidableEq, Repr

/-- `generation.json`. -/
structure Manifest where
  generation : String
  parent : Option String
  operationId : String
  inputSha256 : String
  assets : List (String × String)
  assetsSha256 : String
  deriving DecidableEq, Repr

inductive Content where
  | text (text : String)
  | ledger (rows : List (String × LedgerRecord))
  | manifest (manifest : Manifest)
  deriving DecidableEq, Repr

/-- The files of a directory. -/
abbrev Files := Table Content

inductive Location where
  | generation (generation : String) (name : String)
  | root (name : String)
  | outside (path : TargetPath)
  deriving DecidableEq, Repr

/-! ## The pointer and the objects -/

/-- `VERSION_POINTER_FIELDS`: what the pointer says of HEAD. -/
structure Head where
  headVersion : Option String := none
  headVersionGeneration : Option String := none
  headTree : Option String := none
  headTreeObject : Option String := none
  headCommit : Option String := none
  baselineEpoch : Option Int := none
  versionSeq : Option Int := none
  deriving DecidableEq, Repr

structure Pointer where
  generation : String
  operationId : Option String
  manifestSha256 : Option String
  head : Head
  deriving DecidableEq, Repr

/-- A tree object: the blob of each asset. -/
structure Tree where
  digest : Option String
  parts : List (String × String)
  deriving DecidableEq, Repr

/-- A commit object. -/
structure Commit where
  version : String
  seq : Int
  parentVersion : Option String
  parentGeneration : Option String
  parentCommit : Option String
  headTree : String
  treeObject : String
  baselineEpoch : Int
  origin : String
  label : Option String
  pin : Bool
  restoredFrom : Option String
  createdAt : String
  deriving DecidableEq, Repr

/-- `ExternalExpectation`. -/
structure ExternalExpectation where
  expectedSha256 : Option String
  epoch : Nat
  observedAbsent : Bool
  deriving DecidableEq, Repr

/-- The disk as the store sees it.  `pointer` is `none` where `workdir.json` is missing or cannot
be read; `registry` says the same of a path that it has no entry for. -/
structure Disk where
  pointer : Option Pointer
  root : Files
  generations : Table Files
  transactions : Table Journal
  staging : Table Files
  outside : TargetPath → Option Content
  registry : TargetPath → Option ExternalExpectation
  epoch : Nat
  blobs : Table Content
  trees : Table Tree
  commits : Table Commit

/-- The hashes: SHA-256 over the bytes of a file, or over the canonical JSON of a value. -/
structure Digests where
  semanticSha256 : Body → String
  fileSha256 : Content → String
  pointerSha256 : Pointer → String
  assetsSha256 : List (String × String) → String
  treeDigest : List (String × Option String) → String
  evidenceSha256 : String → String
  envelopeSha256 : Envelope → String
  blobId : Content → String
  treeId : Tree → String
  commitId : Commit → String

namespace Disk

def readFile (disk : Disk) : Location → Option Content
  | .generation generation name => (disk.generations.lookup generation).bind (·.lookup name)
  | .root name => disk.root.lookup name
  | .outside path => disk.outside path

def writeFile (location : Location) (content : Content) (disk : Disk) : Disk :=
  match location with
  | .generation generation name =>
    let files := (disk.generations.lookup generation).getD ∅
    { disk with generations := disk.generations.insert generation (files.insert name content) }
  | .root name => { disk with root := disk.root.insert name content }
  | .outside path =>
    { disk with outside := Function.update disk.outside path (some content) }

def removeGeneration (generation : String) (disk : Disk) : Disk :=
  { disk with generations := disk.generations.erase generation }

def removeTransaction (operationId : String) (disk : Disk) : Disk :=
  { disk with transactions := disk.transactions.erase operationId }

def removeStaging (operationId : String) (disk : Disk) : Disk :=
  { disk with staging := disk.staging.erase operationId }

def setPointer (pointer : Pointer) (disk : Disk) : Disk := { disk with pointer := some pointer }

/-- The journal of a transaction; a directory that is not there reads as an empty one. -/
def journal (operationId : String) (disk : Disk) : Journal :=
  (disk.transactions.lookup operationId).getD Journal.empty

/-- `write_journal_record`. -/
def writeRecord (operationId : String) (phase : Phase) (record : Record) (disk : Disk) : Disk :=
  let journal := (disk.journal operationId).write phase record
  { disk with transactions := disk.transactions.insert operationId journal }

def setRegistry (registry : TargetPath → Option ExternalExpectation) (disk : Disk) : Disk :=
  { disk with registry }

end Disk

/-- An I/O error. -/
def ioError : StoreError := .io "i/o error"

/-! ## The operation ledger -/

def resultSchema : String := "docx2typed-result-1"

/-- `result_envelope_ok`. -/
def resultEnvelopeOk (envelope : Envelope) : Bool :=
  decide (envelope.schema = resultSchema) && decide (envelope.operation ≠ "") &&
    decide (envelope.outcome ∈ ["success", "failure", "partial"]) && envelope.shaped

/-- `ledger_record_ok`. -/
def ledgerRecordOk (record : LedgerRecord) : Bool :=
  record.inputSha256.any (· ≠ "") &&
    record.pending.all Option.isSome &&
      match record.envelope with
      | none => decide (record.pending = some (some true))
      | some envelope => resultEnvelopeOk envelope

def operationLedger : String := "operation-ledger.json"

/-- `ledger_path`; a generation and the root are directories. -/
def ledgerLocation (anchor : Place) (directory : Bool) : Location :=
  match anchor with
  | .generation generation => .generation generation operationLedger
  | .root => .root operationLedger
  | .outside path =>
    if directory then
      .outside { folder := path.folder ++ "/" ++ path.fileName, fileName := operationLedger }
    else .outside { path with fileName := path.fileName ++ "." ++ operationLedger }

/-- The rows of a ledger file; one that cannot be read has none. -/
def ledgerRows (content : Option Content) : List (String × LedgerRecord) :=
  match content with
  | some (.ledger rows) => rows
  | _ => []

/-- `lookup_persisted`: the row of an operation, if it is valid. -/
def lookupPersisted (disk : Disk) (operationId : String) (location : Location) :
    Option LedgerRecord :=
  ((ledgerRows (disk.readFile location)).lookup operationId).filter ledgerRecordOk

/-- `corrupt_persisted`. -/
def corruptPersisted (disk : Disk) (operationId : String) (location : Location) : Bool :=
  ((ledgerRows (disk.readFile location)).lookup operationId).any (!ledgerRecordOk ·)

/-- The ledger with the row of an operation written. -/
def setRow (operationId : String) (record : LedgerRecord) (rows : List (String × LedgerRecord)) :
    List (String × LedgerRecord) :=
  (operationId, record) :: rows.filter (·.1 ≠ operationId)

/-- `write_ledger_at`. -/
def writeLedgerAt (envelope : Envelope) (canonical : String) (anchor : Place) (directory : Bool)
    (disk : Disk) : Disk :=
  let location := ledgerLocation anchor directory
  let operationId := envelope.operationId.getD envelope.operation
  disk.writeFile location (.ledger (setRow operationId
    { inputSha256 := some canonical, envelope := some envelope }
    (ledgerRows (disk.readFile location))))

/-- The search of `lookup_ledger` through the generations that are left. -/
def lookupGenerations (disk : Disk) (operationId : String) :
    List String → Option LedgerRecord × Option Location
  | [] => (none, none)
  | generation :: generations =>
    let location := ledgerLocation (.generation generation) true
    match lookupPersisted disk operationId location with
    | some record => (some record, none)
    | none =>
      if corruptPersisted disk operationId location then (none, some location)
      else lookupGenerations disk operationId generations

/-- `lookup_ledger`: the row of an operation, or where a damaged one stands. -/
def lookupLedger (disk : Disk) (operationId : String) (generation : Bool) (anchor : Option Place)
    (directory : Bool) : Option LedgerRecord × Option Location :=
  if generation then lookupGenerations disk operationId disk.generations.names.reverse
  else
    let location := ledgerLocation (anchor.getD .root) directory
    match lookupPersisted disk operationId location with
    | some record => (some record, none)
    | none =>
      (none, if corruptPersisted disk operationId location then some location else none)

/-! ## Generations -/

def generationJson : String := "generation.json"

/-- `generation_manifest`. -/
def generationManifest (digests : Digests) (files : Files) (generation : String)
    (parent : Option String) (operationId inputSha256 : String) : Manifest :=
  let assets := (Table.names files).filterMap fun name =>
    if name = generationJson then none
    else (files.lookup name).map fun content => (name, digests.fileSha256 content)
  { generation, parent, operationId, inputSha256, assets,
    assetsSha256 := digests.assetsSha256 assets }

/-- The `assets_sha256` of a generation directory, as `abort` reads it. -/
def recordedAssetsSha256 (disk : Disk) (generation : String) : String :=
  match disk.readFile (.generation generation generationJson) with
  | some (.manifest manifest) => manifest.assetsSha256
  | _ => ""

/-- `INGRESS_FILES`. -/
def ingressFiles : List String := ["typed.md", "edit.md"]

/-- `OPTIONAL_ROOT_SIDECARS`. -/
def optionalRootSidecars : List String := ["islands.json", "structure.json"]

/-- `overlay_ingress`: the draft files of the root over those of a generation. -/
def overlayIngress (root files : Files) : Files :=
  ingressFiles.foldl (fun files name =>
    match root.lookup name with
    | some content => files.insert name content
    | none => files) files

/-- `materialize_root`: each file of the generation in turn, then the sidecars it lacks. -/
def materializeRoot (files : Files) : Program Disk StoreError Unit :=
  Program.andThen
    (Program.each (fun name =>
      if name = generationJson then Program.give ()
      else
        match files.lookup name with
        | some content => Program.act ioError (Disk.writeFile (.root name) content)
        | none => Program.give ()) (Table.names files)) fun _ =>
    Program.each (fun name =>
      if (files.lookup name).isSome then Program.give ()
      else
        Program.andThen (Program.look fun disk => (disk.root.lookup name).isSome) fun present =>
          if present then
            Program.act ioError fun disk => { disk with root := disk.root.erase name }
          else Program.give ()) optionalRootSidecars

/-! ## Versions -/

/-- `CANONICAL_ASSETS`. -/
def canonicalAssets : List String := ["typed.md", "format.json", "styles.json", "_template.docx"]

/-- `TREE_ASSETS`. -/
def treeAssets : List String :=
  ["typed.md", "format.json", "revisions.json", "styles.json", "_template.docx"]

/-- `canonical_tree_digest`. -/
def canonicalTreeDigest (digests : Digests) (files : Files) : String :=
  digests.treeDigest (canonicalAssets.map fun name =>
    (name, (files.lookup name).map digests.fileSha256))

/-- `SaveBoundary`. -/
structure SaveBoundary where
  origin : String
  label : Option String := none
  pin : Bool := false
  baselineEpoch : Option Int := none
  restoredFrom : Option String := none
  deriving DecidableEq, Repr

/-- `put`, for each kind of object: what is there already is not written again. -/
def putBlob (digests : Digests) (content : Content) : Program Disk StoreError Unit :=
  Program.andThen (Program.look fun disk => (disk.blobs.lookup (digests.blobId content)).isSome)
    fun present =>
      if present then Program.give ()
      else Program.act ioError fun disk =>
        { disk with blobs := disk.blobs.insert (digests.blobId content) content }

def putTree (digests : Digests) (tree : Tree) : Program Disk StoreError Unit :=
  Program.andThen (Program.look fun disk => (disk.trees.lookup (digests.treeId tree)).isSome)
    fun present =>
      if present then Program.give ()
      else Program.act ioError fun disk =>
        { disk with trees := disk.trees.insert (digests.treeId tree) tree }

def putCommit (digests : Digests) (commit : Commit) : Program Disk StoreError Unit :=
  Program.andThen (Program.look fun disk => (disk.commits.lookup (digests.commitId commit)).isSome)
    fun present =>
      if present then Program.give ()
      else Program.act ioError fun disk =>
        { disk with commits := disk.commits.insert (digests.commitId commit) commit }

/-- The assets of a state that go into its tree. -/
def treeContents (files : Files) : List (String × Content) :=
  treeAssets.filterMap fun name => (files.lookup name).map fun content => (name, content)

/-- The tree of a state. -/
def treeOf (digests : Digests) (files : Files) (digest : String) : Tree where
  digest := some digest
  parts := (treeContents files).map fun part => (part.1, digests.blobId part.2)

/-- The commit of a new version over the pointer before it. -/
def commitOf (digests : Digests) (files : Files) (previous : Pointer) (boundary : SaveBoundary)
    (createdAt : String) : Commit :=
  let digest := canonicalTreeDigest digests files
  let sequence := previous.head.versionSeq.getD 0 + 1
  { version := "V" ++ toString sequence
    seq := sequence
    parentVersion := previous.head.headVersion
    parentGeneration := previous.head.headVersionGeneration
    parentCommit := previous.head.headCommit
    headTree := digest
    treeObject := digests.treeId (treeOf digests files digest)
    baselineEpoch := boundary.baselineEpoch.getD (previous.head.baselineEpoch.getD 1)
    origin := boundary.origin
    label := boundary.label
    pin := boundary.pin
    restoredFrom := boundary.restoredFrom
    createdAt }

/-- `record_version`: the objects of a version, when the canonical tree is not HEAD's. -/
def recordVersion (digests : Digests) (files : Files) (boundary : SaveBoundary)
    (createdAt : String) : Program Disk StoreError (Option Commit) :=
  Program.andThen (Program.look Disk.pointer) fun
    | none => Program.give none
    | some previous =>
      let digest := canonicalTreeDigest digests files
      if previous.head.headTree = some digest then Program.give none
      else
        let commit := commitOf digests files previous boundary createdAt
        Program.andThen (Program.each (fun part => putBlob digests part.2) (treeContents files))
          fun _ =>
          Program.andThen (putTree digests (treeOf digests files digest)) fun _ =>
            Program.andThen (putCommit digests commit) fun _ => Program.give (some commit)

/-- `pointer_payload`: the version fields are carried over from the pointer on disk, and a new
version replaces them. -/
def pointerPayload (digests : Digests) (previous : Option Pointer) (generation : String)
    (operationId manifestSha256 : String) (version : Option Commit) : Pointer where
  generation := generation
  operationId := some operationId
  manifestSha256 := some manifestSha256
  head :=
    match version with
    | none => (previous.map Pointer.head).getD {}
    | some commit =>
      { headVersion := some commit.version
        headVersionGeneration := some generation
        headTree := some commit.headTree
        headTreeObject := some commit.treeObject
        headCommit := some (digests.commitId commit)
        baselineEpoch := some commit.baselineEpoch
        versionSeq := some commit.seq }

end Docx2Typed.Store
