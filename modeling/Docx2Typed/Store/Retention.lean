import Docx2Typed.Store.Disk

/-!
# Retention of versions

`history_gc` walks the version chain from HEAD, keeps the last versions and the pinned ones, names
the others in the trim log, and then deletes every tree, chunk map and blob that no kept tree
reaches.  Commit objects stay.

Versions older than the object pool lie in the manifests of their generations.  Chunk maps may name
further maps; `depth` bounds how far they are followed, and every result holds for every `depth`.
-/

namespace Docx2Typed.Store

open Library (Program Fate Ending)
open List
open Library.Program

/-! ## The archive -/

/-- A version record: a commit object, or the `version` object of a generation's manifest, which
`legacy_chain` gives the name of the generation. -/
structure VersionRecord where
  version : String
  treeObject : Option String
  parentCommit : Option String
  parentGeneration : Option String
  pin : Bool
  generation : Option String := none
  deriving DecidableEq, Repr

/-- A part of a tree: a blob, or the pieces of an asset that has been split. -/
inductive Part where
  | whole (blob : String)
  | split (order header rest : Option String) (chunks : Option String)
  deriving DecidableEq, Repr

inductive ChunkMap where
  | buckets (maps : List String)
  | entries (blobs : List (String × String))
  deriving DecidableEq, Repr

structure TrimRecord where
  version : String
  treeObject : Option String
  deriving DecidableEq, Repr

/-- The object pool, the generations with the `version` objects of their manifests, the trim log,
and what the pointer and the journals name.  An object that cannot be read is not in its table. -/
structure Archive where
  head : Option String
  headGeneration : Option String
  generation : Option String
  journaled : List String
  commits : Table VersionRecord
  trees : Table (List (String × Part))
  maps : Table ChunkMap
  blobs : Table Content
  generations : Table (Option VersionRecord)
  trimLog : List TrimRecord

/-- `trimmed_versions`. -/
def Archive.trimmedVersions (archive : Archive) : List String := archive.trimLog.map (·.version)

/-! ## The chain -/

/-- The loop of `version_chain`; the commits not seen yet bound it. -/
def poolChain {α : Type} (parent : α → Option String) :
    Nat → Table α → Option String → List α
  | 0, _, _ => []
  | _ + 1, _, none => []
  | rounds + 1, unseen, some id =>
    match unseen.lookup id with
    | none => []
    | some record => record :: poolChain parent rounds (unseen.erase id) (parent record)

/-- `legacy_chain`. -/
def legacyChain : Nat → Table (Option VersionRecord) → Option String → List VersionRecord
  | 0, _, _ => []
  | _ + 1, _, none => []
  | rounds + 1, unseen, some id =>
    if id = "" then []
    else
      match unseen.lookup id with
      | some (some record) =>
        { record with generation := some id } ::
          legacyChain rounds (unseen.erase id) record.parentGeneration
      | _ => []

/-- `version_chain`. -/
def versionChain (archive : Archive) : List VersionRecord :=
  let chain := poolChain VersionRecord.parentCommit archive.commits.keys.length archive.commits
    (archive.head.filter (· ≠ ""))
  let legacy := match chain.getLast? with
    | none => archive.headGeneration.filter (· ≠ "")
    | some record => record.parentGeneration
  chain ++ legacyChain archive.generations.keys.length archive.generations legacy

/-! ## The plan -/

section Plan

variable (keepLast : Int) (archive : Archive)

/-- `retained_names`. -/
def retainedNames : List String :=
  ((versionChain archive).zipIdx.filter fun entry =>
    decide (entry.1.version ∉ archive.trimmedVersions) &&
      (decide (entry.2 < keepLast.toNat) || entry.1.pin)).map (·.1.version)

/-- `keep_trees`. -/
def keepTrees : List String :=
  ((versionChain archive).filter (·.version ∈ retainedNames keepLast archive)).filterMap
    fun record => record.treeObject.filter (· ≠ "")

/-- `trimmed`. -/
def trimmedRecords : List VersionRecord :=
  (versionChain archive).filter fun record =>
    decide (record.version ∈ archive.trimmedVersions) ||
      (decide (record.version ∉ retainedNames keepLast archive) &&
        !record.treeObject.any (· ∈ keepTrees keepLast archive))

/-- `newly_trimmed`. -/
def newlyTrimmed : List VersionRecord :=
  (trimmedRecords keepLast archive).filter (·.version ∉ archive.trimmedVersions)

/-- `keep_generations`. -/
def keepGenerations : List String :=
  ((versionChain archive).filter fun record =>
    !record.treeObject.any (· ≠ "") &&
      decide (record.version ∉ (trimmedRecords keepLast archive).map (·.version))).filterMap
    (·.generation) ++ archive.generation.toList ++ archive.journaled

/-- `reclaimable`. -/
def reclaimable : List String :=
  (Table.names archive.generations).filter fun name =>
    decide (name ∉ keepGenerations keepLast archive) &&
      ((archive.generations.lookup name).bind id).any fun record =>
        record.treeObject.any (· ∈ keepTrees keepLast archive) ||
          decide (record.version ∈ (trimmedRecords keepLast archive).map (·.version))

end Plan

/-- `append_trim_log`: what the log becomes. -/
def appendTrims (log : List TrimRecord) : List VersionRecord → Except StoreError (List TrimRecord)
  | [] => .ok log
  | record :: records =>
    if record.version = "" then
      .error (.store storeInvalid "history trim record has no version")
    else
      match log.reverse.find? (·.version = record.version) with
      | some recorded =>
        if recorded.treeObject.isSome && record.treeObject.isSome &&
            decide (recorded.treeObject ≠ record.treeObject) then
          .error (.store storeInvalid ("history trim tree mismatch for " ++ record.version))
        else appendTrims log records
      | none => appendTrims (log ++ [⟨record.version, record.treeObject⟩]) records

/-! ## The sweep -/

inductive ObjectKind where
  | blob
  | tree
  | map
  deriving DecidableEq, Repr

/-- `mark_map_objects`. -/
def markMap (maps : Table ChunkMap) : Nat → String → List (ObjectKind × String)
  | 0, _ => []
  | depth + 1, id => (.map, id) ::
    match maps.lookup id with
    | none => []
    | some (.buckets buckets) => buckets.flatMap (markMap maps depth)
    | some (.entries entries) => entries.map fun entry => (.blob, entry.2)

/-- What a part of a kept tree reaches. -/
def markPart (depth : Nat) (maps : Table ChunkMap) : Part → List (ObjectKind × String)
  | .whole blob => [(.blob, blob)]
  | .split order header rest chunks =>
    ([order, header, rest].filterMap id).map (ObjectKind.blob, ·) ++
      chunks.toList.flatMap (markMap maps depth)

/-- `reachable`. -/
def reachable (depth : Nat) (archive : Archive) (keepTrees : List String) :
    List (ObjectKind × String) :=
  keepTrees.flatMap fun treeId =>
    match archive.trees.lookup treeId with
    | none => []
    | some parts => (.tree, treeId) :: parts.flatMap (markPart depth archive.maps ·.2)

def Archive.remove (object : ObjectKind × String) (archive : Archive) : Archive :=
  match object.1 with
  | .blob => { archive with blobs := archive.blobs.erase object.2 }
  | .tree => { archive with trees := archive.trees.erase object.2 }
  | .map => { archive with maps := archive.maps.erase object.2 }

def Archive.objects (archive : Archive) : List (ObjectKind × String) :=
  (Table.names archive.blobs).map (ObjectKind.blob, ·) ++
    (Table.names archive.trees).map (ObjectKind.tree, ·) ++
      (Table.names archive.maps).map (ObjectKind.map, ·)

/-- `sweep_objects`. -/
def sweepObjects (depth : Nat) (keepTrees : List String) : Program Archive StoreError Unit :=
  andThen (look fun archive =>
      archive.objects.filter (· ∉ reachable depth archive keepTrees)) fun unreachable =>
    each (fun object => attempt (Archive.remove object)) unreachable

/-- `history_gc`. -/
def historyGc (depth : Nat) (keepLast : Int) (dryRun : Bool) : Program Archive StoreError Unit :=
  andThen (look fun archive => archive) fun archive =>
    if dryRun = true ∨ newlyTrimmed keepLast archive = [] ∧ reclaimable keepLast archive = [] then
      give ()
    else
      match appendTrims archive.trimLog (trimmedRecords keepLast archive) with
      | .error error => fail error
      | .ok log =>
        andThen (act ioError fun archive => { archive with trimLog := log }) fun _ =>
          andThen (sweepObjects depth (keepTrees keepLast archive)) fun _ =>
            each (fun name => attempt fun archive =>
              { archive with generations := archive.generations.erase name })
              (reclaimable keepLast archive)

/-! ## Loading a version -/

/-- Entries under keys, of which the later ones replace the earlier. -/
def mergeEntries (first second : List (String × String)) : List (String × String) :=
  first.filter (fun entry => entry.1 ∉ second.map Prod.fst) ++ second

/-- `read_map`. -/
def readMap (maps : Table ChunkMap) : Nat → String → Option (List (String × String))
  | 0, _ => none
  | depth + 1, id =>
    match maps.lookup id with
    | none => none
    | some (.buckets buckets) =>
      (buckets.mapM (readMap maps depth)).map fun read => read.foldl mergeEntries []
    | some (.entries entries) => some entries

def BlobThere (archive : Archive) (blob : String) : Prop := (archive.blobs.lookup blob).isSome

/-- Everything that a part needs is there, as `verify_tree` has it. -/
def PartThere (depth : Nat) (archive : Archive) : Part → Prop
  | .whole blob => BlobThere archive blob
  | .split order _ _ chunks =>
    (∃ blob, order = some blob ∧ BlobThere archive blob) ∧
      ∃ id entries, chunks = some id ∧ readMap archive.maps depth id = some entries ∧
        ∀ entry ∈ entries, BlobThere archive entry.2

/-- A version can be loaded with its whole tree. -/
def Loadable (depth : Nat) (archive : Archive) (record : VersionRecord) : Prop :=
  ∃ treeId parts, record.treeObject = some treeId ∧ treeId ≠ "" ∧
    archive.trees.lookup treeId = some parts ∧ ∀ part ∈ parts, PartThere depth archive part.2

/-! ## What marking protects -/

variable {record : VersionRecord}

section Marking

variable {depth : Nat} {archive archive' : Archive}

/-- The second archive has what the first has of some objects. -/
structure SameObjects (objects : List (ObjectKind × String)) (archive archive' : Archive) : Prop where
  blobs : ∀ {id}, (ObjectKind.blob, id) ∈ objects →
    archive'.blobs.lookup id = archive.blobs.lookup id
  trees : ∀ {id}, (ObjectKind.tree, id) ∈ objects →
    archive'.trees.lookup id = archive.trees.lookup id
  maps : ∀ {id}, (ObjectKind.map, id) ∈ objects →
    archive'.maps.lookup id = archive.maps.lookup id

theorem SameObjects.mono {objects objects' : List (ObjectKind × String)}
    (h : SameObjects objects archive archive') (hsub : objects' ⊆ objects) :
    SameObjects objects' archive archive' :=
  ⟨fun hid => h.blobs (hsub hid), fun hid => h.trees (hsub hid), fun hid => h.maps (hsub hid)⟩

theorem mem_of_mapM {α β : Type} {f : α → Option β} : ∀ {as : List α} {bs : List β},
    as.mapM f = some bs → ∀ b ∈ bs, ∃ a ∈ as, f a = some b
  | [], bs, h, b, hb => by
    cases h
    cases hb
  | a :: as, bs, h, b, hb => by
    rw [mapM_cons] at h
    obtain ⟨first, hfirst, h⟩ := Option.bind_eq_some_iff.mp h
    obtain ⟨rest, hrest, h⟩ := Option.bind_eq_some_iff.mp h
    obtain rfl := Option.some.inj h
    rcases mem_cons.mp hb with rfl | hb
    · exact ⟨a, mem_cons_self, hfirst⟩
    · obtain ⟨a', ha', hb'⟩ := mem_of_mapM hrest b hb
      exact ⟨a', mem_cons_of_mem a ha', hb'⟩

theorem readMap_congr {maps maps' : Table ChunkMap} : ∀ {depth : Nat} {id : String},
    (∀ {id'}, (ObjectKind.map, id') ∈ markMap maps depth id →
      maps'.lookup id' = maps.lookup id') → readMap maps' depth id = readMap maps depth id
  | 0, _, _ => rfl
  | depth + 1, id, h => by
    rw [readMap, readMap, h mem_cons_self]
    cases hmap : maps.lookup id with
    | none => rfl
    | some map =>
      cases map with
      | entries entries => rfl
      | buckets buckets =>
        dsimp only
        rw [mapM_congr fun bucket hbucket => readMap_congr fun {id'} hid' => h ?_]
        rw [markMap, hmap]
        exact mem_cons_of_mem _ (mem_flatMap.mpr ⟨bucket, hbucket, hid'⟩)

theorem mem_of_mem_merged {entry : String × String} :
    ∀ {read : List (List (String × String))} {start : List (String × String)},
      entry ∈ read.foldl mergeEntries start → entry ∈ start ∨ ∃ entries ∈ read, entry ∈ entries
  | [], _, h => .inl h
  | entries :: read, start, h => by
    have h : entry ∈ read.foldl mergeEntries (mergeEntries start entries) := h
    rcases mem_of_mem_merged h with h | ⟨entries', hread, hentry⟩
    · rcases mem_append.mp h with h | h
      · exact .inl (mem_filter.mp h).1
      · exact .inr ⟨entries, mem_cons_self, h⟩
    · exact .inr ⟨entries', mem_cons_of_mem _ hread, hentry⟩

theorem mem_markMap_of_readMap {maps : Table ChunkMap} : ∀ {depth : Nat} {id : String}
    {entries : List (String × String)}, readMap maps depth id = some entries →
      ∀ entry ∈ entries, (ObjectKind.blob, entry.2) ∈ markMap maps depth id
  | 0, _, _, h => by cases h
  | depth + 1, id, entries, h => by
    intro entry hentry
    rw [readMap] at h
    rw [markMap]
    cases hmap : maps.lookup id with
    | none =>
      rw [hmap] at h
      cases h
    | some map =>
      rw [hmap] at h
      cases map with
      | entries entries' =>
        obtain rfl := Option.some.inj h
        exact mem_cons_of_mem _ (mem_map_of_mem hentry)
      | buckets buckets =>
        obtain ⟨read, hread, rfl⟩ := Option.map_eq_some_iff.mp h
        obtain hnil | ⟨entries', hmem, hentry'⟩ := mem_of_mem_merged hentry
        · cases hnil
        · obtain ⟨bucket, hbucket, hbuckets⟩ := mem_of_mapM hread entries' hmem
          exact mem_cons_of_mem _ (mem_flatMap.mpr
            ⟨bucket, hbucket, mem_markMap_of_readMap hbuckets entry hentry'⟩)

theorem tree_notMem_markMap (maps : Table ChunkMap) : ∀ (depth : Nat) (id treeId : String),
    (ObjectKind.tree, treeId) ∉ markMap maps depth id
  | 0, _, _, h => by cases h
  | depth + 1, id, treeId, h => by
    rw [markMap] at h
    rcases mem_cons.mp h with heq | h
    · cases heq
    · split at h
      · cases h
      · obtain ⟨bucket, -, h⟩ := mem_flatMap.mp h
        exact tree_notMem_markMap maps depth bucket treeId h
      · obtain ⟨entry, -, h⟩ := mem_map.mp h
        cases h

theorem tree_notMem_markPart (depth : Nat) (maps : Table ChunkMap) (part : Part)
    (treeId : String) : (ObjectKind.tree, treeId) ∉ markPart depth maps part := by
  intro h
  cases part with
  | whole blob => simp [markPart] at h
  | split order header rest chunks =>
    rcases mem_append.mp h with h | h
    · obtain ⟨blob, -, h⟩ := mem_map.mp h
      cases h
    · obtain ⟨id, -, h⟩ := mem_flatMap.mp h
      exact tree_notMem_markMap maps depth id treeId h

theorem PartThere.of_same {part : Part} (h : PartThere depth archive part)
    (hsame : SameObjects (markPart depth archive.maps part) archive archive') :
    PartThere depth archive' part := by
  have hblob : ∀ {blob}, (ObjectKind.blob, blob) ∈ markPart depth archive.maps part →
      BlobThere archive blob → BlobThere archive' blob := by
    intro blob hmem hthere
    rw [BlobThere, hsame.blobs hmem]
    exact hthere
  cases part with
  | whole blob => exact hblob mem_cons_self h
  | split order header rest chunks =>
    obtain ⟨⟨blob, rfl, hthere⟩, id, entries, rfl, hread, hentries⟩ := h
    have hmap : ∀ {object}, object ∈ markMap archive.maps depth id →
        object ∈ markPart depth archive.maps (.split (some blob) header rest (some id)) := by
      intro object hobject
      exact mem_append_right _ (mem_flatMap.mpr ⟨id, mem_cons_self, hobject⟩)
    refine ⟨⟨blob, rfl, hblob ?_ hthere⟩, id, entries, rfl, ?_, fun entry hentry => ?_⟩
    · exact mem_append_left _ (mem_map_of_mem (by simp))
    · rw [readMap_congr fun hid => hsame.maps (hmap hid), hread]
    · exact hblob (hmap (mem_markMap_of_readMap hread entry hentry)) (hentries entry hentry)

/-- A version whose tree is kept can be loaded from whatever has the reachable objects. -/
theorem Loadable.of_same (h : Loadable depth archive record) {keepTrees : List String}
    (hkept : ∃ treeId ∈ keepTrees, record.treeObject = some treeId)
    (hsame : SameObjects (reachable depth archive keepTrees) archive archive') :
    Loadable depth archive' record := by
  obtain ⟨treeId, parts, htree, hne, hlies, hparts⟩ := h
  obtain ⟨treeId', hmem, htree'⟩ := hkept
  obtain rfl := Option.some.inj (htree.symm.trans htree')
  have hreach : ∀ {object}, object ∈ (ObjectKind.tree, treeId) ::
      parts.flatMap (markPart depth archive.maps ·.2) →
        object ∈ reachable depth archive keepTrees := by
    intro object hobject
    refine mem_flatMap.mpr ⟨treeId, hmem, ?_⟩
    rw [hlies]
    exact hobject
  refine ⟨treeId, parts, htree, hne, ?_, fun part hpart => (hparts part hpart).of_same ?_⟩
  · rw [hsame.trees (hreach mem_cons_self), hlies]
  · refine hsame.mono fun object hobject => hreach (mem_cons_of_mem _ ?_)
    exact mem_flatMap.mpr ⟨part, hpart, hobject⟩

end Marking

/-! ## One collection -/

variable {archive : Archive} {log : List TrimRecord} {objects : List (ObjectKind × String)}

section Collection

variable {depth : Nat} {keepLast : Int} {dryRun : Bool}

theorem appendTrims_versions {log' : List TrimRecord} : ∀ {records : List VersionRecord}
    {log : List TrimRecord}, appendTrims log records = .ok log' → ∀ version,
      version ∈ log'.map (·.version) ↔
        version ∈ log.map (·.version) ∨ version ∈ records.map (·.version)
  | [], log, h, version => by
    obtain rfl := Except.ok.inj h
    simp
  | record :: records, log, h, version => by
    rw [appendTrims] at h
    split at h
    · cases h
    · split at h
      · rename_i recorded hfind
        split at h
        · cases h
        · rw [appendTrims_versions h version]
          have hversion := find?_some hfind
          have hmem := mem_reverse.mp (mem_of_find?_eq_some hfind)
          have hlogged : record.version ∈ log.map (·.version) :=
            mem_map.mpr ⟨recorded, hmem, by simpa using hversion⟩
          rw [map_cons, mem_cons]
          constructor
          · exact fun h => h.imp_right .inr
          · rintro (h | rfl | h)
            · exact .inl h
            · exact .inl hlogged
            · exact .inr h
      · rw [appendTrims_versions h version]
        simp only [map_append, map_cons, map_nil, mem_append, mem_cons,
          not_mem_nil, or_false]
        exact or_assoc

/-- What a collection has made of an archive once it has written the log. -/
structure Collected (depth : Nat) (keepLast : Int) (before : Archive) (log : List TrimRecord)
    (after : Archive) : Prop where
  head : after.head = before.head
  commits : after.commits = before.commits
  trimLog : after.trimLog = log
  objects : SameObjects (reachable depth before (keepTrees keepLast before)) before after
  generations : ∀ {name}, name ∉ reclaimable keepLast before →
    after.generations.lookup name = before.generations.lookup name

section

variable {before after : Archive} (h : Collected depth keepLast before log after)

include h

theorem Collected.remove {object : ObjectKind × String}
    (hunreached : object ∉ reachable depth before (keepTrees keepLast before)) :
    Collected depth keepLast before log (after.remove object) := by
  obtain ⟨kind, id⟩ := object
  cases kind with
  | blob =>
    refine ⟨h.head, h.commits, h.trimLog, ⟨fun {id'} hid => ?_, h.objects.trees, h.objects.maps⟩,
      h.generations⟩
    have hne : id' ≠ id := fun heq => hunreached (heq ▸ hid)
    simp only [Archive.remove]
    rw [AList.lookup_erase_ne hne, h.objects.blobs hid]
  | tree =>
    refine ⟨h.head, h.commits, h.trimLog, ⟨h.objects.blobs, fun {id'} hid => ?_, h.objects.maps⟩,
      h.generations⟩
    have hne : id' ≠ id := fun heq => hunreached (heq ▸ hid)
    simp only [Archive.remove]
    rw [AList.lookup_erase_ne hne, h.objects.trees hid]
  | map =>
    refine ⟨h.head, h.commits, h.trimLog, ⟨h.objects.blobs, h.objects.trees, fun {id'} hid => ?_⟩,
      h.generations⟩
    have hne : id' ≠ id := fun heq => hunreached (heq ▸ hid)
    simp only [Archive.remove]
    rw [AList.lookup_erase_ne hne, h.objects.maps hid]

theorem Collected.reclaim {name : String} (hname : name ∈ reclaimable keepLast before) :
    Collected depth keepLast before log
      { after with generations := after.generations.erase name } := by
  refine ⟨h.head, h.commits, h.trimLog, ⟨h.objects.blobs, h.objects.trees, h.objects.maps⟩,
    fun {name'} hname' => ?_⟩
  have hne : name' ≠ name := fun heq => hname' (heq ▸ hname)
  dsimp only
  rw [AList.lookup_erase_ne hne, h.generations hname']

end

/-- The collection goes beyond its plan. -/
def Sweeps (keepLast : Int) (dryRun : Bool) (archive : Archive) (log : List TrimRecord) : Prop :=
  dryRun = false ∧ (newlyTrimmed keepLast archive ≠ [] ∨ reclaimable keepLast archive ≠ []) ∧
    appendTrims archive.trimLog (trimmedRecords keepLast archive) = .ok log

theorem collected_log : Collected depth keepLast archive log { archive with trimLog := log } :=
  ⟨rfl, rfl, rfl, ⟨fun _ => rfl, fun _ => rfl, fun _ => rfl⟩, fun _ => rfl⟩

theorem meets_sweepObjects :
    Meets (fun after => after = { archive with trimLog := log })
      (sweepObjects depth (keepTrees keepLast archive))
      (fun _ => Collected depth keepLast archive log)
      (fun _ => Collected depth keepLast archive log) (Collected depth keepLast archive log) := by
  refine meets_andThen (R := fun unreachable after => Collected depth keepLast archive log after ∧
    ∀ object ∈ unreachable, object ∉ reachable depth archive (keepTrees keepLast archive))
    (meets_look fun after h => ⟨h ▸ collected_log, fun object hobject => ?_⟩) fun unreachable =>
    meets_knowing fun hunreached => meets_each fun object hobject => ?_
  · rw [h] at hobject
    have hunreached : object ∉ reachable depth { archive with trimLog := log }
        (keepTrees keepLast archive) := by
      simpa using (mem_filter.mp hobject).2
    exact hunreached
  · exact keeps_attempt fun after h => h.remove (hunreached object hobject)

/-- Wherever it stops, a collection has done nothing, or has written its log first. -/
theorem historyGc_collected (archive : Archive) (fates : List Fate) :
    (historyGc depth keepLast dryRun archive fates).state = archive ∨
      ∃ log, Sweeps keepLast dryRun archive log ∧ Collected depth keepLast archive log
        (historyGc depth keepLast dryRun archive fates).state := by
  refine Meets.left (P := fun after => after = archive) (I := fun after => after = archive ∨
    ∃ log, Sweeps keepLast dryRun archive log ∧ Collected depth keepLast archive log after)
    ?_ rfl fates
  unfold historyGc
  refine meets_look_at ?_
  split
  · exact meets_give fun _ h => .inl h
  · rename_i hnone
    cases happend : appendTrims archive.trimLog (trimmedRecords keepLast archive) with
    | error error => exact meets_fail fun _ h => .inl h
    | ok log =>
      have hsweeps : Sweeps keepLast dryRun archive log := by
        rw [not_or, not_and_or] at hnone
        exact ⟨by simpa using hnone.1, hnone.2, happend⟩
      refine meets_andThen (R := fun _ after => after = { archive with trimLog := log })
        (meets_act (fun after h => by rw [h]) (fun after h => .inl h) fun after h => .inl h)
        fun _ => ?_
      have hmeans : ∀ after, Collected depth keepLast archive log after → after = archive ∨
          ∃ log, Sweeps keepLast dryRun archive log ∧ Collected depth keepLast archive log after :=
        fun _ h => .inr ⟨log, hsweeps, h⟩
      refine (meets_andThen meets_sweepObjects fun _ => ?_).weaken (fun _ h => h)
        (fun _ => hmeans) (fun _ => hmeans) hmeans
      exact meets_each fun name hname => keeps_attempt fun after h => h.reclaim hname

theorem each_attempts {σ β : Type} {f : β → σ → σ} : ∀ {bs : List β} {state : σ},
    (each (fun b => attempt (f b)) bs : Program σ StoreError Unit) state [] =
      ⟨.returned (), bs.foldl (fun state b => f b state) state, []⟩
  | [], _ => rfl
  | b :: bs, state => @each_attempts σ β f bs (f b state)

/-- What a collection comes to when no step fails. -/
theorem historyGc_done (h : Sweeps keepLast dryRun archive log) :
    (historyGc depth keepLast dryRun archive []).state =
      (reclaimable keepLast archive).foldl
        (fun after name => { after with generations := after.generations.erase name })
        ((archive.objects.filter (· ∉ reachable depth archive (keepTrees keepLast archive))).foldl
          (fun after object => after.remove object) { archive with trimLog := log }) := by
  obtain ⟨hdry, hplan, happend⟩ := h
  have hnone : ¬ (dryRun = true ∨
      newlyTrimmed keepLast archive = [] ∧ reclaimable keepLast archive = []) := by
    rw [hdry, not_or, not_and_or]
    exact ⟨by decide, hplan⟩
  simp only [historyGc, andThen, look, if_neg hnone, happend, act, sweepObjects, each_attempts]
  rfl

variable {object removed : ObjectKind × String}

theorem mem_objects : object ∈ archive.objects ↔
    match object.1 with
    | .blob => object.2 ∈ archive.blobs
    | .tree => object.2 ∈ archive.trees
    | .map => object.2 ∈ archive.maps := by
  obtain ⟨kind, id⟩ := object
  cases kind <;> simp [Archive.objects, Table.names, AList.mem_keys]

theorem mem_objects_remove :
    object ∈ (archive.remove removed).objects ↔ object ∈ archive.objects ∧ object ≠ removed := by
  obtain ⟨kind, id⟩ := object
  obtain ⟨kind', id'⟩ := removed
  rw [mem_objects, mem_objects]
  cases kind <;> cases kind' <;> simp [Archive.remove, AList.mem_erase, and_comm]

theorem mem_objects_sweep : ∀ {archive : Archive},
    object ∈ (objects.foldl (fun after object => after.remove object) archive).objects ↔
      object ∈ archive.objects ∧ object ∉ objects := by
  induction objects with
  | nil => simp
  | cons removed objects ih =>
    intro archive
    rw [foldl_cons, ih, mem_objects_remove, mem_cons, not_or, and_assoc]

theorem sweep_frame : ∀ {archive : Archive},
    (objects.foldl (fun after object => after.remove object) archive).trimLog = archive.trimLog ∧
    (objects.foldl (fun after object => after.remove object) archive).generations =
      archive.generations := by
  induction objects with
  | nil => exact ⟨rfl, rfl⟩
  | cons object objects ih =>
    intro archive
    obtain ⟨kind, id⟩ := object
    cases kind <;> exact ih

theorem reclaim_frame {names : List String} : ∀ {archive : Archive},
    (names.foldl (fun after name => { after with generations := after.generations.erase name })
      archive).objects = archive.objects ∧
    (names.foldl (fun after name => { after with generations := after.generations.erase name })
      archive).trimLog = archive.trimLog ∧
    ∀ name, name ∈ (names.foldl (fun after name =>
      { after with generations := after.generations.erase name }) archive).generations ↔
        name ∈ archive.generations ∧ name ∉ names := by
  induction names with
  | nil => simp
  | cons name names ih =>
    intro archive
    obtain ⟨hobjects, hlog, hgone⟩ :=
      @ih { archive with generations := archive.generations.erase name }
    refine ⟨hobjects, hlog, fun name' => ?_⟩
    rw [foldl_cons, hgone, AList.mem_erase, mem_cons, not_or]
    tauto

theorem tree_mem_reachable {id : String}
    (h : (ObjectKind.tree, id) ∈ reachable depth archive (keepTrees keepLast archive)) :
    id ∈ keepTrees keepLast archive := by
  obtain ⟨treeId, hmem, hobject⟩ := mem_flatMap.mp h
  cases htree : archive.trees.lookup treeId with
  | none =>
    rw [htree] at hobject
    cases hobject
  | some parts =>
    rw [htree] at hobject
    rcases mem_cons.mp hobject with heq | hpart
    · exact (Prod.mk.inj heq).2 ▸ hmem
    · obtain ⟨part, -, hpart⟩ := mem_flatMap.mp hpart
      exact absurd hpart (tree_notMem_markPart depth archive.maps part.2 id)

/-- What is left then. -/
theorem historyGc_sweeps (h : Sweeps keepLast dryRun archive log) :
    (∀ object, object ∈ (historyGc depth keepLast dryRun archive []).state.objects ↔
      object ∈ archive.objects ∧
        object ∈ reachable depth archive (keepTrees keepLast archive)) ∧
    ∀ name, name ∈ (historyGc depth keepLast dryRun archive []).state.generations ↔
      name ∈ archive.generations ∧ name ∉ reclaimable keepLast archive := by
  rw [historyGc_done h]
  obtain ⟨hobjects, -, hgone⟩ := @reclaim_frame (reclaimable keepLast archive)
    ((archive.objects.filter (· ∉ reachable depth archive (keepTrees keepLast archive))).foldl
      (fun after object => after.remove object) { archive with trimLog := log })
  refine ⟨fun object => ?_, fun name => ?_⟩
  · rw [hobjects, mem_objects_sweep, mem_filter, decide_eq_true_eq, not_and, not_not]
    exact ⟨fun ⟨hmem, himp⟩ => ⟨hmem, himp hmem⟩, fun ⟨hmem, hreach⟩ => ⟨hmem, fun _ => hreach⟩⟩
  · rw [hgone, sweep_frame.2]

/-- A tree that no kept version has is gone then. -/
theorem historyGc_sweeps_tree (h : Sweeps keepLast dryRun archive log) {id : String}
    (hid : id ∉ keepTrees keepLast archive) :
    (historyGc depth keepLast dryRun archive []).state.trees.lookup id = none := by
  rw [AList.lookup_eq_none]
  intro hmem
  exact hid (tree_mem_reachable (((historyGc_sweeps h).1 (.tree, id)).mp (mem_objects.mpr hmem)).2)

/-- A collection that runs through leaves exactly what the kept trees reach, and of the generations
the ones it may not reclaim; all of it is as it was. -/
theorem historyGc_exact (h : Sweeps keepLast dryRun archive log) :
    (∀ object, object ∈ (historyGc depth keepLast dryRun archive []).state.objects ↔
      object ∈ archive.objects ∧
        object ∈ reachable depth archive (keepTrees keepLast archive)) ∧
    (∀ name, name ∈ (historyGc depth keepLast dryRun archive []).state.generations ↔
      name ∈ archive.generations ∧ name ∉ reclaimable keepLast archive) ∧
    SameObjects (reachable depth archive (keepTrees keepLast archive)) archive
      (historyGc depth keepLast dryRun archive []).state := by
  obtain ⟨hobjects, hgenerations⟩ := @historyGc_sweeps archive log depth keepLast dryRun h
  refine ⟨hobjects, hgenerations, ?_⟩
  rcases @historyGc_collected depth keepLast dryRun archive [] with hsame | ⟨_, -, hcol⟩
  · rw [hsame]
    exact ⟨fun _ => rfl, fun _ => rfl, fun _ => rfl⟩
  · exact hcol.objects

theorem historyGc_log (h : Sweeps keepLast dryRun archive log) :
    (historyGc depth keepLast dryRun archive []).state.trimLog = log := by
  rw [historyGc_done h, reclaim_frame.2.1, sweep_frame.1]

/-! ## What a collection keeps -/

/-- Nothing is lost but what the trim log reports: pinned versions and HEAD do not come to be
reported, a version that is not can be loaded as before, and one without a tree keeps its
generation. -/
structure KeptBy (depth : Nat) (before after : Archive) : Prop where
  named : ∀ id record, before.commits.lookup id = some record →
    (record.pin = true ∨ before.head = some id) → record.version ∉ before.trimmedVersions →
      record.version ∉ after.trimmedVersions
  loadable : ∀ id record, before.commits.lookup id = some record →
    record.version ∉ after.trimmedVersions → Loadable depth before record →
      Loadable depth after record
  legacy : ∀ name record, before.generations.lookup name = some (some record) →
    record.treeObject = none → record.version ∉ after.trimmedVersions →
      after.generations.lookup name = some (some record)

/-- The tree of a version is one that is kept. -/
def TreeKept (keepLast : Int) (archive : Archive) (record : VersionRecord) : Prop :=
  ∃ treeId ∈ keepTrees keepLast archive, record.treeObject = some treeId

/-- The plan spares HEAD, and of the versions that the walk of the chain has not come to it does not
name a pinned one, and keeps the trees of those that can be loaded or trims their names. -/
structure Safe (depth : Nat) (keepLast : Int) (archive : Archive) : Prop where
  head : ∀ id record, archive.head = some id → archive.commits.lookup id = some record →
    record.version ∉ archive.trimmedVersions →
      record.version ∉ (newlyTrimmed keepLast archive).map (·.version)
  apart : ∀ id record, archive.commits.lookup id = some record →
    record ∉ versionChain archive → record.version ∉ archive.trimmedVersions →
      (record.pin = true → record.version ∉ (newlyTrimmed keepLast archive).map (·.version)) ∧
      (Loadable depth archive record → TreeKept keepLast archive record ∨
        record.version ∈ (newlyTrimmed keepLast archive).map (·.version))

variable {archive : Archive}

theorem mem_newlyTrimmed {version : String} (hnew : version ∉ archive.trimmedVersions) :
    version ∈ (newlyTrimmed keepLast archive).map (·.version) ↔
      version ∈ (trimmedRecords keepLast archive).map (·.version) := by
  simp only [newlyTrimmed, mem_map, mem_filter, decide_eq_true_eq]
  constructor
  · rintro ⟨record, ⟨hmem, -⟩, rfl⟩
    exact ⟨record, hmem, rfl⟩
  · rintro ⟨record, hmem, rfl⟩
    exact ⟨record, ⟨hmem, hnew⟩, rfl⟩

theorem retained_of_pin (hmem : record ∈ versionChain archive) (hpin : record.pin = true)
    (hnew : record.version ∉ archive.trimmedVersions) :
    record.version ∈ retainedNames keepLast archive := by
  obtain ⟨index, hindex⟩ := mem_iff_getElem?.mp hmem
  refine mem_map.mpr ⟨(record, index), mem_filter.mpr ⟨?_, ?_⟩, rfl⟩
  · exact mem_zipIdx_iff_getElem?.mpr hindex
  · simp [hpin, hnew]

theorem newlyTrimmed_not_retained {version : String}
    (h : version ∈ (newlyTrimmed keepLast archive).map (·.version)) :
    version ∉ retainedNames keepLast archive := by
  obtain ⟨record, hmem, rfl⟩ := mem_map.mp h
  obtain ⟨hmem, hnew⟩ := mem_filter.mp hmem
  have hplan := (mem_filter.mp hmem).2
  rw [decide_eq_true_eq] at hnew
  simp only [hnew, decide_false, Bool.false_or, Bool.and_eq_true, decide_eq_true_eq] at hplan
  exact hplan.1

/-- A version of the chain that is not trimmed has its tree kept. -/
theorem treeKept_of_mem (hmem : record ∈ versionChain archive)
    (hnew : record.version ∉ (trimmedRecords keepLast archive).map (·.version))
    (hload : Loadable depth archive record) : TreeKept keepLast archive record := by
  obtain ⟨treeId, parts, htree, hne, -⟩ := hload
  have hplan : record ∉ trimmedRecords keepLast archive := fun h =>
    hnew (mem_map_of_mem h)
  have hkept : record.version ∈ retainedNames keepLast archive ∨
      treeId ∈ keepTrees keepLast archive := by
    by_contra hnone
    rw [not_or] at hnone
    refine hplan (mem_filter.mpr ⟨hmem, ?_⟩)
    simp [hnone.1, hnone.2, htree]
  refine ⟨treeId, hkept.elim (fun hretained => ?_) id, htree⟩
  refine mem_filterMap.mpr ⟨record, mem_filter.mpr ⟨hmem, by simpa using hretained⟩, ?_⟩
  rw [htree]
  simp [hne]

theorem trimmedVersions_log (h : Sweeps keepLast dryRun archive log) (version : String) :
    version ∈ log.map (·.version) ↔ version ∈ archive.trimmedVersions ∨
      version ∈ (trimmedRecords keepLast archive).map (·.version) :=
  appendTrims_versions h.2.2 version

theorem Collected.keptBy {after : Archive} (h : Collected depth keepLast archive log after)
    (hsweeps : Sweeps keepLast dryRun archive log) (hsafe : Safe depth keepLast archive) :
    KeptBy depth archive after := by
  have hlog : ∀ version, version ∈ after.trimmedVersions ↔ version ∈ archive.trimmedVersions ∨
      version ∈ (trimmedRecords keepLast archive).map (·.version) := by
    intro version
    rw [Archive.trimmedVersions, h.trimLog, trimmedVersions_log hsweeps]
  refine ⟨fun id record hlies hasked hnew hlogged => ?_, fun id record hlies hnew hload => ?_,
    fun name record hlies hnone hnew => ?_⟩
  · have hnewly := (mem_newlyTrimmed hnew).mpr (((hlog _).mp hlogged).resolve_left hnew)
    rcases hasked with hpin | hhead
    · by_cases hmem : record ∈ versionChain archive
      · exact newlyTrimmed_not_retained hnewly (retained_of_pin hmem hpin hnew)
      · exact (hsafe.apart id record hlies hmem hnew).1 hpin hnewly
    · exact hsafe.head id record hhead hlies hnew hnewly
  · have hapart := not_or.mp ((not_congr (hlog _)).mp hnew)
    refine hload.of_same ?_ h.objects
    by_cases hmem : record ∈ versionChain archive
    · exact treeKept_of_mem hmem hapart.2 hload
    · refine ((hsafe.apart id record hlies hmem hapart.1).2 hload).resolve_right fun hnewly => ?_
      exact hapart.2 ((mem_newlyTrimmed hapart.1).mp hnewly)
  · have hapart := not_or.mp ((not_congr (hlog _)).mp hnew)
    rw [h.generations fun hmem => ?_, hlies]
    have hplan := (Bool.and_eq_true_iff.mp (mem_filter.mp hmem).2).2
    rw [hlies] at hplan
    simp only [Option.bind_some, id_eq, Option.any_some, hnone, Option.any_none, Bool.false_or,
      decide_eq_true_eq] at hplan
    exact hapart.2 hplan

theorem KeptBy.refl : KeptBy depth archive archive :=
  ⟨fun _ _ _ _ hnew => hnew, fun _ _ _ _ hload => hload, fun _ _ hlies _ _ => hlies⟩

/-- A collection keeps what it should, wherever it stops, exactly when its plan is safe or it goes
no further than that. -/
theorem keptBy_iff_safe :
    (∀ fates, KeptBy depth archive (historyGc depth keepLast dryRun archive fates).state) ↔
      ∀ log, Sweeps keepLast dryRun archive log → Safe depth keepLast archive := by
  constructor
  · intro h log hsweeps
    have hkept := h []
    have hlog : ∀ version,
        version ∈ (historyGc depth keepLast dryRun archive []).state.trimmedVersions ↔
          version ∈ archive.trimmedVersions ∨
            version ∈ (trimmedRecords keepLast archive).map (·.version) := by
      intro version
      rw [Archive.trimmedVersions, historyGc_log hsweeps, trimmedVersions_log hsweeps]
    have hnamed : ∀ {version}, version ∉ archive.trimmedVersions →
        version ∉ (historyGc depth keepLast dryRun archive []).state.trimmedVersions →
          version ∉ (newlyTrimmed keepLast archive).map (·.version) := by
      intro version hnew hunlogged hnewly
      exact hunlogged ((hlog _).mpr (.inr ((mem_newlyTrimmed hnew).mp hnewly)))
    refine ⟨fun id record hhead hlies hnew => hnamed hnew (hkept.named id record hlies
      (.inr hhead) hnew), fun id record hlies _ hnew => ⟨fun hpin => hnamed hnew
        (hkept.named id record hlies (.inl hpin) hnew), fun hload => ?_⟩⟩
    by_contra hneither
    rw [not_or] at hneither
    have hunlogged : record.version ∉
        (historyGc depth keepLast dryRun archive []).state.trimmedVersions := by
      rw [hlog, not_or]
      exact ⟨hnew, fun htrimmed => hneither.2 ((mem_newlyTrimmed hnew).mpr htrimmed)⟩
    obtain ⟨treeId, parts, htree, -, hthere, -⟩ := hkept.loadable id record hlies hunlogged hload
    rw [historyGc_sweeps_tree hsweeps fun hmem => hneither.1 ⟨treeId, hmem, htree⟩] at hthere
    cases hthere
  · intro h fates
    rcases @historyGc_collected depth keepLast dryRun archive fates with hsame | ⟨log, hsweeps, hcol⟩
    · rw [hsame]
      exact KeptBy.refl
    · exact hcol.keptBy hsweeps (h log hsweeps)

/-! ## Runs of collections -/

/-- What does not change over a collection, and the log that only grows. -/
theorem historyGc_frame (archive : Archive) (fates : List Fate) :
    (historyGc depth keepLast dryRun archive fates).state.head = archive.head ∧
    (historyGc depth keepLast dryRun archive fates).state.commits = archive.commits ∧
    archive.trimmedVersions ⊆
      (historyGc depth keepLast dryRun archive fates).state.trimmedVersions := by
  rcases @historyGc_collected depth keepLast dryRun archive fates with hsame | ⟨log, hsweeps, hcol⟩
  · rw [hsame]
    exact ⟨rfl, rfl, fun _ h => h⟩
  · refine ⟨hcol.head, hcol.commits, fun version h => ?_⟩
    rw [Archive.trimmedVersions, hcol.trimLog]
    exact (trimmedVersions_log hsweeps version).mpr (.inl h)

theorem KeptBy.trans {first second third : Archive} (h : KeptBy depth first second)
    (h' : KeptBy depth second third) (hhead : second.head = first.head)
    (hcommits : second.commits = first.commits)
    (hlog : second.trimmedVersions ⊆ third.trimmedVersions) : KeptBy depth first third := by
  refine ⟨fun id record hlies hasked hnew => ?_, fun id record hlies hnew hload => ?_,
    fun name record hlies hnone hnew => ?_⟩
  · exact h'.named id record (hcommits ▸ hlies) (hhead ▸ hasked)
      (h.named id record hlies hasked hnew)
  · exact h'.loadable id record (hcommits ▸ hlies) hnew
      (h.loadable id record hlies (fun hlogged => hnew (hlog hlogged)) hload)
  · exact h'.legacy name record
      (h.legacy name record hlies hnone fun hlogged => hnew (hlog hlogged)) hnone hnew

variable (depth)

/-- A call of `history_gc`, with the fates of its steps. -/
structure GcCall where
  keepLast : Int
  dryRun : Bool
  fates : List Fate

def runGcs (calls : List GcCall) (archive : Archive) : Archive :=
  calls.foldl (fun archive call =>
    (historyGc depth call.keepLast call.dryRun archive call.fates).state) archive

theorem runGcs_concat (calls : List GcCall) (call : GcCall) (archive : Archive) :
    runGcs depth (calls ++ [call]) archive =
      (historyGc depth call.keepLast call.dryRun (runGcs depth calls archive) call.fates).state := by
  rw [runGcs, foldl_append]
  rfl

theorem runGcs_frame (calls : List GcCall) (archive : Archive) :
    (runGcs depth calls archive).head = archive.head ∧
      (runGcs depth calls archive).commits = archive.commits := by
  induction calls using List.reverseRecOn with
  | nil => exact ⟨rfl, rfl⟩
  | append_singleton calls call ih =>
    obtain ⟨hhead, hcommits, -⟩ := @historyGc_frame depth call.keepLast call.dryRun
      (runGcs depth calls archive) call.fates
    rw [runGcs_concat]
    exact ⟨hhead.trans ih.1, hcommits.trans ih.2⟩

theorem keptBy_run : ∀ {calls : List GcCall},
    (∀ before call, before ++ [call] <+: calls → ∀ log,
      Sweeps call.keepLast call.dryRun (runGcs depth before archive) log →
        Safe depth call.keepLast (runGcs depth before archive)) →
      KeptBy depth archive (runGcs depth calls archive) := by
  intro calls
  induction calls using List.reverseRecOn with
  | nil => exact fun _ => KeptBy.refl
  | append_singleton calls call ih =>
    intro h
    have hbefore := ih fun before call' hearlier =>
      h before call' (hearlier.trans (List.prefix_append calls [call]))
    have hstep := keptBy_iff_safe.mpr (h calls call (prefix_refl _)) call.fates
    obtain ⟨hhead, hcommits⟩ := runGcs_frame depth calls archive
    rw [runGcs_concat]
    exact hbefore.trans hstep hhead hcommits
      (@historyGc_frame depth call.keepLast call.dryRun _ call.fates).2.2

end Collection

/-! ## A pinned version behind a cut -/

def versionNamed (version tree : String) (parent : Option String) (pin : Bool) : VersionRecord where
  version := version
  treeObject := some tree
  parentCommit := parent
  parentGeneration := none
  pin := pin

/-- V4 is HEAD and goes back to V3; the commit object of V2 is missing; V1 is pinned. -/
def cutArchive : Archive where
  head := some "c4"
  headGeneration := none
  generation := none
  journaled := []
  commits := [⟨"c4", versionNamed "V4" "t4" (some "c3") false⟩,
    ⟨"c3", versionNamed "V3" "t3" (some "c2") false⟩,
    ⟨"c1", versionNamed "V1" "t1" none true⟩].toAList
  trees := [⟨"t4", []⟩, ⟨"t3", []⟩, ⟨"t1", []⟩].toAList
  maps := ∅
  blobs := ∅
  generations := ∅
  trimLog := []

theorem cutArchive_exact :
    "t4" ∈ (historyGc 1 1 false cutArchive []).state.trees ∧
      "t1" ∉ (historyGc 1 1 false cutArchive []).state.trees := by
  have hsweeps : Sweeps 1 false cutArchive [⟨"V3", some "t3"⟩] :=
    ⟨rfl, by decide +kernel, by decide +kernel⟩
  have hleft := (@historyGc_exact cutArchive _ 1 1 false hsweeps).1
  refine ⟨mem_objects.mp ((hleft (.tree, "t4")).mpr (by decide +kernel)), fun hmem => ?_⟩
  have hreached := (hleft (.tree, "t1")).mp (mem_objects.mpr hmem)
  revert hreached
  decide +kernel

end Docx2Typed.Store
