import Docx2Typed.Store.Frames

/-!
# The versions of a store

The pointer names the commit of HEAD, and every commit names the one before it.  The objects of a
version land before the pointer that names them, so the chain is whole at every step; whether a
mutation adds to it is decided by the canonical tree alone, once the mutation is at a save boundary.
-/

namespace Docx2Typed.Store

open Library (Program Fate Ending)
open Library.Program

variable {before : Pointer} {boundary : SaveBoundary} {commit : Commit} {content : Content}
  {createdAt : String} {disk : Disk} {files : Files} {id : String} {previous : Pointer}
  {request : Request}

variable {disk disk' : Disk}

section Versions

variable (digests : Digests)

/-- Every object lies under its own hash. -/
structure PoolSound (disk : Disk) : Prop where
  blob : ∀ {id content}, disk.blobs.lookup id = some content → digests.blobId content = id
  tree : ∀ {id tree}, disk.trees.lookup id = some tree → digests.treeId tree = id
  commit : ∀ {id commit}, disk.commits.lookup id = some commit → digests.commitId commit = id

/-- A commit object lies under an id, with its tree and every blob of that. -/
structure Recorded (disk : Disk) (id : String) (commit : Commit) : Prop where
  lies : disk.commits.lookup id = some commit
  tree : ∃ tree, disk.trees.lookup commit.treeObject = some tree ∧
    ∀ part ∈ tree.parts, (disk.blobs.lookup part.2).isSome

/-- The commits that a parent goes back to, and their sequence numbers: down to the root, or to a
commit that has been trimmed. -/
inductive Lineage (trimmed : String → Prop) (disk : Disk) : Option String → Int → Prop
  | root : Lineage trimmed disk none 0
  | trimmed {id : String} {sequence : Int} : trimmed id → Lineage trimmed disk (some id) sequence
  | version {id : String} {commit : Commit} : Recorded disk id commit →
      Lineage trimmed disk commit.parentCommit (commit.seq - 1) →
        Lineage trimmed disk (some id) commit.seq

/-- What a pointer says of HEAD is what the commit of HEAD says. -/
structure HeadCommit (trimmed : String → Prop) (disk : Disk) (head : Head) (id : String)
    (commit : Commit) : Prop where
  named : head.headCommit = some id
  seq : head.versionSeq = some commit.seq
  tree : head.headTree = some commit.headTree
  recorded : Recorded disk id commit
  lineage : Lineage trimmed disk commit.parentCommit (commit.seq - 1)

/-- The version chain is well formed. -/
structure VersionsSound (trimmed : String → Prop) (disk : Disk) : Prop where
  pool : PoolSound digests disk
  head : ∀ {pointer}, disk.pointer = some pointer →
    (pointer.head.headCommit = none ∧ pointer.head.versionSeq = none) ∨
      ∃ id commit, HeadCommit trimmed disk pointer.head id commit

/-! ## Adding objects -/

/-- The second disk is the first with more objects. -/
structure Extends (disk disk' : Disk) : Prop where
  pointer : disk'.pointer = disk.pointer
  blobs : ∀ {id content}, disk.blobs.lookup id = some content →
    disk'.blobs.lookup id = some content
  trees : ∀ {id tree}, disk.trees.lookup id = some tree → disk'.trees.lookup id = some tree
  commits : ∀ {id commit}, disk.commits.lookup id = some commit →
    disk'.commits.lookup id = some commit
  pool : PoolSound digests disk → PoolSound digests disk'

theorem lookup_insert_of_absent {β : Type} {table : Table β} {value : β}
    (habsent : (table.lookup id).isSome = false) {id' : String} {value' : β}
    (h : table.lookup id' = some value') : (table.insert id value).lookup id' = some value' := by
  rcases eq_or_ne id' id with rfl | hne
  · rw [h] at habsent
    cases habsent
  · rw [AList.lookup_insert_ne hne, h]

theorem lookup_insert_cases {β : Type} {table : Table β} {value : β} {id' : String} {value' : β}
    (h : (table.insert id value).lookup id' = some value') :
    (id' = id ∧ value' = value) ∨ table.lookup id' = some value' := by
  rcases eq_or_ne id' id with rfl | hne
  · rw [AList.lookup_insert] at h
    exact .inl ⟨rfl, (Option.some.inj h).symm⟩
  · rw [AList.lookup_insert_ne hne] at h
    exact .inr h

variable {digests}

theorem Extends.recorded (h : Extends digests disk disk') (hrecorded : Recorded disk id commit) :
    Recorded disk' id commit := by
  obtain ⟨hcommit, tree, htree, hparts⟩ := hrecorded
  refine ⟨h.commits hcommit, tree, h.trees htree, fun part hpart => ?_⟩
  obtain ⟨content, hcontent⟩ := Option.isSome_iff_exists.mp (hparts part hpart)
  rw [h.blobs hcontent]
  rfl

variable {trimmed : String → Prop}

section

variable (h : Extends digests disk disk')

include h

theorem Extends.lineage {parent : Option String} {sequence : Int}
    (hlineage : Lineage trimmed disk parent sequence) : Lineage trimmed disk' parent sequence := by
  induction hlineage with
  | root => exact .root
  | trimmed hid => exact .trimmed hid
  | version hrecorded _ ih => exact .version (h.recorded hrecorded) ih

theorem Extends.headCommit {head : Head} (hhead : HeadCommit trimmed disk head id commit) :
    HeadCommit trimmed disk' head id commit :=
  ⟨hhead.named, hhead.seq, hhead.tree, h.recorded hhead.recorded, h.lineage hhead.lineage⟩

theorem Extends.versionsSound (hsound : VersionsSound digests trimmed disk) :
    VersionsSound digests trimmed disk' := by
  refine ⟨h.pool hsound.pool, fun {pointer} hpointer => ?_⟩
  rw [h.pointer] at hpointer
  rcases hsound.head hpointer with hnone | ⟨id, commit, hhead⟩
  · exact .inl hnone
  · exact .inr ⟨id, commit, h.headCommit hhead⟩

end

theorem Extends.of_eq (hpointer : disk'.pointer = disk.pointer) (hblobs : disk'.blobs = disk.blobs)
    (htrees : disk'.trees = disk.trees) (hcommits : disk'.commits = disk.commits) :
    Extends digests disk disk' where
  pointer := hpointer
  blobs h := by rw [hblobs, h]
  trees h := by rw [htrees, h]
  commits h := by rw [hcommits, h]
  pool h := ⟨fun hid => h.blob (hblobs ▸ hid), fun hid => h.tree (htrees ▸ hid),
    fun hid => h.commit (hcommits ▸ hid)⟩

theorem onVersions_versionsSound : OnVersions (VersionsSound digests trimmed) where
  of_eq h _ hpointer hblobs htrees hcommits :=
    (Extends.of_eq hpointer hblobs htrees hcommits).versionsSound h

/-! ## `record_version` -/

/-- A property that more objects do not take away. -/
structure OnExtension (digests : Digests) (I : Disk → Prop) : Prop where
  grow : ∀ {disk disk' : Disk}, I disk → Extends digests disk disk' →
    disk'.generations = disk.generations → I disk'

variable {I : Disk → Prop}

/-- Adding what is not there yet. -/
theorem meets_put {present : Disk → Bool} {add : Disk → Disk}
    (hadd : ∀ disk, present disk = false → I disk → I (add disk) ∧ present (add disk)) :
    Meets I (andThen (look present) fun there => if there then give () else act ioError add)
      (fun _ disk => I disk ∧ present disk) (fun _ => I) I := by
  refine meets_andThen (R := fun there disk => I disk ∧ there = present disk)
    (meets_look fun disk h => ⟨h, rfl⟩) fun there => ?_
  cases there with
  | true => exact meets_give fun disk h => ⟨h.1, h.2.symm⟩
  | false => exact meets_act (fun disk h => hadd disk h.2.symm h.1) (fun _ h => h.1) fun _ h => h.1

section

variable (hI : OnExtension digests I)

include hI

theorem meets_putBlob :
    Meets I (putBlob digests content)
      (fun _ disk => I disk ∧ (disk.blobs.lookup (digests.blobId content)).isSome)
      (fun _ => I) I := by
  refine meets_put fun disk habsent h => ⟨hI.grow h ?_ rfl, by rw [AList.lookup_insert]; rfl⟩
  refine ⟨rfl, lookup_insert_of_absent habsent, id, id, fun hpool => ⟨fun hid => ?_,
    hpool.tree, hpool.commit⟩⟩
  rcases lookup_insert_cases hid with ⟨rfl, rfl⟩ | hold
  · rfl
  · exact hpool.blob hold

theorem meets_putTree {tree : Tree} :
    Meets I (putTree digests tree)
      (fun _ disk => I disk ∧ (disk.trees.lookup (digests.treeId tree)).isSome)
      (fun _ => I) I := by
  refine meets_put fun disk habsent h => ⟨hI.grow h ?_ rfl, by rw [AList.lookup_insert]; rfl⟩
  refine ⟨rfl, id, lookup_insert_of_absent habsent, id, fun hpool => ⟨hpool.blob, fun hid => ?_,
    hpool.commit⟩⟩
  rcases lookup_insert_cases hid with ⟨rfl, rfl⟩ | hold
  · rfl
  · exact hpool.tree hold

theorem meets_putCommit :
    Meets I (putCommit digests commit)
      (fun _ disk => I disk ∧ (disk.commits.lookup (digests.commitId commit)).isSome)
      (fun _ => I) I := by
  refine meets_put fun disk habsent h => ⟨hI.grow h ?_ rfl, by rw [AList.lookup_insert]; rfl⟩
  refine ⟨rfl, id, id, lookup_insert_of_absent habsent, fun hpool => ⟨hpool.blob, hpool.tree,
    fun hid => ?_⟩⟩
  rcases lookup_insert_cases hid with ⟨rfl, rfl⟩ | hold
  · rfl
  · exact hpool.commit hold

theorem OnExtension.andBlob (id : String) :
    OnExtension digests fun disk => I disk ∧ (disk.blobs.lookup id).isSome where
  grow h hext hgenerations := by
    refine ⟨hI.grow h.1 hext hgenerations, ?_⟩
    obtain ⟨content, hcontent⟩ := Option.isSome_iff_exists.mp h.2
    rw [hext.blobs hcontent]
    rfl

theorem OnExtension.andBlobs (contents : List (String × Content)) :
    OnExtension digests fun disk => I disk ∧
      ∀ part ∈ contents, (disk.blobs.lookup (digests.blobId part.2)).isSome where
  grow h hext hgenerations := by
    refine ⟨hI.grow h.1 hext hgenerations, fun part hpart => ?_⟩
    exact ((hI.andBlob (digests.blobId part.2)).grow ⟨h.1, h.2 part hpart⟩ hext hgenerations).2

theorem OnExtension.andTree (id : String) :
    OnExtension digests fun disk => I disk ∧ (disk.trees.lookup id).isSome where
  grow h hext hgenerations := by
    refine ⟨hI.grow h.1 hext hgenerations, ?_⟩
    obtain ⟨tree, htree⟩ := Option.isSome_iff_exists.mp h.2
    rw [hext.trees htree]
    rfl

end

/-- The blobs of a state, written one after the other. -/
theorem meets_putBlobs : ∀ {contents : List (String × Content)} {I : Disk → Prop},
    OnExtension digests I →
      Meets I (each (fun part => putBlob digests part.2) contents)
        (fun _ disk => I disk ∧
          ∀ part ∈ contents, (disk.blobs.lookup (digests.blobId part.2)).isSome)
        (fun _ => I) I
  | [], _, _ => meets_give fun disk h => ⟨h, fun part hpart => absurd hpart List.not_mem_nil⟩
  | part :: contents, I, hI => by
    refine meets_andThen (meets_putBlob hI) fun _ => ?_
    refine (meets_putBlobs (hI.andBlob (digests.blobId part.2))).weaken
      (fun _ h => h) (fun _ disk h => ⟨h.1.1, ?_⟩) (fun _ _ h => h.1) fun _ h => h.1
    exact List.forall_mem_cons.mpr ⟨h.1.2, h.2⟩

theorem lookup_of_isSome_tree (hpool : PoolSound digests disk)
    (hfree : Function.Injective digests.treeId) {tree : Tree}
    (h : (disk.trees.lookup (digests.treeId tree)).isSome) :
    disk.trees.lookup (digests.treeId tree) = some tree := by
  obtain ⟨there, hthere⟩ := Option.isSome_iff_exists.mp h
  rw [hthere, hfree (hpool.tree hthere)]

theorem lookup_of_isSome_commit (hpool : PoolSound digests disk)
    (hfree : Function.Injective digests.commitId)
    (h : (disk.commits.lookup (digests.commitId commit)).isSome) :
    disk.commits.lookup (digests.commitId commit) = some commit := by
  obtain ⟨there, hthere⟩ := Option.isSome_iff_exists.mp h
  rw [hthere, hfree (hpool.commit hthere)]

/-- What `record_version` gives over a pointer: nothing when the canonical tree is that of HEAD,
else the commit of a version whose objects are all there. -/
def VersionGiven (digests : Digests) (files : Files) (boundary : SaveBoundary) (createdAt : String)
    (previous : Pointer) (version : Option Commit) (disk : Disk) : Prop :=
  match version with
  | none => previous.head.headTree = some (canonicalTreeDigest digests files)
  | some commit => previous.head.headTree ≠ some (canonicalTreeDigest digests files) ∧
      commit = commitOf digests files previous boundary createdAt ∧
        Recorded disk (digests.commitId commit) commit

/-- The objects of a new version, in the order they are written. -/
theorem meets_putVersion (hcommit : Function.Injective digests.commitId)
    (htree : Function.Injective digests.treeId) (hI : OnExtension digests I)
    (hpool : ∀ disk, I disk → PoolSound digests disk) :
    Meets I
      (andThen (each (fun part => putBlob digests part.2) (treeContents files)) fun _ =>
        andThen (putTree digests (treeOf digests files (canonicalTreeDigest digests files))) fun _ =>
          andThen (putCommit digests (commitOf digests files previous boundary createdAt)) fun _ =>
            give (some (commitOf digests files previous boundary createdAt)))
      (fun version disk => version = some (commitOf digests files previous boundary createdAt) ∧
        I disk ∧ Recorded disk
          (digests.commitId (commitOf digests files previous boundary createdAt))
          (commitOf digests files previous boundary createdAt))
      (fun _ => I) I := by
  refine meets_andThen (meets_putBlobs hI) fun _ => ?_
  have hblobs := hI.andBlobs (treeContents files)
  refine meets_andThen ((meets_putTree hblobs).weaken (fun _ h => h) (fun _ _ h => h)
    (fun _ _ h => h.1) fun _ h => h.1) fun _ => ?_
  have htrees := hblobs.andTree (digests.treeId (treeOf digests files (canonicalTreeDigest digests
    files)))
  refine meets_andThen ((meets_putCommit htrees).weaken (fun _ h => h) (fun _ _ h => h)
    (fun _ _ h => h.1.1) fun _ h => h.1.1) fun _ => ?_
  refine meets_give fun disk h => ⟨rfl, h.1.1.1, ?_⟩
  have hsound := hpool disk h.1.1.1
  refine ⟨lookup_of_isSome_commit hsound hcommit h.2, _, lookup_of_isSome_tree hsound htree h.1.2,
    fun part hpart => ?_⟩
  obtain ⟨content, hmem, rfl⟩ := List.mem_map.mp hpart
  exact h.1.1.2 content hmem

theorem meets_recordVersion (hcommit : Function.Injective digests.commitId)
    (htree : Function.Injective digests.treeId) (hI : OnExtension digests I)
    (hprevious : ∀ disk, I disk → disk.pointer = some previous)
    (hpool : ∀ disk, I disk → PoolSound digests disk) :
    Meets I (recordVersion digests files boundary createdAt)
      (fun version disk => I disk ∧
        VersionGiven digests files boundary createdAt previous version disk)
      (fun _ => I) I := by
  refine meets_andThen (R := fun pointer disk => I disk ∧ pointer = some previous)
    (meets_look fun disk h => ⟨h, hprevious disk h⟩) fun pointer => meets_knowing fun hpointer => ?_
  subst hpointer
  dsimp only
  split
  · rename_i hsame
    exact meets_give fun disk h => ⟨h, hsame⟩
  · rename_i hother
    refine (meets_putVersion hcommit htree hI hpool).imp fun version disk h => ?_
    obtain ⟨rfl, hdisk, hrecorded⟩ := h
    exact ⟨hdisk, hother, rfl, hrecorded⟩

/-! ## The pointer -/

/-- The pointer has come to a version of its own. -/
def AddsVersion (before after : Pointer) : Prop :=
  after.head.versionSeq = some (before.head.versionSeq.getD 0 + 1)

theorem not_addsVersion {before after : Pointer} (h : after.head = before.head) :
    ¬ AddsVersion before after := by
  intro hadds
  rw [AddsVersion, h] at hadds
  rw [hadds] at hadds
  simp at hadds

/-- At a save boundary a mutation adds a version exactly when the canonical tree of the files is
not that of HEAD; elsewhere it adds none. -/
def AddsFor (digests : Digests) (request : Request) (before after : Pointer) (files : Files) :
    Prop :=
  (request.saveBoundary = true →
    (AddsVersion before after ↔
      before.head.headTree ≠ some (canonicalTreeDigest digests files))) ∧
  (request.saveBoundary = false → ¬ AddsVersion before after)

/-- What holds from the move of the pointer on. -/
structure Committed (digests : Digests) (trimmed : String → Prop) (request : Request)
    (before : Pointer) (disk : Disk) : Prop where
  sound : VersionsSound digests trimmed disk
  adds : before.generation ≠ request.generationId → ∀ after, disk.pointer = some after →
    after.generation = request.generationId →
      AddsFor digests request before after
        ((disk.generations.lookup request.generationId).getD ∅)

/-- What holds up to it. -/
structure Uncommitted (digests : Digests) (trimmed : String → Prop) (before : Pointer)
    (disk : Disk) : Prop where
  sound : VersionsSound digests trimmed disk
  pointer : disk.pointer = some before

theorem onVersions_uncommitted :
    OnVersions (Uncommitted digests trimmed before) where
  of_eq h _ hpointer hblobs htrees hcommits :=
    ⟨onVersions_versionsSound.of_eq h.sound hpointer hblobs htrees hcommits,
      hpointer.trans h.pointer⟩

theorem onExtension_uncommitted {before : Pointer} {generations : Table Files} :
    OnExtension digests fun disk =>
      Uncommitted digests trimmed before disk ∧ disk.generations = generations where
  grow h hext hgenerations :=
    ⟨⟨hext.versionsSound h.1.sound, hext.pointer.trans h.1.pointer⟩, hgenerations.trans h.2⟩

theorem Uncommitted.committed (h : Uncommitted digests trimmed before disk) :
    Committed digests trimmed request before disk := by
  refine ⟨h.sound, fun hfresh after hafter hgeneration => ?_⟩
  obtain rfl := Option.some.inj (h.pointer.symm.trans hafter)
  exact absurd hgeneration hfresh

section

variable (hsound : VersionsSound digests trimmed disk)

include hsound

/-- The pointer that `commit_pointer` writes names a version that is recorded. -/
theorem headCommit_of_recorded {createdAt generation operationId manifestSha256 : String}
    (hpointer : disk.pointer = some previous) (hrecorded : Recorded disk
      (digests.commitId (commitOf digests files previous boundary createdAt))
      (commitOf digests files previous boundary createdAt)) :
    HeadCommit trimmed disk
      (pointerPayload digests disk.pointer generation operationId manifestSha256
        (some (commitOf digests files previous boundary createdAt))).head
      (digests.commitId (commitOf digests files previous boundary createdAt))
      (commitOf digests files previous boundary createdAt) := by
  refine ⟨rfl, rfl, rfl, hrecorded, ?_⟩
  have hsequence : (commitOf digests files previous boundary createdAt).seq - 1 =
      previous.head.versionSeq.getD 0 := by
    simp [commitOf]
  rw [hsequence]
  change Lineage trimmed disk previous.head.headCommit _
  rcases hsound.head hpointer with ⟨hcommit, hseq⟩ | ⟨id, commit, hhead⟩
  · rw [hcommit, hseq]
    exact .root
  · rw [hhead.named, hhead.seq]
    exact .version hhead.recorded hhead.lineage

theorem VersionsSound.setPointer {pointer : Pointer}
    (hpointer : (pointer.head.headCommit = none ∧ pointer.head.versionSeq = none) ∨
      ∃ id commit, HeadCommit trimmed disk pointer.head id commit) :
    VersionsSound digests trimmed (disk.setPointer pointer) := by
  refine ⟨⟨hsound.pool.blob, hsound.pool.tree, hsound.pool.commit⟩, fun h => ?_⟩
  obtain rfl := Option.some.inj h
  rcases hpointer with hnone | ⟨id, commit, hhead⟩
  · exact .inl hnone
  · refine .inr ⟨id, commit, hhead.named, hhead.seq, hhead.tree,
      ⟨hhead.recorded.lies, hhead.recorded.tree⟩, ?_⟩
    have hlineage : ∀ {parent sequence}, Lineage trimmed disk parent sequence →
        Lineage trimmed (disk.setPointer pointer) parent sequence := by
      intro parent sequence h
      induction h with
      | root => exact .root
      | trimmed hid => exact .trimmed hid
      | version hrecorded _ ih => exact .version ⟨hrecorded.lies, hrecorded.tree⟩ ih
    exact hlineage hhead.lineage

/-- A pointer that carries the version fields over. -/
theorem VersionsSound.carry {generation operationId manifestSha256 : String} :
    VersionsSound digests trimmed (disk.setPointer
      (pointerPayload digests disk.pointer generation operationId manifestSha256 none)) := by
  refine hsound.setPointer ?_
  cases hpointer : disk.pointer with
  | none => exact .inl ⟨rfl, rfl⟩
  | some previous =>
    have hhead := hsound.head hpointer
    exact hhead

end

/-- The pointer written over what `record_version` has given. -/
theorem committed_of_given {m : Mutation} {version : Option Commit}
    (hbefore : Uncommitted digests trimmed before disk)
    (hsave : request.saveBoundary = true → VersionGiven digests
      ((disk.generations.lookup request.generationId).getD ∅) boundary createdAt before version disk)
    (hedit : request.saveBoundary = false → version = none) :
    Committed digests trimmed request before (disk.setPointer
      (pointerPayload digests disk.pointer request.generationId request.operationId
        m.manifestSha256 version)) := by
  cases version with
  | none =>
    refine ⟨hbefore.sound.carry, fun _ after hafter _ => ?_⟩
    obtain rfl := Option.some.inj hafter
    have hhead : (pointerPayload digests disk.pointer request.generationId request.operationId
        m.manifestSha256 none).head = before.head := by
      rw [hbefore.pointer]
      rfl
    refine ⟨fun h => iff_of_false (not_addsVersion hhead) (not_not.mpr ?_),
      fun _ => not_addsVersion hhead⟩
    exact hsave h
  | some commit =>
    have hboundary : request.saveBoundary = true := by
      by_contra h
      exact Option.some_ne_none _ (hedit (Bool.eq_false_iff.mpr h))
    obtain ⟨hother, hcommit, hrecorded⟩ := hsave hboundary
    rw [hcommit] at hrecorded ⊢
    refine ⟨hbefore.sound.setPointer
      (.inr ⟨_, _, headCommit_of_recorded hbefore.sound hbefore.pointer hrecorded⟩),
      fun _ after hafter _ => ⟨fun _ => ?_, fun h => ?_⟩⟩
    · obtain rfl := Option.some.inj hafter
      exact iff_of_true rfl hother
    · rw [hboundary] at h
      cases h

theorem meets_commitPointer (hcommit : Function.Injective digests.commitId)
    (htree : Function.Injective digests.treeId) {m : Mutation} :
    Meets (Uncommitted digests trimmed before) (commitPointer digests request m)
      (fun _ => Committed digests trimmed request before)
      (fun _ => Uncommitted digests trimmed before) (Uncommitted digests trimmed before) := by
  unfold commitPointer
  split
  swap
  · exact meets_give fun disk h => h.committed
  refine meets_of_start fun state hstate => meets_look_at ?_
  refine Meets.of_imp (P := fun disk => Uncommitted digests trimmed before disk ∧
    disk.generations = state.generations) ?_ fun disk h => by rw [h]; exact ⟨hstate, rfl⟩
  have hset : ∀ version, Meets
      (fun disk => (Uncommitted digests trimmed before disk ∧
        disk.generations = state.generations) ∧
          (request.saveBoundary = true → VersionGiven digests
            ((state.generations.lookup request.generationId).getD ∅)
            (request.boundary.getD { origin := request.operation }) request.createdAt before version
            disk) ∧ (request.saveBoundary = false → version = none))
      (act ioError fun disk => disk.setPointer
        (pointerPayload digests disk.pointer request.generationId request.operationId
          m.manifestSha256 version))
      (fun _ => Committed digests trimmed request before)
      (fun _ => Uncommitted digests trimmed before) (Uncommitted digests trimmed before) := by
    intro version
    refine meets_act (fun disk h => ?_) (fun disk h => h.1.1) fun disk h => h.1.1
    obtain ⟨⟨hbefore, hgenerations⟩, hsave, hedit⟩ := h
    rw [← hgenerations] at hsave
    exact committed_of_given hbefore hsave hedit
  split
  · rename_i hboundary
    refine meets_bind ((meets_recordVersion hcommit htree
      (@onExtension_uncommitted _ _ before state.generations)
      (fun _ h => h.1.pointer) (fun _ h => h.1.sound.pool)).weaken (fun _ h => h)
      (fun version disk h => ?_) (fun _ _ h => h.1) fun _ h => h.1) hset
    exact ⟨h.1, fun _ => h.2, fun hedit => absurd hboundary (by rw [hedit]; decide)⟩
  · rename_i hboundary
    refine meets_bind (meets_give fun disk h => ?_) hset
    exact ⟨h, fun hsave => absurd hsave hboundary, fun _ => rfl⟩

/-! ## Whole mutations -/

theorem onStates_committed :
    OnStates (Committed digests trimmed request before) where
  of_eq h disk' hpointer hgenerations hblobs htrees hcommits := by
    refine ⟨onVersions_versionsSound.of_eq h.sound hpointer hblobs htrees hcommits, ?_⟩
    intro hfresh after hafter hgeneration
    rw [hpointer] at hafter
    rw [hgenerations]
    exact h.adds hfresh after hafter hgeneration

/-- A file that is no canonical asset has no part in the canonical tree. -/
theorem canonicalTreeDigest_insert {name : String} (hname : name ∉ canonicalAssets) :
    canonicalTreeDigest digests (files.insert name content) = canonicalTreeDigest digests files := by
  rw [canonicalTreeDigest, canonicalTreeDigest]
  congr 1
  refine List.map_congr_left fun asset hasset => ?_
  have hne : asset ≠ name := fun h => hname (h ▸ hasset)
  rw [AList.lookup_insert_ne hne]

theorem Committed.writeGeneration (h : Committed digests trimmed request before disk)
    {generation name : String} (hname : name ∉ canonicalAssets) :
    Committed digests trimmed request before
      (disk.writeFile (.generation generation name) content) := by
  refine ⟨onVersions_versionsSound.writeFile h.sound, fun hfresh after hafter hgeneration => ?_⟩
  have hadds := h.adds hfresh after hafter hgeneration
  rcases eq_or_ne request.generationId generation with rfl | hne
  · simp only [Disk.writeFile, AList.lookup_insert, Option.getD_some]
    rw [AddsFor, canonicalTreeDigest_insert hname]
    exact hadds
  · simp only [Disk.writeFile]
    rw [AList.lookup_insert_ne hne]
    exact hadds

theorem Committed.writeLedgerAt (h : Committed digests trimmed request before disk)
    {envelope : Envelope} {canonical : String} {anchor : Place} {directory : Bool} :
    Committed digests trimmed request before
      (writeLedgerAt envelope canonical anchor directory disk) := by
  unfold Store.writeLedgerAt
  cases anchor with
  | generation generation => exact h.writeGeneration (by decide)
  | root => exact onStates_committed.of_eq h rfl rfl rfl rfl rfl
  | outside path =>
    cases directory <;> exact onStates_committed.of_eq h rfl rfl rfl rfl rfl

/-- A mutation whose generation the pointer has come to select and still has its files adds a
version as it has changed the canonical tree. -/
def AddsAsChanged (digests : Digests) (request : Request) (before : Pointer) (disk : Disk) :
    Prop :=
  before.generation ≠ request.generationId → ∀ after files, disk.pointer = some after →
    after.generation = request.generationId →
      disk.generations.lookup request.generationId = some files →
        AddsFor digests request before after files

/-- What holds whichever way a mutation has ended. -/
structure Ended (digests : Digests) (trimmed : String → Prop) (request : Request)
    (before : Pointer) (disk : Disk) : Prop where
  sound : VersionsSound digests trimmed disk
  adds : AddsAsChanged digests request before disk

theorem Committed.ended (h : Committed digests trimmed request before disk) :
    Ended digests trimmed request before disk := by
  refine ⟨h.sound, fun hfresh after files hafter hgeneration hfiles => ?_⟩
  have hadds := h.adds hfresh after hafter hgeneration
  rw [hfiles] at hadds
  exact hadds

theorem onStates_ended :
    OnStates (Ended digests trimmed request before) where
  of_eq h disk' hpointer hgenerations hblobs htrees hcommits := by
    refine ⟨onVersions_versionsSound.of_eq h.sound hpointer hblobs htrees hcommits, ?_⟩
    intro hfresh after files hafter hgeneration hfiles
    rw [hpointer] at hafter
    rw [hgenerations] at hfiles
    exact h.adds hfresh after files hafter hgeneration hfiles

/-- `abort` after the pointer has moved. -/
theorem keeps_abort_ended {α : Type} {committed : Bool} {error : StoreError} :
    Keeps (Ended digests trimmed request before)
      (abort digests request before committed error : Program Disk StoreError α) := by
  have hback : ∀ disk, Ended digests trimmed request before disk →
      Ended digests trimmed request before (disk.setPointer
        (pointerPayload digests disk.pointer before.generation ""
          (recordedAssetsSha256 disk before.generation) none)) := by
    refine fun disk h => ⟨h.sound.carry, fun hfresh after files hafter hgeneration => ?_⟩
    obtain rfl := Option.some.inj hafter
    exact absurd hgeneration hfresh
  have hremove : ∀ disk, Ended digests trimmed request before disk →
      Ended digests trimmed request before (disk.removeGeneration request.generationId) := by
    refine fun disk h => ⟨onVersions_versionsSound.of_eq h.sound rfl rfl rfl rfl,
      fun _ after files _ _ hfiles => ?_⟩
    rw [Disk.removeGeneration, AList.lookup_erase] at hfiles
    cases hfiles
  exact keeps_abort_of digests (fun _ => hback) hremove
    (fun _ h => onStates_ended.of_eq h rfl rfl rfl rfl rfl)
    (fun _ h => onStates_ended.of_eq h rfl rfl rfl rfl rfl)
    fun _ h => onStates_ended.of_eq h rfl rfl rfl rfl rfl

variable {canonicalSource : Files → Option TargetPath}

theorem admission_pointer {pointer : Pointer}
    (h : admission digests canonicalSource disk request = .proceed pointer) :
    disk.pointer = some pointer := by
  unfold admission at h
  repeat' split at h
  all_goals simp_all

theorem Uncommitted.ended (h : Uncommitted digests trimmed before disk) :
    Ended digests trimmed request before disk :=
  h.committed.ended

/-- Whichever way a mutation ends, the chain is sound, and a version has been added as the
canonical tree has changed. -/
theorem meets_mutate (hcommit : Function.Injective digests.commitId)
    (htree : Function.Injective digests.treeId) {request : Request} {before : Pointer} :
    Meets (Uncommitted digests trimmed before) (mutate digests canonicalSource request)
      (fun _ => Ended digests trimmed request before)
      (fun _ => Ended digests trimmed request before) (Ended digests trimmed request before) := by
  have hearly : OnVersions (Uncommitted digests trimmed before) := onVersions_uncommitted
  have hend : ∀ disk, Uncommitted digests trimmed before disk →
      Ended digests trimmed request before disk := fun _ h => h.ended
  refine meets_bind ((keeps_settlePending hearly digests).weaken (fun _ h => h) (fun _ _ h => h)
    (fun _ => hend) hend) fun _ => ?_
  refine meets_bind (R := fun admitted disk => Uncommitted digests trimmed before disk ∧
    ∀ pointer, admitted = .proceed pointer → pointer = before)
    (meets_look fun disk h => ⟨h, fun pointer hproceed => ?_⟩) fun admitted => ?_
  · have hpointer := admission_pointer hproceed
    exact Option.some.inj (hpointer.symm.trans h.pointer)
  · refine meets_knowing fun hproceed => ?_
    cases admitted with
    | refuse error => exact meets_fail hend
    | replay envelope => exact meets_give hend
    | proceed pointer =>
      obtain rfl := hproceed pointer rfl
      refine meets_bind ((keeps_beginJournal hearly digests).weaken (fun _ h => h) (fun _ _ h => h)
        (fun _ => hend) hend) fun _ => ?_
      have hadvance : Meets (Uncommitted digests trimmed pointer)
          (advance digests canonicalSource request pointer)
          (fun _ => Committed digests trimmed request pointer)
          (fun _ => Uncommitted digests trimmed pointer) (Uncommitted digests trimmed pointer) := by
        refine meets_bind (keeps_prepare hearly digests) fun prepared => ?_
        refine meets_bind (keeps_publishExternals hearly.onStates.onWorkdir digests) fun m => ?_
        exact meets_bind (meets_commitPointer hcommit htree) fun _ => meets_give fun _ h => h
      refine meets_bind (R := fun _ => Committed digests trimmed request pointer) ?_ fun m => ?_
      · refine meets_handle (R := fun _ => Uncommitted digests trimmed pointer)
          (hadvance.weaken (fun _ h => h) (fun _ _ h => h) (fun _ _ h => h) hend) fun error => ?_
        exact ((keeps_abort hearly digests).fails (fails_abort digests)).weaken (fun _ h => h)
          (fun _ _ h => h) (fun _ => hend) hend
      · refine meets_handle (R := fun _ => Ended digests trimmed request pointer)
          ((keeps_conclude onStates_committed digests fun _ h => h.writeLedgerAt).weaken
            (fun _ h => h) (fun _ _ h => h.ended) (fun _ _ h => h.ended) fun _ h => h.ended)
          fun error => keeps_abort_ended

/-- A mutation without a pointer goes no further than its recovery. -/
theorem keeps_mutate_of_none :
    Keeps (fun disk => VersionsSound digests trimmed disk ∧ disk.pointer = none)
      (mutate digests canonicalSource request) := by
  have hI : OnVersions fun disk => VersionsSound digests trimmed disk ∧ disk.pointer = none := by
    refine ⟨fun h _ hpointer hblobs htrees hcommits => ⟨?_, hpointer.trans h.2⟩⟩
    exact onVersions_versionsSound.of_eq h.1 hpointer hblobs htrees hcommits
  refine keeps_bind (keeps_settlePending hI digests) fun _ => ?_
  refine meets_bind (R := fun admitted disk => (VersionsSound digests trimmed disk ∧
    disk.pointer = none) ∧ ∀ pointer, admitted ≠ .proceed pointer)
    (meets_look fun disk h => ⟨h, fun pointer hproceed => ?_⟩) fun admitted => ?_
  · have hpointer := admission_pointer hproceed
    rw [h.2] at hpointer
    cases hpointer
  · refine meets_knowing fun hproceed => ?_
    cases admitted with
    | refuse error => exact keeps_fail
    | replay envelope => exact keeps_give
    | proceed pointer => exact absurd rfl (hproceed pointer)

/-! ## Runs -/

end Versions

/-- What is called on a store. -/
inductive Call where
  | mutate (request : Request)
  | recover

section Runs

variable (digests : Digests) (canonicalSource : Files → Option TargetPath)

/-- The disk after a call, whichever way it ends. -/
def Call.run (call : Call) (disk : Disk) (fates : List Fate) : Disk :=
  match call with
  | .mutate request => (Store.mutate digests canonicalSource request disk fates).state
  | .recover => (Store.recover digests disk fates).state

/-- The disk after calls, each with the fates of its steps. -/
def runCalls (calls : List (Call × List Fate)) (disk : Disk) : Disk :=
  calls.foldl (fun disk call => call.1.run digests canonicalSource disk call.2) disk

variable {digests} {canonicalSource} {trimmed : String → Prop}

section

variable (hcommit : Function.Injective digests.commitId)

include hcommit

theorem VersionsSound.mutate (htree : Function.Injective digests.treeId)
    (h : VersionsSound digests trimmed disk) (request : Request) (fates : List Fate) :
    VersionsSound digests trimmed (Store.mutate digests canonicalSource request disk fates).state := by
  cases hpointer : disk.pointer with
  | none => exact (keeps_mutate_of_none.left ⟨h, hpointer⟩ fates).1
  | some before =>
    have hended := @meets_mutate _ trimmed canonicalSource hcommit htree request before disk fates
      (⟨h, hpointer⟩ : Uncommitted digests trimmed before disk)
    cases hending : (Store.mutate digests canonicalSource request disk fates).ending <;>
      (rw [hending] at hended; exact hended.sound)

theorem VersionsSound.runCalls (htree : Function.Injective digests.treeId)
    {calls : List (Call × List Fate)} :
    ∀ {disk : Disk}, VersionsSound digests trimmed disk →
      VersionsSound digests trimmed (runCalls digests canonicalSource calls disk) := by
  induction calls with
  | nil => exact fun h => h
  | cons call calls ih =>
    intro disk h
    refine ih ?_
    obtain ⟨call, fates⟩ := call
    cases call with
    | mutate request => exact h.mutate hcommit htree request fates
    | recover => exact (keeps_recover onVersions_versionsSound digests).left h fates

theorem ended_mutate (htree : Function.Injective digests.treeId)
    (h : VersionsSound digests trimmed disk) (hpointer : disk.pointer = some before)
    (request : Request) (fates : List Fate) :
    AddsAsChanged digests request before
      (Store.mutate digests canonicalSource request disk fates).state := by
  have hended := @meets_mutate _ trimmed canonicalSource hcommit htree request before disk fates
    (⟨h, hpointer⟩ : Uncommitted digests trimmed before disk)
  cases hending : (Store.mutate digests canonicalSource request disk fates).ending <;>
    (rw [hending] at hended; exact hended.adds)

end

/-- In every run the version chain stays well formed, and a mutation whose generation the pointer
comes to select adds a version exactly when it is at a save boundary and its canonical tree is not
that of HEAD. -/
theorem versions_wellFormed (hcommit : Function.Injective digests.commitId)
    (htree : Function.Injective digests.treeId) {disk : Disk}
    (h : VersionsSound digests trimmed disk) (calls : List (Call × List Fate)) :
    VersionsSound digests trimmed (runCalls digests canonicalSource calls disk) ∧
      ∀ before request fates,
        (runCalls digests canonicalSource calls disk).pointer = some before →
          AddsAsChanged digests request before (Store.mutate digests canonicalSource request
            (runCalls digests canonicalSource calls disk) fates).state :=
  ⟨h.runCalls hcommit htree, fun _ request fates hbefore =>
    ended_mutate hcommit htree (h.runCalls hcommit htree) hbefore request fates⟩

end Runs

/-! ## An edit that is no save -/

section Sample

open Library (PrefixCode)

def treeCode : PrefixCode Tree :=
  (PrefixCode.pair (.option .text) (.list (.pair .text .text))).map
    (fun tree => (tree.digest, tree.parts)) fun a b h => by
      cases a
      cases b
      simp_all

def commitCode : PrefixCode Commit :=
  (PrefixCode.pair .text (.pair .int (.pair (.option .text) (.pair (.option .text)
    (.pair (.option .text) (.pair .text (.pair .text (.pair .int (.pair .text
      (.pair (.option .text) (.pair .bool (.pair (.option .text) .text)))))))))))).map
    (fun c => (c.version, c.seq, c.parentVersion, c.parentGeneration, c.parentCommit, c.headTree,
      c.treeObject, c.baselineEpoch, c.origin, c.label, c.pin, c.restoredFrom, c.createdAt))
    fun a b h => by
      cases a
      cases b
      simp_all

/-- The text of a file, in place of its hash. -/
def spelledContent : Content → String
  | .text text => text
  | .ledger _ => "ledger"
  | .manifest manifest => manifest.assetsSha256

/-- Values written out, in place of their hashes. -/
def spelledDigests : Digests where
  semanticSha256 := spelledBody
  fileSha256 := spelledContent
  pointerSha256 pointer := pointer.generation
  assetsSha256 assets := String.join (assets.map (·.2))
  treeDigest assets := String.join (assets.map fun asset => asset.2.getD "")
  evidenceSha256 evidence := evidence
  envelopeSha256 envelope := envelope.data
  blobId := spelledContent
  treeId tree := String.ofList (treeCode.spell tree)
  commitId commit := String.ofList (commitCode.spell commit)

end Sample

/-- A store with one generation and no version yet. -/
def sampleDisk : Disk where
  pointer := some { generation := "gen-0", operationId := none, manifestSha256 := none, head := {} }
  root := AList.singleton "typed.md" (.text "old")
  generations := AList.singleton "gen-0" (AList.singleton "typed.md" (.text "old"))
  transactions := ∅
  staging := ∅
  outside _ := none
  registry _ := none
  epoch := 1
  blobs := ∅
  trees := ∅
  commits := ∅

/-- An edit of the text that is not at a save boundary. -/
def plainEdit : Request where
  operation := "edit"
  operationId := "op-1"
  canonical := "canonical"
  inputSha256 := ""
  expectedGeneration := "gen-0"
  generation := true
  saveBoundary := false
  kind := "edit"
  run files := .ok
    { outcome := "success", data := "", evidence := "run"
      files := files.insert "typed.md" (.text "new") }
  generationId := "gen-1"
  createdAt := "now"

def noSource : Files → Option TargetPath := fun _ => none

/-- The pointer after the edit, which no step has failed in. -/
theorem plainEdit_committed :
    let disk := (mutate spelledDigests noSource plainEdit sampleDisk []).state
    disk.pointer.map (fun after => (after.generation, after.head.versionSeq)) =
        some ("gen-1", none) ∧
      (disk.generations.lookup "gen-1").map (canonicalTreeDigest spelledDigests) = some "new" := by
  decide +kernel

/-- It has been committed with another canonical tree than HEAD has, and has added no version. -/
theorem plainEdit_addsNone : ∃ before after files,
    sampleDisk.pointer = some before ∧
    (mutate spelledDigests noSource plainEdit sampleDisk []).state.pointer = some after ∧
    after.generation = plainEdit.generationId ∧
    (mutate spelledDigests noSource plainEdit sampleDisk []).state.generations.lookup
      plainEdit.generationId = some files ∧
    before.head.headTree ≠ some (canonicalTreeDigest spelledDigests files) ∧
    ¬ AddsVersion before after := by
  obtain ⟨hpointer, hfiles⟩ := plainEdit_committed
  obtain ⟨after, hafter, hmoved⟩ := Option.map_eq_some_iff.mp hpointer
  obtain ⟨files, hlies, -⟩ := Option.map_eq_some_iff.mp hfiles
  obtain ⟨hgeneration, hseq⟩ := Prod.mk.inj hmoved
  refine ⟨_, after, files, rfl, hafter, hgeneration, hlies, by simp, fun hadds => ?_⟩
  rw [AddsVersion, hseq] at hadds
  cases hadds

theorem sampleDisk_sound : VersionsSound spelledDigests (fun _ => False) sampleDisk := by
  refine ⟨⟨fun h => ?_, fun h => ?_, fun h => ?_⟩, fun h => .inl ?_⟩
  · cases h
  · cases h
  · cases h
  · obtain rfl := Option.some.inj h
    exact ⟨rfl, rfl⟩

/-- The same edit at a save boundary. -/
def savedEdit : Request := { plainEdit with saveBoundary := true }

theorem savedEdit_wellFormed :
    VersionsSound spelledDigests (fun _ => False) (runCalls spelledDigests noSource
      [(.mutate savedEdit, []), (.recover, [.stop])] sampleDisk) ∧
      ∀ before request fates,
        (runCalls spelledDigests noSource [(.mutate savedEdit, []), (.recover, [.stop])]
          sampleDisk).pointer = some before →
          AddsAsChanged spelledDigests request before
            (mutate spelledDigests noSource request (runCalls spelledDigests noSource
              [(.mutate savedEdit, []), (.recover, [.stop])] sampleDisk) fates).state :=
  versions_wellFormed (fun _ _ h => commitCode.spell_injective (String.ofList_injective h))
    (fun _ _ h => treeCode.spell_injective (String.ofList_injective h)) sampleDisk_sound _

example : (mutate spelledDigests noSource savedEdit sampleDisk []).state.pointer.map
  (·.head.versionSeq) = some (some 1) := by decide +kernel

end Docx2Typed.Store
