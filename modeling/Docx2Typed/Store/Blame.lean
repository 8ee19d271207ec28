import Docx2Typed.Store.ParagraphBlocks
import Docx2Typed.Store.Restore

/-!
# Who changed a paragraph

`history_diff` compares the paragraphs of two versions by their digests, `history_blame` walks from
HEAD and compares the blocks of one paragraph.  A block that cannot be read counts as absent in the
walk, where the diff is refused: `blameRight_iff` says when the two agree.
-/

namespace Docx2Typed.Store

open Library List

/-! ## Reading a version -/

/-- A history and what it is read with; `typed` is the `typed.md` of each generation, `order` reads
a JSON array of ids, and `sha` is SHA-256 over a text. -/
structure HistoryReader where
  archive : Archive
  depth : ℕ
  typed : Table String
  order : String → Option (List String)
  sha : Text → String

namespace HistoryReader

variable (reader : HistoryReader)

def chain : List VersionRecord := versionChain reader.archive

/-- `read_bytes` of a blob. -/
def readBytes (blob : String) : Option Text :=
  match reader.archive.blobs.lookup blob with
  | some (.text text) => some text.toList
  | _ => none

/-- `typed_part` of `typed.md`. -/
def typedPart (record : VersionRecord) : Option Part :=
  (record.treeObject.bind reader.archive.trees.lookup).bind fun parts => parts.lookup "typed.md"

def bucketEntries : ℕ := 64

def readTable (map : String) : Option (Table String) :=
  (readMap reader.archive.maps reader.depth map).map tableOf

/-- `read_chunk_id` of a part that is split. -/
def readChunkId (order chunks : String) (key : String) : Option String := do
  let ids ← (reader.readBytes order).bind fun text => reader.order (String.ofList text)
  let index ← (ids.insertionSort (· ≤ ·)).findIdx? (· == key)
  match reader.archive.maps.lookup chunks with
  | some (.buckets buckets) => do
    let bucket ← buckets[index / bucketEntries]?
    (← reader.readTable bucket).lookup key
  | _ => none

/-- `generation_typed_text`. -/
def generationTypedText (generation : Option String) : Option Text :=
  ((generation.filter (· ≠ "")).bind reader.typed.lookup).map String.toList

/-- `paragraph_block`. -/
def paragraphBlock (record : VersionRecord) (paragraphId : String) : Option Text :=
  match reader.typedPart record with
  | some (.split order _ _ (some chunks)) => do
    reader.readBytes (← reader.readChunkId (← order) chunks paragraphId)
  | some (.split _ _ _ none) => none
  | some (.whole blob) => do
    (splitParagraphBlocks (← reader.readBytes blob)).lookup paragraphId
  | none => do
    (splitParagraphBlocks (← reader.generationTypedText record.generation)).lookup paragraphId

/-- `block_digest`. -/
def blockDigest (record : VersionRecord) (paragraphId : String) : String :=
  reader.sha ((reader.paragraphBlock record paragraphId).getD [])

/-- The digests of the blocks of a text. -/
def blockDigests (text : Text) : Table String :=
  tableOf ((splitParagraphBlocks text).entries.map fun entry => (entry.1, reader.sha entry.2))

/-- `typed_paragraph_digests`: the digests, and whether they are blob ids. -/
def typedParagraphDigests (record : VersionRecord) : Option (Table String × Bool) :=
  match reader.typedPart record with
  | some (.split _ _ _ (some chunks)) => (reader.readTable chunks).map fun table => (table, true)
  | some (.split _ _ _ none) => none
  | some (.whole blob) => (reader.readBytes blob).map fun text => (reader.blockDigests text, false)
  | none => (reader.generationTypedText record.generation).map fun text =>
      (reader.blockDigests text, false)

/-! ## `history_diff` -/

def readableSide (record : VersionRecord) : Except StoreError (Table String × Bool) :=
  match reader.typedParagraphDigests record with
  | some side => .ok side
  | none =>
    if record.version ∈ reader.archive.trimmedVersions then
      .error (.store versionTrimmed (record.version ++
        " was trimmed by retention; its content is gone on purpose"))
    else
      .error (.store "version-content-missing" (record.version ++
        " has no readable pooled content"))

structure DiffReport where
  against : Option String
  added : List String
  changed : List String
  removed : List String
  unchanged : ℕ

/-- The digests of a version by its blocks, for the ids that it has. -/
def blockTable (record : VersionRecord) (table : Table String) : Table String :=
  tableOf (table.keys.map fun key => (key, reader.blockDigest record key))

/-- What two tables of digests differ in. -/
def compareDigests (against : Option String) (new old : Table String) : DiffReport :=
  let added := new.keys.filter fun key => (old.lookup key).isNone
  let shared := new.keys.filter fun key => (old.lookup key).isSome
  let changed := shared.filter fun key => old.lookup key ≠ new.lookup key
  { against, added, changed
    removed := old.keys.filter fun key => (new.lookup key).isNone
    unchanged := shared.length - changed.length }

/-- The comparison of a version with another one, or with nothing. -/
def diffRecords (newer : VersionRecord) (parent : Option VersionRecord) :
    Except StoreError DiffReport := do
  let new ← reader.readableSide newer
  match parent with
  | some parent =>
    let old ← reader.readableSide parent
    if new.2 ≠ old.2 then
      -- blob ids and content hashes are not comparable identities
      pure (compareDigests (some parent.version) (reader.blockTable newer new.1)
        (reader.blockTable parent old.1))
    else pure (compareDigests (some parent.version) new.1 old.1)
  | none =>
    if new.2 ≠ true then pure (compareDigests none (reader.blockTable newer new.1) ∅)
    else pure (compareDigests none new.1 ∅)

def historyDiff (version : String) (against : Option String) : Except StoreError DiffReport :=
  match reader.chain.findIdx? (·.version == version) with
  | none => .error (versionNotFound version)
  | some position =>
    match reader.chain[position]? with
    | none => .error (versionNotFound version)
    | some newer =>
      match against with
      | some against =>
        match reader.chain.find? (·.version == against) with
        | none => .error (versionNotFound against)
        | some record => reader.diffRecords newer (some record)
      | none => reader.diffRecords newer reader.chain[position + 1]?

/-! ## `history_blame` -/

inductive BlameState where
  | added
  | modified
  deriving DecidableEq

inductive Blame where
  | absent
  | found (state : BlameState) (version : String) (previous : Option String)
  | unknown (version : Option String)

/-- The loop of `history_blame`. -/
def blameFrom (paragraphId : String) (last : Option String) : List VersionRecord → Blame
  | [] => .unknown last
  | record :: rest =>
    let parentBlock := rest.head?.bind fun parent => reader.paragraphBlock parent paragraphId
    if parentBlock ≠ reader.paragraphBlock record paragraphId then
      .found (if parentBlock.isNone then .added else .modified) record.version
        (if parentBlock.isNone then none else rest.head?.map (·.version))
    else blameFrom paragraphId last rest

def historyBlame (paragraphId : String) : Except StoreError Blame :=
  match reader.chain with
  | [] => .error (.store "version-not-found" "the workdir has no versions")
  | head :: _ =>
    if (reader.paragraphBlock head paragraphId).isNone then .ok .absent
    else .ok (reader.blameFrom paragraphId (reader.chain.getLast?.map (·.version)) reader.chain)


/-! ## A history as the store keeps it -/

/-- The chunks of a split part lie in buckets by the place of their key among the sorted keys. -/
structure InBuckets (order chunks : String) (entries : List (String × String)) : Prop where
  keys : ∃ text ids, reader.readBytes order = some text ∧
    reader.order (String.ofList text) = some ids ∧ ids.Nodup ∧
    entries.map Prod.fst = ids.insertionSort (· ≤ ·)
  table : reader.readTable chunks = some (tableOf entries)
  buckets : ∃ buckets, reader.archive.maps.lookup chunks = some (.buckets buckets) ∧
    ∀ number, number * bucketEntries < entries.length → ∃ bucket, buckets[number]? = some bucket ∧
      reader.readTable bucket =
        some (tableOf ((entries.drop (number * bucketEntries)).take bucketEntries))
  blobs : ∀ entry ∈ entries, (reader.readBytes entry.2).isSome

/-- Versions have names of their own, contents are kept under their digests, and a tree that is
there has its chunks. -/
structure Sound : Prop where
  versions : (reader.chain.map (·.version)).Nodup
  addresses : ∀ {blob blob' text}, reader.readBytes blob = some text →
    reader.readBytes blob' = some text → blob = blob'
  digests : Function.Injective reader.sha
  parts : ∀ record ∈ reader.chain, ∀ {order header rest chunks},
    reader.typedPart record = some (.split order header rest (some chunks)) →
      ∃ blob entries, order = some blob ∧ reader.InBuckets blob chunks entries

variable {reader} {record parent : VersionRecord} {id : String}

variable {entries : List (String × String)}

section

variable {order chunks : String} (h : reader.InBuckets order chunks entries)

include h

theorem InBuckets.nodup : (entries.map Prod.fst).Nodup := by
  obtain ⟨_, ids, -, -, hnodup, hkeys⟩ := h.keys
  rw [hkeys]
  exact (perm_insertionSort _ ids).nodup_iff.mpr hnodup

/-- The bucket of a key has what the whole map has under it. -/
theorem InBuckets.readChunkId (key : String) :
    reader.readChunkId order chunks key = (tableOf entries).lookup key := by
  have hnodup := h.nodup
  obtain ⟨text, ids, htext, hids, -, hkeys⟩ := h.keys
  obtain ⟨buckets, hmap, hbuckets⟩ := h.buckets
  rw [HistoryReader.readChunkId, htext, Option.bind_some, hids]
  show ((ids.insertionSort (· ≤ ·)).findIdx? (· == key)).bind _ = _
  rw [← hkeys, hmap]
  cases hindex : (entries.map Prod.fst).findIdx? (· == key) with
  | none =>
    have hnot : key ∉ entries.map Prod.fst := fun hmem => by
      have := findIdx?_eq_none_iff.mp hindex key hmem
      simp at this
    rw [← lookup_tableOf_isSome, Bool.not_eq_true, Option.isSome_eq_false_iff,
      Option.isNone_iff_eq_none] at hnot
    rw [hnot]
    rfl
  | some index =>
    obtain ⟨hlt, hkey, -⟩ := findIdx?_eq_some_iff_getElem.mp hindex
    rw [length_map] at hlt
    rw [getElem_map, beq_iff_eq] at hkey
    have hstart : index / bucketEntries * bucketEntries ≤ index := Nat.div_mul_le_self _ _
    obtain ⟨bucket, hbucket, htable⟩ := hbuckets (index / bucketEntries) (by omega)
    have hmem : entries[index] ∈
        (entries.drop (index / bucketEntries * bucketEntries)).take bucketEntries := by
      rw [mem_take_iff_getElem]
      refine ⟨index - index / bucketEntries * bucketEntries, ?_, ?_⟩
      · have hrest := Nat.div_add_mod' index bucketEntries
        have hmod := Nat.mod_lt index (show bucketEntries > 0 by decide)
        rw [length_drop]
        omega
      · rw [getElem_drop]
        congr 1
        omega
    have hpart : (((entries.drop (index / bucketEntries * bucketEntries)).take
        bucketEntries).map Prod.fst).Nodup :=
      hnodup.sublist (((take_sublist _ _).trans (drop_sublist _ _)).map _)
    show (buckets[index / bucketEntries]?).bind _ = _
    rw [hbucket, Option.bind_some, htable]
    show (tableOf _).lookup key = _
    rw [← hkey, lookup_tableOf_of_mem hpart hmem,
      lookup_tableOf_of_mem hnodup (getElem_mem hlt)]

end

/-! ## Digests and blocks -/

variable (reader) in
/-- What stands in a table for a block: the id of a blob that has it, or its digest. -/
def IdentityOf (chunked : Bool) (identity : String) (block : Text) : Prop :=
  if chunked then reader.readBytes identity = some block else identity = reader.sha block

variable (reader) in
/-- A table has an identity for each block, and for nothing else. -/
def Identifies (chunked : Bool) (table : Table String) (blocks : String → Option Text) : Prop :=
  ∀ id, Option.Rel (reader.IdentityOf chunked) (table.lookup id) (blocks id)

variable {chunked : Bool}

theorem identity_eq_iff (hsound : reader.Sound) {identity identity' : String} {block block' : Text}
    (h : reader.IdentityOf chunked identity block) (h' : reader.IdentityOf chunked identity' block')
    : identity = identity' ↔ block = block' := by
  cases chunked with
  | false =>
    obtain rfl : identity = reader.sha block := h
    obtain rfl : identity' = reader.sha block' := h'
    exact hsound.digests.eq_iff
  | true =>
    have hread : reader.readBytes identity = some block := h
    have hread' : reader.readBytes identity' = some block' := h'
    constructor
    · rintro rfl
      exact Option.some.inj (hread.symm.trans hread')
    · rintro rfl
      exact hsound.addresses hread hread'

theorem lookup_blockDigests (text : Text) (id : String) :
    (reader.blockDigests text).lookup id =
      ((splitParagraphBlocks text).lookup id).map reader.sha := by
  have h := lookup_tableOf_map (fun _ block => reader.sha block)
    ((splitParagraphBlocks text).entries.map fun entry => (entry.1, entry.2)) id
  rw [map_map] at h
  rw [← lookup_tableOf_entries (splitParagraphBlocks text), ← h]
  rfl

theorem rel_map (hchunked : chunked = false) (block : Option Text) :
    Option.Rel (reader.IdentityOf chunked) (block.map reader.sha) block := by
  subst hchunked
  cases block with
  | none => exact .none
  | some block => exact .some rfl

variable {table : Table String}

/-- The digests of a version are those of its blocks. -/
theorem identifies_digests (hsound : reader.Sound) (hmem : record ∈ reader.chain)
    (h : reader.typedParagraphDigests record = some (table, chunked)) :
    reader.Identifies chunked table (reader.paragraphBlock record) := by
  intro id
  cases hpart : reader.typedPart record with
  | none =>
    rw [typedParagraphDigests, hpart] at h
    obtain ⟨text, htext, heq⟩ := Option.map_eq_some_iff.mp h
    obtain ⟨rfl, rfl⟩ := Prod.mk.inj heq
    rw [paragraphBlock, hpart]
    show Option.Rel _ _ ((reader.generationTypedText record.generation).bind _)
    rw [htext, lookup_blockDigests]
    exact rel_map rfl _
  | some part =>
    cases part with
    | whole blob =>
      rw [typedParagraphDigests, hpart] at h
      obtain ⟨text, htext, heq⟩ := Option.map_eq_some_iff.mp h
      obtain ⟨rfl, rfl⟩ := Prod.mk.inj heq
      rw [paragraphBlock, hpart]
      show Option.Rel _ _ ((reader.readBytes blob).bind _)
      rw [htext, lookup_blockDigests]
      exact rel_map rfl _
    | split order header rest chunks =>
      cases chunks with
      | none =>
        rw [typedParagraphDigests, hpart] at h
        cases h
      | some chunks =>
        rw [typedParagraphDigests, hpart] at h
        obtain ⟨blob, entries, rfl, hbuckets⟩ := hsound.parts record hmem hpart
        dsimp only at h
        rw [hbuckets.table] at h
        obtain ⟨rfl, rfl⟩ := Prod.mk.inj (Option.some.inj h)
        rw [paragraphBlock, hpart]
        show Option.Rel _ _ ((reader.readChunkId blob chunks id).bind _)
        rw [hbuckets.readChunkId]
        cases hlookup : (tableOf entries).lookup id with
        | none => exact .none
        | some identity =>
          have hthere := hbuckets.blobs _ (mem_of_lookup_tableOf hlookup)
          obtain ⟨block, hblock⟩ := Option.isSome_iff_exists.mp hthere
          rw [Option.bind_some, hblock]
          exact .some hblock

/-- A version with a block can be compared. -/
theorem digests_of_block (hsound : reader.Sound) (hmem : record ∈ reader.chain)
    (h : (reader.paragraphBlock record id).isSome) :
    (reader.typedParagraphDigests record).isSome := by
  cases hpart : reader.typedPart record with
  | none =>
    rw [paragraphBlock, hpart] at h
    rw [typedParagraphDigests, hpart, Option.isSome_map]
    exact Option.isSome_of_isSome_bind h
  | some part =>
    cases part with
    | whole blob =>
      rw [paragraphBlock, hpart] at h
      rw [typedParagraphDigests, hpart, Option.isSome_map]
      exact Option.isSome_of_isSome_bind h
    | split order header rest chunks =>
      cases chunks with
      | none =>
        rw [paragraphBlock, hpart] at h
        cases h
      | some chunks =>
        obtain ⟨blob, entries, -, hbuckets⟩ := hsound.parts record hmem hpart
        rw [typedParagraphDigests, hpart, Option.isSome_map, hbuckets.table]
        rfl

theorem identifies_blockTable (h : reader.Identifies chunked table (reader.paragraphBlock record)) :
    reader.Identifies false (reader.blockTable record table)
      (reader.paragraphBlock record) := by
  intro id
  have hlookup : (reader.blockTable record table).lookup id =
      (reader.paragraphBlock record id).map reader.sha := by
    have hrel := h id
    rw [blockTable, lookup_tableOf_names]
    cases hblock : reader.paragraphBlock record id with
    | none =>
      rw [hblock] at hrel
      have hnone : table.lookup id = none := by
        generalize table.lookup id = found at hrel ⊢
        cases hrel
        rfl
      rw [if_neg (fun hmem => AList.lookup_eq_none.mp hnone (AList.mem_keys.mpr hmem))]
      rfl
    | some block =>
      rw [hblock] at hrel
      have hsome : (table.lookup id).isSome := by
        generalize table.lookup id = found at hrel ⊢
        cases hrel
        rfl
      rw [if_pos (AList.mem_keys.mp (AList.lookup_isSome.mp hsome)), blockDigest, hblock]
      rfl
  rw [hlookup]
  exact rel_map rfl _

/-! ## What a diff reports -/

/-- A report is about these blocks of the two sides. -/
structure DiffReport.IsAbout (report : DiffReport) (new old : String → Option Text) : Prop where
  added : ∀ {id}, id ∈ report.added ↔ (new id).isSome ∧ old id = none
  changed : ∀ {id}, id ∈ report.changed ↔ (new id).isSome ∧ (old id).isSome ∧ old id ≠ new id
  removed : ∀ {id}, id ∈ report.removed ↔ (old id).isSome ∧ new id = none

def DiffReport.ReportsNew (report : DiffReport) (id : String) : Prop :=
  id ∈ report.added ∨ id ∈ report.changed

/-- The paragraph is among those of which a report gives the number only. -/
def DiffReport.ReportsUnchanged (report : DiffReport) (id : String) : Prop :=
  id ∉ report.added ∧ id ∉ report.changed ∧ id ∉ report.removed

variable {new old : String → Option Text} {report : DiffReport}

theorem DiffReport.IsAbout.reportsNew_iff (h : report.IsAbout new old) {id : String} :
    report.ReportsNew id ↔ (new id).isSome ∧ old id ≠ new id := by
  rw [DiffReport.ReportsNew, h.added, h.changed]
  cases hold : old id with
  | none =>
    cases hnew : new id with
    | none => simp
    | some block => simp
  | some block => simp

theorem DiffReport.IsAbout.reportsUnchanged_iff (h : report.IsAbout new old) {id : String} :
    report.ReportsUnchanged id ↔ old id = new id := by
  rw [DiffReport.ReportsUnchanged, h.added, h.changed, h.removed]
  cases hold : old id with
  | none =>
    cases hnew : new id with
    | none => simp
    | some block => simp
  | some block =>
    cases hnew : new id with
    | none => simp
    | some block' => simp

theorem Identifies.lookup_isSome {blocks : String → Option Text}
    (h : reader.Identifies chunked table blocks) (id : String) :
    (table.lookup id).isSome = (blocks id).isSome := by
  have hrel := h id
  generalize table.lookup id = found at hrel ⊢
  generalize blocks id = block at hrel ⊢
  cases hrel with
  | none => rfl
  | some => rfl

variable {newBlocks oldBlocks : String → Option Text}

theorem Identifies.lookup_eq_iff (hsound : reader.Sound) {new old : Table String}
    (hnew : reader.Identifies chunked new newBlocks)
    (hold : reader.Identifies chunked old oldBlocks) (id : String) :
    old.lookup id = new.lookup id ↔ oldBlocks id = newBlocks id := by
  have hnew := hnew id
  have hold := hold id
  generalize new.lookup id = newFound at hnew ⊢
  generalize old.lookup id = oldFound at hold ⊢
  generalize newBlocks id = newBlock at hnew ⊢
  generalize oldBlocks id = oldBlock at hold ⊢
  cases hnew with
  | none =>
    cases hold with
    | none => simp
    | some hold => simp
  | some hnew =>
    cases hold with
    | none => simp
    | some hold =>
      rw [Option.some_inj, Option.some_inj]
      exact identity_eq_iff hsound hold hnew

theorem compareDigests_isAbout (hsound : reader.Sound) {new old : Table String}
    (against : Option String) (hnew : reader.Identifies chunked new newBlocks)
    (hold : reader.Identifies chunked old oldBlocks) :
    (compareDigests against new old).IsAbout newBlocks oldBlocks := by
  have hkeys : ∀ {id}, id ∈ new.keys ↔ (newBlocks id).isSome := fun {id} => by
    rw [← hnew.lookup_isSome, ← AList.mem_keys, AList.lookup_isSome]
  have hnone : ∀ {id}, (old.lookup id).isNone ↔ oldBlocks id = none := fun {id} => by
    have := hold.lookup_isSome id
    rw [← Option.not_isSome, this, Option.not_isSome, Option.isNone_iff_eq_none]
  refine ⟨fun {id} => ?_, fun {id} => ?_, fun {id} => ?_⟩
  · show id ∈ new.keys.filter _ ↔ _
    rw [mem_filter, hkeys, hnone]
  · show id ∈ (new.keys.filter _).filter _ ↔ _
    rw [mem_filter, mem_filter, hkeys, hold.lookup_isSome, decide_eq_true_eq, Ne,
      hnew.lookup_eq_iff hsound hold, and_assoc]
  · show id ∈ old.keys.filter _ ↔ _
    have hold' : id ∈ old.keys ↔ (oldBlocks id).isSome := by
      rw [← hold.lookup_isSome, ← AList.mem_keys, AList.lookup_isSome]
    have hnew' : (new.lookup id).isNone ↔ newBlocks id = none := by
      have := hnew.lookup_isSome id
      rw [← Option.not_isSome, this, Option.not_isSome, Option.isNone_iff_eq_none]
    rw [mem_filter, hold', hnew']

theorem identifies_empty (chunked : Bool) : reader.Identifies chunked ∅ fun _ => none := by
  intro id
  rw [AList.lookup_empty]
  exact .none

theorem readableSide_eq_ok_iff {side : Table String × Bool} :
    reader.readableSide record = .ok side ↔ reader.typedParagraphDigests record = some side := by
  rw [readableSide]
  cases reader.typedParagraphDigests record with
  | none =>
    dsimp only
    split <;> simp
  | some found => simp

variable (reader) in
/-- The content of a version is there. -/
def Readable (record : VersionRecord) : Prop := (reader.typedParagraphDigests record).isSome

variable (reader) in
/-- The blocks of what a version is compared with. -/
def parentBlocks (parent : Option VersionRecord) (id : String) : Option Text :=
  parent.bind fun parent => reader.paragraphBlock parent id

theorem readable_of_diffRecords {parent : Option VersionRecord}
    (h : reader.diffRecords record parent = .ok report) :
    reader.Readable record ∧ ∀ older ∈ parent, reader.Readable older := by
  rw [diffRecords] at h
  cases hnew : reader.readableSide record with
  | error error =>
    rw [hnew] at h
    cases h
  | ok new =>
    rw [hnew] at h
    refine ⟨Option.isSome_iff_exists.mpr ⟨new, readableSide_eq_ok_iff.mp hnew⟩, ?_⟩
    rintro older holder
    obtain rfl := Option.mem_def.mp holder
    cases hold : reader.readableSide older with
    | error error =>
      have h : (reader.readableSide older).bind _ = .ok report := h
      rw [hold] at h
      cases h
    | ok old => exact Option.isSome_iff_exists.mpr ⟨old, readableSide_eq_ok_iff.mp hold⟩

theorem diffRecords_isAbout (hsound : reader.Sound) (hmem : record ∈ reader.chain)
    {parent : Option VersionRecord} (hparent : ∀ older ∈ parent, older ∈ reader.chain)
    (hreadable : reader.Readable record) (hold : ∀ older ∈ parent, reader.Readable older) :
    ∃ report, reader.diffRecords record parent = .ok report ∧
      report.IsAbout (reader.paragraphBlock record) (reader.parentBlocks parent) := by
  obtain ⟨⟨new, shape⟩, hnew⟩ := Option.isSome_iff_exists.mp hreadable
  have hidentifies := identifies_digests hsound hmem hnew
  rw [diffRecords, readableSide_eq_ok_iff.mpr hnew]
  cases parent with
  | none =>
    cases shape with
    | true => exact ⟨_, rfl, compareDigests_isAbout hsound none hidentifies (identifies_empty _)⟩
    | false =>
      exact ⟨_, rfl, compareDigests_isAbout hsound none (identifies_blockTable hidentifies)
        (identifies_empty _)⟩
  | some older =>
    obtain ⟨⟨old, shape'⟩, holder⟩ := Option.isSome_iff_exists.mp (hold older rfl)
    have hidentifies' := identifies_digests hsound (hparent older rfl) holder
    show ∃ report, (reader.readableSide older).bind _ = .ok report ∧ _
    rw [readableSide_eq_ok_iff.mpr holder]
    by_cases hshape : shape = shape'
    · subst hshape
      refine ⟨compareDigests (some older.version) new old, ?_,
        compareDigests_isAbout hsound _ hidentifies hidentifies'⟩
      show (if shape ≠ shape then _ else _) = _
      rw [if_neg (not_not_intro rfl)]
      rfl
    · refine ⟨compareDigests (some older.version) (reader.blockTable record new)
        (reader.blockTable older old), ?_, compareDigests_isAbout hsound _
          (identifies_blockTable hidentifies) (identifies_blockTable hidentifies')⟩
      show (if shape ≠ shape' then _ else _) = _
      rw [if_pos hshape]
      rfl

/-! ## Who is to blame -/

variable (reader) in
/-- A version changed a paragraph: `history_diff` against its parent reports it as added or
changed, and between the version and HEAD it is unchanged. -/
def Changed (id version : String) : Prop :=
  (∃ report, reader.historyDiff version none = .ok report ∧ report.ReportsNew id) ∧
  ∃ head ∈ reader.chain.head?, ∃ report,
    reader.historyDiff head.version (some version) = .ok report ∧ report.ReportsUnchanged id

variable (reader) in
/-- No version since changed it. -/
def LastChanged (id version : String) : Prop :=
  reader.Changed id version ∧
    ∀ newer ∈ reader.chain.takeWhile (·.version ≠ version), ¬ reader.Changed id newer.version

variable (reader) in
/-- The version named is the last that changed the paragraph, or there is none. -/
def NamesLast (id : String) : Blame → Prop
  | .absent => False
  | .found _ version _ => reader.LastChanged id version
  | .unknown _ => ∀ record ∈ reader.chain, ¬ reader.Changed id record.version

variable (reader) in
def BlameRight (id : String) : Prop :=
  ∃ blame, reader.historyBlame id = .ok blame ∧ reader.NamesLast id blame

variable (reader) in
def InHead (id : String) : Prop :=
  ∃ head ∈ reader.chain.head?, (reader.paragraphBlock head id).isSome

variable (reader) in
/-- Down to the first parent with another block, the content of every parent is there. -/
def Traceable (id : String) : List VersionRecord → Prop
  | record :: parent :: rest => reader.Readable parent ∧
    (reader.paragraphBlock parent id = reader.paragraphBlock record id →
      Traceable id (parent :: rest))
  | _ => True

section Place

variable {before rest : List VersionRecord} {head : VersionRecord}

section

variable (hsound : reader.Sound)

include hsound

theorem findIdx?_of_place (hplace : reader.chain = before ++ record :: rest) :
    reader.chain.findIdx? (·.version == record.version) = some before.length := by
  have hnodup := hsound.versions
  rw [hplace, map_append, map_cons] at hnodup
  rw [hplace, findIdx?_append]
  have hbefore : before.findIdx? (·.version == record.version) = none := by
    refine findIdx?_eq_none_iff.mpr fun older holder => ?_
    refine beq_eq_false_iff_ne.mpr fun heq => ?_
    exact (nodup_append.mp hnodup).2.2 _ (mem_map_of_mem holder) _
      mem_cons_self heq
  rw [hbefore, findIdx?_cons, beq_self_eq_true]
  simp

theorem historyDiff_parent (hplace : reader.chain = before ++ record :: rest) :
    reader.historyDiff record.version none = reader.diffRecords record rest.head? := by
  rw [historyDiff, findIdx?_of_place hsound hplace]
  have hrecord : reader.chain[before.length]? = some record := by
    rw [hplace, getElem?_append_right (Nat.le_refl _), Nat.sub_self]
    rfl
  have hrest : reader.chain[before.length + 1]? = rest.head? := by
    rw [hplace, getElem?_append_right (Nat.le_add_right _ 1),
      Nat.add_sub_cancel_left, getElem?_cons_succ, head?_eq_getElem?]
  dsimp only
  rw [hrecord, hrest]

theorem historyDiff_head (hhead : reader.chain.head? = some head) (hmem : record ∈ reader.chain) :
    reader.historyDiff head.version (some record.version) =
      reader.diffRecords head (some record) := by
  obtain ⟨tail, hchain⟩ := head?_eq_some_iff.mp hhead
  obtain ⟨before, rest, hplace⟩ := append_of_mem hmem
  have hfirst : reader.chain[0]? = some head := by
    rw [hchain]
    rfl
  have hfound : reader.chain.find? (·.version == record.version) = some record := by
    have hnodup := hsound.versions
    rw [hplace, map_append, map_cons] at hnodup
    rw [hplace, find?_append]
    have hbefore : before.find? (·.version == record.version) = none := by
      refine find?_eq_none.mpr fun older holder heq => ?_
      exact (nodup_append.mp hnodup).2.2 _ (mem_map_of_mem holder) _
        mem_cons_self (beq_iff_eq.mp heq)
    rw [hbefore, find?_cons, beq_self_eq_true]
    rfl
  rw [historyDiff, @findIdx?_of_place _ head [] tail hsound hchain]
  dsimp only [length_nil]
  rw [hfirst, hfound]

theorem takeWhile_of_place (hplace : reader.chain = before ++ record :: rest) :
    reader.chain.takeWhile (·.version ≠ record.version) = before := by
  have hnodup := hsound.versions
  rw [hplace, map_append, map_cons] at hnodup
  have hbefore : ∀ older ∈ before, decide (older.version ≠ record.version) = true :=
    fun older holder => decide_eq_true fun heq =>
      (nodup_append.mp hnodup).2.2 _ (mem_map_of_mem holder) _ mem_cons_self heq
  rw [hplace, takeWhile_append_of_pos hbefore, takeWhile_cons_of_neg (by simp),
    append_nil]

/-- A version with the block of HEAD changed the paragraph when its parent, whose content is there,
has another block. -/
theorem changed_iff (hplace : reader.chain = before ++ record :: rest)
    (hhead : reader.chain.head? = some head) (hthere : (reader.paragraphBlock head id).isSome)
    (hsame : reader.paragraphBlock record id = reader.paragraphBlock head id) :
    reader.Changed id record.version ↔ (∀ older ∈ rest.head?, reader.Readable older) ∧
      reader.parentBlocks rest.head? id ≠ reader.paragraphBlock record id := by
  have hmem : record ∈ reader.chain := hplace ▸ mem_append_right _ mem_cons_self
  have hhead' : head ∈ reader.chain := mem_of_mem_head? hhead
  have hreadable : reader.Readable record := digests_of_block hsound hmem (hsame ▸ hthere)
  have hparents : ∀ older ∈ rest.head?, older ∈ reader.chain := fun older holder =>
    hplace ▸ mem_append_right _ (mem_cons_of_mem _ (mem_of_mem_head? holder))
  constructor
  · rintro ⟨⟨report, hreport, hnew⟩, -⟩
    rw [historyDiff_parent hsound hplace] at hreport
    have hold := (readable_of_diffRecords hreport).2
    obtain ⟨report', hreport', habout⟩ :=
      diffRecords_isAbout hsound hmem hparents hreadable hold
    obtain rfl := Except.ok.inj (hreport.symm.trans hreport')
    exact ⟨hold, (habout.reportsNew_iff.mp hnew).2⟩
  · rintro ⟨hold, hne⟩
    obtain ⟨report, hreport, habout⟩ := diffRecords_isAbout hsound hmem hparents hreadable hold
    refine ⟨⟨report, (historyDiff_parent hsound hplace).trans hreport,
      habout.reportsNew_iff.mpr ⟨hsame ▸ hthere, hne⟩⟩, head, hhead, ?_⟩
    obtain ⟨report', hreport', habout'⟩ := @diffRecords_isAbout _ _ hsound hhead' (some record)
      (fun older holder => Option.mem_some.mp holder ▸ hmem)
      (digests_of_block hsound hhead' hthere)
      (fun older holder => Option.mem_some.mp holder ▸ hreadable)
    exact ⟨report', (historyDiff_head hsound hhead hmem).trans hreport',
      habout'.reportsUnchanged_iff.mpr hsame⟩

/-- The first version of the walk whose parent has another block is the last to have changed the
paragraph, if the content of the parent is there. -/
theorem lastChanged_iff (hplace : reader.chain = before ++ record :: rest)
    (hhead : reader.chain.head? = some head) (hthere : (reader.paragraphBlock head id).isSome)
    (hsame : reader.paragraphBlock record id = reader.paragraphBlock head id)
    (hbefore : ∀ newer ∈ before, ¬ reader.Changed id newer.version)
    (hne : reader.parentBlocks rest.head? id ≠ reader.paragraphBlock record id) :
    reader.LastChanged id record.version ↔ ∀ older ∈ rest.head?, reader.Readable older := by
  rw [LastChanged, takeWhile_of_place hsound hplace,
    changed_iff hsound hplace hhead hthere hsame]
  exact ⟨fun h => h.1.1, fun h => ⟨⟨h, hne⟩, hbefore⟩⟩

end

end Place

theorem blameFrom_cons (last : Option String) (rest : List VersionRecord) :
    reader.blameFrom id last (record :: rest) =
      if reader.parentBlocks rest.head? id ≠ reader.paragraphBlock record id then
        .found (if (reader.parentBlocks rest.head? id).isNone then .added else .modified)
          record.version
          (if (reader.parentBlocks rest.head? id).isNone then none
            else rest.head?.map (·.version))
      else reader.blameFrom id last rest := by
  rw [blameFrom]
  rfl

/-- The walk from a version with the block of HEAD, none of the later ones having changed it. -/
theorem namesLast_blameFrom_iff (hsound : reader.Sound) {head : VersionRecord}
    (hhead : reader.chain.head? = some head) (hthere : (reader.paragraphBlock head id).isSome)
    (last : Option String) {rest before : List VersionRecord}
    (hplace : reader.chain = before ++ record :: rest)
    (hsame : reader.paragraphBlock record id = reader.paragraphBlock head id)
    (hbefore : ∀ newer ∈ before, ¬ reader.Changed id newer.version) :
    reader.NamesLast id (reader.blameFrom id last (record :: rest)) ↔
      reader.Traceable id (record :: rest) := by
  induction rest generalizing before record with
  | nil =>
    have hne : reader.parentBlocks ([] : List VersionRecord).head? id ≠
        reader.paragraphBlock record id := by
      rw [hsame]
      intro h
      rw [← h] at hthere
      cases hthere
    rw [blameFrom_cons, if_pos hne]
    show reader.LastChanged id record.version ↔ True
    rw [lastChanged_iff hsound hplace hhead hthere hsame hbefore hne]
    simp
  | cons parent rest ih =>
    have hparents : reader.parentBlocks (parent :: rest).head? id =
      reader.paragraphBlock parent id := rfl
    rw [blameFrom_cons]
    by_cases hblock : reader.paragraphBlock parent id = reader.paragraphBlock record id
    · have hnot : ¬ reader.Changed id record.version := fun h =>
        ((changed_iff hsound hplace hhead hthere hsame).mp h).2 hblock
      have hnext : reader.chain = (before ++ [record]) ++ parent :: rest := by
        rw [hplace, append_assoc, singleton_append]
      have hmem : parent ∈ reader.chain := hnext ▸ mem_append_right _ mem_cons_self
      have hreadable : reader.Readable parent :=
        digests_of_block hsound hmem (hblock.trans hsame ▸ hthere)
      rw [if_neg (not_not_intro (hparents.trans hblock)),
        ih hnext (hblock.trans hsame) (forall_mem_append.mpr
          ⟨hbefore, forall_mem_singleton.mpr hnot⟩)]
      show _ ↔ reader.Readable parent ∧ (_ → _)
      exact ⟨fun h => ⟨hreadable, fun _ => h⟩, fun h => h.2 hblock⟩
    · rw [if_pos (fun h => hblock (hparents.symm.trans h))]
      show reader.LastChanged id record.version ↔ reader.Readable parent ∧ (_ → _)
      rw [lastChanged_iff hsound hplace hhead hthere hsame hbefore hblock]
      constructor
      · intro h
        exact ⟨h parent rfl, fun heq => (hblock heq).elim⟩
      · rintro ⟨h, -⟩ older holder
        exact Option.mem_some.mp holder ▸ h

/-- The version that `history_blame` names is the last that changed the paragraph exactly when the
content of every parent is there, down to the first that has another block. -/
theorem blameRight_iff (hsound : reader.Sound) (hhead : reader.InHead id) :
    reader.BlameRight id ↔ reader.Traceable id reader.chain := by
  obtain ⟨head, hhead, hthere⟩ := hhead
  obtain ⟨tail, hchain⟩ := List.head?_eq_some_iff.mp hhead
  have hplace : reader.chain = [] ++ head :: tail := hchain
  have hwalk := namesLast_blameFrom_iff hsound hhead hthere
    (reader.chain.getLast?.map (·.version)) hplace rfl (List.forall_mem_nil _)
  have hblame : reader.historyBlame id =
      .ok (reader.blameFrom id (reader.chain.getLast?.map (·.version)) (head :: tail)) := by
    rw [historyBlame, hchain]
    dsimp only
    rw [if_neg (fun h => Option.not_isSome_iff_eq_none.mpr (Option.isNone_iff_eq_none.mp h) hthere)]
  rw [BlameRight, hblame, hchain, ← hwalk, hchain]
  exact ⟨fun ⟨blame, hblame, h⟩ => Except.ok.inj hblame ▸ h, fun h => ⟨_, rfl, h⟩⟩

/-! ## A paragraph behind a trimmed version -/

/-- V2 is HEAD and goes back to V1, which has another text of the paragraph P1. -/
def reworded : HistoryReader where
  archive :=
    { head := some "c2"
      headGeneration := none
      generation := none
      journaled := []
      commits := [⟨"c2", versionNamed "V2" "t2" (some "c1") false⟩,
        ⟨"c1", versionNamed "V1" "t1" none false⟩].toAList
      trees := [⟨"t2", [("typed.md", .whole "b2")]⟩, ⟨"t1", [("typed.md", .whole "b1")]⟩].toAList
      maps := ∅
      blobs := [⟨"b2", .text "<!--@p id=\"P1\"-->\nnew"⟩,
        ⟨"b1", .text "<!--@p id=\"P1\"-->\nold"⟩].toAList
      generations := ∅
      trimLog := [] }
  depth := 1
  typed := ∅
  order := fun _ => none
  sha := String.ofList

/-- The same chain after a collection that has dropped the content of V1. -/
def trimmed : HistoryReader :=
  { reworded with
    archive := { reworded.archive with
      trees := [⟨"t2", [("typed.md", .whole "b2")]⟩].toAList
      blobs := [⟨"b2", .text "<!--@p id=\"P1\"-->\nnew"⟩].toAList
      trimLog := [⟨"V1", some "t1"⟩] } }

theorem addresses_of_entries
    (h : ∀ entry ∈ reader.archive.blobs.entries, ∀ entry' ∈ reader.archive.blobs.entries,
      entry.2 = entry'.2 → entry.1 = entry'.1) {blob blob' : String} {text : Text}
    (hread : reader.readBytes blob = some text) (hread' : reader.readBytes blob' = some text) :
    blob = blob' := by
  have hentry : ∀ {blob}, reader.readBytes blob = some text →
      (⟨blob, .text (String.ofList text)⟩ : Sigma fun _ : String => Content) ∈
        reader.archive.blobs.entries := fun {blob} hread => by
    rw [readBytes] at hread
    split at hread
    · rename_i content hlookup
      rw [← Option.some.inj hread, String.ofList_toList]
      exact AList.mem_lookup_iff.mp hlookup
    · cases hread
  exact h _ (hentry hread) _ (hentry hread') rfl

/-- A history of parts that are not split. -/
theorem sound_of_whole (hversions : (reader.chain.map (·.version)).Nodup)
    (hblobs : ∀ entry ∈ reader.archive.blobs.entries,
      ∀ entry' ∈ reader.archive.blobs.entries, entry.2 = entry'.2 → entry.1 = entry'.1)
    (hsha : reader.sha = String.ofList)
    (hparts : ∀ record ∈ reader.chain, reader.typedPart record ∈ [none, some (.whole "b2"),
      some (.whole "b1")]) : reader.Sound := by
  refine ⟨hversions, addresses_of_entries hblobs, ?_, ?_⟩
  · rw [hsha]
    exact fun _ _ => String.ofList_injective
  · intro record hmem order header rest chunks hpart
    have h := hparts record hmem
    rw [hpart] at h
    simp at h

theorem reworded_chain : reworded.chain =
    [versionNamed "V2" "t2" (some "c1") false, versionNamed "V1" "t1" none false] := by
  decide +kernel

theorem trimmed_chain : trimmed.chain =
    [versionNamed "V2" "t2" (some "c1") false, versionNamed "V1" "t1" none false] := by
  decide +kernel

theorem reworded_sound : reworded.Sound :=
  sound_of_whole (by decide +kernel) (by decide +kernel) rfl (by decide +kernel)

theorem trimmed_sound : trimmed.Sound :=
  sound_of_whole (by decide +kernel) (by decide +kernel) rfl (by decide +kernel)

/-- V2 is to blame for the wording of the paragraph. -/
theorem reworded_blamed : reworded.BlameRight "P1" := by
  refine (blameRight_iff reworded_sound ⟨_, by rw [reworded_chain]; rfl, ?_⟩).mpr ?_
  · decide +kernel
  · rw [reworded_chain]
    refine ⟨?_, fun _ => trivial⟩
    show (reworded.typedParagraphDigests _).isSome = true
    decide +kernel

/-- With V1 trimmed, V2 is said to have added the paragraph, and the diff of V2 is refused. -/
theorem trimmed_blamed : trimmed.Sound ∧ trimmed.InHead "P1" ∧
    "V1" ∈ trimmed.archive.trimmedVersions ∧
    trimmed.historyBlame "P1" = .ok (.found .added "V2" none) ∧ ¬ trimmed.BlameRight "P1" := by
  have hthere :
      (trimmed.paragraphBlock (versionNamed "V2" "t2" (some "c1") false) "P1").isSome := by
    decide +kernel
  have hparent : trimmed.paragraphBlock (versionNamed "V1" "t1" none false) "P1" = none := by
    decide +kernel
  have hblame : trimmed.historyBlame "P1" = .ok (.found .added "V2" none) := by
    have hne : trimmed.parentBlocks
        [versionNamed "V1" "t1" none false].head? "P1" ≠
          trimmed.paragraphBlock (versionNamed "V2" "t2" (some "c1") false) "P1" := by
      intro h
      rw [← h, parentBlocks, List.head?_cons, Option.bind_some, hparent] at hthere
      cases hthere
    rw [historyBlame, trimmed_chain]
    dsimp only
    rw [if_neg (fun h => Option.not_isSome_iff_eq_none.mpr (Option.isNone_iff_eq_none.mp h) hthere),
      blameFrom_cons, if_pos hne, parentBlocks, List.head?_cons, Option.bind_some, hparent]
    rfl
  have hhead : trimmed.InHead "P1" := ⟨_, by rw [trimmed_chain]; rfl, hthere⟩
  refine ⟨trimmed_sound, hhead, by decide, hblame, ?_⟩
  rintro ⟨blame, hright, hnames⟩
  obtain rfl := Except.ok.inj (hblame.symm.trans hright)
  obtain ⟨⟨⟨report, hreport, -⟩, -⟩, -⟩ := hnames
  have hreport : trimmed.historyDiff
    (versionNamed "V2" "t2" (some "c1") false).version none = .ok report := hreport
  have hplace : trimmed.chain = [] ++ versionNamed "V2" "t2" (some "c1") false ::
    [versionNamed "V1" "t1" none false] := trimmed_chain
  rw [historyDiff_parent trimmed_sound hplace] at hreport
  have hgone := (readable_of_diffRecords hreport).2 _ rfl
  revert hgone
  show ¬ (trimmed.typedParagraphDigests _).isSome = true
  decide +kernel

end HistoryReader

end Docx2Typed.Store
