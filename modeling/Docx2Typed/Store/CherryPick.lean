import Docx2Typed.Store.ParagraphBlocks
import Docx2Typed.Store.Restore

/-!
# Restoring paragraphs of a version

The selective form of `history_restore` copies the canonical assets of the version first, and then
only the typed text and the format records of the current state over them, into which it moves the
selected paragraphs.  The styles and the template stay those of the version
(`historyRestoreParagraphs_iff`).
-/

namespace Docx2Typed.Store

open Library List
open Library.Program

/-! ## Format records -/

/-- A value of `serde_json`. -/
inductive FormatJson where
  | string (value : String)
  | array (items : List FormatJson)
  | object (members : List (String × FormatJson))
  | other (text : String)

def FormatJson.get (name : String) : FormatJson → Option FormatJson
  | .object members => members.lookup name
  | _ => none

def FormatJson.asStr : FormatJson → Option String
  | .string value => some value
  | _ => none

def FormatJson.asArray : FormatJson → Option (List FormatJson)
  | .array items => some items
  | _ => none

/-- `value.get(0)`. -/
def FormatJson.first : FormatJson → Option FormatJson
  | .array (item :: _) => some item
  | _ => none

/-- What is taken from `serde_json`. -/
structure FormatCrate where
  fromStr : String → Option FormatJson
  toStringPretty : FormatJson → String

/-- `fs::read_to_string`. -/
def readText (files : Files) (name : String) : Option String :=
  match files.lookup name with
  | some (.text text) => some text
  | _ => none

/-- `read_json_file`. -/
def readJsonFile (crate : FormatCrate) (files : Files) (name : String) : Option FormatJson :=
  (readText files name).bind crate.fromStr

def recordId (record : FormatJson) : Option String := (record.get "id").bind FormatJson.asStr

/-- The records under their ids. -/
def recordsById (records : List FormatJson) : List (String × FormatJson) :=
  records.filterMap fun record => (recordId record).map fun id => (id, record)

/-- The records of the paragraphs. -/
def formatRecords (data : FormatJson) : List FormatJson :=
  ((data.get "paragraphs").bind FormatJson.asArray).getD []

/-- `paragraph_records`. -/
def paragraphRecords (crate : FormatCrate) (files : Files) : Table FormatJson :=
  tableOf (recordsById (((readJsonFile crate files "format.json").map formatRecords).getD []))

def mapItems (change : FormatJson → FormatJson) : FormatJson → FormatJson
  | .array items => .array (items.map change)
  | value => value

/-- The format data with each paragraph record changed. -/
def mapRecords (change : FormatJson → FormatJson) : FormatJson → FormatJson
  | .object members => .object (members.map fun member =>
      if member.1 = "paragraphs" then (member.1, mapItems change member.2) else member)
  | data => data

/-! ## The guard -/

/-- The loop of `coupled_to_topology`; `opening` says that a segment starts here. -/
def coupledFrom (opening : Bool) : List Char → Bool
  | [] => false
  | c :: rest =>
    (opening && ['T', 'S', 'B'].contains c && (rest.head?.any Char.isDigit) &&
      (rest.dropWhile Char.isDigit).head? == some '.') || coupledFrom (c == '.') rest

def coupledToTopology (paragraphId : String) : Bool := coupledFrom true paragraphId.toList

/-- The tokens of a record. -/
def tokenIds (record : FormatJson) : List FormatJson :=
  ((record.get "token_ids").bind FormatJson.asArray).getD []

/-- What the guard says of a record with tokens. -/
def tokenProblem (paragraphId : String) (labelled : String × FormatJson) : Option String :=
  let tokens := tokenIds labelled.2
  if tokens.isEmpty then none
  else
    let names := (tokens.take 4).filterMap fun token => token.first.bind FormatJson.asStr
    some (paragraphId ++ " references " ++ toString tokens.length ++ " token(s) in " ++
      labelled.1 ++ " (" ++ ", ".intercalate names ++ "…)")

def guardProblems (source current : Table FormatJson) (paragraphId : String) : List String :=
  if coupledToTopology paragraphId then
    [paragraphId ++ " is coupled to table/SDT/text-box topology"]
  else
    match source.lookup paragraphId, current.lookup paragraphId with
    | some old, some new =>
      [("the version", old), ("the current state", new)].filterMap (tokenProblem paragraphId)
    | _, _ => [paragraphId ++ " is missing from one of the two states"]

/-- A `BTreeSet` of ids, in order. -/
def sortedIds (ids : List String) : List String := ids.dedup.insertionSort (· ≤ ·)

/-- `cherry_pick_guard`. -/
def cherryPickGuard (crate : FormatCrate) (source target : Files) (selection : List String) :
    Option String :=
  let problems := (sortedIds selection).flatMap
    (guardProblems (paragraphRecords crate source) (paragraphRecords crate target))
  if problems.isEmpty then none
  else some ("selective restore moves dependency-free paragraphs only: " ++
    "; ".intercalate problems ++ ". Restore the whole version, or patch the paragraph " ++
    "explicitly with its target text.")

/-! ## `cherry_pick` -/

def notInVersion (id : String) : StoreError :=
  .store versionContentMissing (id ++ " not found in the restored version")

/-- The blocks with those of the selection replaced. -/
def pickBlocks (source : Table Text) : List String → Table Text → Except StoreError (Table Text)
  | [], target => .ok target
  | id :: ids, target =>
    match source.lookup id with
    | none => .error (notInVersion id)
    | some block =>
      if (target.lookup id).isNone then .error (notInVersion id)
      else pickBlocks source ids (target.insert id block)

/-- A record of the current state, or the one of the version in its place. -/
def pickRecord (chosen : List String) (source : Table FormatJson) (record : FormatJson) :
    FormatJson :=
  match recordId record with
  | some id => if id ∈ chosen then (source.lookup id).getD record else record
  | none => record

/-- The format data that `cherry_pick` writes. -/
def pickedFormat (crate : FormatCrate) (source : Files) (selection : List String) :
    FormatJson → FormatJson :=
  mapRecords (pickRecord (sortedIds selection) (paragraphRecords crate source))

def cherryPick (crate : FormatCrate) (source target : Files) (selection : List String) :
    Except StoreError (List String × Files) :=
  let chosen := sortedIds selection
  match readText source "typed.md", readText target "typed.md" with
  | some sourceText, some targetText => do
    let blocks ← pickBlocks (splitParagraphBlocks sourceText.toList) chosen
      (splitParagraphBlocks targetText.toList)
    let typed := rewrite (paragraphPreamble targetText.toList)
      ((paragraphOrder targetText.toList).filterMap blocks.lookup)
    let files := target.insert "typed.md" (.text (String.ofList typed))
    match readJsonFile crate target "format.json" with
    | some data =>
      let bytes := crate.toStringPretty (pickedFormat crate source selection data) ++ "\n"
      .ok (chosen, files.insert "format.json" (.text bytes))
    | none => .ok (chosen, files)
  | _, _ => .error ioError

/-! ## The selective restore -/

/-- `read_root`: the directory that holds the current state. -/
def readRoot (disk : Disk) : Files :=
  match disk.pointer with
  | some pointer => (disk.generations.lookup pointer.generation).getD disk.root
  | none => disk.root

/-- The current state over the assets of the version, and the paragraphs of the version in it. -/
def selectiveFiles (crate : FormatCrate) (source current : Files) (selection : List String)
    (files : Files) : Except StoreError (List String × Files) :=
  match current.lookup "typed.md", current.lookup "format.json" with
  | some typed, some format =>
    let target := ((restoreFiles source files).insert "typed.md" typed).insert "format.json" format
    match cherryPickGuard crate source target selection with
    | some refusal => .error (.store "partial-restore-needs-dependent-state" refusal)
    | none => cherryPick crate source target selection
  | _, _ => .error ioError

/-- The mutation of a selective restore; `restoreData` is what it says of the paragraphs that it
picked, from the files before and after. -/
def selectiveRequest (crate : FormatCrate) (restoreData : List String → Files → Files → String)
    (version : String) (source current : Files) (selection : List String) (pointer : Pointer)
    (operationId canonical generationId createdAt : String) : Request where
  operation := "history_restore"
  operationId := operationId
  canonical := canonical
  inputSha256 := pointer.manifestSha256.getD ""
  expectedGeneration := pointer.generation
  generation := true
  saveBoundary := true
  boundary := some
    { origin := "cherry-pick", label := some ("selective restore " ++ version)
      restoredFrom := some version }
  kind := "mutation"
  run files := (selectiveFiles crate source current selection files).map fun picked =>
    { outcome := "success"
      data := restoreData picked.1 current picked.2
      evidence := "history-restore: " ++ version
      files := picked.2 }
  generationId := generationId
  createdAt := createdAt

/-- What `history_restore` goes through before its mutation. -/
def restorable (digests : Digests) (legacyRecord : Files → Option VersionRecord)
    (draftDirty : Files → Bool) (trimmed : List String) (version : String) (disk : Disk) :
    Except StoreError (Files × Pointer) :=
  match (recordedVersions legacyRecord disk).find? (·.version = version) with
  | none => .error (versionNotFound version)
  | some record =>
    if version ∈ trimmed then .error (trimmedOnPurpose version)
    else
      match versionState disk record with
      | .error error => .error error
      | .ok none => .error (.store versionTrimmed (version ++ " content has been trimmed by " ++
          "retention and can no longer be restored"))
      | .ok (some source) =>
        match canonicalAssets.findSome? (assetError digests version source) with
        | some error => .error error
        | none =>
          if draftDirty disk.root then .error restoreDraftDirty
          else
            match disk.pointer, pin disk with
            | none, _ => .error (.store storeInvalid "store pointer is missing or corrupt")
            | some _, none => .error (.store needsRecovery "generation manifest is malformed")
            | some pointer, some _ => .ok (source, pointer)

def restoreEmptySelection : StoreError :=
  .store "restore-empty-selection" ("paragraphs must name at least one paragraph; omit it to " ++
    "restore the whole version")

/-- `history_restore` of some paragraphs, in a store that has been initialised.  The run reads the
current state once the store has settled. -/
def historyRestoreParagraphs (digests : Digests) (canonicalSource : Files → Option TargetPath)
    (legacyRecord : Files → Option VersionRecord) (crate : FormatCrate)
    (restoreData : List String → Files → Files → String) (draftDirty : Files → Bool)
    (trimmed : List String) (version : String) (paragraphs : List String)
    (operationId canonical generationId createdAt : String) :
    Program Disk StoreError Envelope :=
  if paragraphs.isEmpty then fail restoreEmptySelection
  else do
    let disk ← look fun disk => disk
    match restorable digests legacyRecord draftDirty trimmed version disk with
    | .error error => fail error
    | .ok (source, pointer) =>
      settlePending digests
      let settled ← look fun disk => disk
      mutateSettled digests canonicalSource
        (selectiveRequest crate restoreData version source (readRoot settled)
          (sortedIds paragraphs) pointer operationId canonical generationId createdAt)

/-! ## What a selective restore should leave -/

def typedText (files : Files) : Text := ((readText files "typed.md").getD "").toList

/-- The block of a paragraph in a workspace. -/
def blockIn (files : Files) (id : String) : Option Text :=
  (splitParagraphBlocks (typedText files)).lookup id

/-- Its record. -/
def recordIn (crate : FormatCrate) (files : Files) (id : String) : Option FormatJson :=
  (paragraphRecords crate files).lookup id

/-- The format data without the records of a selection. -/
def withoutRecords (selection : List String) : FormatJson → FormatJson :=
  mapRecords fun record => if (recordId record).any (· ∈ selection) then .other "" else record

/-- A workspace after a selective restore: the selected paragraphs are those of the version, and
everything else is as it was before. -/
structure PickedOnly (crate : FormatCrate) (selection : List String) (was before after : Files) :
    Prop where
  selected : ∀ id ∈ selection,
    blockIn after id = blockIn was id ∧ recordIn crate after id = recordIn crate was id
  others : ∀ id ∉ selection,
    blockIn after id = blockIn before id ∧ recordIn crate after id = recordIn crate before id
  unchanged : (∀ id ∈ selection, blockIn was id = blockIn before id ∧
      recordIn crate was id = recordIn crate before id) →
    ∀ id, blockIn after id = blockIn before id ∧ recordIn crate after id = recordIn crate before id
  order : paragraphOrder (typedText after) = paragraphOrder (typedText before)
  preamble : paragraphPreamble (typedText after) = paragraphPreamble (typedText before)
  format : (readJsonFile crate after "format.json").map (withoutRecords selection) =
    (readJsonFile crate before "format.json").map (withoutRecords selection)
  styles : after.lookup "styles.json" = before.lookup "styles.json"
  template : after.lookup "_template.docx" = before.lookup "_template.docx"

/-! ## What is picked -/

variable {id : String}

theorem mem_sortedIds {ids : List String} : id ∈ sortedIds ids ↔ id ∈ ids := by
  rw [sortedIds, mem_insertionSort, mem_dedup]

theorem lookup_pickBlocks {source : Table Text} : ∀ {ids : List String}
    {target picked : Table Text}, pickBlocks source ids target = .ok picked →
      (∀ id ∈ ids, (source.lookup id).isSome ∧ (target.lookup id).isSome) ∧
        ∀ id, picked.lookup id = if id ∈ ids then source.lookup id else target.lookup id
  | [], target, picked, h => by
    cases h
    simp
  | first :: ids, target, picked, h => by
    rw [pickBlocks] at h
    cases hsource : source.lookup first with
    | none =>
      rw [hsource] at h
      cases h
    | some block =>
      rw [hsource] at h
      dsimp only at h
      split at h
      · cases h
      · rename_i htarget
        have htarget : (target.lookup first).isSome :=
          Option.isSome_iff_ne_none.mpr fun hnone => htarget (by rw [hnone]; rfl)
        obtain ⟨hsome, hlookup⟩ := lookup_pickBlocks h
        refine ⟨fun id hid => ?_, fun id => ?_⟩
        · by_cases hfirst : id = first
          · rw [hfirst, hsource]
            exact ⟨rfl, htarget⟩
          · obtain ⟨hin, hat⟩ := hsome id ((mem_cons.mp hid).resolve_left hfirst)
            rw [AList.lookup_insert_ne hfirst] at hat
            exact ⟨hin, hat⟩
        · rw [hlookup]
          by_cases hfirst : id = first
          · rw [hfirst, if_pos mem_cons_self, hsource, AList.lookup_insert, ite_self]
          · have hmem : id ∈ first :: ids ↔ id ∈ ids := by simp [hfirst]
            simp only [hmem, AList.lookup_insert_ne hfirst]

theorem formatRecords_mapRecords (change : FormatJson → FormatJson) (data : FormatJson) :
    formatRecords (mapRecords change data) = (formatRecords data).map change := by
  cases data with
  | object members =>
    show ((List.lookup "paragraphs" (members.map _)).bind FormatJson.asArray).getD [] =
      (((List.lookup "paragraphs" members).bind FormatJson.asArray).getD []).map change
    induction members with
    | nil => rfl
    | cons member members ih =>
      obtain ⟨name, value⟩ := member
      rw [map_cons]
      by_cases hname : name = "paragraphs"
      · rw [if_pos hname, hname, lookup_cons_self, lookup_cons_self]
        cases value <;> rfl
      · have hne : ("paragraphs" == name) = false := beq_false_of_ne (Ne.symm hname)
        rw [if_neg hname, lookup_cons, lookup_cons, hne]
        exact ih
  | string value => rfl
  | array items => rfl
  | other text => rfl

theorem mapRecords_mapRecords (change after : FormatJson → FormatJson) (data : FormatJson) :
    mapRecords after (mapRecords change data) = mapRecords (after ∘ change) data := by
  cases data with
  | object members =>
    rw [mapRecords, mapRecords, mapRecords, map_map]
    refine congrArg FormatJson.object (map_congr_left fun member _ => ?_)
    obtain ⟨name, value⟩ := member
    by_cases hname : name = "paragraphs"
    · simp only [Function.comp_apply, if_pos hname]
      cases value with
      | array items => simp only [mapItems, map_map]
      | string text => rfl
      | object members => rfl
      | other text => rfl
    · simp only [Function.comp_apply, if_neg hname]
  | string value => rfl
  | array items => rfl
  | other text => rfl

theorem recordId_of_mem {records : List FormatJson} {part : String × FormatJson}
    (h : part ∈ recordsById records) : recordId part.2 = some part.1 := by
  obtain ⟨record, -, hpart⟩ := mem_filterMap.mp h
  obtain ⟨id, hid, rfl⟩ := Option.map_eq_some_iff.mp hpart
  exact hid

variable {crate : FormatCrate}

variable {files : Files}

theorem recordId_of_lookup {record : FormatJson}
    (h : (paragraphRecords crate files).lookup id = some record) : recordId record = some id :=
  recordId_of_mem (mem_of_lookup_tableOf h)

/-- A record keeps its id. -/
theorem recordId_pickRecord (chosen : List String) (record : FormatJson) :
    recordId (pickRecord chosen (paragraphRecords crate files) record) = recordId record := by
  rw [pickRecord]
  cases hid : recordId record with
  | none => exact hid
  | some id =>
    dsimp only
    split
    · cases hlookup : (paragraphRecords crate files).lookup id with
      | none => exact hid
      | some picked => exact recordId_of_lookup hlookup
    · exact hid

theorem recordsById_map_pickRecord (chosen : List String) (records : List FormatJson) :
    recordsById (records.map (pickRecord chosen (paragraphRecords crate files))) =
      (recordsById records).map fun part => (part.1, if part.1 ∈ chosen then
        ((paragraphRecords crate files).lookup part.1).getD part.2 else part.2) := by
  rw [recordsById, recordsById, filterMap_map, map_filterMap]
  refine filterMap_congr fun record _ => ?_
  show (recordId (pickRecord chosen (paragraphRecords crate files) record)).map _ = _
  rw [recordId_pickRecord]
  cases hid : recordId record with
  | none => rfl
  | some id => simp only [Option.map_some, pickRecord, hid]

variable {selection : List String}

theorem withoutRecords_pickedFormat {source : Files} (data : FormatJson) :
    withoutRecords selection (pickedFormat crate source selection data) =
      withoutRecords selection data := by
  rw [withoutRecords, pickedFormat, mapRecords_mapRecords]
  congr 1
  funext record
  show (if (recordId (pickRecord _ _ record)).any _ then _ else _) = _
  rw [recordId_pickRecord]
  by_cases hany : (recordId record).any (· ∈ selection)
  · rw [if_pos hany, if_pos hany]
  · rw [if_neg hany, if_neg hany, pickRecord]
    cases hid : recordId record with
    | none => rfl
    | some id =>
      have hout : id ∉ sortedIds selection := fun hin => hany (by
        rw [hid]
        simpa using mem_sortedIds.mp hin)
      dsimp only
      rw [if_neg hout]

/-! ## Files after a selective restore -/

/-- What a selective restore has made of the assets. -/
structure Selective (crate : FormatCrate) (selection : List String) (was current after : Files) :
    Prop where
  styles : after.lookup "styles.json" = was.lookup "styles.json"
  template : after.lookup "_template.docx" = was.lookup "_template.docx"
  typed : typedText after = rewrite (paragraphPreamble (typedText current))
    ((paragraphOrder (typedText current)).filterMap fun id =>
      if id ∈ selection then blockIn was id else blockIn current id)
  blocks : ∀ id ∈ selection, (blockIn was id).isSome ∧ (blockIn current id).isSome
  records : ∀ id ∈ selection, (recordIn crate was id).isSome ∧ (recordIn crate current id).isSome
  format : ∃ data, readJsonFile crate current "format.json" = some data ∧
    readText after "format.json" =
      some (crate.toStringPretty (pickedFormat crate was selection data) ++ "\n")

variable {files other : Files}

theorem readText_congr {name : String} (h : files.lookup name = other.lookup name) :
    readText files name = readText other name := by
  rw [readText, readText, h]

theorem readJsonFile_congr {name : String} (h : files.lookup name = other.lookup name) :
    readJsonFile crate files name = readJsonFile crate other name := by
  rw [readJsonFile, readJsonFile, readText_congr h]

theorem paragraphRecords_congr (h : files.lookup "format.json" = other.lookup "format.json") :
    paragraphRecords crate files = paragraphRecords crate other := by
  rw [paragraphRecords, paragraphRecords, readJsonFile_congr h]

theorem typedText_congr (h : files.lookup "typed.md" = other.lookup "typed.md") :
    typedText files = typedText other := by
  rw [typedText, typedText, readText_congr h]

/-- What the guard lets through has a record on both sides. -/
theorem records_of_guard {source target : Files}
    (h : cherryPickGuard crate source target selection = none) : ∀ id ∈ selection,
      (recordIn crate source id).isSome ∧ (recordIn crate target id).isSome := by
  intro id hid
  have hproblems : (sortedIds selection).flatMap (guardProblems (paragraphRecords crate source)
      (paragraphRecords crate target)) = [] := by
    by_contra hne
    rw [cherryPickGuard, if_neg (by simpa [List.isEmpty_iff] using hne)] at h
    cases h
  have hnone := flatMap_eq_nil_iff.mp hproblems id (mem_sortedIds.mpr hid)
  rw [guardProblems] at hnone
  split at hnone
  · cases hnone
  · split at hnone
    · rename_i old new hold hnew
      rw [recordIn, recordIn, hold, hnew]
      exact ⟨rfl, rfl⟩
    · cases hnone

theorem selective_of_selectiveFiles {source current files after : Files}
    {selection picked : List String}
    (hcomplete : ∀ name ∈ canonicalAssets, (source.lookup name).isSome)
    (hsome : ∃ id, id ∈ selection)
    (h : selectiveFiles crate source current selection files = .ok (picked, after)) :
    Selective crate selection source current after ∧
      ∀ name ∈ canonicalAssets, (after.lookup name).isSome := by
  rw [selectiveFiles] at h
  split at h
  swap
  · cases h
  rename_i typed format htyped hformat
  dsimp only at h
  split at h
  · cases h
  rename_i hguard
  generalize htarget : ((restoreFiles source files).insert "typed.md" typed).insert "format.json"
    format = target at h hguard
  have hat : ∀ name, name ≠ "typed.md" → name ≠ "format.json" →
      target.lookup name = (restoreFiles source files).lookup name := by
    intro name hne hne'
    rw [← htarget, AList.lookup_insert_ne hne', AList.lookup_insert_ne hne]
  have htypedAt : target.lookup "typed.md" = current.lookup "typed.md" := by
    rw [← htarget, AList.lookup_insert_ne (by decide), AList.lookup_insert, htyped]
  have hformatAt : target.lookup "format.json" = current.lookup "format.json" := by
    rw [← htarget, AList.lookup_insert, hformat]
  have hrecords := records_of_guard hguard
  rw [cherryPick] at h
  dsimp only at h
  split at h
  swap
  · cases h
  rename_i sourceText targetText hsourceText htargetText
  cases hblocks : pickBlocks (splitParagraphBlocks sourceText.toList) (sortedIds selection)
    (splitParagraphBlocks targetText.toList) with
  | error error =>
    rw [hblocks] at h
    cases h
  | ok blocks =>
    rw [hblocks] at h
    obtain ⟨hthere, hlookup⟩ := lookup_pickBlocks hblocks
    have hsourceTyped : typedText source = sourceText.toList := by
      rw [typedText, hsourceText]
      rfl
    have hcurrentTyped : typedText current = targetText.toList := by
      rw [← typedText_congr htypedAt, typedText, htargetText]
      rfl
    obtain ⟨data, hdata⟩ : ∃ data, readJsonFile crate target "format.json" = some data := by
      obtain ⟨id, hid⟩ := hsome
      have hrecord := (hrecords id hid).2
      refine Option.ne_none_iff_exists'.mp fun hnone => ?_
      rw [recordIn, paragraphRecords, hnone] at hrecord
      cases hrecord
    have hchoice : blocks.lookup = fun id =>
        if id ∈ selection then blockIn source id else blockIn current id := by
      funext id
      rw [hlookup id, blockIn, blockIn, hsourceTyped, hcurrentTyped]
      simp only [mem_sortedIds]
    have h : (sortedIds selection, (target.insert "typed.md" (.text (String.ofList (rewrite
        (paragraphPreamble targetText.toList) ((paragraphOrder targetText.toList).filterMap
          blocks.lookup))))).insert "format.json"
            (.text (crate.toStringPretty (pickedFormat crate source selection data) ++ "\n"))) =
        (picked, after) := by
      change (match readJsonFile crate target "format.json" with
        | some data => Except.ok _
        | none => Except.ok _) = _ at h
      rw [hdata] at h
      exact Except.ok.inj h
    obtain ⟨-, rfl⟩ := Prod.mk.inj h
    have hasset : ∀ (typed format : Content), ∀ name ∈ canonicalAssets, name ≠ "typed.md" →
        name ≠ "format.json" →
          ((target.insert "typed.md" typed).insert "format.json" format).lookup name =
            source.lookup name := fun typed format name hname hne hne' => by
      rw [AList.lookup_insert_ne hne', AList.lookup_insert_ne hne, hat name hne hne',
        lookup_restoreFiles hcomplete, if_pos hname]
    refine ⟨⟨hasset _ _ _ (by decide) (by decide) (by decide), hasset _ _ _ (by decide)
      (by decide) (by decide), ?_, fun id hid => ?_, fun id hid => ?_, data, ?_, ?_⟩,
      fun name hname => ?_⟩
    · rw [typedText, readText, AList.lookup_insert_ne (by decide), AList.lookup_insert,
        hcurrentTyped, ← hchoice]
      show (String.ofList _).toList = _
      rw [String.toList_ofList]
    · rw [blockIn, blockIn, hsourceTyped, hcurrentTyped]
      exact hthere id (mem_sortedIds.mpr hid)
    · rw [recordIn, recordIn, ← paragraphRecords_congr hformatAt]
      exact hrecords id hid
    · rw [← readJsonFile_congr hformatAt, hdata]
    · rw [readText, AList.lookup_insert]
    · by_cases hformat : name = "format.json"
      · rw [hformat, AList.lookup_insert]
        rfl
      · by_cases htyped : name = "typed.md"
        · rw [htyped, AList.lookup_insert_ne (by decide), AList.lookup_insert]
          rfl
        · rw [hasset _ _ name hname htyped hformat]
          exact hcomplete name hname

theorem Selective.congr {source was current files after : Files}
    (h : Selective crate selection source current files)
    (hwas : ∀ name ∈ canonicalAssets, source.lookup name = was.lookup name)
    (hafter : ∀ name ∈ canonicalAssets, after.lookup name = files.lookup name) :
    Selective crate selection was current after := by
  have htyped : typedText source = typedText was := typedText_congr (hwas _ (by decide))
  have hrecords : paragraphRecords crate source = paragraphRecords crate was :=
    paragraphRecords_congr (hwas _ (by decide))
  have hblock : blockIn source = blockIn was := by
    funext id
    rw [blockIn, blockIn, htyped]
  refine ⟨?_, ?_, ?_, ?_, ?_, ?_⟩
  · rw [hafter _ (by decide), h.styles, hwas _ (by decide)]
  · rw [hafter _ (by decide), h.template, hwas _ (by decide)]
  · rw [typedText_congr (hafter _ (by decide)), h.typed, hblock]
  · rw [← hblock]
    exact h.blocks
  · intro id hid
    rw [recordIn, ← hrecords]
    exact h.records id hid
  · obtain ⟨data, hdata, hformat⟩ := h.format
    refine ⟨data, hdata, ?_⟩
    rw [readText_congr (hafter _ (by decide)), hformat, pickedFormat, pickedFormat, hrecords]

/-- What of the version and of the current state comes through a selective restore. -/
structure KeepsRest (selection : List String) (was current : Files) : Prop where
  styles : was.lookup "styles.json" = current.lookup "styles.json"
  template : was.lookup "_template.docx" = current.lookup "_template.docx"
  preamble : NoReturns (paragraphPreamble (typedText current))
  selected : ∀ id ∈ selection, ∀ block, blockIn was id = some block → NoReturns block
  others : ∀ id ∉ selection, ∀ block, blockIn current id = some block → NoReturns block

section Selective

variable {crate : FormatCrate} {selection : List String} {was current after : Files}

theorem recordIn_of_selective (h : Selective crate selection was current after)
    (hjson : ∀ data, readJsonFile crate current "format.json" = some data →
      crate.fromStr (crate.toStringPretty (pickedFormat crate was selection data) ++ "\n") =
        some (pickedFormat crate was selection data)) (id : String) :
    recordIn crate after id =
      if id ∈ selection then recordIn crate was id else recordIn crate current id := by
  obtain ⟨data, hdata, hformat⟩ := h.format
  have hafter : readJsonFile crate after "format.json" =
      some (pickedFormat crate was selection data) := by
    rw [readJsonFile, hformat, Option.bind_some, hjson data hdata]
  have hcurrent : recordIn crate current id = (tableOf (recordsById (formatRecords data))).lookup
      id := by
    rw [recordIn, paragraphRecords, hdata]
    rfl
  rw [recordIn, paragraphRecords, hafter, Option.map_some, Option.getD_some, pickedFormat,
    formatRecords_mapRecords, recordsById_map_pickRecord,
    lookup_tableOf_map (fun name record => if name ∈ sortedIds selection then
      ((paragraphRecords crate was).lookup name).getD record else record), ← hcurrent]
  by_cases hid : id ∈ selection
  · obtain ⟨hwas, hthere⟩ := h.records id hid
    obtain ⟨old, hold⟩ := Option.isSome_iff_exists.mp hwas
    obtain ⟨new, hnew⟩ := Option.isSome_iff_exists.mp hthere
    rw [if_pos hid, hnew, hold, Option.map_some, if_pos (mem_sortedIds.mpr hid)]
    rw [recordIn] at hold
    rw [hold, Option.getD_some]
  · rw [if_neg hid]
    simp only [if_neg fun h => hid (mem_sortedIds.mp h), Option.map_id']

/-- The block that a selective restore puts under an id. -/
def chosenBlock (selection : List String) (was current : Files) (id : String) : Option Text :=
  if id ∈ selection then blockIn was id else blockIn current id

/-- The blocks that the text is put together from, in the order of the current state. -/
def chosenBlocks (selection : List String) (was current : Files) : List (String × Text) :=
  (paragraphOrder (typedText current)).filterMap fun id =>
    (chosenBlock selection was current id).map fun block => (id, block)

section

variable (h : Selective crate selection was current after)

include h

theorem chosenBlock_isSome_iff :
    (chosenBlock selection was current id).isSome ↔ id ∈ paragraphOrder (typedText current) := by
  rw [← lookup_splitParagraphBlocks_isSome, chosenBlock]
  split
  · rename_i hid
    obtain ⟨hwas, hcurrent⟩ := h.blocks id hid
    exact iff_of_true hwas hcurrent
  · rfl

theorem mem_chosenBlocks {part : String × Text} : part ∈ chosenBlocks selection was current ↔
      chosenBlock selection was current part.1 = some part.2 := by
  rw [chosenBlocks, mem_filterMap]
  constructor
  · rintro ⟨id, -, hpart⟩
    obtain ⟨block, hblock, rfl⟩ := Option.map_eq_some_iff.mp hpart
    exact hblock
  · intro hblock
    refine ⟨part.1, (chosenBlock_isSome_iff h).mp (by rw [hblock]; rfl), ?_⟩
    rw [hblock, Option.map_some]

theorem map_fst_chosenBlocks :
    (chosenBlocks selection was current).map Prod.fst = paragraphOrder (typedText current) := by
  rw [chosenBlocks, map_filterMap]
  refine (filterMap_congr fun id hid => ?_).trans filterMap_some
  obtain ⟨block, hblock⟩ := Option.isSome_iff_exists.mp ((chosenBlock_isSome_iff h).mpr hid)
  rw [hblock]
  rfl

/-- Where the text that was put together reads as its parts. -/
theorem rewritten_of_selective (hsome : ∃ id, id ∈ selection) :
    Rewritten (paragraphPreamble (typedText current)) (chosenBlocks selection was current)
        (typedText after) ↔
      NoReturns (paragraphPreamble (typedText current)) ∧
        ∀ id block, chosenBlock selection was current id = some block → NoReturns block := by
  have hsnd : (chosenBlocks selection was current).map Prod.snd =
      (paragraphOrder (typedText current)).filterMap (chosenBlock selection was current) := by
    rw [chosenBlocks, map_filterMap]
    refine filterMap_congr fun id _ => ?_
    rw [Option.map_map]
    exact Option.map_id'
  have htext : typedText after = rewrite (paragraphPreamble (typedText current))
      ((chosenBlocks selection was current).map Prod.snd) := by
    rw [h.typed, hsnd]
    rfl
  have hblocks : ∀ part ∈ chosenBlocks selection was current, IsBlock part.1 part.2 := by
    intro part hpart
    have hblock := (mem_chosenBlocks h).mp hpart
    rw [chosenBlock] at hblock
    split at hblock
    · exact isBlock_of_lookup hblock
    · exact isBlock_of_lookup hblock
  have hne : chosenBlocks selection was current ≠ [] := by
    obtain ⟨id, hid⟩ := hsome
    obtain ⟨block, hblock⟩ := Option.isSome_iff_exists.mp (h.blocks id hid).1
    refine ne_nil_of_mem (a := (id, block)) ((mem_chosenBlocks h).mpr ?_)
    rw [chosenBlock, if_pos hid, hblock]
  rw [htext, rewritten_iff (isPreamble_paragraphPreamble _) hblocks
    ((map_fst_chosenBlocks h).symm ▸ nodup_paragraphOrder _) hne]
  refine and_congr_right fun _ => ⟨fun hall id block hblock => ?_, fun hall part hpart => ?_⟩
  · exact hall (id, block) ((mem_chosenBlocks h).mpr hblock)
  · exact hall part.1 part.2 ((mem_chosenBlocks h).mp hpart)

/-- What `cherry_pick` leaves is right exactly when what it copies and rewrites comes through. -/
theorem pickedOnly_iff (hsome : ∃ id, id ∈ selection)
    (hjson : ∀ data, readJsonFile crate current "format.json" = some data →
      crate.fromStr (crate.toStringPretty (pickedFormat crate was selection data) ++ "\n") =
        some (pickedFormat crate was selection data)) :
    PickedOnly crate selection was current after ↔ KeepsRest selection was current := by
  have hrecord := recordIn_of_selective h hjson
  have hrewritten := rewritten_of_selective h hsome
  constructor
  · intro hpicked
    have hreads : Rewritten (paragraphPreamble (typedText current))
        (chosenBlocks selection was current) (typedText after) := by
      refine ⟨hpicked.preamble, by rw [hpicked.order, map_fst_chosenBlocks h], fun part hpart => ?_⟩
      have hblock := (mem_chosenBlocks h).mp hpart
      rw [← hblock, chosenBlock]
      split
      · rename_i hid
        exact (hpicked.selected _ hid).1
      · rename_i hid
        exact (hpicked.others _ hid).1
    obtain ⟨hhead, hparts⟩ := hrewritten.mp hreads
    refine ⟨by rw [← h.styles, hpicked.styles], by rw [← h.template, hpicked.template], hhead,
      fun id hid block hblock => hparts id block ?_, fun id hid block hblock => hparts id block ?_⟩
    · rw [chosenBlock, if_pos hid, hblock]
    · rw [chosenBlock, if_neg hid, hblock]
  · intro hkeeps
    have hreads := hrewritten.mpr ⟨hkeeps.preamble, fun id block hblock => by
      rw [chosenBlock] at hblock
      split at hblock
      · rename_i hid
        exact hkeeps.selected id hid block hblock
      · rename_i hid
        exact hkeeps.others id hid block hblock⟩
    have horder : paragraphOrder (typedText after) = paragraphOrder (typedText current) := by
      rw [hreads.order, map_fst_chosenBlocks h]
    have hblock : ∀ id, blockIn after id = chosenBlock selection was current id := by
      intro id
      cases hchosen : chosenBlock selection was current id with
      | some block => exact hreads.blocks (id, block) ((mem_chosenBlocks h).mpr hchosen)
      | none =>
        refine Option.not_isSome_iff_eq_none.mp fun hthere => ?_
        rw [blockIn, lookup_splitParagraphBlocks_isSome, horder, ← chosenBlock_isSome_iff h,
          hchosen] at hthere
        cases hthere
    have hselected : ∀ id ∈ selection, blockIn after id = blockIn was id ∧
        recordIn crate after id = recordIn crate was id := fun id hid =>
      ⟨by rw [hblock, chosenBlock, if_pos hid], by rw [hrecord, if_pos hid]⟩
    have hothers : ∀ id ∉ selection, blockIn after id = blockIn current id ∧
        recordIn crate after id = recordIn crate current id := fun id hid =>
      ⟨by rw [hblock, chosenBlock, if_neg hid], by rw [hrecord, if_neg hid]⟩
    refine ⟨hselected, hothers, fun hsame id => ?_, horder, hreads.preamble, ?_,
      h.styles.trans hkeeps.styles, h.template.trans hkeeps.template⟩
    · by_cases hid : id ∈ selection
      · obtain ⟨hblock, hrecord⟩ := hselected id hid
        exact ⟨hblock.trans (hsame id hid).1, hrecord.trans (hsame id hid).2⟩
      · exact hothers id hid
    · obtain ⟨data, hdata, hformat⟩ := h.format
      rw [readJsonFile, hformat, Option.bind_some, hjson data hdata, hdata, Option.map_some,
        Option.map_some, withoutRecords_pickedFormat]

end

end Selective

/-! ## The mutation -/

variable {record : VersionRecord}

section Restore

variable {digests : Digests} {canonicalSource : Files → Option TargetPath}
  {legacyRecord : Files → Option VersionRecord} {crate : FormatCrate}
  {restoreData : List String → Files → Files → String} {draftDirty : Files → Bool}
  {trimmed paragraphs : List String} {version operationId canonical generationId createdAt : String}

/-- What `restorable` gives back is the state of the version, with all assets. -/
theorem restorable_eq_ok {disk : Disk} {source files : Files} {pointer : Pointer}
    (hfound : (recordedVersions legacyRecord disk).find? (·.version = version) = some record)
    (hsource : versionState disk record = .ok (some source))
    (h : restorable digests legacyRecord draftDirty trimmed version disk = .ok (files, pointer)) :
    files = source ∧ ∀ name ∈ canonicalAssets, (source.lookup name).isSome := by
  rw [restorable, hfound] at h
  dsimp only at h
  rw [hsource] at h
  dsimp only at h
  split at h
  · cases h
  cases hassets : canonicalAssets.findSome? (assetError digests version source) with
  | some error =>
    rw [hassets] at h
    cases h
  | none =>
    rw [hassets] at h
    dsimp only at h
    split at h
    · cases h
    split at h
    · cases h
    · cases h
    · cases h
      exact ⟨rfl, fun name hname => isSome_of_assetError
        (findSome?_eq_none_iff.mp hassets name hname)⟩

/-- A selective restore that has given a value was a mutation of the settled store. -/
theorem historyRestoreParagraphs_eq {start : Disk} {source : Files} {fates : List Fate}
    {envelope : Envelope}
    (hfound : (recordedVersions legacyRecord start).find? (·.version = version) = some record)
    (hsource : versionState start record = .ok (some source))
    (hended : (historyRestoreParagraphs digests canonicalSource legacyRecord crate restoreData
      draftDirty trimmed version paragraphs operationId canonical generationId createdAt start
        fates).ending = .returned envelope) :
    (∃ id, id ∈ paragraphs) ∧ (∀ name ∈ canonicalAssets, (source.lookup name).isSome) ∧
      ∃ pointer, historyRestoreParagraphs digests canonicalSource legacyRecord crate restoreData
        draftDirty trimmed version paragraphs operationId canonical generationId createdAt start
          fates = mutateSettled digests canonicalSource (selectiveRequest crate restoreData version
            source (readRoot (settlePending digests start fates).state) (sortedIds paragraphs)
              pointer operationId canonical generationId createdAt)
                (settlePending digests start fates).state (settlePending digests start fates).fates
    := by
  by_cases hempty : paragraphs.isEmpty
  · rw [historyRestoreParagraphs, if_pos hempty] at hended
    cases hended
  rw [historyRestoreParagraphs, if_neg hempty, look_bind] at hended ⊢
  cases hrestorable : restorable digests legacyRecord draftDirty trimmed version start with
  | error error =>
    rw [hrestorable] at hended
    cases hended
  | ok restored =>
    obtain ⟨files, pointer⟩ := restored
    rw [hrestorable] at hended
    obtain ⟨rfl, hcomplete⟩ := restorable_eq_ok hfound hsource hrestorable
    refine ⟨exists_mem_of_ne_nil _ (by simpa [List.isEmpty_iff] using hempty), hcomplete,
      pointer, ?_⟩
    obtain ⟨-, -, hsettled⟩ := returned_bind hended
    exact hsettled

/-- A selective restore of some paragraphs leaves everything else as it was, and them as they were
in the version, exactly when the styles and the template of the version are the current ones and
no line that it writes ends in a carriage return. -/
theorem historyRestoreParagraphs_iff {start : Disk} {record : VersionRecord} {was : Files}
    {fates : List Fate} {envelope : Envelope}
    (hfound : (recordedVersions legacyRecord start).find? (·.version = version) = some record)
    (hrecorded : RecordedFrom digests start record was)
    (hnew : (lookupLedger (settlePending digests start fates).state operationId true none true).1 =
      none)
    (hjson : ∀ data, readJsonFile crate (readRoot (settlePending digests start fates).state)
      "format.json" = some data →
        crate.fromStr (crate.toStringPretty
          (pickedFormat crate was (sortedIds paragraphs) data) ++ "\n") =
            some (pickedFormat crate was (sortedIds paragraphs) data))
    (hended : (historyRestoreParagraphs digests canonicalSource legacyRecord crate restoreData
      draftDirty trimmed version paragraphs operationId canonical generationId createdAt start
        fates).ending = .returned envelope) :
    PickedOnly crate (sortedIds paragraphs) was (readRoot (settlePending digests start fates).state)
        (historyRestoreParagraphs digests canonicalSource legacyRecord crate restoreData draftDirty
          trimmed version paragraphs operationId canonical generationId createdAt start
            fates).state.root ↔
      KeepsRest (sortedIds paragraphs) was
        (readRoot (settlePending digests start fates).state) := by
  obtain ⟨source, hsource, hlookup⟩ := versionState_recordedFrom hrecorded
  obtain ⟨⟨id, hid⟩, hcomplete, pointer, heq⟩ := historyRestoreParagraphs_eq hfound hsource hended
  rw [heq] at hended ⊢
  generalize (settlePending digests start fates).state = settled at *
  generalize (settlePending digests start fates).fates = left at *
  refine pickedOnly_iff ?_ ⟨id, mem_sortedIds.mpr hid⟩ hjson
  obtain ⟨current, outcome, -, hat, hroot⟩ := lookup_mutateSettled rfl rfl rfl hnew hended
  rw [Request.outcomeAt] at hat
  obtain ⟨parent, -, hrun⟩ := Option.bind_eq_some_iff.mp hat
  cases hselective : selectiveFiles crate source (readRoot settled) (sortedIds paragraphs)
    (overlayIngress settled.root parent) with
  | error error =>
    simp only [selectiveRequest, hselective] at hrun
    cases hrun
  | ok picked =>
    have hfiles : outcome.files = picked.2 := by
      simp only [selectiveRequest, hselective] at hrun
      cases hrun
      rfl
    obtain ⟨hpicked, hthere⟩ := selective_of_selectiveFiles hcomplete
      ⟨id, mem_sortedIds.mpr hid⟩ hselective
    refine hpicked.congr hlookup fun name hname => ?_
    have hbeside : ∀ name ∈ canonicalAssets,
        name ∉ [operationLedger, generationJson, "run.evidence.json"] := by decide
    obtain ⟨content, hcontent⟩ := Option.isSome_iff_exists.mp (hthere name hname)
    rw [hroot name (hbeside name hname), hfiles, hcontent]

end Restore

/-! ## Styles later than the version -/

instance (text : Text) : Decidable (NoReturns text) :=
  inferInstanceAs (Decidable (∀ line ∈ text.splitOn '\n', line.getLast? ≠ some '\r'))

def oneParagraph : FormatJson :=
  .object [("paragraphs", .array [.object [("id", .string "P1")]])]

def oneParagraphText : String :=
  "\x7b\n  \"paragraphs\": [\n    \x7b\n      \"id\": \"P1\"\n    \x7d\n  ]\n\x7d"

/-- How `serde_json` writes and reads the records of a document with one paragraph. -/
def oneParagraphCrate : FormatCrate where
  fromStr text := if text = oneParagraphText ++ "\n" then some oneParagraph else none
  toStringPretty _ := oneParagraphText

theorem fromStr_oneParagraph :
    oneParagraphCrate.fromStr (oneParagraphText ++ "\n") = some oneParagraph := by
  show (if oneParagraphText ++ "\n" = oneParagraphText ++ "\n" then some oneParagraph else none) = _
  rw [if_pos rfl]

/-- A document with one paragraph, saved as its first version. -/
def savedParagraph : Disk :=
  let assets : Files := ((((∅ : Files).insert "_template.docx" (.text "template")).insert
    "styles.json" (.text "styles")).insert "format.json" (.text (oneParagraphText ++ "\n"))).insert
      "typed.md" (.text "<!--@typed-->\n\n<!--@p id=\"P1\"/-->\nold\n")
  let saved : Request := { savedEdit with
    run := fun files => .ok
      { outcome := "success", data := "", evidence := "run", files := files } }
  (mutate shortDigests noSource saved
    { sampleDisk with root := assets, generations := AList.singleton "gen-0" assets } []).state

def restyledDisk : Disk :=
  (mutate shortDigests noSource
    (laterEdit fun files => files.insert "styles.json" (.text "restyled")) savedParagraph []).state

def rewordedDisk : Disk :=
  (mutate shortDigests noSource
    (laterEdit fun files => files.insert "typed.md"
      (.text "<!--@typed-->\n\n<!--@p id=\"P1\"/-->\nnewer\n")) savedParagraph []).state

def restoreParagraph : Program Disk StoreError Envelope :=
  historyRestoreParagraphs shortDigests noSource (fun _ => none) oneParagraphCrate
    (fun _ _ _ => "") (fun _ => false) [] "V1" ["P1"] "op-3" "canonical" "gen-3" "now"

/-- The restore of one paragraph brings the styles of the version back. -/
theorem restoreParagraph_restyles : ∃ record envelope,
    (recordedVersions (fun _ => none) restyledDisk).find? (·.version = "V1") = some record ∧
    RecordedFrom shortDigests restyledDisk record savedParagraph.root ∧
    (restoreParagraph restyledDisk []).ending = .returned envelope ∧
    ¬ PickedOnly oneParagraphCrate (sortedIds ["P1"]) savedParagraph.root
      (readRoot (settlePending shortDigests restyledDisk []).state)
      (restoreParagraph restyledDisk []).state.root := by
  have hrecord : (((recordedVersions (fun _ => none) restyledDisk).find?
      (·.version = "V1")).bind (pooledTree restyledDisk)) = some (treeOf shortDigests
        savedParagraph.root (canonicalTreeDigest shortDigests savedParagraph.root)) := by
    decide +kernel
  have hended : (restoreParagraph restyledDisk []).ending.given.isSome := by decide +kernel
  obtain ⟨record, hfound, htree⟩ := Option.bind_eq_some_iff.mp hrecord
  obtain ⟨envelope, henvelope⟩ := Option.isSome_iff_exists.mp hended
  refine ⟨record, envelope, hfound, .pooled _ htree (by decide +kernel),
    Ending.given_eq_some henvelope, fun hpicked => ?_⟩
  have hstyles := hpicked.styles
  revert hstyles
  decide +kernel

/-- After a change of the text alone it brings the paragraph back, and nothing else. -/
theorem restoreParagraph_rewords : ∃ envelope,
    (restoreParagraph rewordedDisk []).ending = .returned envelope ∧
    PickedOnly oneParagraphCrate (sortedIds ["P1"]) savedParagraph.root
      (readRoot (settlePending shortDigests rewordedDisk []).state)
      (restoreParagraph rewordedDisk []).state.root := by
  have hrecord : (((recordedVersions (fun _ => none) rewordedDisk).find?
      (·.version = "V1")).bind (pooledTree rewordedDisk)) = some (treeOf shortDigests
        savedParagraph.root (canonicalTreeDigest shortDigests savedParagraph.root)) := by
    decide +kernel
  have hended : (restoreParagraph rewordedDisk []).ending.given.isSome := by decide +kernel
  obtain ⟨record, hfound, htree⟩ := Option.bind_eq_some_iff.mp hrecord
  obtain ⟨envelope, henvelope⟩ := Option.isSome_iff_exists.mp hended
  have henvelope := Ending.given_eq_some henvelope
  have hrecorded : RecordedFrom shortDigests rewordedDisk record savedParagraph.root :=
    .pooled _ htree (by decide +kernel)
  have hnew : (lookupLedger (settlePending shortDigests rewordedDisk []).state "op-3" true none
      true).1 = none := by
    decide +kernel
  have htext : readText (readRoot (settlePending shortDigests rewordedDisk []).state)
      "format.json" = some (oneParagraphText ++ "\n") := by
    decide +kernel
  have hwas : readText savedParagraph.root "format.json" = some (oneParagraphText ++ "\n") := by
    decide +kernel
  have hids : sortedIds ["P1"] = ["P1"] := by decide +kernel
  have hpicked : pickedFormat oneParagraphCrate savedParagraph.root (sortedIds ["P1"])
      oneParagraph = oneParagraph := by
    have hread : readJsonFile oneParagraphCrate savedParagraph.root "format.json" =
        some oneParagraph := by
      rw [readJsonFile, hwas, Option.bind_some, fromStr_oneParagraph]
    rw [pickedFormat, paragraphRecords, hread, hids]
    rfl
  have hjson : ∀ data, readJsonFile oneParagraphCrate
      (readRoot (settlePending shortDigests rewordedDisk []).state) "format.json" = some data →
        oneParagraphCrate.fromStr (oneParagraphCrate.toStringPretty
          (pickedFormat oneParagraphCrate savedParagraph.root (sortedIds ["P1"]) data) ++ "\n") =
            some (pickedFormat oneParagraphCrate savedParagraph.root (sortedIds ["P1"]) data) := by
    intro data hdata
    rw [readJsonFile, htext, Option.bind_some, fromStr_oneParagraph] at hdata
    obtain rfl := Option.some.inj hdata
    rw [hpicked]
    exact fromStr_oneParagraph
  have hkeeps : KeepsRest (sortedIds ["P1"]) savedParagraph.root
      (readRoot (settlePending shortDigests rewordedDisk []).state) := by
    have horder : paragraphOrder (typedText
        (readRoot (settlePending shortDigests rewordedDisk []).state)) = ["P1"] := by
      decide +kernel
    have hblock : (blockIn savedParagraph.root "P1").all fun block => NoReturns block := by
      decide +kernel
    refine ⟨by decide +kernel, by decide +kernel, by decide +kernel, fun id hid block hlies => ?_,
      fun id hid block hlies => ?_⟩
    · rw [hids, List.mem_singleton] at hid
      rw [← hid, hlies] at hblock
      simpa using hblock
    · refine absurd ?_ hid
      rw [hids, ← horder, ← lookup_splitParagraphBlocks_isSome, ← blockIn, hlies]
      rfl
  unfold restoreParagraph at henvelope ⊢
  exact ⟨envelope, henvelope,
    (historyRestoreParagraphs_iff hfound hrecorded hnew hjson henvelope).mpr hkeeps⟩

end Docx2Typed.Store
