import Docx2Typed.Library.PrefixCode
import Docx2Typed.Library.Search
import Docx2Typed.Library.Sections
import Docx2Typed.Workdir.Committed
import Mathlib.Data.List.Lex
import Mathlib.Data.List.Sort
import Mathlib.Data.String.Basic

/-!
# The digest of the inventory

`inventory_sha256` hashes a table of the files of a workdir: the known ones and the review files by
their paths, and each other directory of the root by a digest over its files.  A backslash in a path
is written as a slash there, and what the walk or the table passes over is not in it.

Trees that have none of this are told apart (`inventorySha256_separates`), and no tree is told apart
from all others.
-/

namespace Docx2Typed.Workdir

open Library List
open Library.PathTree

/-! ## `inventory_sha256` -/

/-- SHA-256 over the bytes of a file, and over the canonical JSON of an object and of the table. -/
structure Hashes where
  fileSha256 : Bytes → String
  object : List (Text × String) → String
  table : List (Text × String) → String

/-- `replace('\\', "/")`. -/
def slashed (text : Text) : Text := text.map fun c => if c = '\\' then '/' else c

/-- A path below the workdir as it is written in the table. -/
def relativeText (path : Path) : Text := slashed (['/'].intercalate (path.map String.toList))

def fileContent (tree : Tree) (path : Path) : Option Bytes :=
  match tree.contents path with
  | some (.leaf (.file content)) => some content
  | _ => none

/-- `walk_files`, sorted. -/
def sortedFiles (tree : Tree) (top : Path) : List Path :=
  (walkFiles tree top).dedup.insertionSort (· ≤ ·)

/-- The entries of a `BTreeMap` that was filled one after the other. -/
def mapEntries {β : Type} (items : List (Text × β)) : List (Text × β) :=
  ((items.map Prod.fst).dedup.insertionSort (· ≤ ·)).filterMap fun key =>
    ((tableOf items).lookup key).map fun value => (key, value)

section Table

variable (hashes : Hashes) (tree : Tree)

/-- The row of a file. -/
def fileRow (name : Text) (path : Path) : Option (Text × String) :=
  (fileContent tree path).map fun content => (name, hashes.fileSha256 content)

/-- `dir_digest`. -/
def dirDigest (files : List Path) : String :=
  hashes.object (mapEntries (files.filterMap fun path =>
    fileRow hashes tree (relativeText path) path))

def knownRows : List (Text × String) :=
  (authoritativeAssets ++ optionalAssets).filterMap fun name =>
    fileRow hashes tree name.toList [name]

def reviewRows : List (Text × String) :=
  (sortedFiles tree [reviewDir]).filterMap fun path =>
    fileRow hashes tree (relativeText path) path

/-- The row of an entry of the root that is none of the known names. -/
def topRow (name : String) : Option (Text × String) :=
  match tree.contents [name] with
  | some (.dir _) =>
    some (name.toList ++ ['/'], dirDigest hashes tree (sortedFiles tree [name]))
  | _ => fileRow hashes tree name.toList [name]

/-- The names in the root that are none of the known ones. -/
def topNames : List String :=
  (((childrenOf tree.paths []).map fun path : Path => path.headD "").filter
    fun name => !knownTopLevel name).dedup.insertionSort (· ≤ ·)

def inventoryRows : List (Text × String) :=
  knownRows hashes tree ++ reviewRows hashes tree ++ (topNames tree).filterMap (topRow hashes tree)

/-- `inventory_sha256`; it fails where the inventory does. -/
def inventorySha256 (env : Env) : Except Step String := do
  let _ ← inventoryAssets env tree
  pure (hashes.table (inventoryRows hashes tree))

end Table

/-! ## Trees that are told apart -/

/-- A path that does not lead into the metadata of the store. -/
def InScope (path : Path) : Prop := ∀ name ∈ storeMetadata, path.head? ≠ some name

instance (path : Path) : Decidable (InScope path) :=
  inferInstanceAs (Decidable (∀ name ∈ storeMetadata, path.head? ≠ some name))

/-- Two trees have the same files outside the metadata of the store. -/
def SameFiles (tree other : Tree) : Prop :=
  ∀ path, InScope path → fileContent tree path = fileContent other path

/-- The names of a tree are those of a file system. -/
def WellNamed (tree : Tree) : Prop :=
  ∀ path name, tree.contents (path ++ [name]) ≠ none → name.toList ≠ [] ∧ '/' ∉ name.toList

/-- The table has each file of a tree under its own path. -/
structure Plain (tree : Tree) : Prop where
  readable : ∀ path, InScope path → isDir tree.contents path = true →
    tree.contents path = some (.dir true)
  known : ∀ name ∈ authoritativeAssets ++ optionalAssets, isDir tree.contents [name] = false
  review : fileContent tree [reviewDir] = none
  names : ∀ top rest, InScope (top :: rest) → fileContent tree (top :: rest) ≠ none →
    ∀ name ∈ rest, '\\' ∉ name.toList

/-! ## Paths in the table -/

variable {content : Bytes} {path : Path}

theorem fileContent_eq_some_iff {tree : Tree} :
    fileContent tree path = some content ↔
      tree.contents path = some (.leaf (.file content)) := by
  rw [fileContent]
  split
  · rename_i c hc
    rw [hc]
    simp
  · rename_i hne
    simp only [reduceCtorEq, false_iff]
    exact hne content

theorem isFileAt_of_fileContent {tree : Tree} (h : fileContent tree path = some content) :
    isFileAt tree path = true :=
  isFileAt_iff.mpr ⟨content, fileContent_eq_some_iff.mp h⟩

theorem relativeText_cons (top : String) {rest : Path} (h : rest ≠ []) :
    relativeText (top :: rest) = slashed top.toList ++ '/' :: relativeText rest := by
  obtain ⟨next, rest, rfl⟩ := exists_cons_of_ne_nil h
  rw [relativeText, relativeText, map_cons, map_cons, intercalate_cons_cons, slashed,
    map_append, map_append]
  rw [slashed, slashed, append_assoc]
  rfl

theorem slashed_of_notMem {text : Text} (h : '\\' ∉ text) : slashed text = text := by
  refine (map_congr_left fun c hc => ?_).trans (map_id _)
  show (if c = '\\' then '/' else c) = c
  exact if_neg fun heq : c = '\\' => h (heq ▸ hc)

/-- A slash at the end of a name without slashes. -/
theorem append_slash_inj {left right rest other : Text} (hleft : '/' ∉ left) (hright : '/' ∉ right)
    (h : left ++ '/' :: rest = right ++ '/' :: other) : left = right ∧ rest = other := by
  have htake := congrArg (List.takeWhile (· ≠ '/')) h
  rw [takeWhile_ne_append hleft, takeWhile_ne_append hright] at htake
  refine ⟨htake, ?_⟩
  rw [htake] at h
  exact (List.cons.inj (append_cancel_left h)).2

/-- Below one entry of the root, paths without backslashes are told apart. -/
theorem relativeText_inj {top : String} {rest other : Path} (hrest : rest ≠ [])
    (hother : other ≠ [])
    (hnames : ∀ name ∈ rest, '/' ∉ name.toList ∧ '\\' ∉ name.toList)
    (hnames' : ∀ name ∈ other, '/' ∉ name.toList ∧ '\\' ∉ name.toList)
    (h : relativeText (top :: rest) = relativeText (top :: other)) : rest = other := by
  have hplain : ∀ {path : Path}, path ≠ [] →
      (∀ name ∈ path, '/' ∉ name.toList ∧ '\\' ∉ name.toList) →
        (relativeText path).splitOn '/' = path.map String.toList := by
    intro path hpath hnames
    have hback : '\\' ∉ ['/'].intercalate (path.map String.toList) := by
      clear hpath
      induction path with
      | nil => simp
      | cons name path ih =>
        have hfirst := (hnames name mem_cons_self).2
        have ih := ih fun other hother => hnames other (mem_cons_of_mem _ hother)
        cases path with
        | nil => simpa using hfirst
        | cons next path =>
          rw [map_cons, map_cons, intercalate_cons_cons, ← map_cons]
          simp only [mem_append, mem_singleton, not_or]
          exact ⟨⟨hfirst, by decide⟩, ih⟩
    rw [relativeText, slashed_of_notMem hback]
    refine splitOn_intercalate '/' (fun text htext => ?_) (by simpa using hpath)
    obtain ⟨name, hname, rfl⟩ := mem_map.mp htext
    exact (hnames name hname).1
  rw [relativeText_cons top hrest, relativeText_cons top hother] at h
  have hsame := (List.cons.inj (append_cancel_left h)).2
  have hsplit := congrArg (List.splitOn '/') hsame
  rw [hplain hrest hnames, hplain hother hnames'] at hsplit
  exact map_injective_iff.mpr (fun _ _ => String.toList_injective) hsplit

/-! ## Rows -/

section Rows

variable {hashes : Hashes} {tree other : Tree} {row : Text × String}

theorem fileRow_eq_some {name : Text} : fileRow hashes tree name path = some row ↔
    ∃ content, fileContent tree path = some content ∧ (name, hashes.fileSha256 content) = row :=
  Option.map_eq_some_iff

theorem mem_sortedFiles {top path : Path} :
    path ∈ sortedFiles tree top ↔ path ∈ walkFiles tree top := by
  rw [sortedFiles, mem_insertionSort, mem_dedup]

theorem mem_mapEntries {β : Type} {items : List (Text × β)} {key : Text} {value : β} :
    (key, value) ∈ mapEntries items ↔ (tableOf items).lookup key = some value := by
  rw [mapEntries, mem_filterMap]
  constructor
  · rintro ⟨other, -, h⟩
    obtain ⟨found, hfound, heq⟩ := Option.map_eq_some_iff.mp h
    obtain ⟨rfl, rfl⟩ := Prod.mk.inj heq
    exact hfound
  · intro h
    refine ⟨key, ?_, by rw [h, Option.map_some]⟩
    rw [mem_insertionSort, mem_dedup, ← lookup_tableOf_isSome, h]
    rfl

theorem mem_topNames {name : String} :
    name ∈ topNames tree ↔ [name] ∈ tree.paths ∧ knownTopLevel name = false := by
  rw [topNames, mem_insertionSort, mem_dedup, mem_filter, mem_map,
    Bool.not_eq_true']
  refine and_congr_left fun _ => ⟨?_, fun h => ⟨[name], mem_childrenOf.mpr ⟨h, name, rfl⟩, rfl⟩⟩
  rintro ⟨path, hpath, rfl⟩
  obtain ⟨hmem, first, rfl⟩ := mem_childrenOf.mp hpath
  exact hmem

/-- What stands in the table. -/
theorem mem_inventoryRows : row ∈ inventoryRows hashes tree ↔
    (∃ name ∈ authoritativeAssets ++ optionalAssets,
        fileRow hashes tree name.toList [name] = some row) ∨
      (∃ path ∈ walkFiles tree [reviewDir],
        fileRow hashes tree (relativeText path) path = some row) ∨
      ∃ name, knownTopLevel name = false ∧ topRow hashes tree name = some row := by
  rw [inventoryRows, mem_append, mem_append, knownRows, reviewRows, mem_filterMap,
    mem_filterMap, mem_filterMap, or_assoc]
  simp only [mem_sortedFiles]
  refine or_congr Iff.rfl (or_congr Iff.rfl ⟨?_, ?_⟩)
  · rintro ⟨name, hname, hrow⟩
    exact ⟨name, (mem_topNames.mp hname).2, hrow⟩
  · rintro ⟨name, hknown, hrow⟩
    refine ⟨name, mem_topNames.mpr ⟨tree.listed _ fun hnone => ?_, hknown⟩, hrow⟩
    rw [topRow, hnone] at hrow
    obtain ⟨content, hcontent, -⟩ := fileRow_eq_some.mp hrow
    rw [fileContent, hnone] at hcontent
    cases hcontent

theorem of_topRow {name : String} (h : topRow hashes tree name = some row) :
    (isDir tree.contents [name] = true ∧
        row = (name.toList ++ ['/'], dirDigest hashes tree (sortedFiles tree [name]))) ∨
      fileRow hashes tree name.toList [name] = some row := by
  rw [topRow] at h
  split at h
  · rename_i readable hdir
    refine .inl ⟨by rw [isDir, hdir], (Option.some.inj h).symm⟩
  · exact .inr h

/-- How the path of a row tells what it is the row of. -/
theorem slash_notMem_known {name : String} (h : name ∈ authoritativeAssets ++ optionalAssets) :
    '/' ∉ name.toList ∧ knownTopLevel name = true ∧ name ≠ reviewDir := by
  revert name
  decide +kernel

theorem relativeText_walked {top : String} (h : path ∈ walkFiles tree [top]) :
    ∃ rest, rest ≠ [] ∧ path = top :: rest ∧
      relativeText path = slashed top.toList ++ '/' :: relativeText rest := by
  obtain ⟨⟨rest, rfl⟩, hne, -, -⟩ := mem_walkFiles.mp h
  have hrest : rest ≠ [] := fun hnil => hne (by rw [hnil, append_nil])
  exact ⟨rest, hrest, rfl, relativeText_cons top hrest⟩

end Rows

/-! ## Files of the same table -/

section Same

variable {hashes : Hashes} {tree other : Tree} {top : String} {rest : Path} {content : Bytes}

theorem WellNamed.of_mem (h : WellNamed tree) (hpath : tree.contents path ≠ none) :
    ∀ name ∈ path, name.toList ≠ [] ∧ '/' ∉ name.toList := by
  induction path using List.reverseRecOn with
  | nil => exact fun name hname => absurd hname not_mem_nil
  | append_singleton path last ih =>
    intro name hname
    rcases mem_append.mp hname with hname | hname
    · refine ih (fun hnone => ?_) name hname
      have hdir := tree.closed path last hpath
      rw [isDir, hnone] at hdir
      cases hdir
    · rw [mem_singleton.mp hname]
      exact h path last hpath

theorem contents_ne_none (h : fileContent tree path = some content) :
    tree.contents path ≠ none := by
  rw [fileContent_eq_some_iff.mp h]
  exact Option.some_ne_none _

theorem isDir_top (h : fileContent tree (top :: rest) = some content) (hrest : rest ≠ []) :
    isDir tree.contents [top] = true := by
  refine tree.closed.isDir_of_prefix ⟨rest, rfl⟩ (fun heq => hrest ?_) (contents_ne_none h)
  exact (List.cons.inj heq).2.symm

/-- In a tree with a table of all files, the walk finds each. -/
theorem Plain.mem_walkFiles (hplain : Plain tree) (hscope : InScope (top :: rest))
    (h : fileContent tree (top :: rest) = some content) (hrest : rest ≠ []) :
    top :: rest ∈ walkFiles tree [top] := by
  refine Workdir.mem_walkFiles.mpr ⟨⟨rest, rfl⟩, fun heq => hrest (List.cons.inj heq).2.symm,
    isFileAt_of_fileContent h, fun between hafter hbefore hne => ?_⟩
  refine hplain.readable between (fun name hname => ?_)
    (tree.closed.isDir_of_prefix hbefore hne (contents_ne_none h))
  obtain ⟨tail, rfl⟩ := hafter
  exact hscope name hname

/-- The names below the root of a file that has a row. -/
theorem Plain.names_below (hplain : Plain tree) (hnamed : WellNamed tree)
    (hscope : InScope (top :: rest)) (h : fileContent tree (top :: rest) = some content) :
    ∀ name ∈ rest, '/' ∉ name.toList ∧ '\\' ∉ name.toList := fun name hname =>
  ⟨(hnamed.of_mem (contents_ne_none h) name (mem_cons_of_mem _ hname)).2,
    hplain.names top rest hscope (by rw [h]; exact Option.some_ne_none _) name hname⟩

theorem relativeText_ne_nil (hrest : rest ≠ []) (hnames : ∀ name ∈ rest, name.toList ≠ []) :
    relativeText rest ≠ [] := by
  obtain ⟨name, tail, rfl⟩ := exists_cons_of_ne_nil hrest
  have hname := hnames name mem_cons_self
  by_cases htail : tail = []
  · rw [htail]
    simpa [relativeText, slashed] using hname
  · rw [relativeText_cons name htail]
    simp

/-- What a walk below one entry of the root finds under the text of a file is that file. -/
theorem eq_of_relativeText (hplain : Plain tree) (hplain' : Plain other) (hnamed : WellNamed tree)
    (hnamed' : WellNamed other) (hscope : InScope (top :: rest))
    (h : fileContent tree (top :: rest) = some content) (hrest : rest ≠ []) {found : Bytes}
    (hpath : path ∈ walkFiles other [top]) (hfound : fileContent other path = some found)
    (htext : relativeText path = relativeText (top :: rest)) : path = top :: rest := by
  obtain ⟨tail, htail, rfl, -⟩ := relativeText_walked hpath
  have hbelow : InScope (top :: tail) := hscope
  rw [relativeText_inj htail hrest (hplain'.names_below hnamed' hbelow hfound)
    (hplain.names_below hnamed hscope h) htext]

theorem of_fileRow (hfile : Function.Injective hashes.fileSha256) {name text : Text}
    (h : fileRow hashes tree name path = some (text, hashes.fileSha256 content)) :
    name = text ∧ fileContent tree path = some content := by
  obtain ⟨found, hfound, heq⟩ := fileRow_eq_some.mp h
  obtain ⟨htext, hsha⟩ := Prod.mk.inj heq
  exact ⟨htext, hfile hsha ▸ hfound⟩

/-- The rows below one entry of the root. -/
theorem mem_dirItems {text : Text} {sha : String} :
    (text, sha) ∈ (sortedFiles tree [top]).filterMap (fun path =>
        fileRow hashes tree (relativeText path) path) ↔
      ∃ path ∈ walkFiles tree [top], fileRow hashes tree (relativeText path) path =
        some (text, sha) := by
  rw [mem_filterMap]
  simp only [mem_sortedFiles]

/-- A file right in the root. -/
theorem fileContent_of_rows_top (hfile : Function.Injective hashes.fileSha256)
    (hnamed : WellNamed tree) (hplain : Plain tree)
    (hrows : ∀ row ∈ inventoryRows hashes tree, row ∈ inventoryRows hashes other)
    (hscope : InScope [top]) (h : fileContent tree [top] = some content) :
    fileContent other [top] = some content := by
  have hslash := (hnamed.of_mem (contents_ne_none h) top mem_cons_self).2
  have hrow : fileRow hashes tree top.toList [top] =
      some (top.toList, hashes.fileSha256 content) := by
    rw [fileRow, h, Option.map_some]
  have hmem : (top.toList, hashes.fileSha256 content) ∈ inventoryRows hashes tree := by
    rw [mem_inventoryRows]
    by_cases hknown : top ∈ authoritativeAssets ++ optionalAssets
    · exact .inl ⟨top, hknown, hrow⟩
    · refine .inr (.inr ⟨top, ?_, ?_⟩)
      · have hreview : top ≠ reviewDir := by
          rintro rfl
          rw [hplain.review] at h
          cases h
        have hstore : top ∉ storeMetadata := fun hin => hscope top hin rfl
        rw [mem_append, not_or] at hknown
        simp [knownTopLevel, hknown, hreview, hstore]
      · rw [topRow, fileContent_eq_some_iff.mp h]
        exact hrow
  rcases mem_inventoryRows.mp (hrows _ hmem) with ⟨name, -, hname⟩ | ⟨path, hpath, hname⟩ |
    ⟨name, -, hname⟩
  · obtain ⟨htext, hcontent⟩ := of_fileRow hfile hname
    rwa [String.toList_injective htext] at hcontent
  · obtain ⟨htext, -⟩ := of_fileRow hfile hname
    obtain ⟨tail, -, -, hsplit⟩ := relativeText_walked hpath
    rw [← htext, hsplit] at hslash
    exact absurd (mem_append_right _ mem_cons_self) hslash
  · rcases of_topRow hname with ⟨-, heq⟩ | hname
    · rw [(Prod.mk.inj heq).1] at hslash
      exact absurd (mem_append_right _ mem_cons_self) hslash
    · obtain ⟨htext, hcontent⟩ := of_fileRow hfile hname
      rwa [String.toList_injective htext] at hcontent

theorem slashed_reviewDir : slashed reviewDir.toList = reviewDir.toList := by decide +kernel

/-- A file below the review directory. -/
theorem fileContent_of_rows_review (hfile : Function.Injective hashes.fileSha256)
    (hnamed : WellNamed tree) (hnamed' : WellNamed other) (hplain : Plain tree)
    (hplain' : Plain other)
    (hrows : ∀ row ∈ inventoryRows hashes tree, row ∈ inventoryRows hashes other)
    (hscope : InScope (reviewDir :: rest)) (hrest : rest ≠ [])
    (h : fileContent tree (reviewDir :: rest) = some content) :
    fileContent other (reviewDir :: rest) = some content := by
  have hrow : fileRow hashes tree (relativeText (reviewDir :: rest)) (reviewDir :: rest) =
      some (relativeText (reviewDir :: rest), hashes.fileSha256 content) := by
    rw [fileRow, h, Option.map_some]
  have hmem : (relativeText (reviewDir :: rest), hashes.fileSha256 content) ∈
      inventoryRows hashes tree :=
    mem_inventoryRows.mpr (.inr (.inl ⟨_, hplain.mem_walkFiles hscope h hrest, hrow⟩))
  have hsplit := relativeText_cons reviewDir hrest
  have hslash : '/' ∈ relativeText (reviewDir :: rest) := by
    rw [hsplit]
    exact mem_append_right _ mem_cons_self
  rcases mem_inventoryRows.mp (hrows _ hmem) with ⟨name, hin, hname⟩ | ⟨path, hpath, hname⟩ |
    ⟨name, -, hname⟩
  · obtain ⟨htext, -⟩ := of_fileRow hfile hname
    exact absurd (htext ▸ hslash) (slash_notMem_known hin).1
  · obtain ⟨htext, hcontent⟩ := of_fileRow hfile hname
    rwa [eq_of_relativeText hplain hplain' hnamed hnamed' hscope h hrest hpath hcontent htext]
      at hcontent
  · rcases of_topRow hname with ⟨hdir, heq⟩ | hname
    · have htext := (Prod.mk.inj heq).1
      have hname : '/' ∉ name.toList := by
        refine (hnamed'.of_mem (fun hnone : other.contents [name] = none => ?_) name
          mem_cons_self).2
        rw [isDir, hnone] at hdir
        cases hdir
      rw [hsplit, slashed_reviewDir] at htext
      have hnil := (append_slash_inj (by decide +kernel) hname htext).2
      exact absurd hnil (relativeText_ne_nil hrest fun name hname =>
        (hnamed.of_mem (contents_ne_none h) name (mem_cons_of_mem _ hname)).1)
    · obtain ⟨htext, hcontent⟩ := of_fileRow hfile hname
      have hname := (hnamed'.of_mem (contents_ne_none hcontent) name mem_cons_self).2
      exact absurd (htext ▸ hslash) hname

/-- The file that counts under its text in the digest of a directory. -/
theorem mem_mapEntries_dirItems (hashes : Hashes) (hnamed : WellNamed tree) (hplain : Plain tree)
    (hscope : InScope (top :: rest)) (hrest : rest ≠ [])
    (h : fileContent tree (top :: rest) = some content) :
    (relativeText (top :: rest), hashes.fileSha256 content) ∈
      mapEntries ((sortedFiles tree [top]).filterMap fun path =>
        fileRow hashes tree (relativeText path) path) := by
  have hitem : (relativeText (top :: rest), hashes.fileSha256 content) ∈
      (sortedFiles tree [top]).filterMap fun path =>
        fileRow hashes tree (relativeText path) path := by
    rw [mem_dirItems]
    refine ⟨_, hplain.mem_walkFiles hscope h hrest, ?_⟩
    rw [fileRow, h, Option.map_some]
  obtain ⟨sha, hsha⟩ := Option.isSome_iff_exists.mp (lookup_tableOf_isSome.mpr
    (mem_map_of_mem (f := Prod.fst) hitem))
  obtain ⟨path, hpath, hrow⟩ := mem_dirItems.mp (mem_of_lookup_tableOf hsha)
  obtain ⟨found, hfound, heq⟩ := fileRow_eq_some.mp hrow
  obtain ⟨htext, rfl⟩ := Prod.mk.inj heq
  have hsame := eq_of_relativeText hplain hplain hnamed hnamed hscope h hrest hpath hfound htext
  rw [hsame, h] at hfound
  obtain rfl := Option.some.inj hfound
  exact mem_mapEntries.mpr hsha

/-- A file below another directory of the root. -/
theorem fileContent_of_rows_opaque (hfile : Function.Injective hashes.fileSha256)
    (hobject : Function.Injective hashes.object)
    (hnamed : WellNamed tree) (hnamed' : WellNamed other) (hplain : Plain tree)
    (hplain' : Plain other)
    (hrows : ∀ row ∈ inventoryRows hashes tree, row ∈ inventoryRows hashes other)
    (hscope : InScope (top :: rest)) (hrest : rest ≠ []) (hknown : knownTopLevel top = false)
    (h : fileContent tree (top :: rest) = some content) :
    fileContent other (top :: rest) = some content := by
  have hdir := isDir_top h hrest
  have hslash := (hnamed.of_mem (contents_ne_none h) top mem_cons_self).2
  have hmem : (top.toList ++ ['/'], dirDigest hashes tree (sortedFiles tree [top])) ∈
      inventoryRows hashes tree := by
    refine mem_inventoryRows.mpr (.inr (.inr ⟨top, hknown, ?_⟩))
    rw [isDir] at hdir
    rw [topRow]
    split at hdir
    · rename_i readable hlies
      rw [hlies]
    · cases hdir
  rcases mem_inventoryRows.mp (hrows _ hmem) with ⟨name, hin, hname⟩ | ⟨path, hpath, hname⟩ |
    ⟨name, -, hname⟩
  · obtain ⟨found, -, heq⟩ := fileRow_eq_some.mp hname
    have hin := (slash_notMem_known hin).1
    rw [(Prod.mk.inj heq).1] at hin
    exact absurd (mem_append_right _ mem_cons_self) hin
  · obtain ⟨found, hfound, heq⟩ := fileRow_eq_some.mp hname
    obtain ⟨tail, htail, rfl, hsplit⟩ := relativeText_walked hpath
    have htext := (Prod.mk.inj heq).1
    rw [hsplit, slashed_reviewDir] at htext
    have hnil := (append_slash_inj (by decide +kernel) hslash htext).2
    exact absurd hnil (relativeText_ne_nil htail fun name hname =>
      (hnamed'.of_mem (contents_ne_none hfound) name (mem_cons_of_mem _ hname)).1)
  · rcases of_topRow hname with ⟨-, heq⟩ | hname
    · obtain ⟨htext, hdigest⟩ := Prod.mk.inj heq
      obtain rfl := String.toList_injective (append_cancel_right htext)
      have hitem := mem_mapEntries_dirItems hashes hnamed hplain hscope hrest h
      rw [hobject hdigest, mem_mapEntries] at hitem
      obtain ⟨path, hpath, hrow⟩ := mem_dirItems.mp (mem_of_lookup_tableOf hitem)
      obtain ⟨htext, hcontent⟩ := of_fileRow hfile hrow
      rwa [eq_of_relativeText hplain hplain' hnamed hnamed' hscope h hrest hpath hcontent htext]
        at hcontent
    · obtain ⟨found, hfound, heq⟩ := fileRow_eq_some.mp hname
      have hname := (hnamed'.of_mem (contents_ne_none hfound) name mem_cons_self).2
      rw [(Prod.mk.inj heq).1] at hname
      exact absurd (mem_append_right _ mem_cons_self) hname

theorem fileContent_of_rows (hfile : Function.Injective hashes.fileSha256)
    (hobject : Function.Injective hashes.object) (hnamed : WellNamed tree)
    (hnamed' : WellNamed other) (hplain : Plain tree) (hplain' : Plain other)
    (hrows : ∀ row ∈ inventoryRows hashes tree, row ∈ inventoryRows hashes other)
    (hscope : InScope path) (h : fileContent tree path = some content) :
    fileContent other path = some content := by
  cases path with
  | nil =>
    have hroot := tree.root
    rw [isDir, fileContent_eq_some_iff.mp h] at hroot
    cases hroot
  | cons top rest =>
    by_cases hrest : rest = []
    · subst hrest
      exact fileContent_of_rows_top hfile hnamed hplain hrows hscope h
    · by_cases hreview : top = reviewDir
      · subst hreview
        exact fileContent_of_rows_review hfile hnamed hnamed' hplain hplain' hrows hscope hrest h
      · refine fileContent_of_rows_opaque hfile hobject hnamed hnamed' hplain hplain' hrows hscope
          hrest ?_ h
        have hstore : top ∉ storeMetadata := fun hin => hscope top hin rfl
        have hknown : top ∉ authoritativeAssets ++ optionalAssets := fun hin => by
          have hdir := isDir_top h hrest
          rw [hplain.known top hin] at hdir
          cases hdir
        rw [mem_append, not_or] at hknown
        simp [knownTopLevel, hknown, hreview, hstore]

end Same

/-! ## Files that no table has -/

section Hidden

variable {hashes : Hashes} {tree other : Tree}

/-- Lists in order of the same entries. -/
theorem sorted_eq_of_mem {α : Type} [DecidableEq α] {r : α → α → Prop} [DecidableRel r]
    [Std.Total r] [IsTrans α r] (hanti : ∀ a b, r a b → r b a → a = b) {l m : List α}
    (h : ∀ a, a ∈ l ↔ a ∈ m) : l.dedup.insertionSort r = m.dedup.insertionSort r := by
  have hperm : l.dedup.Perm m.dedup := (perm_ext_iff_of_nodup l.nodup_dedup
    m.nodup_dedup).mpr fun a => by rw [mem_dedup, mem_dedup, h]
  exact List.Perm.eq_of_pairwise (fun a b _ _ => hanti a b) (pairwise_insertionSort _ _)
    (pairwise_insertionSort _ _)
    (((perm_insertionSort _ _).trans hperm).trans (perm_insertionSort _ _).symm)

/-- What the table of a tree depends on. -/
theorem inventoryRows_congr
    (hroot : ∀ name, name ≠ reviewDir → other.contents [name] = tree.contents [name])
    (hwalk : ∀ name path, path ∈ walkFiles other [name] ↔ path ∈ walkFiles tree [name])
    (hcontent : ∀ name, ∀ path ∈ walkFiles tree [name],
      fileContent other path = fileContent tree path)
    (hpaths : ∀ name, name ≠ reviewDir → ([name] ∈ other.paths ↔ [name] ∈ tree.paths)) :
    inventoryRows hashes other = inventoryRows hashes tree := by
  have hreview : ∀ name ∈ authoritativeAssets ++ optionalAssets, name ≠ reviewDir := fun name hin =>
    (slash_notMem_known hin).2.2
  have hrow : ∀ name, name ≠ reviewDir →
      fileRow hashes other name.toList [name] = fileRow hashes tree name.toList [name] := by
    intro name hname
    rw [fileRow, fileRow, fileContent, fileContent, hroot name hname]
  have hfiles : ∀ name, (sortedFiles other [name]).filterMap (fun path =>
      fileRow hashes other (relativeText path) path) = (sortedFiles tree [name]).filterMap
        fun path => fileRow hashes tree (relativeText path) path := by
    intro name
    have hsorted : sortedFiles other [name] = sortedFiles tree [name] :=
      sorted_eq_of_mem (fun _ _ => le_antisymm) (hwalk name)
    rw [hsorted]
    refine filterMap_congr fun path hpath => ?_
    rw [fileRow, fileRow, hcontent name path (mem_sortedFiles.mp hpath)]
  have hnames : topNames other = topNames tree := by
    refine sorted_eq_of_mem (fun _ _ => le_antisymm) fun name => ?_
    have hmem := @mem_topNames other name
    have hmem' := @mem_topNames tree name
    rw [topNames, mem_insertionSort, mem_dedup] at hmem hmem'
    rw [hmem, hmem']
    refine and_congr_left fun hknown => hpaths name ?_
    rintro rfl
    exact absurd hknown (by decide +kernel)
  rw [inventoryRows, inventoryRows, knownRows, knownRows, reviewRows, reviewRows, hfiles, hnames]
  congr 1
  · congr 1
    exact filterMap_congr fun name hin => hrow name (hreview name hin)
  · refine filterMap_congr fun name hin => ?_
    have hname : name ≠ reviewDir := by
      rintro rfl
      exact absurd (mem_topNames.mp hin).2 (by decide +kernel)
    rw [topRow, topRow, hroot name hname]
    split
    · rw [dirDigest, dirDigest, hfiles]
    · exact hrow name hname

theorem exists_mapM {α β : Type} {f : α → Except Step β} (h : ∀ x, ∃ y, f x = .ok y) (xs : List α) :
    ∃ ys, xs.mapM f = .ok ys := by
  obtain ⟨ys, hys, -⟩ := exists_mapM_eq_ok (P := fun _ _ => True) fun x (_ : x ∈ xs) => by
    obtain ⟨y, hy⟩ := h x
    exact ⟨y, hy, trivial⟩
  exact ⟨ys, hys⟩

/-- Where nothing fails, a root that can be listed has an inventory. -/
theorem inventoryAssets_calm (hroot : tree.contents [] = some (.dir true)) :
    ∃ assets, inventoryAssets calm tree = .ok assets := by
  have hfile : ∀ path, ∃ asset, fileAsset calm tree path = .ok asset := by
    intro path
    rw [fileAsset]
    split
    · exact ⟨_, rfl⟩
    · exact ⟨_, rfl⟩
  have hwalked : ∀ paths : List Path,
      (paths.forM fun file => attempt calm (.hash file)) = .ok () := by
    intro paths
    induction paths with
    | nil => rfl
    | cons path paths ih => exact ih
  have hopaque : ∀ path, ∃ assets, opaqueAsset calm tree path = .ok assets := by
    intro path
    rw [opaqueAsset]
    split
    · exact ⟨_, bind_ok (hwalked _)⟩
    · obtain ⟨asset, hasset⟩ := hfile path
      exact ⟨_, bind_ok hasset⟩
    · exact ⟨_, rfl⟩
  obtain ⟨known, hknown⟩ := exists_mapM hfile (((authoritativeAssets ++ optionalAssets).map
    fun name => [name]).filter fun path => !isLink tree path)
  obtain ⟨review, hreview⟩ : ∃ review, reviewAssets calm tree = .ok review := by
    rw [reviewAssets]
    split
    · exact exists_mapM hfile _
    · exact ⟨_, rfl⟩
  obtain ⟨top, htop⟩ : ∃ top, listRoot calm tree = .ok top := by
    rw [listRoot, if_pos hroot]
    exact ⟨_, rfl⟩
  obtain ⟨attachments, hattachments⟩ := exists_mapM hopaque
    (top.filter fun path => !knownTopLevel (path.headD ""))
  refine ⟨known ++ review ++ attachments.flatten, ?_⟩
  rw [inventoryAssets]
  refine (bind_ok hknown).trans ((bind_ok hreview).trans ((bind_ok htop).trans ?_))
  exact bind_ok hattachments

/-- Trees that differ only where no walk gets. -/
theorem mem_walkFiles_congr {hidden : Path → Prop}
    (hsame : ∀ path, ¬ hidden path → other.contents path = tree.contents path)
    (hother : ∀ path, hidden path → other.contents path ≠ some (.dir true))
    (htree : ∀ path, hidden path → tree.contents path ≠ some (.dir true))
    (hfiles : ∀ name path, hidden path → [name] <+: path → [name] ≠ path →
      (isFileAt other path = true → ¬ Reachable other.contents [name] path) ∧
        (isFileAt tree path = true → ¬ Reachable tree.contents [name] path))
    (name : String) (path : Path) :
    (path ∈ walkFiles other [name] ↔ path ∈ walkFiles tree [name]) ∧
      (path ∈ walkFiles tree [name] → fileContent other path = fileContent tree path) := by
  have hfile : ¬ hidden path → isFileAt other path = isFileAt tree path := fun hnot => by
    rw [isFileAt, isFileAt, hsame path hnot]
  have hreach : Reachable other.contents [name] path ↔ Reachable tree.contents [name] path := by
    constructor
    · intro h between hafter hbefore hne
      have hdir := h between hafter hbefore hne
      rwa [hsame between fun hin => hother between hin hdir] at hdir
    · intro h between hafter hbefore hne
      have hdir := h between hafter hbefore hne
      rwa [← hsame between fun hin => htree between hin hdir] at hdir
  rw [mem_walkFiles, mem_walkFiles]
  refine ⟨?_, fun h => ?_⟩
  · by_cases hin : hidden path
    · refine iff_of_false (fun h => ?_) fun h => ?_
      · exact (hfiles name path hin h.1 h.2.1).1 h.2.2.1 h.2.2.2
      · exact (hfiles name path hin h.1 h.2.1).2 h.2.2.1 h.2.2.2
    · rw [hfile hin, hreach]
  · have hnot : ¬ hidden path := fun hin =>
      (hfiles name path hin h.1 h.2.1).2 h.2.2.1 h.2.2.2
    rw [fileContent, fileContent, hsame path hnot]

/-- A name that no path has. -/
theorem exists_fresh (tree : Tree) : ∃ fresh : String, fresh.toList ≠ [] ∧ '/' ∉ fresh.toList ∧
    ∀ path ∈ tree.paths, fresh ∉ path := by
  set bound := (tree.paths.flatten.map String.length).sum with hbound
  refine ⟨String.ofList (List.replicate (bound + 1) 'a'), ?_, ?_, fun path hpath hmem => ?_⟩
  · rw [String.toList_ofList]
    simp
  · rw [String.toList_ofList]
    simp
  · have hle := single_le_sum (fun _ _ => Nat.zero_le _) _ (mem_map_of_mem
      (f := String.length) (mem_flatten_of_mem hpath hmem))
    rw [← hbound] at hle
    simp at hle

/-- A tree with a file in place of the review directory. -/
def withReview (tree : Tree) (content : Bytes) (hdir : isDir tree.contents [reviewDir] = false) :
    Tree where
  contents := put tree.contents [reviewDir] (.leaf (.file content))
  paths := [reviewDir] :: tree.paths
  listed path h := by
    by_cases hpath : path = [reviewDir]
    · rw [hpath]
      exact List.mem_cons_self
    · rw [put, if_neg hpath] at h
      exact List.mem_cons_of_mem _ (tree.listed path h)
  closed := tree.closed.put_leaf (.inr tree.root) hdir
  root := by
    rw [isDir, put, if_neg (by simp)]
    exact tree.root

theorem withReview_review (hdir : isDir tree.contents [reviewDir] = false) :
    (withReview tree content hdir).contents [reviewDir] = some (.leaf (.file content)) := by
  show put tree.contents [reviewDir] _ [reviewDir] = _
  rw [put, if_pos rfl]

/-- A tree with a directory of the review directory that cannot be listed, and a file in it. -/
def withLocked (tree : Tree) (fresh : String) (hdir : isDir tree.contents [reviewDir] = true)
    (hfresh : ∀ path ∈ tree.paths, fresh ∉ path) : Tree where
  contents path :=
    if path = [reviewDir, fresh] then some (.dir false)
    else if path = [reviewDir, fresh, "a"] then some (.leaf (.file []))
    else tree.contents path
  paths := [reviewDir, fresh] :: [reviewDir, fresh, "a"] :: tree.paths
  listed path h := by
    split_ifs at h with hlocked hinside
    · simp [hlocked]
    · simp [hinside]
    · exact List.mem_cons_of_mem _ (List.mem_cons_of_mem _ (tree.listed path h))
  closed path name h := by
    have hnone : ∀ path : Path, fresh ∈ path → tree.contents path = none := fun path hmem => by
      by_contra hne
      exact hfresh path (tree.listed path hne) hmem
    dsimp only at h
    split_ifs at h with hlocked hinside
    · obtain rfl : path = [reviewDir] := by simpa using congrArg List.dropLast hlocked
      rw [isDir, if_neg (by simp), if_neg (by simp)]
      exact hdir
    · obtain rfl : path = [reviewDir, fresh] := by simpa using congrArg List.dropLast hinside
      rw [isDir, if_pos rfl]
    · have hpath := tree.closed path name h
      have hnot : fresh ∉ path := fun hmem => by
        rw [isDir, hnone path hmem] at hpath
        cases hpath
      rw [isDir, if_neg (fun heq => hnot (by simp [heq])), if_neg fun heq => hnot (by simp [heq])]
      exact hpath
  root := by
    rw [isDir, if_neg (by simp), if_neg (by simp)]
    exact tree.root

/-- No table tells a tree from all others. -/
theorem exists_sameRows (hashes : Hashes) (hnamed : WellNamed tree) : ∃ other : Tree,
    WellNamed other ∧ other.contents [] = tree.contents [] ∧
      inventoryRows hashes other = inventoryRows hashes tree ∧ ¬ SameFiles tree other := by
  have hscope : ∀ rest, InScope (reviewDir :: rest) := by
    intro rest name hname heq
    obtain rfl : reviewDir = name := Option.some.inj heq
    revert hname
    decide +kernel
  cases hdir : isDir tree.contents [reviewDir] with
  | false =>
    set content := (fileContent tree [reviewDir]).elim [] (0 :: ·) with hcontent
    have hlies : ∀ path, path ≠ [reviewDir] →
        (withReview tree content hdir).contents path = tree.contents path := fun path hpath =>
      if_neg hpath
    have hwalk := @mem_walkFiles_congr tree (withReview tree content hdir) (· = [reviewDir]) hlies
      (fun path hpath h => by
        rw [hpath, withReview_review] at h
        cases h)
      (fun path hpath h => by
        rw [isDir, ← hpath, h] at hdir
        cases hdir)
      fun name path hpath hpre hne => absurd (hpre.eq_of_length (by rw [hpath]; rfl)) hne
    refine ⟨withReview tree content hdir, fun path name h => ?_, hlies [] (by simp), ?_, ?_⟩
    · by_cases hpath : path ++ [name] = [reviewDir]
      · obtain rfl : name = reviewDir := by simpa using congrArg List.getLast? hpath
        decide +kernel
      · rw [hlies _ hpath] at h
        exact hnamed path name h
    · refine inventoryRows_congr (fun name hname => hlies [name] (by simpa using hname))
        (fun name path => (hwalk name path).1) (fun name path h => (hwalk name path).2 h)
        fun name hname => ?_
      rw [withReview, mem_cons, or_iff_right (by simpa using hname)]
    · intro hsame
      have h := hsame [reviewDir] (hscope [])
      have hput : fileContent (withReview tree content hdir) [reviewDir] = some content := by
        rw [fileContent_eq_some_iff, withReview_review]
      rw [hput, hcontent] at h
      cases hold : fileContent tree [reviewDir] with
      | none =>
        rw [hold] at h
        cases h
      | some old =>
        rw [hold] at h
        have hlength := congrArg List.length (Option.some.inj h)
        rw [Option.elim_some, length_cons] at hlength
        omega
  | true =>
    obtain ⟨fresh, hne, hslash, hfresh⟩ := exists_fresh tree
    have hnone : ∀ path : Path, fresh ∈ path → tree.contents path = none := fun path hmem => by
      by_contra hne
      exact hfresh path (tree.listed path hne) hmem
    have hlies : ∀ path, ¬ (path = [reviewDir, fresh] ∨ path = [reviewDir, fresh, "a"]) →
        (withLocked tree fresh hdir hfresh).contents path = tree.contents path := by
      intro path hpath
      rw [not_or] at hpath
      show (if path = [reviewDir, fresh] then _ else if path = [reviewDir, fresh, "a"] then _ else
        tree.contents path) = _
      rw [if_neg hpath.1, if_neg hpath.2]
    have hwalk := @mem_walkFiles_congr tree (withLocked tree fresh hdir hfresh)
      (fun path => path = [reviewDir, fresh] ∨ path = [reviewDir, fresh, "a"]) hlies
      (fun path hpath h => by
        rcases hpath with rfl | rfl
        · simp [withLocked] at h
        · simp [withLocked] at h)
      (fun path hpath h => by
        rw [hnone path (by rcases hpath with rfl | rfl <;> simp)] at h
        cases h)
      fun name path hpath hpre hne => ⟨fun hfile hreach => ?_, fun hfile => ?_⟩
    rotate_left
    · rcases hpath with rfl | rfl
      · simp [isFileAt, withLocked] at hfile
      · obtain rfl : name = reviewDir := by simpa using hpre
        have h := hreach [reviewDir, fresh] ⟨[fresh], rfl⟩ ⟨["a"], rfl⟩ (by simp)
        simp [withLocked] at h
    · rw [isFileAt, hnone path (by rcases hpath with rfl | rfl <;> simp)] at hfile
      cases hfile
    refine ⟨withLocked tree fresh hdir hfresh, fun path name h => ?_, hlies [] (by simp), ?_, ?_⟩
    · by_cases hpath : path ++ [name] = [reviewDir, fresh] ∨
        path ++ [name] = [reviewDir, fresh, "a"]
      · rcases hpath with hpath | hpath
        · obtain rfl : name = fresh := by simpa using congrArg List.getLast? hpath
          exact ⟨hne, hslash⟩
        · obtain rfl : name = "a" := by simpa using congrArg List.getLast? hpath
          decide +kernel
      · rw [hlies _ hpath] at h
        exact hnamed path name h
    · refine inventoryRows_congr (fun name hname => hlies [name] (by simp))
        (fun name path => (hwalk name path).1) (fun name path h => (hwalk name path).2 h)
        fun name hname => ?_
      simp [withLocked]
    · intro hsame
      have h := hsame [reviewDir, fresh, "a"] (hscope _)
      rw [fileContent, hnone _ (by simp)] at h
      simp [fileContent, withLocked] at h

end Hidden

/-! ## Where the digest tells -/

section Separates

variable {hashes : Hashes} {tree other : Tree}

/-- Trees that have each file under its own path in the table have the same files if they have the
same digest. -/
theorem sameFiles_of_inventorySha256 {env env' : Env} {digest : String}
    (hfile : Function.Injective hashes.fileSha256) (hobject : Function.Injective hashes.object)
    (htable : Function.Injective hashes.table) (hnamed : WellNamed tree)
    (hnamed' : WellNamed other) (hplain : Plain tree) (hplain' : Plain other)
    (h : inventorySha256 hashes tree env = .ok digest)
    (h' : inventorySha256 hashes other env' = .ok digest) : SameFiles tree other := by
  have hdigest : ∀ {tree : Tree} {env : Env}, inventorySha256 hashes tree env = .ok digest →
      hashes.table (inventoryRows hashes tree) = digest := by
    intro tree env h
    obtain ⟨assets, -, h⟩ := bind_eq_ok h
    exact Except.ok.inj h
  have hrows : inventoryRows hashes tree = inventoryRows hashes other :=
    htable ((hdigest h).trans (hdigest h').symm)
  intro path hscope
  refine Option.ext fun content => ⟨fun h => ?_, fun h => ?_⟩
  · exact fileContent_of_rows hfile hobject hnamed hnamed' hplain hplain'
      (fun row hrow => hrows ▸ hrow) hscope h
  · exact fileContent_of_rows hfile hobject hnamed' hnamed hplain' hplain
      (fun row hrow => hrows ▸ hrow) hscope h

/-- **Where the digest tells trees apart.**  Of two trees that have each file under its own path in
the table, the same digest gives the same files; and no tree is told apart from all others. -/
theorem inventorySha256_separates {env : Env} {digest : String}
    (hfile : Function.Injective hashes.fileSha256) (hobject : Function.Injective hashes.object)
    (htable : Function.Injective hashes.table) (hnamed : WellNamed tree)
    (h : inventorySha256 hashes tree env = .ok digest) :
    (∀ other env', WellNamed other → Plain tree → Plain other →
      inventorySha256 hashes other env' = .ok digest → SameFiles tree other) ∧
    ∃ other, WellNamed other ∧ inventorySha256 hashes other calm = .ok digest ∧
      ¬ SameFiles tree other := by
  refine ⟨fun other env' hnamed' hplain hplain' h' => sameFiles_of_inventorySha256 hfile hobject
    htable hnamed hnamed' hplain hplain' h h', ?_⟩
  obtain ⟨other, hnamed', hlisted, hrows, hdiffer⟩ := exists_sameRows hashes hnamed
  obtain ⟨assets, hassets, h⟩ := bind_eq_ok h
  have hroot : tree.contents [] = some (.dir true) := by
    obtain ⟨known, -, hassets⟩ := bind_eq_ok hassets
    obtain ⟨review, -, hassets⟩ := bind_eq_ok hassets
    obtain ⟨top, htop, -⟩ := bind_eq_ok hassets
    rw [listRoot] at htop
    split at htop
    · assumption
    · cases htop
  obtain ⟨found, hfound⟩ := inventoryAssets_calm (hlisted.trans hroot)
  refine ⟨other, hnamed', ?_, hdiffer⟩
  rw [inventorySha256, bind_ok hfound, hrows]
  exact h

end Separates

/-! ## Backslashes -/

/-- A tree by its entries. -/
def listedTree (entries : List (Path × Node Leaf))
    (hclosed : ∀ entry ∈ entries, entry.1 = [] ∨
      isDir (fun path => entries.lookup path) entry.1.dropLast = true)
    (hroot : isDir (fun path => entries.lookup path) [] = true) : Tree where
  contents path := entries.lookup path
  paths := entries.map Prod.fst
  listed path h := by
    obtain ⟨node, hnode⟩ := Option.ne_none_iff_exists'.mp h
    obtain ⟨before, after, rfl, -⟩ := List.lookup_eq_some_iff.mp hnode
    simp
  closed path name h := by
    obtain ⟨node, hnode⟩ := Option.ne_none_iff_exists'.mp h
    obtain ⟨before, after, heq, -⟩ := List.lookup_eq_some_iff.mp hnode
    have hmem : (path ++ [name], node) ∈ entries := by simp [heq]
    have hdir := (hclosed _ hmem).resolve_left (by simp)
    rwa [List.dropLast_concat] at hdir
  root := hroot

/-- A file whose name has a backslash in it. -/
def backslashTree : Tree :=
  listedTree [([], .dir true), (["notes"], .dir true),
    (["notes", "a\\b"], .leaf (.file (bytes "text")))] (by decide +kernel) (by decide +kernel)

/-- A file in a directory. -/
def nestedTree : Tree :=
  listedTree [([], .dir true), (["notes"], .dir true), (["notes", "a"], .dir true),
    (["notes", "a", "b"], .leaf (.file (bytes "text")))] (by decide +kernel) (by decide +kernel)

section Listed

variable {entries : List (Path × Node Leaf)}
  {hclosed : ∀ entry ∈ entries, entry.1 = [] ∨
    isDir (fun path => entries.lookup path) entry.1.dropLast = true}
  {hroot : isDir (fun path => entries.lookup path) [] = true}

theorem mem_of_listedTree {node : Node Leaf}
    (h : (listedTree entries hclosed hroot).contents path = some node) :
    (path, node) ∈ entries := by
  obtain ⟨before, after, rfl, -⟩ := lookup_eq_some_iff.mp h
  simp

theorem wellNamed_listedTree
    (h : ∀ entry ∈ entries, ∀ name ∈ entry.1, name.toList ≠ [] ∧ '/' ∉ name.toList) :
    WellNamed (listedTree entries hclosed hroot) := by
  intro path name hpath
  obtain ⟨node, hnode⟩ := Option.ne_none_iff_exists'.mp hpath
  exact h _ (mem_of_listedTree hnode) name (by simp)

end Listed

/-- The two have the same digest. -/
theorem backslashTree_sameDigest : WellNamed backslashTree ∧ WellNamed nestedTree ∧
    (∀ hashes, inventorySha256 hashes backslashTree calm = inventorySha256 hashes nestedTree calm) ∧
    (∀ hashes, ∃ digest, inventorySha256 hashes nestedTree calm = .ok digest) ∧
    ¬ SameFiles backslashTree nestedTree := by
  refine ⟨wellNamed_listedTree (by decide +kernel), wellNamed_listedTree (by decide +kernel),
    fun hashes => rfl, fun hashes => ⟨_, rfl⟩, fun hsame => ?_⟩
  have hfile := hsame ["notes", "a", "b"] (by decide +kernel)
  revert hfile
  decide +kernel

theorem plain_nestedTree : Plain nestedTree where
  readable path _ h := by
    rw [isDir] at h
    split at h
    · rename_i readable hlies
      have hall : ∀ entry ∈ [(([], .dir true) : Path × Node Leaf), (["notes"], .dir true),
          (["notes", "a"], .dir true), (["notes", "a", "b"], .leaf (.file (bytes "text")))],
          entry.2 ≠ .dir false := by
        decide +kernel
      have hreadable := hall _ (mem_of_listedTree hlies)
      rw [hlies]
      cases readable with
      | false => exact absurd rfl hreadable
      | true => rfl
    · cases h
  known := by decide +kernel
  review := by decide +kernel
  names top rest _ h name hname := by
    obtain ⟨content, hcontent⟩ := Option.ne_none_iff_exists'.mp h
    have hall : ∀ entry ∈ [(([], .dir true) : Path × Node Leaf), (["notes"], .dir true),
        (["notes", "a"], .dir true), (["notes", "a", "b"], .leaf (.file (bytes "text")))],
        ∀ name ∈ entry.1, '\\' ∉ name.toList := by
      decide +kernel
    exact hall _ (mem_of_listedTree (fileContent_eq_some_iff.mp hcontent)) name
      (mem_cons_of_mem _ hname)

def bytesCode : PrefixCode UInt8 := PrefixCode.nat.map UInt8.toNat fun _ _ h => UInt8.toNat_inj.mp h

def itemsCode : PrefixCode (List (Text × String)) := .list (.pair (.list .char) .text)

/-- Hashes without collisions. -/
def spelledHashes : Hashes where
  fileSha256 content := String.ofList ((PrefixCode.list bytesCode).spell content)
  object items := String.ofList (itemsCode.spell items)
  table items := String.ofList (itemsCode.spell items)

theorem nestedTree_separated : ∃ digest,
    inventorySha256 spelledHashes nestedTree calm = .ok digest ∧ Plain nestedTree ∧
    (∀ other env', WellNamed other → Plain nestedTree → Plain other →
      inventorySha256 spelledHashes other env' = .ok digest → SameFiles nestedTree other) ∧
    ∃ other, WellNamed other ∧ inventorySha256 spelledHashes other calm = .ok digest ∧
      ¬ SameFiles nestedTree other := by
  have hitems : Function.Injective fun items => String.ofList (itemsCode.spell items) :=
    fun _ _ h => itemsCode.spell_injective (String.ofList_injective h)
  refine ⟨_, rfl, plain_nestedTree, inventorySha256_separates ?_ hitems hitems
    (wellNamed_listedTree (by decide +kernel))
    (show inventorySha256 spelledHashes nestedTree calm = _ from rfl)⟩
  exact fun _ _ h => (PrefixCode.list bytesCode).spell_injective (String.ofList_injective h)

end Docx2Typed.Workdir
