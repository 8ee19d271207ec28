import Docx2Typed.Basic
import Mathlib.Data.List.Nodup

/-!
# Packages and their parts

A package is a ZIP archive; the prose parts of it are `word/document.xml`, the headers, the
footers, and the note and comment parts, each addressed by a part key.  The crates the code
reads packages with are the fields of `Crates`: nothing is assumed of them here.
-/

namespace Docx2Typed

open List

/-- The third-party code the modelled functions call. -/
structure Crates where
  /-- `zip::ZipArchive`: the members in central-directory order, each with its inflated content
  when that can be read; `none` when the archive, or a member of it, does not open. -/
  members : Bytes → Option (List (String × Option Bytes))
  /-- `roxmltree::Document::parse` succeeds. -/
  wellFormed : Text → Bool
  /-- `hex::encode(Sha256::digest(..))`. -/
  sha256Hex : Bytes → String
  /-- `crc32fast::hash`. -/
  crc32 : Bytes → UInt32
  /-- What `flate2::write::DeflateEncoder` writes. -/
  deflate : Bytes → Bytes

/-- Full zip path of a part key. -/
def partPath (partKey : String) : String :=
  if partKey = "document" then "word/document.xml" else "word/" ++ partKey ++ ".xml"

/-- The part key of a zip member path, when it is an editable prose part. -/
def partKeyFromPath (path : String) : Option String :=
  if "word/".toList <+: path.toList ∧ ".xml".toList <:+ path.toList.drop 5 then
    let name := String.ofList ((path.toList.drop 5).take (path.toList.length - 9))
    if name = "document" ∨ "header".toList <+: name.toList ∨ "footer".toList <+: name.toList ∨
        name = "footnotes" ∨ name = "endnotes" ∨ name = "comments" then some name
    else none
  else none

/-- The parts of a package by key (`BTreeMap`): keys ascending, each once. -/
abbrev PartMap := List (String × Bytes)

def PartMap.insert (key : String) (xml : Bytes) : PartMap → PartMap
  | [] => [(key, xml)]
  | entry :: rest =>
    if key = entry.1 then (key, xml) :: rest
    else if key < entry.1 then (key, xml) :: entry :: rest
    else entry :: PartMap.insert key xml rest

def notADocx (detail : String) : Failure := .refused (.message ("not a valid DOCX: " ++ detail))

/-- The read loop over the archive: the last member of a key wins. -/
def readParts : List (String × Option Bytes) → PartMap → Outcome PartMap
  | [], parts => pure parts
  | (name, content) :: rest, parts =>
    match partKeyFromPath name with
    | none => readParts rest parts
    | some key =>
      match content with
      | none => .error (.refused .io)
      | some xml => readParts rest (parts.insert key xml)

/-- The prose parts of a package. -/
def partXmlMembers (crates : Crates) (package : Bytes) : Outcome PartMap :=
  match crates.members package with
  | none => .error (notADocx "")
  | some members => readParts members []

/-- `read_part_bytes`: the first member of a name. -/
def readPartBytes (crates : Crates) (package : Bytes) (member : String) : Outcome Bytes :=
  match crates.members package with
  | none => .error (notADocx "")
  | some members =>
    match members.find? (·.1 = member) with
    | none => refuse s!"invalid-edit: part not found: {member}"
    | some (_, none) => .error (.refused .io)
    | some (_, some content) => pure content

/-- `validate_package`: every `.xml` member parses, and the document is there. -/
def validateMembers (crates : Crates) : List (String × Option Bytes) → Bool → Outcome Bool
  | [], hasDocumentXml => pure hasDocumentXml
  | (name, content) :: rest, hasDocumentXml =>
    if ".xml".toList <:+ name.toList then
      match content with
      | none => .error (.refused .io)
      | some xml =>
        match Library.Utf8.decode xml with
        | none => refuse "prose-xml-invalid: part XML is not UTF-8"
        | some text =>
          if crates.wellFormed text then
            validateMembers crates rest (hasDocumentXml || name == "word/document.xml")
          else refuse s!"prose-xml-invalid: part {name} is not well-formed XML"
    else validateMembers crates rest hasDocumentXml

def validatePackage (crates : Crates) (package : Bytes) : Outcome Unit :=
  match crates.members package with
  | none => .error (notADocx "")
  | some members => do
    let hasDocumentXml ← validateMembers crates members false
    if hasDocumentXml then pure () else .error (notADocx "missing word/document.xml")

/-! ## Reading a part by key and by path -/

/-- `zip::ZipArchive` indexes members by name. -/
def Crates.IndexesByName (crates : Crates) : Prop :=
  ∀ package members, crates.members package = some members → (members.map (·.1)).Nodup

theorem lookup_cons_ite {β : Type} (key key' : String) (b : β) (rest : List (String × β)) :
    List.lookup key' ((key, b) :: rest) = if key' = key then some b else rest.lookup key' := by
  rw [lookup_cons]
  by_cases h : key' = key
  · simp [h]
  · rw [beq_false_of_ne h, if_neg h]

theorem PartMap.lookup_insert (key key' : String) (xml : Bytes) : ∀ parts : PartMap,
    (PartMap.insert key xml parts).lookup key' =
      if key' = key then some xml else parts.lookup key'
  | [] => by rw [PartMap.insert, lookup_cons_ite]
  | (key'', xml') :: rest => by
    rw [PartMap.insert, lookup_cons_ite key'' key' xml' rest]
    by_cases heq : key = key''
    · subst heq
      rw [if_pos rfl, lookup_cons_ite]
      by_cases h : key' = key
      · rw [if_pos h, if_pos h]
      · rw [if_neg h, if_neg h, if_neg h]
    · rw [if_neg heq]
      split
      · rw [lookup_cons_ite, lookup_cons_ite]
      · rw [lookup_cons_ite, PartMap.lookup_insert key key' xml rest]
        by_cases h : key' = key''
        · rw [if_pos h, if_pos h, if_neg fun hkey => heq (hkey.symm.trans h)]
        · rw [if_neg h, if_neg h]

/-- Where the content of a part comes from. -/
theorem readParts_lookup {key : String} {xml : Bytes} : ∀ {members : List (String × Option Bytes)}
    {parts parts' : PartMap}, readParts members parts = .ok parts' → parts'.lookup key = some xml →
      parts.lookup key = some xml ∨
        ∃ name, (name, some xml) ∈ members ∧ partKeyFromPath name = some key
  | [], _, _, h, hxml => by
    obtain rfl := Except.ok.inj h
    exact .inl hxml
  | (name, content) :: rest, parts, parts', h, hxml => by
    rw [readParts] at h
    split at h
    · exact (readParts_lookup h hxml).imp_right fun ⟨name, hname, hkey⟩ =>
        ⟨name, mem_cons_of_mem _ hname, hkey⟩
    next key' hkey' =>
      split at h
      · cases h
      next xml' =>
        rcases readParts_lookup h hxml with hlookup | ⟨name', hname', hkey⟩
        · rw [PartMap.lookup_insert] at hlookup
          split at hlookup
          next heq =>
            obtain rfl := Option.some.inj hlookup
            exact .inr ⟨name, mem_cons_self, by rw [hkey', heq]⟩
          next => exact .inl hlookup
        · exact .inr ⟨name', mem_cons_of_mem _ hname', hkey⟩

theorem partPath_eq (partKey : String) : partPath partKey = "word/" ++ partKey ++ ".xml" := by
  rw [partPath]
  split
  next h =>
    rw [h]
    decide
  next => rfl

/-- A path with a part key is the path of that key. -/
theorem partPath_of_partKeyFromPath {path key : String} (h : partKeyFromPath path = some key) :
    partPath key = path := by
  rw [partKeyFromPath] at h
  split at h
  next hshape =>
    simp only at h
    split at h
    · obtain rfl := Option.some.inj h
      obtain ⟨⟨middle, hmiddle⟩, ⟨name, hname⟩⟩ := hshape
      have hdrop : path.toList.drop 5 = middle := by
        rw [← hmiddle]
        rfl
      have htake : middle.take (path.toList.length - 9) = name := by
        rw [hdrop] at hname
        rw [← hmiddle, ← hname]
        simp
      rw [partPath_eq, ← String.toList_inj, String.toList_append, String.toList_append,
        String.toList_ofList, hdrop, htake, ← hmiddle, ← hdrop, ← hname, append_assoc,
        String.toList_ofList]
      rfl
    · cases h
  next => cases h

/-- The part of a key, read either way. -/
theorem readPartBytes_eq {crates : Crates} (hnames : crates.IndexesByName) {package : Bytes}
    {parts : PartMap} {key : String} {xml part : Bytes}
    (hparts : partXmlMembers crates package = .ok parts) (hxml : parts.lookup key = some xml)
    (hpart : readPartBytes crates package (partPath key) = .ok part) : part = xml := by
  rw [partXmlMembers] at hparts
  rw [readPartBytes] at hpart
  obtain hmembers | ⟨members, hmembers⟩ := Option.eq_none_or_eq_some (crates.members package)
  · rw [hmembers] at hparts
    cases hparts
  · rw [hmembers] at hparts hpart
    rcases readParts_lookup hparts hxml with hlookup | ⟨name, hname, hkey⟩
    · cases hlookup
    · rw [partPath_of_partKeyFromPath hkey] at hpart
      simp only at hpart
      split at hpart
      · exact (refuse_ne_ok hpart).elim
      · cases hpart
      next name' content hfind =>
        obtain rfl := Except.ok.inj hpart
        have hmem := mem_of_find?_eq_some hfind
        have hname' : name' = name := by simpa using find?_some hfind
        subst hname'
        have := inj_on_of_nodup_map (hnames _ _ hmembers) hmem hname rfl
        simpa using this

end Docx2Typed
