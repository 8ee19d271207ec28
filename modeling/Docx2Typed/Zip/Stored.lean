import Docx2Typed.Package
import Docx2Typed.Zip.Layout

/-!
# Small packages

Packages of stored members, and the crates as they behave on a package of one document.
-/

namespace Docx2Typed

namespace Zip

/-- A stored member with nothing out of the ordinary about it. -/
def storedMember (name : String) (crc : UInt32) (content : Bytes) : Member where
  gap := []
  name := bytes name
  method := 0
  crc
  usize := UInt32.ofNat content.length
  data := content
  sumsPlace := .header
  localVersion := 20
  localFlags := 0
  localStamp := 0x00210000
  localExtra := []
  centralVersions := 0x00140014
  centralFlags := 0
  centralStamp := 0x00210000
  attributes := 0
  centralExtra := []
  comment := []

/-- The package of some members, in one order everywhere. -/
def plainLayout (members : List Member) : Layout where
  members
  order := List.range members.length
  tail := []
  afterCentral := []
  diskNumbers := 0
  comment := []

end Zip

/-- A package that holds one stored document. -/
def storedDocument (crc : UInt32) (documentXml : Bytes) : Bytes :=
  (Zip.plainLayout [Zip.storedMember "word/document.xml" crc documentXml]).serialize

/-- SHA-256 of the canonical forms of no rPr and of a bold one, and of their bytes. -/
def knownDigests : List (Bytes × String) :=
  [(bytes "[\"w:rPr\",[],\"\",[]]", "9f5c04f8681ebd4ec88b01cd82ac0f10e0ceb17d0ba56bdb34ff277511ad3a08"),
    (bytes "[\"w:rPr\",[],\"\",[[\"w:b\",[],\"\",[]]]]",
      "7bcd5993147ef730bc6e01b5aacc4c7697874a3336074da365f5eeaf9e62305e"),
    ([], "e3b0c44298fc1c149afbf4c8996fb92427ae41e4649b934ca495991b7852b855"),
    (bytes "<w:rPr><w:b/></w:rPr>", "25b75fd7d6adc78382cd610630d3ef50e95ee5accd1c694b951d024b4260c2f2")]

/-- The crates on the package `storedDocument crc documentXml`. -/
def storedCrates (crc : UInt32) (documentXml : Bytes) : Crates where
  members package :=
    if package = storedDocument crc documentXml then some [("word/document.xml", some documentXml)]
    else none
  wellFormed _ := true
  sha256Hex content := (knownDigests.lookup content).getD ""
  crc32 _ := crc
  deflate content := content

theorem storedCrates_indexesByName (crc : UInt32) (documentXml : Bytes) :
    (storedCrates crc documentXml).IndexesByName := by
  intro package members h
  simp only [storedCrates] at h
  split at h
  · obtain rfl := Option.some.inj h
    exact List.nodup_singleton _
  · cases h

/-- A paragraph of two runs. -/
def twoRuns : Bytes :=
  bytes "<w:document><w:body><w:p><w:r><w:t>ab</w:t></w:r><w:r><w:t>cd</w:t></w:r></w:p></w:body></w:document>"

def twoRunsCrates : Crates := storedCrates 0xa16eba63 twoRuns

def twoRunsPackage : Bytes := storedDocument 0xa16eba63 twoRuns

end Docx2Typed
