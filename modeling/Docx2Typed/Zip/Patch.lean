import Docx2Typed.Package
import Docx2Typed.Prose.Text
import Docx2Typed.Zip.Layout

/-!
# Patching one member

`patch_zip_member`: one member of an archive gets new content, and the sizes, checksums and
offsets that depend on it are rewritten.  Reading past the end of the package is a panic.
-/

namespace Docx2Typed.Zip

open Library

def readU16 (raw : Bytes) (pos : Nat) : Outcome Nat := do
  pure (LittleEndian.read (← sliceOf raw pos (pos + 2)))

def readU32 (raw : Bytes) (pos : Nat) : Outcome Nat := do
  pure (LittleEndian.read (← sliceOf raw pos (pos + 4)))

/-- `write_u32`: the value is truncated to 32 bits, as `as u32` does. -/
def writeU32 (raw : Bytes) (pos value : Nat) : Outcome Bytes :=
  if pos + 4 ≤ raw.length then pure (raw.take pos ++ u32 value ++ raw.drop (pos + 4))
  else .error .panic

/-- The last place of the end-record signature at or before a position, not before `window`. -/
def findEocdFrom (package : Bytes) (window : Nat) : Nat → Option Nat
  | 0 => none
  | pos + 1 =>
    if pos < window then none
    else if eocdSig <+: package.drop pos then some pos
    else findEocdFrom package window pos

/-- `find_eocd`: in the last 65557 bytes, backward. -/
def findEocd (package : Bytes) : Option Nat :=
  findEocdFrom package (package.length - 65557) package.length

/-- One entry of the central directory. -/
structure CdEntry where
  name : Text
  /-- Start of the entry; its fields stand at fixed distances. -/
  entryPos : Nat
  localOffset : Nat
  deriving DecidableEq, Repr

/-- The walk over the central directory from `pos` on. -/
def walkCentral (package : Bytes) (stop : Nat) : Nat → Nat → Outcome (List CdEntry)
  | 0, _ => .error .panic
  | fuel + 1, pos =>
    if pos < stop then do
      let signature ← sliceOf package pos (pos + 4)
      if signature ≠ centralSig then refuse "prose-xml-invalid: corrupt central directory entry"
      else do
        let flags ← readU16 package (pos + 8)
        if flags % 2 ≠ 0 then refuse "prose-edit-unsupported: zip64 entries are not supported"
        else do
          let nlen ← readU16 package (pos + 28)
          let elen ← readU16 package (pos + 30)
          let clen ← readU16 package (pos + 32)
          let rawName ← sliceOf package (pos + 46) (pos + 46 + nlen)
          match fromUtf8 rawName with
          | none => refuse "prose-xml-invalid: member name is not UTF-8"
          | some name => do
            let localOffset ← readU32 package (pos + 42)
            let rest ← walkCentral package stop fuel (pos + (46 + nlen + elen + clen))
            pure (⟨name, pos, localOffset⟩ :: rest)
    else if pos = stop then pure []
    else refuse "prose-xml-invalid: central directory size mismatch"

/-- The new data of a member, by compression method. -/
def compress (crates : Crates) (member : String) (method : Nat) (newBytes : Bytes) :
    Outcome Bytes :=
  if method = 0 then pure newBytes
  else if method = 8 then pure (crates.deflate newBytes)
  else refuse s!"prose-edit-unsupported: member {member} uses unsupported compression method {method}"

/-- What the patch knows of the edited member. -/
structure Edited where
  localStart : Nat
  dataStart : Nat
  oldCsize : Nat
  descriptorLen : Nat
  streaming : Bool
  newData : Bytes
  newCrc : Nat
  newUsize : Nat

namespace Edited

variable (edited : Edited)

def dataEnd : Nat := edited.dataStart + edited.oldCsize + edited.descriptorLen

def newCsize : Nat := edited.newData.length

def delta : Int := (edited.newCsize : Int) - edited.oldCsize

/-- Checksum and sizes, written at three places in a row. -/
def writeSums (raw : Bytes) (pos : Nat) : Outcome Bytes := do
  let raw ← writeU32 raw pos edited.newCrc
  let raw ← writeU32 raw (pos + 4) edited.newCsize
  writeU32 raw (pos + 8) edited.newUsize

/-- The local header with its sums rewritten, unless they stand in a descriptor. -/
def newLocal (package : Bytes) : Outcome Bytes := do
  let header ← sliceOf package edited.localStart edited.dataStart
  if edited.streaming then pure header else edited.writeSums header 14

def newDescriptor (package : Bytes) : Outcome Bytes :=
  if edited.descriptorLen = 0 then pure []
  else do
    let descriptor ← sliceOf package (edited.dataStart + edited.oldCsize) edited.dataEnd
    edited.writeSums descriptor (if edited.descriptorLen = 16 then 4 else 0)

/-- One central entry, which ends at `stop`. -/
def newEntry (package : Bytes) (member : String) (entry : CdEntry) (stop : Nat) :
    Outcome Bytes := do
  let raw ← sliceOf package entry.entryPos stop
  let raw ← if entry.name = member.toList then edited.writeSums raw 16 else pure raw
  if edited.dataEnd ≤ entry.localOffset ∧ edited.delta ≠ 0 then
    writeU32 raw 42 ((entry.localOffset + edited.delta) % 2 ^ 32).toNat
  else pure raw

/-- The central directory; an entry ends where the next one starts. -/
def newCentral (package : Bytes) (member : String) (stop : Nat) : List CdEntry → Outcome Bytes
  | [] => pure []
  | entry :: rest => do
    let raw ← edited.newEntry package member entry ((rest.head?.map (·.entryPos)).getD stop)
    let others ← newCentral package member stop rest
    pure (raw ++ others)

end Edited

/-- `patch_zip_member`. -/
def patchZipMember (crates : Crates) (package : Bytes) (member : String) (newBytes : Bytes) :
    Outcome Bytes :=
  match findEocd package with
  | none => refuse "prose-xml-invalid: package has no EOCD"
  | some eocdPos =>
    if eocdPos + 42 ≤ package.length ∧
        [0x50, 0x4b, 0x06, 0x07] <+: slice package (eocdPos + 22) (eocdPos + 42) then
      refuse "prose-edit-unsupported: zip64 packages are not supported by the island patcher"
    else do
      let cdSize ← readU32 package (eocdPos + 12)
      let cdOffset ← readU32 package (eocdPos + 16)
      let cdStop := cdOffset + cdSize
      if package.length < cdStop then refuse "prose-xml-invalid: corrupt central directory"
      else do
        let entries ← walkCentral package cdStop (cdSize + 1) cdOffset
        match entries.find? (·.name = member.toList) with
        | none => refuse s!"invalid-edit: part not found: {member}"
        | some entry => do
          let localStart := entry.localOffset
          let signature ← sliceOf package localStart (localStart + 4)
          if signature ≠ localSig then refuse "prose-xml-invalid: member local header not found"
          else do
            let localFlags ← readU16 package (localStart + 6)
            let method ← readU16 package (localStart + 8)
            let nlen ← readU16 package (localStart + 26)
            let elen ← readU16 package (localStart + 28)
            let dataStart := localStart + 30 + nlen + elen
            let oldCsize ← readU32 package (entry.entryPos + 20)
            let streaming := localFlags / 8 % 2 = 1
            -- a descriptor is taken to be signed when it starts like a signature
            let descriptorLen :=
              if streaming then
                if dataStart + oldCsize + 4 ≤ package.length ∧
                    slice package (dataStart + oldCsize) (dataStart + oldCsize + 4) = descriptorSig
                then 16 else 12
              else 0
            let newData ← compress crates member method newBytes
            let edited : Edited :=
              { localStart, dataStart, oldCsize, descriptorLen, streaming, newData
                newCrc := (crates.crc32 newBytes).toNat
                newUsize := newBytes.length }
            let newLocal ← edited.newLocal package
            let newDescriptor ← edited.newDescriptor package
            let newCd ← edited.newCentral package member cdStop entries
            let before ← sliceOf package 0 localStart
            let between ← sliceOf package edited.dataEnd cdOffset
            let eocd ← sliceOf package eocdPos package.length
            let eocd ← writeU32 eocd 16 ((cdOffset + edited.delta) % 2 ^ 32).toNat
            pure (before ++ newLocal ++ newData ++ newDescriptor ++ between ++ newCd ++ eocd)

end Docx2Typed.Zip
