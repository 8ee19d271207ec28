import Docx2Typed.Basic
import Docx2Typed.Library.LittleEndian

/-!
# The layout of a package

A ZIP archive as its writer means it: the members in the order of their local records, the order
of the central directory, and the bytes that belong to no member.  `Layout.serialize` puts every
size and offset where the format wants it, so the bytes of a layout agree with themselves by
construction.
-/

namespace Docx2Typed.Zip

open Library

def localSig : Bytes := [0x50, 0x4b, 0x03, 0x04]
def centralSig : Bytes := [0x50, 0x4b, 0x01, 0x02]
def descriptorSig : Bytes := [0x50, 0x4b, 0x07, 0x08]
def eocdSig : Bytes := [0x50, 0x4b, 0x05, 0x06]

def u16 (n : Nat) : Bytes := LittleEndian.write 2 n
def u32 (n : Nat) : Bytes := LittleEndian.write 4 n

@[simp] theorem length_u16 (n : Nat) : (u16 n).length = 2 := LittleEndian.length_write 2 n
@[simp] theorem length_u32 (n : Nat) : (u32 n).length = 4 := LittleEndian.length_write 4 n

/-- Checksum and sizes, as every record of the format lists them. -/
def sums (crc csize usize : Nat) : Bytes := u32 crc ++ u32 csize ++ u32 usize

@[simp] theorem length_sums (crc csize usize : Nat) : (sums crc csize usize).length = 12 := by
  simp [sums]

/-- Where the checksum and the sizes stand: in the local header, or behind the data. -/
inductive SumsPlace where
  | header
  /-- In a descriptor with or without its signature; the header fields hold what they hold. -/
  | descriptor (signed : Bool) (headerCrc headerCsize headerUsize : UInt32)
  deriving DecidableEq, Repr

/-- One member: its local record and its central entry. -/
structure Member where
  /-- Bytes in front of the local header that belong to no member. -/
  gap : Bytes
  name : Bytes
  method : UInt16
  crc : UInt32
  /-- Size of the inflated content. -/
  usize : UInt32
  data : Bytes
  sumsPlace : SumsPlace
  localVersion : UInt16
  localFlags : UInt16
  localStamp : UInt32
  localExtra : Bytes
  centralVersions : UInt32
  centralFlags : UInt16
  centralStamp : UInt32
  /-- Disk number, internal and external attributes. -/
  attributes : UInt64
  centralExtra : Bytes
  comment : Bytes
  deriving DecidableEq, Repr

namespace Member

variable (m : Member)

def headerSums : Bytes :=
  match m.sumsPlace with
  | .header => sums m.crc.toNat m.data.length m.usize.toNat
  | .descriptor _ crc csize usize => sums crc.toNat csize.toNat usize.toNat

/-- The local header up to the checksum. -/
def localFront : Bytes :=
  localSig ++ u16 m.localVersion.toNat ++ u16 m.localFlags.toNat ++ u16 m.method.toNat ++
    u32 m.localStamp.toNat

/-- The local header from the name's length on. -/
def localBack : Bytes :=
  u16 m.name.length ++ u16 m.localExtra.length ++ m.name ++ m.localExtra

def localHeader : Bytes := m.localFront ++ m.headerSums ++ m.localBack

def descriptor : Bytes :=
  match m.sumsPlace with
  | .header => []
  | .descriptor signed _ _ _ =>
    (if signed then descriptorSig else []) ++ sums m.crc.toNat m.data.length m.usize.toNat

/-- The local record: header, data, descriptor. -/
def record : Bytes := m.localHeader ++ m.data ++ m.descriptor

/-- The central entry up to the checksum. -/
def centralFront : Bytes :=
  centralSig ++ u32 m.centralVersions.toNat ++ u16 m.centralFlags.toNat ++ u16 m.method.toNat ++
    u32 m.centralStamp.toNat

/-- The central entry between the sizes and the offset. -/
def centralMiddle : Bytes :=
  u16 m.name.length ++ u16 m.centralExtra.length ++ u16 m.comment.length ++
    LittleEndian.write 8 m.attributes.toNat

/-- The central entry behind the offset. -/
def centralBack : Bytes := m.name ++ m.centralExtra ++ m.comment

/-- The central entry of the member whose local header starts at `offset`. -/
def centralEntry (offset : Nat) : Bytes :=
  m.centralFront ++ sums m.crc.toNat m.data.length m.usize.toNat ++ m.centralMiddle ++
    u32 offset ++ m.centralBack

end Member

/-- A package by its pieces. -/
structure Layout where
  /-- In the order of their local records. -/
  members : List Member
  /-- The members in central-directory order, by number. -/
  order : List Nat
  /-- Bytes between the last member and the central directory. -/
  tail : Bytes
  /-- Bytes between the central directory and its end record. -/
  afterCentral : Bytes
  diskNumbers : UInt32
  comment : Bytes
  deriving DecidableEq, Repr

namespace Layout

def body (members : List Member) : Bytes := members.flatMap fun m => m.gap ++ m.record

variable (layout : Layout)

/-- Where the local header of a member starts. -/
def offset (i : Nat) : Nat :=
  (body (layout.members.take i)).length + (layout.members[i]?.elim 0 fun m => m.gap.length)

/-- The central entry of a member. -/
def entry (i : Nat) : Bytes :=
  layout.members[i]?.elim [] fun m => m.centralEntry (layout.offset i)

def central : Bytes := layout.order.flatMap layout.entry

def centralOffset : Nat := (body layout.members).length + layout.tail.length

def endRecord : Bytes :=
  eocdSig ++ u32 layout.diskNumbers.toNat ++ u16 layout.order.length ++ u16 layout.order.length ++
    u32 layout.central.length ++ u32 layout.centralOffset ++ u16 layout.comment.length ++
    layout.comment

def serialize : Bytes :=
  body layout.members ++ layout.tail ++ layout.central ++ layout.afterCentral ++ layout.endRecord

end Layout

end Docx2Typed.Zip
