import Docx2Typed.Library.Placed
import Docx2Typed.Zip.Patch

/-!
# Where the fields of a package stand

The patch reads a package at computed positions.  For the bytes of a layout these positions are
the places of its pieces: the fields in a local header and in a central entry, the records in the
package, the entries in the central directory.
-/

namespace Docx2Typed.Zip

open Library List

/-! ## Reading and writing a piece -/

section Pieces

variable {piece xs : Bytes} {n i : Nat}

theorem sliceOf_placed (h : Placed piece i xs) : sliceOf xs i (i + piece.length) = .ok piece := by
  rw [sliceOf, if_pos ⟨Nat.le_add_right _ _, h.le⟩, slice, h.drop_take]
  rfl

theorem readU16_placed (h : Placed (u16 n) i xs) (hn : n < 2 ^ 16) : readU16 xs i = .ok n := by
  have hslice := sliceOf_placed h
  rw [length_u16] at hslice
  rw [readU16, bind_ok hslice, u16, LittleEndian.read_write (lt_of_lt_of_eq hn (by norm_num))]
  rfl

theorem readU32_placed (h : Placed (u32 n) i xs) (hn : n < 2 ^ 32) : readU32 xs i = .ok n := by
  have hslice := sliceOf_placed h
  rw [length_u32] at hslice
  rw [readU32, bind_ok hslice, u32, LittleEndian.read_write (lt_of_lt_of_eq hn (by norm_num))]
  rfl

/-- A number is written modulo `2 ^ 32`. -/
theorem u32_mod (n : Nat) : u32 (n % 2 ^ 32) = u32 n := by
  rw [u32, show (2 : Nat) ^ 32 = 256 ^ 4 by norm_num, LittleEndian.write_mod]
  rfl

theorem sums_mod (crc csize usize : Nat) :
    sums crc csize (usize % 2 ^ 32) = sums crc csize usize := by
  rw [sums, sums, u32_mod]

theorem u32_inj {m n : Nat} (hm : m < 2 ^ 32) (hn : n < 2 ^ 32) : u32 m = u32 n ↔ m = n :=
  LittleEndian.write_inj (lt_of_lt_of_eq hm (by norm_num)) (lt_of_lt_of_eq hn (by norm_num))

theorem writeU32_split (before after : Bytes) {old : Bytes} (hold : old.length = 4) (value : Nat) :
    writeU32 (before ++ (old ++ after)) before.length value =
      .ok (before ++ (u32 value ++ after)) := by
  rw [writeU32, if_pos (by simp [hold]), take_left, ← hold, ← drop_drop,
    drop_left, drop_left, append_assoc]
  rfl

theorem writeSums_split (edited : Edited) (before after : Bytes) {crc csize usize : Bytes}
    (hcrc : crc.length = 4) (hcsize : csize.length = 4) (husize : usize.length = 4) :
    edited.writeSums (before ++ (crc ++ (csize ++ (usize ++ after)))) before.length =
      .ok (before ++ (sums edited.newCrc edited.newCsize edited.newUsize ++ after)) := by
  have hsecond := writeU32_split (before ++ u32 edited.newCrc) (usize ++ after) hcsize
    edited.newCsize
  have hthird := writeU32_split (before ++ u32 edited.newCrc ++ u32 edited.newCsize) after
    husize edited.newUsize
  rw [length_append, length_u32, append_assoc, append_assoc] at hsecond
  rw [length_append, length_append, length_u32, length_u32, Nat.add_assoc,
    append_assoc, append_assoc, append_assoc, append_assoc] at hthird
  rw [Edited.writeSums, bind_ok (writeU32_split before _ hcrc _), bind_ok hsecond, hthird, sums]
  simp

end Pieces

/-! ## Fields of the records -/

namespace Member

variable (m : Member)

/-- What the format asks of one member: lengths fit their fields, and the streaming bit says
whether there is a descriptor. -/
structure WellFormed (m : Member) : Prop where
  name : m.name.length < 2 ^ 16
  localExtra : m.localExtra.length < 2 ^ 16
  centralExtra : m.centralExtra.length < 2 ^ 16
  comment : m.comment.length < 2 ^ 16
  data : m.data.length < 2 ^ 32
  streams : m.localFlags.toNat / 8 % 2 = 1 ↔ m.sumsPlace ≠ .header

instance : Decidable m.WellFormed :=
  decidable_of_iff (m.name.length < 2 ^ 16 ∧ m.localExtra.length < 2 ^ 16 ∧
      m.centralExtra.length < 2 ^ 16 ∧ m.comment.length < 2 ^ 16 ∧ m.data.length < 2 ^ 32 ∧
      (m.localFlags.toNat / 8 % 2 = 1 ↔ m.sumsPlace ≠ .header))
    ⟨fun ⟨name, localExtra, centralExtra, comment, data, streams⟩ =>
      { name, localExtra, centralExtra, comment, data, streams },
    fun h => ⟨h.name, h.localExtra, h.centralExtra, h.comment, h.data, h.streams⟩⟩

@[simp] theorem length_localFront : m.localFront.length = 14 := by
  simp [localFront, localSig]

@[simp] theorem length_headerSums : m.headerSums.length = 12 := by
  unfold headerSums
  split <;> simp

@[simp] theorem length_localHeader :
    m.localHeader.length = 30 + m.name.length + m.localExtra.length := by
  simp [localHeader, localBack]
  omega

theorem localFront_placed : Placed m.localFront 0 m.localHeader :=
  .of_eq [] _ (by rw [localHeader, nil_append, append_assoc]) rfl

theorem localBack_placed : Placed m.localBack 26 m.localHeader :=
  .of_eq (m.localFront ++ m.headerSums) [] (by rw [localHeader, append_nil]) (by simp)

theorem localSig_placed : Placed localSig 0 m.localHeader :=
  m.localFront_placed.left.left.left.left

theorem localFlags_placed : Placed (u16 m.localFlags.toNat) 6 m.localHeader := by
  simpa [localSig] using m.localFront_placed.left.left.right

theorem method_placed : Placed (u16 m.method.toNat) 8 m.localHeader := by
  simpa [localSig] using m.localFront_placed.left.right

theorem nameLength_placed : Placed (u16 m.name.length) 26 m.localHeader :=
  m.localBack_placed.left.left.left

theorem localExtraLength_placed : Placed (u16 m.localExtra.length) 28 m.localHeader := by
  simpa using m.localBack_placed.left.left.right

variable (offset : Nat)

@[simp] theorem length_centralFront : m.centralFront.length = 16 := by
  simp [centralFront, centralSig]

@[simp] theorem length_centralMiddle : m.centralMiddle.length = 14 := by
  simp [centralMiddle]

@[simp] theorem length_centralEntry : (m.centralEntry offset).length =
    46 + m.name.length + m.centralExtra.length + m.comment.length := by
  simp [centralEntry, centralBack]
  omega

theorem centralEntry_placed : Placed (m.centralFront ++
    sums m.crc.toNat m.data.length m.usize.toNat ++ m.centralMiddle ++ u32 offset ++ m.centralBack)
      0 (m.centralEntry offset) :=
  .of_eq [] [] (by rw [nil_append, append_nil]; rfl) rfl

theorem centralSig_placed : Placed centralSig 0 (m.centralEntry offset) :=
  (m.centralEntry_placed offset).left.left.left.left.left.left.left.left

theorem centralFlags_placed : Placed (u16 m.centralFlags.toNat) 8 (m.centralEntry offset) := by
  simpa [centralSig] using (m.centralEntry_placed offset).left.left.left.left.left.left.right

theorem csize_placed : Placed (u32 m.data.length) 20 (m.centralEntry offset) := by
  simpa using (m.centralEntry_placed offset).left.left.left.right.left.right

theorem middle_placed : Placed m.centralMiddle 28 (m.centralEntry offset) := by
  simpa using (m.centralEntry_placed offset).left.left.right

theorem centralNameLength_placed : Placed (u16 m.name.length) 28 (m.centralEntry offset) :=
  (m.middle_placed offset).left.left.left

theorem centralExtraLength_placed :
    Placed (u16 m.centralExtra.length) 30 (m.centralEntry offset) := by
  simpa using (m.middle_placed offset).left.left.right

theorem commentLength_placed : Placed (u16 m.comment.length) 32 (m.centralEntry offset) := by
  simpa using (m.middle_placed offset).left.right

theorem offset_placed : Placed (u32 offset) 42 (m.centralEntry offset) := by
  simpa using (m.centralEntry_placed offset).left.right

theorem name_placed : Placed m.name 46 (m.centralEntry offset) := by
  simpa using (m.centralEntry_placed offset).right.left.left

end Member

/-! ## Pieces of the package -/

namespace Layout

@[simp] theorem body_nil : body [] = [] := rfl

@[simp] theorem body_cons (m : Member) (members : List Member) :
    body (m :: members) = m.gap ++ m.record ++ body members := rfl

@[simp] theorem body_append (front back : List Member) :
    body (front ++ back) = body front ++ body back := flatMap_append

variable {layout : Layout} {front back : List Member} {m : Member}

section

variable (h : layout.members = front ++ m :: back)

include h

theorem offset_at : layout.offset front.length = (body front).length + m.gap.length := by
  simp [offset, h]

theorem offset_in_front {j : Nat} (hj : j < front.length) :
    layout.offset j = (body (front.take j)).length + front[j].gap.length := by
  rw [offset, h, take_append_of_le_length hj.le, getElem?_append_left hj,
    getElem?_eq_getElem hj]
  rfl

theorem offset_behind (k : Nat) :
    layout.offset (front.length + 1 + k) = (body front).length + m.gap.length + m.record.length +
      ((body (back.take k)).length + (back[k]?.elim 0 fun n => n.gap.length)) := by
  have htake : (front ++ m :: back).take (front.length + 1 + k) = front ++ m :: back.take k := by
    rw [take_append, take_of_length_le (by omega),
      show front.length + 1 + k - front.length = k + 1 by omega, take_succ_cons]
  have hget : (front ++ m :: back)[front.length + 1 + k]? = back[k]? := by
    rw [getElem?_append_right (by omega),
      show front.length + 1 + k - front.length = k + 1 by omega, getElem?_cons_succ]
  rw [offset, h, htake, hget, body_append, body_cons]
  simp
  omega

theorem record_placed : Placed m.record (layout.offset front.length) layout.serialize := by
  refine .of_eq (body front ++ m.gap)
    (body back ++ layout.tail ++ layout.central ++ layout.afterCentral ++ layout.endRecord) ?_ ?_
  · rw [serialize, h, body_append, body_cons]
    simp
  · rw [offset_at h, length_append]

end

theorem central_placed : Placed layout.central layout.centralOffset layout.serialize :=
  .of_eq (body layout.members ++ layout.tail) (layout.afterCentral ++ layout.endRecord)
    (by simp [serialize]) (by simp [centralOffset])

/-- Where the end record starts. -/
def endStart (layout : Layout) : Nat :=
  layout.centralOffset + layout.central.length + layout.afterCentral.length

theorem endRecord_placed : Placed layout.endRecord layout.endStart layout.serialize :=
  .of_eq (body layout.members ++ layout.tail ++ layout.central ++ layout.afterCentral) []
    (by rw [serialize, append_nil]) (by simp [endStart, centralOffset]; omega)

@[simp] theorem length_endRecord : layout.endRecord.length = 22 + layout.comment.length := by
  simp [endRecord, eocdSig]
  omega

theorem centralSize_placed : Placed (u32 layout.central.length) 12 layout.endRecord :=
  .of_eq (eocdSig ++ u32 layout.diskNumbers.toNat ++ u16 layout.order.length ++
    u16 layout.order.length) (u32 layout.centralOffset ++ u16 layout.comment.length ++
      layout.comment) (by simp [endRecord]) (by simp [eocdSig])

theorem centralOffset_placed : Placed (u32 layout.centralOffset) 16 layout.endRecord :=
  .of_eq (eocdSig ++ u32 layout.diskNumbers.toNat ++ u16 layout.order.length ++
    u16 layout.order.length ++ u32 layout.central.length) (u16 layout.comment.length ++
      layout.comment) (by simp [endRecord]) (by simp [eocdSig])

/-- What the format asks of a package without the 64-bit records: every member is listed once
under a name of its own, every number fits its field, and a search for the end record's
signature from the end finds the end record. -/
structure WellFormed (layout : Layout) : Prop where
  order : layout.order.Perm (List.range layout.members.length)
  names : (layout.members.map (·.name)).Nodup
  members : ∀ m ∈ layout.members, m.WellFormed
  entries : layout.order.length < 2 ^ 16
  centralSize : layout.central.length < 2 ^ 32
  centralOffset : layout.centralOffset < 2 ^ 32
  comment : layout.comment.length < 2 ^ 16
  soleEnd : ∀ pos, 0 < pos → ¬ eocdSig <+: layout.endRecord.drop pos

/-- Behind the end of some bytes there is no signature. -/
theorem forall_not_eocdSig_iff (record : Bytes) :
    (∀ pos, 0 < pos → ¬ eocdSig <+: record.drop pos) ↔
      ∀ pos < record.length, 0 < pos → ¬ eocdSig <+: record.drop pos := by
  refine ⟨fun h pos _ => h pos, fun h pos hpos hsig => ?_⟩
  rcases Nat.lt_or_ge pos record.length with hlt | hge
  · exact h pos hlt hpos hsig
  · rw [drop_eq_nil_of_le hge] at hsig
    exact absurd hsig (by decide)

instance (record : Bytes) : Decidable (∀ pos, 0 < pos → ¬ eocdSig <+: record.drop pos) :=
  decidable_of_iff' _ (forall_not_eocdSig_iff record)

instance : Decidable layout.WellFormed :=
  decidable_of_iff (layout.order.Perm (List.range layout.members.length) ∧
      (layout.members.map (·.name)).Nodup ∧ (∀ m ∈ layout.members, m.WellFormed) ∧
      layout.order.length < 2 ^ 16 ∧ layout.central.length < 2 ^ 32 ∧
      layout.centralOffset < 2 ^ 32 ∧ layout.comment.length < 2 ^ 16 ∧
      ∀ pos, 0 < pos → ¬ eocdSig <+: layout.endRecord.drop pos)
    ⟨fun ⟨order, names, members, entries, centralSize, centralOffset, comment, soleEnd⟩ =>
      { order, names, members, entries, centralSize, centralOffset, comment, soleEnd },
    fun h => ⟨h.order, h.names, h.members, h.entries, h.centralSize, h.centralOffset, h.comment,
      h.soleEnd⟩⟩

end Layout

end Docx2Typed.Zip
