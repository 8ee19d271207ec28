import Docx2Typed.Zip.Directory

/-!
# A member with new content

What a layout looks like when one member's content is replaced: its records keep their lengths but
for the data, the members in front of it keep their places and those behind it move by the
difference.
-/

namespace Docx2Typed.Zip

open Library List

/-! ## A member with new content -/

/-- A content as a member of a compression method stores it. -/
def encode (crates : Crates) (method : UInt16) (content : Bytes) : Bytes :=
  if method = 8 then crates.deflate content else content

def Member.withContent (crates : Crates) (content : Bytes) (m : Member) : Member :=
  { m with
    crc := crates.crc32 content
    usize := UInt32.ofNat content.length
    data := encode crates m.method content }

/-- The member inflates to the content and lists its checksum and its size. -/
structure Member.Holds (crates : Crates) (inflate : Bytes → Option Bytes) (m : Member)
    (content : Bytes) : Prop where
  data : m.method = 0 ∧ m.data = content ∨ m.method = 8 ∧ inflate m.data = some content
  crc : m.crc = crates.crc32 content
  usize : m.usize.toNat = content.length

/-- The package with one member's content replaced. -/
def Layout.withContent (crates : Crates) (i : Nat) (content : Bytes) (layout : Layout) : Layout :=
  { layout with members := layout.members.modify i (Member.withContent crates content) }

namespace Member

variable (crates : Crates) (content : Bytes) (m : Member)

/-- The sums of the member with its new content. -/
def newSums : Bytes :=
  sums (crates.crc32 content).toNat (encode crates m.method content).length content.length

theorem sums_withContent : sums (m.withContent crates content).crc.toNat
    (m.withContent crates content).data.length (m.withContent crates content).usize.toNat =
      m.newSums crates content := by
  rw [newSums, ← sums_mod _ _ content.length]
  simp only [withContent, UInt32.toNat_ofNat']

@[simp] theorem length_newSums : (m.newSums crates content).length = 12 := by
  rw [newSums, length_sums]

@[simp] theorem length_descriptor_withContent :
    (m.withContent crates content).descriptor.length = m.descriptor.length := by
  unfold descriptor
  cases h : m.sumsPlace <;> simp [withContent, h]

@[simp] theorem length_localHeader_withContent :
    (m.withContent crates content).localHeader.length = m.localHeader.length := by
  simp [withContent]

theorem length_record :
    m.record.length = m.localHeader.length + m.data.length + m.descriptor.length := by
  rw [record, length_append, length_append]

theorem length_record_withContent :
    (m.withContent crates content).record.length + m.data.length =
      m.record.length + (m.withContent crates content).data.length := by
  simp only [record, length_append, length_localHeader_withContent,
    length_descriptor_withContent]
  omega

/-- The checksum that reads as the signature of a descriptor. -/
def signatureCrc : UInt32 := 0x08074b50

/-- How many bytes behind the data the patch takes for the descriptor. -/
def descriptorTaken : Nat :=
  match m.sumsPlace with
  | .header => 0
  | .descriptor signed _ _ _ => if signed = true ∨ m.crc = signatureCrc then 16 else 12

/-- The patch never takes too little for the descriptor. -/
theorem length_descriptor_le : m.descriptor.length ≤ m.descriptorTaken := by
  unfold descriptor descriptorTaken
  cases m.sumsPlace with
  | header => exact Nat.le_refl _
  | descriptor signed crc csize usize =>
    cases signed
    · simp only [Bool.false_eq_true, if_false, false_or, nil_append, length_sums]
      split <;> omega
    · simp [descriptorSig]

/-- Four bytes too many are taken for an unsigned descriptor. -/
theorem descriptor_of_taken_ne (h : m.descriptorTaken ≠ m.descriptor.length) :
    (m.withContent crates content).descriptor = m.newSums crates content ∧
      m.descriptorTaken = 16 ∧ m.descriptor.length = 12 := by
  have hsums := m.sums_withContent crates content
  unfold descriptor descriptorTaken at h ⊢
  rw [show (m.withContent crates content).sumsPlace = m.sumsPlace from rfl]
  cases hplace : m.sumsPlace with
  | header => simp [hplace] at h
  | descriptor signed crc csize usize =>
    cases signed with
    | true => simp [hplace, descriptorSig] at h
    | false =>
      refine ⟨?_, ?_, by simp⟩
      · rw [← hsums]
        rfl
      · simp only [hplace, Bool.false_eq_true, if_false, false_or, nil_append,
          length_sums] at h ⊢
        split at h
        next hcrc => rw [if_pos hcrc]
        next => exact absurd rfl h

end Member

/-! ## The places of the other members -/

namespace Layout

variable {crates : Crates} {layout : Layout} {front back : List Member} {m : Member}
  {content : Bytes}

section

variable (crates : Crates)

theorem withContent_members (content : Bytes) (h : layout.members = front ++ m :: back) :
    (layout.withContent crates front.length content).members =
      front ++ m.withContent crates content :: back := by
  have hlt : front.length < (front ++ m :: back).length := by simp
  rw [withContent, h]
  show (front ++ m :: back).modify front.length (Member.withContent crates content) = _
  rw [modify_eq_take_cons_drop hlt, take_left, drop_append]
  simp

theorem offset_withContent_of_le (content : Bytes) (h : layout.members = front ++ m :: back)
    {j : Nat} (hj : j ≤ front.length) :
    (layout.withContent crates front.length content).offset j = layout.offset j := by
  rcases Nat.lt_or_eq_of_le hj with hlt | rfl
  · rw [offset_in_front h hlt, offset_in_front (withContent_members crates content h) hlt]
  · rw [offset_at h, offset_at (withContent_members crates content h)]
    rfl

theorem offset_withContent_of_lt (content : Bytes) (h : layout.members = front ++ m :: back)
    {j : Nat} (hj : front.length < j) :
    (layout.withContent crates front.length content).offset j + m.data.length =
      layout.offset j + (m.withContent crates content).data.length := by
  obtain ⟨k, rfl⟩ : ∃ k, j = front.length + 1 + k := ⟨j - front.length - 1, by omega⟩
  have hrecord := m.length_record_withContent crates content
  have hgap : (m.withContent crates content).gap.length = m.gap.length := rfl
  rw [offset_behind h, offset_behind (withContent_members crates content h)]
  omega

theorem centralOffset_withContent (content : Bytes) (h : layout.members = front ++ m :: back) :
    (layout.withContent crates front.length content).centralOffset + m.data.length =
      layout.centralOffset + (m.withContent crates content).data.length := by
  have hrecord := m.length_record_withContent crates content
  have hgap : (m.withContent crates content).gap.length = m.gap.length := rfl
  have htail : (layout.withContent crates front.length content).tail = layout.tail := rfl
  rw [centralOffset, centralOffset, withContent_members crates content h, h, htail]
  simp
  omega

/-- The edited member and those in front of it keep their places, those behind it move. -/
theorem offset_withContent (content : Bytes) (h : layout.members = front ++ m :: back) (j : Nat) :
    ((layout.withContent crates front.length content).offset j : Int) =
      if front.length < j then layout.offset j +
        (((m.withContent crates content).data.length : Int) - m.data.length)
      else layout.offset j := by
  split
  next hj =>
    have := offset_withContent_of_lt crates content h hj
    omega
  next hj => rw [offset_withContent_of_le crates content h (Nat.not_lt.mp hj)]

end

/-- Behind a record, and behind some more bytes where the next gap has that many, start the
later members and only these. -/
theorem le_offset_iff (h : layout.members = front ++ m :: back) {extra : Nat}
    (hextra : ∀ n ∈ back.head?, extra ≤ n.gap.length) {j : Nat} (hj : j < layout.members.length) :
    layout.offset front.length + m.record.length + extra ≤ layout.offset j ↔ front.length < j := by
  constructor
  · intro hle
    by_contra hnot
    have hbefore : layout.offset j ≤ layout.offset front.length := by
      rcases Nat.lt_or_eq_of_le (Nat.not_lt.mp hnot) with hlt | rfl
      · have hfront := take_append_drop j front
        rw [drop_eq_getElem_cons hlt] at hfront
        have hlength := congrArg (fun members => (body members).length) hfront
        simp only [body_append, body_cons, length_append] at hlength
        rw [offset_in_front h hlt, offset_at h]
        omega
      · exact Nat.le_refl _
    have hrecord : 30 ≤ m.record.length := by
      simp [Member.record]
      omega
    omega
  · intro hlt
    obtain ⟨k, rfl⟩ : ∃ k, j = front.length + 1 + k := ⟨j - front.length - 1, by omega⟩
    rw [offset_behind h, offset_at h]
    cases back with
    | nil =>
      have hlength : layout.members.length = front.length + 1 := by simp [h]
      omega
    | cons n rest =>
      have hn : extra ≤ n.gap.length := hextra n rfl
      cases k with
      | zero => simpa using hn
      | succ k =>
        simp only [take_succ_cons, body_cons, length_append]
        omega

end Layout

end Docx2Typed.Zip
