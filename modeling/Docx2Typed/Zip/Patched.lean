import Docx2Typed.Zip.Rewrite
import Docx2Typed.Zip.Stored

/-!
# What the patch of a member makes of a package

The bytes of a layout are patched into the bytes of the layout in which the one member has its
new content, provided everything still fits its field and the patch does not take the checksum of
an unsigned descriptor for a signature.
-/

namespace Docx2Typed.Zip

open Library List

namespace Layout

variable {crates : Crates} {layout : Layout} {front back : List Member} {m : Member}
  {content : Bytes} {member : String} {inflate : Bytes → Option Bytes}

theorem length_central_withContent (i : Nat) :
    (layout.withContent crates i content).central.length = layout.central.length := by
  have hentry : ∀ j, ((layout.withContent crates i content).entry j).length =
      (layout.entry j).length := by
    intro j
    cases hn : layout.members[j]? with
    | none =>
      have hn' : (layout.withContent crates i content).members[j]? = none := by
        rw [withContent, getElem?_modify, hn]
        rfl
      rw [entry, entry, hn, hn']
      rfl
    | some n =>
      rw [entry_withContent hn, entry_eq hn]
      split <;> simp [Member.withContent]
  rw [central, central, length_flatMap, length_flatMap]
  simp only [hentry]
  rfl

/-- The end record with the new place of the central directory. -/
theorem writeU32_endRecord (h : layout.members = front ++ m :: back) :
    writeU32 layout.endRecord 16
      (((layout.centralOffset : Int) + (layout.edited crates front.length m content).delta) %
        2 ^ 32).toNat =
      .ok (layout.withContent crates front.length content).endRecord := by
  have hvalue : (((layout.centralOffset : Int) +
      (layout.edited crates front.length m content).delta) % 2 ^ 32).toNat =
        (layout.withContent crates front.length content).centralOffset % 2 ^ 32 := by
    have hmoved := centralOffset_withContent crates content h
    have hdelta : (layout.edited crates front.length m content).delta =
        ((m.withContent crates content).data.length : Int) - m.data.length := rfl
    omega
  have hsplit := writeU32_split (eocdSig ++ u32 layout.diskNumbers.toNat ++
    u16 layout.order.length ++ u16 layout.order.length ++ u32 layout.central.length)
    (u16 layout.comment.length ++ layout.comment) (length_u32 layout.centralOffset)
    ((layout.withContent crates front.length content).centralOffset % 2 ^ 32)
  have hfront : (eocdSig ++ u32 layout.diskNumbers.toNat ++ u16 layout.order.length ++
      u16 layout.order.length ++ u32 layout.central.length).length = 16 := by
    simp [eocdSig]
  have hold : layout.endRecord = eocdSig ++ u32 layout.diskNumbers.toNat ++
      u16 layout.order.length ++ u16 layout.order.length ++ u32 layout.central.length ++
        (u32 layout.centralOffset ++ (u16 layout.comment.length ++ layout.comment)) := by
    simp [endRecord]
  rw [hfront, ← hold, u32_mod] at hsplit
  rw [hvalue, hsplit, endRecord, length_central_withContent]
  simp only [append_assoc]
  rfl

/-- The descriptor the patch sees behind the data. -/
theorem descriptorTaken_eq (hm : m.WellFormed) (h : layout.members = front ++ m :: back) :
    (if m.localFlags.toNat / 8 % 2 = 1 then
      if layout.offset front.length + m.localHeader.length + m.data.length + 4 ≤
            layout.serialize.length ∧
          slice layout.serialize (layout.offset front.length + m.localHeader.length + m.data.length)
            (layout.offset front.length + m.localHeader.length + m.data.length + 4) =
              descriptorSig
      then 16 else 12
    else 0) = m.descriptorTaken := by
  have hbehind := (behind_placed h).left
  cases hplace : m.sumsPlace with
  | header =>
    rw [if_neg (by rw [hm.streams]; simp [hplace]), Member.descriptorTaken, hplace]
  | descriptor signed crc csize usize =>
    rw [if_pos (by rw [hm.streams]; simp [hplace]), Member.descriptorTaken, hplace]
    rw [Member.descriptor, hplace] at hbehind
    dsimp only at hbehind ⊢
    by_cases hsigned : signed = true
    · rw [if_pos hsigned] at hbehind
      have hsig := hbehind.left
      rw [if_pos ⟨hsig.le, hsig.drop_take⟩, if_pos (.inl hsigned)]
    · rw [if_neg hsigned, nil_append, sums] at hbehind
      -- the first four bytes of an unsigned descriptor are its checksum
      have hcrc := hbehind.left.left
      have hread : slice layout.serialize
          (layout.offset front.length + m.localHeader.length + m.data.length)
          (layout.offset front.length + m.localHeader.length + m.data.length + 4) =
            u32 m.crc.toNat := by
        have := hcrc.drop_take
        rwa [length_u32] at this
      have hle := hcrc.le
      rw [length_u32] at hle
      have hsame : u32 m.crc.toNat = descriptorSig ↔ m.crc = Member.signatureCrc := by
        rw [descriptorSig_eq, u32_inj m.crc.toNat_lt Member.signatureCrc.toNat_lt,
          UInt32.toNat_inj]
      simp only [hread, hsame, hle, true_and, hsigned, Bool.false_eq_true, false_or]

theorem compress_eq_ok {method : UInt16} {data : Bytes}
    (h : compress crates member method.toNat content = .ok data) :
    (method = 0 ∨ method = 8) ∧ data = encode crates method content := by
  rw [compress] at h
  split at h
  next hstored =>
    obtain rfl : method = 0 := UInt16.toNat_inj.mp hstored
    exact ⟨.inl rfl, (Except.ok.inj h).symm⟩
  next =>
    split at h
    next hdeflated =>
      obtain rfl : method = 8 := UInt16.toNat_inj.mp hdeflated
      exact ⟨.inr rfl, (Except.ok.inj h).symm⟩
    next => exact absurd h refuse_ne_ok

theorem dataEnd_edited {i : Nat} : (layout.edited crates i m content).dataEnd =
    layout.offset i + m.record.length + (m.descriptorTaken - m.descriptor.length) := by
  have hrecord := m.length_record
  have hle := m.length_descriptor_le
  show layout.offset i + m.localHeader.length + m.data.length + m.descriptorTaken = _
  omega

section Slices

variable (h : layout.members = front ++ m :: back)

include h

theorem sliceOf_front :
    sliceOf layout.serialize 0 (layout.offset front.length) = .ok (body front ++ m.gap) := by
  have hslice := sliceOf_placed (front_placed h)
  rwa [Nat.zero_add, length_append, ← offset_at h] at hslice

/-- What stands between the member written anew and the central directory. -/
theorem sliceOf_following (hroom : m.descriptorTaken ≤
      m.descriptor.length + (layout.following front.length).length) :
    sliceOf layout.serialize (layout.edited crates front.length m content).dataEnd
        layout.centralOffset =
      .ok ((layout.following front.length).drop (m.descriptorTaken - m.descriptor.length)) := by
  have hcentral := centralOffset_eq h
  have hrecord := m.length_record
  have hbehind := behind_placed h
  rw [← take_append_drop m.descriptorTaken (m.descriptor ++ _)] at hbehind
  have hslice := sliceOf_placed hbehind.right
  have htaken : (List.take m.descriptorTaken
      (m.descriptor ++ layout.following front.length)).length = m.descriptorTaken := by
    rw [length_take, length_append]
    omega
  have hstop : layout.offset front.length + m.localHeader.length + m.data.length +
      m.descriptorTaken + ((layout.following front.length).drop
        (m.descriptorTaken - m.descriptor.length)).length = layout.centralOffset := by
    have := m.length_descriptor_le
    rw [length_drop]
    omega
  rwa [htaken, drop_append, drop_eq_nil_of_le m.length_descriptor_le,
    nil_append, hstop] at hslice

end Slices

theorem sliceOf_endRecord :
    sliceOf layout.serialize layout.endStart layout.serialize.length = .ok layout.endRecord := by
  have hslice := sliceOf_placed (@endRecord_placed layout)
  rwa [length_endRecord, ← length_serialize] at hslice

theorem patchZipMember_eq_ok {out : Bytes} (hwell : layout.WellFormed)
    (hok : patchZipMember crates layout.serialize member content = .ok out) :
    ∃ front m back newCd, layout.members = front ++ m :: back ∧ m.name = bytes member ∧
      (m.method = 0 ∨ m.method = 8) ∧
      m.descriptorTaken ≤ m.descriptor.length + (layout.following front.length).length ∧
      ((∀ j < layout.members.length,
        ((layout.edited crates front.length m content).dataEnd ≤ layout.offset j ↔
          front.length < j)) →
        newCd = (layout.withContent crates front.length content).central) ∧
      out = body front ++ m.gap ++ (m.withContent crates content).localHeader ++
        (m.withContent crates content).data ++
        (if m.descriptorTaken = m.descriptor.length then (m.withContent crates content).descriptor
          else descriptorSig ++ m.newSums crates content) ++
        (layout.following front.length).drop (m.descriptorTaken - m.descriptor.length) ++
        newCd ++ (layout.withContent crates front.length content).endRecord := by
  rw [patchZipMember, findEocd_serialize hwell] at hok
  dsimp only at hok
  split at hok
  · exact absurd hok refuse_ne_ok
  rw [bind_ok (readU32_placed (centralSize_placed.trans endRecord_placed) hwell.centralSize),
    bind_ok (readU32_placed (centralOffset_placed.trans endRecord_placed) hwell.centralOffset)]
    at hok
  split at hok
  · exact absurd hok refuse_ne_ok
  obtain ⟨entries, hwalk, hok⟩ := bind_eq_ok hok
  have hin : ∀ i ∈ layout.order, i < layout.members.length := fun i hi =>
    mem_range.mp (hwell.order.mem_iff.mp hi)
  have hlisted := listed_of_walkCentral hwell.members hwell.centralOffset hin central_placed rfl
    hwalk
  split at hok
  · exact absurd hok refuse_ne_ok
  next e hfind =>
    obtain ⟨j, -, m, hm, hname, hoffset, hplaced⟩ :=
      hlisted.of_mem central_placed e (mem_of_find?_eq_some hfind)
    obtain ⟨front, back, hmembers, rfl⟩ := exists_split hm
    have hnamed : e.name = member.toList := by simpa using find?_some hfind
    have hmember : m.name = bytes member := by rw [hname, hnamed]; rfl
    have hmw := hwell.members m (mem_of_getElem? hm)
    have hrecord := record_placed hmembers
    have hheader : Placed m.localHeader (layout.offset front.length) layout.serialize :=
      hrecord.left.left
    have hsig : sliceOf layout.serialize (layout.offset front.length)
        (layout.offset front.length + 4) = .ok localSig :=
      sliceOf_placed (m.localSig_placed.trans hheader)
    rw [hoffset, bind_ok hsig, if_neg (by simp), bind_ok (readU16_placed
      (m.localFlags_placed.trans hheader) m.localFlags.toNat_lt), bind_ok (readU16_placed
      (m.method_placed.trans hheader) m.method.toNat_lt), bind_ok (readU16_placed
      (m.nameLength_placed.trans hheader) hmw.name), bind_ok (readU16_placed
      (m.localExtraLength_placed.trans hheader) hmw.localExtra), bind_ok (readU32_placed
      ((m.csize_placed _).trans hplaced) hmw.data)] at hok
    have hdata : layout.offset front.length + 30 + m.name.length + m.localExtra.length =
        layout.offset front.length + m.localHeader.length := by
      rw [m.length_localHeader]
      omega
    rw [hdata] at hok
    obtain ⟨data, hcompress, hok⟩ := bind_eq_ok hok
    obtain ⟨hmethod, rfl⟩ := compress_eq_ok hcompress
    simp only [descriptorTaken_eq hmw hmembers] at hok
    obtain ⟨newLocal, hlocal, hok⟩ := bind_eq_ok hok
    obtain ⟨newDescriptor, hdescriptor, hok⟩ := bind_eq_ok hok
    obtain ⟨newCd, hcd, hok⟩ := bind_eq_ok hok
    obtain ⟨before, hbefore, hok⟩ := bind_eq_ok hok
    obtain ⟨between, hbetween, hok⟩ := bind_eq_ok hok
    obtain ⟨oldEnd, hend, hok⟩ := bind_eq_ok hok
    obtain ⟨newEnd, hnewEnd, hok⟩ := bind_eq_ok hok
    have hroom : m.descriptorTaken ≤
        m.descriptor.length + (layout.following front.length).length := by
      have hcentral := centralOffset_eq hmembers
      have hle : (layout.edited crates front.length m content).dataEnd ≤ layout.centralOffset :=
        (sliceOf_eq_ok hbetween).1
      rw [dataEnd_edited] at hle
      omega
    obtain rfl := Except.ok.inj ((newLocal_eq hmw hmembers).symm.trans hlocal)
    obtain rfl := Except.ok.inj ((newDescriptor_eq hmembers hroom).symm.trans hdescriptor)
    obtain rfl := Except.ok.inj ((sliceOf_front hmembers).symm.trans hbefore)
    obtain rfl := Except.ok.inj ((sliceOf_following hmembers hroom).symm.trans hbetween)
    obtain rfl := Except.ok.inj (sliceOf_endRecord.symm.trans hend)
    obtain rfl := Except.ok.inj ((writeU32_endRecord hmembers).symm.trans hnewEnd)
    refine ⟨front, m, back, newCd, hmembers, hmember, hmethod, hroom, fun hshift => ?_,
      (Except.ok.inj hok).symm⟩
    exact Except.ok.inj (hcd.symm.trans
      (newCentral_eq hwell.names hmembers hmember hshift hlisted central_placed))

/-! ## The package with the new content -/

/-- The end record of a central directory at another place. -/
def endRecordAt (layout : Layout) (offset : Nat) : Bytes :=
  eocdSig ++ u32 layout.diskNumbers.toNat ++ u16 layout.order.length ++ u16 layout.order.length ++
    u32 layout.central.length ++ u32 offset ++ u16 layout.comment.length ++ layout.comment

/-- The output is a well-formed package of the same members in the same order: the named one
holds the content, every other one and every byte outside the members is what it was, but for
bytes between the central directory and the end record. -/
def Patched (crates : Crates) (inflate : Bytes → Option Bytes) (layout : Layout) (member : String)
    (content out : Bytes) : Prop :=
  ∃ i m, layout.members[i]? = some m ∧ m.name = bytes member ∧
    (m.withContent crates content).Holds crates inflate content ∧
    (layout.withContent crates i content).WellFormed ∧
    ∃ afterCentral,
      out = { layout.withContent crates i content with afterCentral := afterCentral }.serialize

/-- What the patch relies on and does not check. -/
structure Patchable (crates : Crates) (layout : Layout) (content : Bytes) (i : Nat) (m : Member) :
    Prop where
  usize_lt : content.length < 2 ^ 32
  csize_lt : (encode crates m.method content).length < 2 ^ 32
  centralOffset_lt :
    layout.centralOffset + (encode crates m.method content).length < 2 ^ 32 + m.data.length
  /-- The new place of the directory does not spell the signature of an end record. -/
  soleEnd : ∀ pos, 0 < pos → ¬ eocdSig <+: (layout.endRecordAt
    (layout.centralOffset + (encode crates m.method content).length - m.data.length)).drop pos
  /-- An unsigned descriptor does not start like a signed one, or what is written over it and the
  four bytes behind it is by chance what belongs there. -/
  descriptor : m.descriptorTaken ≠ m.descriptor.length →
    descriptorSig ++ m.newSums crates content =
      m.newSums crates content ++ (layout.following i).take 4

theorem endRecord_withContent (h : layout.members = front ++ m :: back) :
    (layout.withContent crates front.length content).endRecord = layout.endRecordAt
      (layout.centralOffset + (encode crates m.method content).length - m.data.length) := by
  have hmoved := centralOffset_withContent crates content h
  have hoffset : (layout.withContent crates front.length content).centralOffset =
      layout.centralOffset + (encode crates m.method content).length - m.data.length := by
    show _ = layout.centralOffset + (m.withContent crates content).data.length - m.data.length
    omega
  rw [endRecord, endRecordAt, hoffset, length_central_withContent]
  rfl

theorem wellFormed_withContent (hwell : layout.WellFormed) (h : layout.members = front ++ m :: back)
    (hpatchable : layout.Patchable crates content front.length m) :
    (layout.withContent crates front.length content).WellFormed := by
  have hmembers := withContent_members crates content h
  have hmoved := centralOffset_withContent crates content h
  have hlength : (layout.withContent crates front.length content).members.length =
      layout.members.length := by
    rw [hmembers, h]
    simp
  refine { order := ?_, names := ?_, members := ?_, entries := hwell.entries, centralSize := ?_,
           centralOffset := ?_, comment := hwell.comment, soleEnd := ?_ }
  · rw [hlength]
    exact hwell.order
  · have hnames := hwell.names
    rw [h] at hnames
    rw [hmembers]
    simpa [Member.withContent] using hnames
  · intro n hn
    have hold := hwell.members
    rw [h] at hold
    rw [hmembers] at hn
    rcases mem_append.mp hn with hn | hn
    · exact hold n (mem_append_left _ hn)
    rcases mem_cons.mp hn with rfl | hn
    · have hm := hold m (by simp)
      exact { name := hm.name, localExtra := hm.localExtra, centralExtra := hm.centralExtra,
              comment := hm.comment, data := hpatchable.csize_lt, streams := hm.streams }
    · exact hold n (by simp [hn])
  · rw [length_central_withContent]
    exact hwell.centralSize
  · have := hpatchable.centralOffset_lt
    have hdata : (m.withContent crates content).data.length =
        (encode crates m.method content).length := rfl
    omega
  · rw [endRecord_withContent h]
    exact hpatchable.soleEnd

/-- The bytes written over an unsigned descriptor that starts like a signed one, and over the four
bytes behind it, are the bytes meant only if the next member leaves room for them. -/
theorem gap_of_chance (hpatchable : layout.Patchable crates content front.length m)
    (h : layout.members = front ++ m :: back) (htaken : m.descriptorTaken ≠ m.descriptor.length) :
    ∀ n ∈ back.head?, 4 ≤ n.gap.length := by
  have hchance := hpatchable.descriptor htaken
  -- by fours, every piece is the next one
  have hfour : (layout.following front.length).take 4 = descriptorSig := by
    rw [Member.newSums, sums, append_assoc, append_assoc, append_assoc] at hchance
    obtain ⟨hcrc, hchance⟩ := append_inj hchance (by simp [descriptorSig])
    obtain ⟨hcsize, hchance⟩ := append_inj hchance (by simp)
    obtain ⟨husize, hchance⟩ := append_inj hchance (by simp)
    rw [← hchance, ← husize, ← hcsize, ← hcrc]
  intro n hn
  obtain ⟨rest, rfl⟩ : ∃ rest, back = n :: rest := by
    cases back with
    | nil => cases hn
    | cons head rest => exact ⟨rest, by rw [Option.some.inj hn]⟩
  obtain ⟨behind, hbehind⟩ : ∃ behind,
      layout.following front.length = n.gap ++ (0x50 :: 0x4b :: 0x03 :: 0x04 :: behind) := by
    rw [following_eq h]
    simp [Member.record, Member.localHeader, Member.localFront, localSig]
  rw [hbehind] at hfour
  by_contra hshort
  rcases hgap : n.gap with _ | ⟨a, _ | ⟨b, _ | ⟨c, _ | ⟨d, more⟩⟩⟩⟩ <;> rw [hgap] at hfour hshort
  · simp [descriptorSig] at hfour
  · simp [descriptorSig] at hfour
  · simp [descriptorSig] at hfour
  · simp [descriptorSig] at hfour
  · simp at hshort

theorem serialize_withContent (h : layout.members = front ++ m :: back) (afterCentral : Bytes) :
    { layout.withContent crates front.length content with
        afterCentral := afterCentral }.serialize =
      body front ++ m.gap ++ (m.withContent crates content).localHeader ++
        (m.withContent crates content).data ++ (m.withContent crates content).descriptor ++
        layout.following front.length ++
        (layout.withContent crates front.length content).central ++ afterCentral ++
        (layout.withContent crates front.length content).endRecord := by
  show body (layout.withContent crates front.length content).members ++ layout.tail ++
    (layout.withContent crates front.length content).central ++ afterCentral ++
    (layout.withContent crates front.length content).endRecord = _
  rw [withContent_members crates content h, following_eq h, body_append, body_cons, Member.record]
  simp only [append_assoc]
  rfl

/-- The output is the package with the new content exactly when the patch may be made. -/
theorem patchZipMember_patched_iff
    (hinflate : ∀ content, inflate (crates.deflate content) = some content)
    (hwell : layout.WellFormed) {out : Bytes}
    (hok : patchZipMember crates layout.serialize member content = .ok out) :
    layout.Patched crates inflate member content out ↔
      ∃ i m, layout.members[i]? = some m ∧ m.name = bytes member ∧
        layout.Patchable crates content i m := by
  obtain ⟨front, m, back, newCd, h, hmember, hmethod, hroom, hcd, rfl⟩ :=
    patchZipMember_eq_ok hwell hok
  have hm := getElem?_split h
  have hmoved := centralOffset_withContent crates content h
  have hnewData : (m.withContent crates content).data = encode crates m.method content := rfl
  constructor
  · rintro ⟨i, n, hn, hname, hholds, hwell', afterCentral, hout⟩
    obtain ⟨rfl, rfl⟩ := eq_of_named hwell.names hm hn (hmember.trans hname.symm)
    refine ⟨front.length, m, hm, hmember, ?_⟩
    have hm' : m.withContent crates content ∈
        (layout.withContent crates front.length content).members := by
      rw [withContent_members crates content h]
      simp
    refine { usize_lt := ?_, csize_lt := (hwell'.members _ hm').data, centralOffset_lt := ?_,
             soleEnd := ?_, descriptor := ?_ }
    · have := hholds.usize
      have hlt := (m.withContent crates content).usize.toNat_lt
      omega
    · have := hwell'.centralOffset
      rw [hnewData] at hmoved
      omega
    · rw [← endRecord_withContent h]
      exact hwell'.soleEnd
    · intro htaken
      obtain ⟨hdescriptor, htaken16, hlength⟩ := m.descriptor_of_taken_ne crates content htaken
      rw [if_neg htaken, serialize_withContent h, hdescriptor,
        ← List.take_append_drop 4 (layout.following front.length)] at hout
      simp only [List.append_assoc, List.append_cancel_left_eq] at hout
      rw [← List.append_assoc, ← List.append_assoc (m.newSums crates content)] at hout
      refine (List.append_inj hout ?_).1
      rw [List.length_append, List.length_append, m.length_newSums, List.length_take]
      simp [descriptorSig]
      omega
  · rintro ⟨i, n, hn, hname, hpatchable⟩
    obtain ⟨rfl, rfl⟩ := eq_of_named hwell.names hm hn (hmember.trans hname.symm)
    refine ⟨front.length, m, hm, hmember, ?_, wellFormed_withContent hwell h hpatchable, [], ?_⟩
    · refine { data := ?_, crc := rfl, usize := ?_ }
      · rcases hmethod with hzero | height
        · exact .inl ⟨hzero, by rw [hnewData, encode, if_neg (by rw [hzero]; decide)]⟩
        · exact .inr ⟨height, by rw [hnewData, encode, if_pos height, hinflate]⟩
      · show (UInt32.ofNat content.length).toNat = content.length
        rw [UInt32.toNat_ofNat', Nat.mod_eq_of_lt hpatchable.usize_lt]
    · have hextra : ∀ n ∈ back.head?, m.descriptorTaken - m.descriptor.length ≤ n.gap.length := by
        intro n hn
        by_cases htaken : m.descriptorTaken = m.descriptor.length
        · omega
        · obtain ⟨-, htaken16, hlength⟩ := m.descriptor_of_taken_ne crates content htaken
          have := gap_of_chance hpatchable h htaken n hn
          omega
      have hcentral := hcd fun j hj => by
        rw [dataEnd_edited]
        exact le_offset_iff h hextra hj
      rw [serialize_withContent h, hcentral, List.append_nil]
      split
      next htaken => rw [htaken, Nat.sub_self, List.drop_zero]
      next htaken =>
        obtain ⟨hdescriptor, htaken16, hlength⟩ := m.descriptor_of_taken_ne crates content htaken
        rw [hdescriptor, hpatchable.descriptor htaken, htaken16, hlength]
        simp only [List.append_assoc]
        rw [← List.append_assoc (List.take 4 _), List.take_append_drop]

/-- Two stored members, the second one listed first. -/
def plainPackage : Layout :=
  { plainLayout [storedMember "a" 0xe8b7be43 (bytes "a"), storedMember "b" 0x71beeff9 (bytes "b")]
    with order := [1, 0] }

theorem plainPackage_patched : plainPackage.Patched (storedCrates 0 []) some "a" []
    { plainLayout [storedMember "a" 0 [], storedMember "b" 0x71beeff9 (bytes "b")]
      with order := [1, 0] }.serialize :=
  (patchZipMember_patched_iff (fun _ => rfl) (by decide +kernel) (by decide +kernel)).mpr
    ⟨0, _, rfl, by decide +kernel, by decide +kernel, by decide +kernel, by decide +kernel,
      by decide +kernel, by decide +kernel⟩

/-- The first member is streamed, and the checksum of its four bytes reads as a signature. -/
def signatureLayout : Layout :=
  plainLayout [
    { storedMember "a" Member.signatureCrc [0xac, 0x0a, 0x7a, 0xd5] with
      localFlags := 8
      centralFlags := 8
      sumsPlace := .descriptor false 0 0 0 },
    storedMember "b" 0x71beeff9 (bytes "b")]

/-- What is written over the descriptor of the first member runs into the header of the second,
which is then listed at a place where there is none. -/
theorem signatureLayout_not_patched : signatureLayout.WellFormed ∧
    ∃ out, patchZipMember (storedCrates 0xe8b7be43 (bytes "a")) signatureLayout.serialize "a"
        (bytes "a") = .ok out ∧
      ∀ layout : Layout, layout.WellFormed → layout.serialize ≠ out := by
  have hrun : (patchZipMember (storedCrates 0xe8b7be43 (bytes "a")) signatureLayout.serialize "a"
      (bytes "a")).toOption.map entriesLead = some (some false) := by
    decide +kernel
  obtain ⟨out, hout, hlead⟩ := exists_ok_of_map hrun
  refine ⟨by decide +kernel, out, hout, fun layout hwell hsame => ?_⟩
  exact entriesLead_serialize hwell (hsame ▸ hlead)

/-- Packages from one patch to the next, each of which may be made. -/
inductive Patches (crates : Crates) : List (String × Bytes) → Layout → Layout → Prop
  | done (layout : Layout) : Patches crates [] layout layout
  | patch {layout final : Layout} {front back : List Member} {m : Member} {member : String}
      {content : Bytes} {rest : List (String × Bytes)} (h : layout.members = front ++ m :: back)
      (hname : m.name = bytes member) (hmay : layout.Patchable crates content front.length m)
      (hrest : Patches crates rest
        { layout.withContent crates front.length content with afterCentral := [] } final) :
      Patches crates ((member, content) :: rest) layout final

/-- One patch that may be made. -/
theorem patchZipMember_serialize {crates : Crates} {layout : Layout} {front back : List Member}
    {m : Member} {member : String} {content next : Bytes} (hwell : layout.WellFormed)
    (h : layout.members = front ++ m :: back) (hname : m.name = bytes member)
    (hmay : layout.Patchable crates content front.length m)
    (hpatch : patchZipMember crates layout.serialize member content = .ok next) :
    next = serialize
      { layout.withContent crates front.length content with afterCentral := [] } := by
  obtain ⟨front', m', back', newCd, h', hmember, -, -, hcd, rfl⟩ :=
    patchZipMember_eq_ok hwell hpatch
  obtain ⟨hfront, rfl⟩ := eq_of_named hwell.names (getElem?_split h') (getElem?_split h)
    (hmember.trans hname.symm)
  obtain ⟨rfl, hback⟩ := append_inj (h'.symm.trans h) hfront
  obtain rfl := (List.cons.inj hback).2
  rw [serialize_withContent h, append_nil]
  by_cases htaken : m'.descriptorTaken = m'.descriptor.length
  · rw [if_pos htaken, htaken, Nat.sub_self, drop_zero, hcd fun j hj => ?_]
    rw [dataEnd_edited]
    exact le_offset_iff h (fun n _ => by omega) hj
  · obtain ⟨hdescriptor, htaken16, hlength⟩ := m'.descriptor_of_taken_ne crates content htaken
    rw [if_neg htaken, hdescriptor, hmay.descriptor htaken, htaken16, hlength, hcd fun j hj => ?_]
    · simp only [append_assoc]
      rw [← append_assoc (List.take 4 _), take_append_drop]
    · rw [dataEnd_edited]
      refine le_offset_iff h (fun n hn => ?_) hj
      have := gap_of_chance hmay h htaken n hn
      omega

/-- In a run of patches that may be made, whichever members they name and however often, the bytes
at the end are those of the package with these contents, which is well formed. -/
theorem patches_serialize {crates : Crates} {patches : List (String × Bytes)}
    {layout final : Layout} {out : Bytes} (hrun : Patches crates patches layout final)
    (hwell : layout.WellFormed) (hok : patches.foldlM
      (fun package patch => patchZipMember crates package patch.1 patch.2) layout.serialize =
        .ok out) :
    final.WellFormed ∧ out = final.serialize := by
  induction hrun with
  | done => exact ⟨hwell, (Except.ok.inj hok).symm⟩
  | patch h hname hmay hrest ih =>
    rw [foldlM_cons] at hok
    obtain ⟨next, hpatch, hok⟩ := bind_eq_ok hok
    obtain rfl := patchZipMember_serialize hwell h hname hmay hpatch
    obtain ⟨order, names, members, entries, centralSize, centralOffset, comment, soleEnd⟩ :=
      wellFormed_withContent hwell h hmay
    exact ih ⟨order, names, members, entries, centralSize, centralOffset, comment, soleEnd⟩ hok

/-- The members of `plainPackage` emptied one after the other. -/
theorem plainPackage_patches :
    ∃ final out, Layout.WellFormed final ∧ out = final.serialize ∧
      [("a", []), ("b", [])].foldlM (fun package patch =>
        patchZipMember (storedCrates 0 []) package patch.1 patch.2) plainPackage.serialize =
          .ok out := by
  have hok : [("a", []), ("b", [])].foldlM (fun package patch =>
      patchZipMember (storedCrates 0 []) package patch.1 patch.2) plainPackage.serialize =
        .ok { plainLayout [storedMember "a" 0 [], storedMember "b" 0 []] with
          order := [1, 0] }.serialize := by
    decide +kernel
  have hrun : Patches (storedCrates 0 []) [("a", []), ("b", [])] plainPackage _ :=
    .patch (show _ = [] ++ _ from rfl) (by decide +kernel) (by constructor <;> decide +kernel)
      (.patch (show _ = [_] ++ _ from rfl) (by decide +kernel) (by constructor <;> decide +kernel)
        (.done _))
  obtain ⟨hwell, hout⟩ := patches_serialize hrun (by decide +kernel) hok
  exact ⟨_, _, hwell, hout, hok⟩

end Layout

end Docx2Typed.Zip
