import Docx2Typed.Zip.Content

/-!
# Rewriting the records

What the patch writes in place of the records of the edited member and of the entries of the
central directory are the records and the entries of the layout with the new content.  The one
exception is an unsigned descriptor whose checksum reads as the descriptor signature: four bytes
too many are taken for it, and the new sums are written behind the old checksum.
-/

namespace Docx2Typed.Zip

open Library List

theorem descriptorSig_eq : descriptorSig = u32 Member.signatureCrc.toNat := by
  decide

/-- What the patch finds out about the member of a layout it edits. -/
def Layout.edited (crates : Crates) (layout : Layout) (i : Nat) (m : Member) (content : Bytes) :
    Edited where
  localStart := layout.offset i
  dataStart := layout.offset i + m.localHeader.length
  oldCsize := m.data.length
  descriptorLen := m.descriptorTaken
  streaming := decide (m.localFlags.toNat / 8 % 2 = 1)
  newData := encode crates m.method content
  newCrc := (crates.crc32 content).toNat
  newUsize := content.length

namespace Layout

variable {crates : Crates} {layout : Layout} {front back : List Member} {m : Member}
  {content : Bytes}

theorem writeSums_edited (crates : Crates) (content : Bytes) (m : Member) (layout : Layout)
    (i : Nat) (before after : Bytes)
    {crc csize usize : Bytes} (hcrc : crc.length = 4) (hcsize : csize.length = 4)
    (husize : usize.length = 4) :
    (layout.edited crates i m content).writeSums
      (before ++ (crc ++ (csize ++ (usize ++ after)))) before.length =
        .ok (before ++ (m.newSums crates content ++ after)) :=
  writeSums_split _ before after hcrc hcsize husize

/-! ## The local record -/

theorem newLocal_eq (hm : m.WellFormed) (h : layout.members = front ++ m :: back) :
    (layout.edited crates front.length m content).newLocal layout.serialize =
      .ok (m.withContent crates content).localHeader := by
  have hrecord := record_placed h
  have hheader : Placed m.localHeader (layout.offset front.length) layout.serialize :=
    (hrecord.left).left
  rw [Edited.newLocal]
  show (sliceOf layout.serialize (layout.offset front.length)
    (layout.offset front.length + m.localHeader.length) >>= _) = _
  rw [bind_ok (sliceOf_placed hheader)]
  show (if decide (m.localFlags.toNat / 8 % 2 = 1) = true then _ else _) = _
  cases hplace : m.sumsPlace with
  | header =>
    rw [if_neg (by rw [decide_eq_true_iff, hm.streams]; simp [hplace])]
    have hsplit := writeSums_edited crates content m layout
      front.length m.localFront m.localBack (length_u32 m.crc.toNat) (length_u32 m.data.length)
      (length_u32 m.usize.toNat)
    rw [m.length_localFront] at hsplit
    have hold : m.localHeader = m.localFront ++ (u32 m.crc.toNat ++ (u32 m.data.length ++
        (u32 m.usize.toNat ++ m.localBack))) := by
      simp [Member.localHeader, Member.headerSums, hplace, sums]
    have hnew : (m.withContent crates content).localHeader =
        m.localFront ++ (m.newSums crates content ++ m.localBack) := by
      rw [Member.localHeader, Member.headerSums, show (m.withContent crates content).sumsPlace =
        .header from hplace]
      dsimp only
      rw [Member.sums_withContent, append_assoc]
      rfl
    rw [hold, hsplit, hnew]
  | descriptor signed crc csize usize =>
    rw [if_pos (by rw [decide_eq_true_iff, hm.streams]; simp [hplace])]
    have hnew : (m.withContent crates content).localHeader = m.localHeader := by
      rw [Member.localHeader, Member.headerSums, show (m.withContent crates content).sumsPlace =
        .descriptor signed crc csize usize from hplace, Member.localHeader, Member.headerSums,
        hplace]
      rfl
    rw [hnew]
    rfl

/-! ## The descriptor -/

/-- The bytes in front of the central directory that stand behind a member's record. -/
def following (layout : Layout) (i : Nat) : Bytes :=
  body (layout.members.drop (i + 1)) ++ layout.tail

section

variable (h : layout.members = front ++ m :: back)

include h

theorem following_eq : layout.following front.length = body back ++ layout.tail := by
  rw [following, h, drop_append, drop_eq_nil_of_le (Nat.le_succ _)]
  simp

theorem centralOffset_eq : layout.centralOffset =
    layout.offset front.length + m.record.length + (layout.following front.length).length := by
  rw [centralOffset, offset_at h, following_eq h, h]
  simp
  omega

theorem front_placed : Placed (body front ++ m.gap) 0 layout.serialize := by
  refine .of_eq [] (m.record ++ layout.following front.length ++ layout.central ++
    layout.afterCentral ++ layout.endRecord) ?_ rfl
  rw [serialize, following_eq h, h, body_append, body_cons]
  simp

theorem record_following_placed :
    Placed (m.localHeader ++ m.data ++ (m.descriptor ++ layout.following front.length))
      (layout.offset front.length) layout.serialize := by
  refine .of_eq (body front ++ m.gap) (layout.central ++ layout.afterCentral ++ layout.endRecord)
    ?_ ?_
  · rw [serialize, following_eq h, h, body_append, body_cons, Member.record]
    simp
  · rw [offset_at h, length_append]

/-- What stands behind the data of a member. -/
theorem behind_placed :
    Placed (m.descriptor ++ layout.following front.length)
      (layout.offset front.length + m.localHeader.length + m.data.length) layout.serialize := by
  simpa [Nat.add_assoc] using (record_following_placed h).right

end

theorem newDescriptor_of_placed (edited : Edited) {package raw : Bytes}
    (htaken : edited.descriptorLen = raw.length) (hne : raw.length ≠ 0)
    (hraw : Placed raw (edited.dataStart + edited.oldCsize) package) :
    edited.newDescriptor package = edited.writeSums raw (if raw.length = 16 then 4 else 0) := by
  have hslice := sliceOf_placed hraw
  rw [Edited.newDescriptor, if_neg (htaken ▸ hne), Edited.dataEnd, htaken, bind_ok hslice]

/-- What is written over the descriptor. -/
theorem newDescriptor_eq (h : layout.members = front ++ m :: back)
    (hroom : m.descriptorTaken ≤ m.descriptor.length + (layout.following front.length).length) :
    (layout.edited crates front.length m content).newDescriptor layout.serialize =
      .ok (if m.descriptorTaken = m.descriptor.length then (m.withContent crates content).descriptor
        else descriptorSig ++ m.newSums crates content) := by
  have hbehind := behind_placed h
  have hsums := m.sums_withContent crates content
  cases hplace : m.sumsPlace with
  | header =>
    have htaken : m.descriptorTaken = 0 := by rw [Member.descriptorTaken, hplace]
    have hold : m.descriptor = [] := by rw [Member.descriptor, hplace]
    have hnew : (m.withContent crates content).descriptor = [] := by
      rw [Member.descriptor, show (m.withContent crates content).sumsPlace = .header from hplace]
    rw [Edited.newDescriptor, show (layout.edited crates front.length m content).descriptorLen = 0
      from htaken, if_pos rfl, if_pos (by rw [htaken, hold]; rfl), hnew]
    rfl
  | descriptor signed crc csize usize =>
    have hold : m.descriptor = (if signed then descriptorSig else []) ++
        sums m.crc.toNat m.data.length m.usize.toNat := by
      rw [Member.descriptor, hplace]
    have hnew : (m.withContent crates content).descriptor =
        (if signed then descriptorSig else []) ++ m.newSums crates content := by
      rw [Member.descriptor, show (m.withContent crates content).sumsPlace =
        .descriptor signed crc csize usize from hplace]
      dsimp only
      rw [hsums]
    have hsplit : ∀ before after : Bytes,
        (layout.edited crates front.length m content).writeSums
          (before ++ (sums m.crc.toNat m.data.length m.usize.toNat ++ after)) before.length =
            .ok (before ++ (m.newSums crates content ++ after)) := by
      intro before after
      rw [sums, append_assoc, append_assoc]
      exact writeSums_edited crates content m layout front.length before after (length_u32 _)
        (length_u32 _) (length_u32 _)
    by_cases hsigned : signed = true
    · -- a signed descriptor: the sums stand behind the signature
      have htaken : m.descriptorTaken = 16 := by
        rw [Member.descriptorTaken, hplace]
        simp [hsigned]
      rw [if_pos hsigned] at hold hnew
      have hlength : m.descriptor.length = 16 := by
        rw [hold, length_append, length_sums]
        rfl
      rw [newDescriptor_of_placed _ (htaken.trans hlength.symm) (by omega) hbehind.left,
        if_pos hlength, if_pos (htaken.trans hlength.symm), hnew, hold]
      simpa [descriptorSig] using hsplit descriptorSig []
    rw [if_neg hsigned, nil_append] at hold hnew
    have hlength : m.descriptor.length = 12 := by rw [hold, length_sums]
    by_cases hcrc : m.crc = Member.signatureCrc
    · -- the checksum is taken for a signature, and the sums for twelve bytes behind it
      have htaken : m.descriptorTaken = 16 := by
        rw [Member.descriptorTaken, hplace]
        simp [hcrc]
      have hfour : ((layout.following front.length).take 4).length = 4 := by
        rw [length_take]
        omega
      have hraw : Placed (m.descriptor ++ (layout.following front.length).take 4)
          (layout.offset front.length + m.localHeader.length + m.data.length)
          layout.serialize := by
        rw [← take_append_drop 4 (layout.following front.length), ← append_assoc]
          at hbehind
        exact hbehind.left
      have hrawLength : (m.descriptor ++ (layout.following front.length).take 4).length = 16 := by
        rw [length_append, hlength, hfour]
      rw [newDescriptor_of_placed _ (htaken.trans hrawLength.symm) (by omega) hraw,
        if_pos hrawLength, if_neg (by omega), hold, sums, hcrc, ← descriptorSig_eq]
      have hwrite := writeSums_edited crates content m layout
        front.length descriptorSig [] (length_u32 m.data.length) (length_u32 m.usize.toNat) hfour
      simpa [descriptorSig] using hwrite
    · -- an unsigned descriptor is its sums
      have htaken : m.descriptorTaken = 12 := by
        rw [Member.descriptorTaken, hplace]
        simpa [hsigned] using hcrc
      rw [newDescriptor_of_placed _ (htaken.trans hlength.symm) (by omega) hbehind.left,
        if_neg (by omega), if_pos (htaken.trans hlength.symm), hnew, hold]
      simpa using hsplit [] []

/-! ## The central directory -/

theorem writeSums_centralEntry (layout : Layout) (i offset : Nat) :
    (layout.edited crates i m content).writeSums (m.centralEntry offset) 16 =
      .ok ((m.withContent crates content).centralEntry offset) := by
  have hsplit := writeSums_edited crates content m layout i m.centralFront
    (m.centralMiddle ++ (u32 offset ++ m.centralBack)) (length_u32 m.crc.toNat)
    (length_u32 m.data.length) (length_u32 m.usize.toNat)
  rw [m.length_centralFront] at hsplit
  have hold : m.centralEntry offset = m.centralFront ++ (u32 m.crc.toNat ++
      (u32 m.data.length ++ (u32 m.usize.toNat ++
        (m.centralMiddle ++ (u32 offset ++ m.centralBack))))) := by
    simp [Member.centralEntry, sums]
  have hnew : (m.withContent crates content).centralEntry offset = m.centralFront ++
      (m.newSums crates content ++ (m.centralMiddle ++ (u32 offset ++ m.centralBack))) := by
    rw [Member.centralEntry, Member.sums_withContent]
    simp only [append_assoc]
    rfl
  rw [hold, hsplit, hnew]

/-- The two steps of a new entry: the sums, then the offset. -/
theorem newEntry_steps (edited : Edited) (package : Bytes) (member : String) (e : CdEntry)
    (stop : Nat) :
    edited.newEntry package member e stop = (do
      let raw ← sliceOf package e.entryPos stop
      (if e.name = member.toList then edited.writeSums raw 16 else pure raw) >>= fun raw =>
        if edited.dataEnd ≤ e.localOffset ∧ edited.delta ≠ 0 then
          writeU32 raw 42 ((e.localOffset + edited.delta) % 2 ^ 32).toNat
        else pure raw) := by
  unfold Edited.newEntry
  congr 1
  funext raw
  by_cases hnamed : e.name = member.toList
  · simp only [if_pos hnamed]
  · simp only [if_neg hnamed]

theorem writeU32_centralEntry (n : Member) (offset value : Nat) :
    writeU32 (n.centralEntry offset) 42 (value % 2 ^ 32) = .ok (n.centralEntry value) := by
  have hsplit := writeU32_split (n.centralFront ++ sums n.crc.toNat n.data.length n.usize.toNat ++
    n.centralMiddle) n.centralBack (length_u32 offset) (value % 2 ^ 32)
  have hfront : (n.centralFront ++ sums n.crc.toNat n.data.length n.usize.toNat ++
      n.centralMiddle).length = 42 := by
    simp
  rw [hfront, u32_mod] at hsplit
  simpa only [Member.centralEntry, append_assoc] using hsplit

theorem entry_withContent {i j : Nat} {n : Member} (hn : layout.members[j]? = some n) :
    (layout.withContent crates i content).entry j =
      (if i = j then n.withContent crates content else n).centralEntry
        ((layout.withContent crates i content).offset j) := by
  refine entry_eq ?_
  rw [withContent, getElem?_modify, hn]
  split <;> rfl

variable {member : String}

/-- The new entry of a listed member. -/
theorem newEntry_eq (hnames : (layout.members.map (·.name)).Nodup)
    (h : layout.members = front ++ m :: back) (hmember : m.name = bytes member) {j : Nat}
    {n : Member} (hn : layout.members[j]? = some n) {e : CdEntry} (hname : n.name = utf8 e.name)
    (hoffset : e.localOffset = layout.offset j)
    (hplaced : Placed (n.centralEntry (layout.offset j)) e.entryPos layout.serialize)
    (hshift : (layout.edited crates front.length m content).dataEnd ≤ layout.offset j ↔
      front.length < j) :
    (layout.edited crates front.length m content).newEntry layout.serialize member e
      (e.entryPos + (n.centralEntry (layout.offset j)).length) =
        .ok ((layout.withContent crates front.length content).entry j) := by
  have hm := getElem?_split h
  have hsame : e.name = member.toList ↔ front.length = j := by
    rw [← Library.Utf8.encode_injective.eq_iff]
    show utf8 e.name = bytes member ↔ _
    rw [← hname, ← hmember]
    constructor
    · exact fun heq => (eq_of_named hnames hm hn heq.symm).1
    · rintro rfl
      rw [Option.some.inj (hm.symm.trans hn)]
  -- the sums first, in the entry of the edited member
  have hsums : (if e.name = member.toList then
      (layout.edited crates front.length m content).writeSums (n.centralEntry (layout.offset j)) 16
      else pure (n.centralEntry (layout.offset j))) =
        .ok ((if front.length = j then n.withContent crates content else n).centralEntry
          (layout.offset j)) := by
    split
    next hnamed =>
      obtain rfl := hsame.mp hnamed
      rw [hm] at hn
      obtain rfl := Option.some.inj hn
      rw [if_pos rfl, writeSums_centralEntry]
    next hnamed =>
      rw [if_neg (fun heq => hnamed (hsame.mpr heq))]
      rfl
  rw [newEntry_steps, bind_ok (sliceOf_placed hplaced), bind_ok hsums, hoffset,
    entry_withContent hn]
  have hmoved := offset_withContent crates content h j
  have hdelta : (layout.edited crates front.length m content).delta =
      ((m.withContent crates content).data.length : Int) - m.data.length := rfl
  split
  next hmoves =>
    rw [if_pos (hshift.mp hmoves.1), ← hdelta] at hmoved
    have hvalue : ((layout.offset j + (layout.edited crates front.length m content).delta) %
        2 ^ 32).toNat = (layout.withContent crates front.length content).offset j % 2 ^ 32 := by
      rw [← hmoved]
      omega
    rw [hvalue, writeU32_centralEntry]
  next hstays =>
    have hsameOffset : (layout.withContent crates front.length content).offset j =
        layout.offset j := by
      rw [not_and_or, not_not, hdelta] at hstays
      split at hmoved
      next hlt =>
        have := hstays.resolve_left (not_not_intro (hshift.mpr hlt))
        omega
      next => exact_mod_cast hmoved
    rw [hsameOffset]
    rfl

/-- An entry of the directory ends where the next one starts. -/
theorem Listed.next_start {pos : Nat} {order : List Nat} {entries : List CdEntry}
    (h : Listed layout pos order entries) :
    (entries.head?.map (·.entryPos)).getD (pos + (order.flatMap layout.entry).length) = pos := by
  cases h <;> simp

theorem newCentral_eq (hnames : (layout.members.map (·.name)).Nodup)
    (h : layout.members = front ++ m :: back) (hmember : m.name = bytes member)
    (hshift : ∀ j < layout.members.length,
      ((layout.edited crates front.length m content).dataEnd ≤ layout.offset j ↔
        front.length < j)) {pos : Nat} {order : List Nat} {entries : List CdEntry}
    (hlisted : Listed layout pos order entries)
    (hplaced : Placed (order.flatMap layout.entry) pos layout.serialize) :
    (layout.edited crates front.length m content).newCentral layout.serialize member
      (pos + (order.flatMap layout.entry).length) entries =
        .ok (order.flatMap (layout.withContent crates front.length content).entry) := by
  induction hlisted with
  | nil => rfl
  | @cons pos j order entries n name hn hname rest ih =>
    rw [flatMap_cons, entry_eq hn] at hplaced ⊢
    have hnext := rest.next_start
    rw [length_append, ← Nat.add_assoc, Edited.newCentral, hnext,
      bind_ok (newEntry_eq hnames h hmember hn hname rfl hplaced.left
        (hshift j (List.getElem?_eq_some_iff.mp hn).1)),
      bind_ok (ih hplaced.right), flatMap_cons]
    rfl

end Layout

end Docx2Typed.Zip
