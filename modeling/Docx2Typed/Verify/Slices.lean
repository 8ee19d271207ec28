import Docx2Typed.Library.Scan
import Docx2Typed.Prose.Text
import Docx2Typed.Verify.Agreement

/-!
# Parts of a part

The tags of an element, or of a located paragraph, are read alike by Core and the verifier where
those of the whole part are: `PlainTags.slice`.
-/

namespace Docx2Typed.Verify

open Library List

/-! ## Tokens by their spans -/

theorem measures_tokenLength : Measures (byte '<') tokenLength where
  pos h := (tokenLength_pos (by simp) h).1
  le h := by simpa using (tokenLength_pos (by simp) h).2
  take {xs n k} h hk := by
    have hpos := tokenLength_pos (by simp) h
    have hne : (byte '<' :: xs).take n ≠ [] := by
      rw [Ne, take_eq_nil_iff]
      simp
      omega
    have htake :=
      tokenLength_append (((byte '<' :: xs).drop n).take (k - n)) hne (tokenLength_take h)
    rwa [← take_add, Nat.add_sub_cancel' hk] at htake

/-- The spans of the tokens. -/
def spans (xml : Bytes) : List (Nat × Nat) := scan (byte '<') tokenLength 0 0 xml

theorem dropWhile_eq_drop (p : UInt8 → Bool) (xml : Bytes) :
    xml.dropWhile p = xml.drop (xml.takeWhile p).length := by
  have hsplit : xml.takeWhile p ++ xml.dropWhile p = xml := takeWhile_append_dropWhile
  calc xml.dropWhile p
      = (xml.takeWhile p ++ xml.dropWhile p).drop (xml.takeWhile p).length := drop_left.symm
    _ = xml.drop (xml.takeWhile p).length := by rw [hsplit]

/-- The rest of a scan, seen from its start. -/
theorem map_slice_drop {β : Type} (f : Bytes → Nat → Nat → β) (xml : Bytes) (offset k : Nat) :
    (scan (byte '<') tokenLength 0 (offset + k) (xml.drop k)).map (fun span =>
        f (slice (xml.drop k) (span.1 - (offset + k)) (span.2 - (offset + k))) span.1 span.2) =
      (scan (byte '<') tokenLength 0 (offset + k) (xml.drop k)).map fun span =>
        f (slice xml (span.1 - offset) (span.2 - offset)) span.1 span.2 := by
  refine map_congr_left fun span hspan => ?_
  have hinside := scan_inside measures_tokenLength hspan
  rw [slice_drop]
  congr 2 <;> omega

/-- Both scanners read the tokens of one list of spans. -/
theorem scanTagsFrom_eq_spans : ∀ (fuel offset : Nat) (xml : Bytes), xml.length ≤ fuel →
    tokensFrom fuel xml = (scan (byte '<') tokenLength 0 offset xml).map (fun span =>
        slice xml (span.1 - offset) (span.2 - offset)) ∧
      Docx2Typed.scanTagsFrom fuel offset xml =
        ((scan (byte '<') tokenLength 0 offset xml).map fun span =>
          parseTag (slice xml (span.1 - offset) (span.2 - offset)) span.1 span.2).reduceOption
  | 0, offset, xml, h => by
    obtain rfl := length_eq_zero_iff.mp (Nat.le_zero.mp h)
    exact ⟨rfl, rfl⟩
  | fuel + 1, offset, xml, h => by
    rw [tokensFrom, Docx2Typed.scanTagsFrom, scan_round measures_tokenLength]
    by_cases hne : xml.dropWhile (· != byte '<') = []
    · simp [hne]
    · simp only [if_neg hne]
      cases hlength : tokenLength (xml.dropWhile (· != byte '<')) with
      | none => simp
      | some n =>
        have hpos := tokenLength_pos hne hlength
        set k := (xml.takeWhile (· != byte '<')).length with hk
        have hdrop : (xml.dropWhile (· != byte '<')).drop n = xml.drop (k + n) := by
          rw [dropWhile_eq_drop, drop_drop]
        have htake : (xml.dropWhile (· != byte '<')).take n = slice xml k (k + n) := by
          rw [dropWhile_eq_drop, slice, take_drop]
        have hle : (xml.drop (k + n)).length ≤ fuel := by
          rw [length_drop]
          omega
        obtain ⟨htokens, htags⟩ := scanTagsFrom_eq_spans fuel (offset + (k + n)) _ hle
        simp only
        rw [hdrop, htake, htokens, Nat.add_assoc, htags]
        have hstart : offset + k - offset = k := Nat.add_sub_cancel_left ..
        have hstop : offset + (k + n) - offset = k + n := Nat.add_sub_cancel_left ..
        constructor
        · rw [map_cons, hstart, hstop, map_slice_drop fun token _ _ => token]
        · rw [map_cons, hstart, hstop, map_slice_drop parseTag]
          cases parseTag (slice xml k (k + n)) (offset + k) (offset + (k + n)) with
          | none => rw [reduceOption_cons_of_none]; rfl
          | some tag => rw [reduceOption_cons_of_some]; rfl

theorem tokens_eq (xml : Bytes) :
    tokens xml = (spans xml).map fun span => slice xml span.1 span.2 := by
  rw [tokens, (scanTagsFrom_eq_spans xml.length 0 xml le_rfl).1]
  rfl

/-- A tag is one of the tokens. -/
theorem mem_spans_of_tag {xml : Bytes} {tag : Docx2Typed.Tag} (h : tag ∈ Docx2Typed.scanTags xml) :
    (tag.start, tag.stop) ∈ spans xml := by
  rw [Docx2Typed.scanTags, (scanTagsFrom_eq_spans xml.length 0 xml le_rfl).2,
    reduceOption_mem_iff] at h
  obtain ⟨span, hspan, hparse⟩ := mem_map.mp h
  obtain ⟨hstart, hstop⟩ := parseTag_position hparse
  rw [hstart, hstop]
  exact hspan

/-- Between the start of a tag and the end of one, plain tags stay plain. -/
theorem PlainTags.slice {xml : Bytes} {start stop : Nat} (h : PlainTags xml)
    (hstart : ∃ tag ∈ Docx2Typed.scanTags xml, tag.start = start)
    (hstop : ∃ tag ∈ Docx2Typed.scanTags xml, tag.stop = stop) (hlt : start < stop) :
    PlainTags (slice xml start stop) := by
  obtain ⟨first, hfirst, rfl⟩ := hstart
  obtain ⟨last, hlast, rfl⟩ := hstop
  obtain ⟨before, after, hscan, -, -⟩ := exists_scan_slice measures_tokenLength hlt
    ⟨_, mem_spans_of_tag hfirst, rfl⟩ ⟨_, mem_spans_of_tag hlast, rfl⟩
  intro token htoken
  rw [tokens_eq] at htoken
  obtain ⟨span, hspan, rfl⟩ := mem_map.mp htoken
  refine h _ ?_
  rw [tokens_eq]
  refine mem_map.mpr ⟨(first.start + span.1, first.start + span.2), ?_, ?_⟩
  · rw [spans, hscan]
    exact mem_append_left _ (mem_append_right _ (mem_map_of_mem hspan))
  · have hinside := scan_inside measures_tokenLength hspan
    have hlength : (Docx2Typed.slice xml first.start last.stop).length ≤
        last.stop - first.start := by
      rw [Docx2Typed.slice, length_drop, length_take]
      omega
    exact (slice_slice xml first.start last.stop span.1 span.2 (by omega)).symm

end Docx2Typed.Verify
