import Docx2Typed.Prose.Text

/-!
# Where decoded characters are spelled

The decoder's characters are spelled one behind the other in the bytes it reads, each by at least
one byte; so a range of characters is a range of bytes.
-/

namespace Docx2Typed

open Library (findSub findSub_add_length_le)
open List

/-- Characters spelled one behind the other in `[lo, hi)`. -/
structure Spelled (lo hi : Nat) (chars : List DecodedChar) : Prop where
  apart : chars.Pairwise fun a b => a.stop ≤ b.start
  inside : ∀ c ∈ chars, lo ≤ c.start ∧ c.start < c.stop ∧ c.stop ≤ hi

theorem Spelled.nil (lo hi : Nat) : Spelled lo hi [] := ⟨.nil, by simp⟩

theorem Spelled.singleton {lo hi : Nat} {c : DecodedChar} (hlo : lo ≤ c.start)
    (hc : c.start < c.stop) (hhi : c.stop ≤ hi) : Spelled lo hi [c] :=
  ⟨pairwise_singleton _ _, by simpa using ⟨hlo, hc, hhi⟩⟩

variable {chars : List DecodedChar}

theorem Spelled.mono {lo hi lo' hi' : Nat} (h : Spelled lo hi chars) (hlo : lo' ≤ lo)
    (hhi : hi ≤ hi') : Spelled lo' hi' chars :=
  ⟨h.apart, fun c hc => by have := h.inside c hc; omega⟩

theorem Spelled.append {lo middle hi : Nat} {xs ys : List DecodedChar} (hx : Spelled lo middle xs)
    (hy : Spelled middle hi ys) (hlo : lo ≤ middle) (hhi : middle ≤ hi) :
    Spelled lo hi (xs ++ ys) := by
  refine ⟨pairwise_append.mpr ⟨hx.apart, hy.apart, fun a ha b hb => ?_⟩, ?_⟩
  · have := hx.inside a ha
    have := hy.inside b hb
    omega
  · exact forall_mem_append.mpr
      ⟨(hx.mono (Nat.le_refl _) hhi).inside, (hy.mono hlo (Nat.le_refl _)).inside⟩

theorem spelled_placeChars : ∀ (text : Text) (offset : Nat),
    Spelled offset (offset + (utf8 text).length) (placeChars offset text)
  | [], offset => .nil _ _
  | c :: text, offset => by
    have hsize : 0 < c.utf8Size := c.utf8Size_pos
    have hlength : (utf8 (c :: text)).length = c.utf8Size + (utf8 text).length := by
      rw [utf8, Library.Utf8.encode_cons, length_append, Library.Utf8.length_encodeChar]
    rw [placeChars, hlength, ← singleton_append]
    have hfirst : Spelled offset (offset + c.utf8Size) [⟨c, offset, offset + c.utf8Size⟩] :=
      .singleton (Nat.le_refl _) (Nat.lt_add_of_pos_right hsize) (Nat.le_refl _)
    refine hfirst.append ((spelled_placeChars text (offset + c.utf8Size)).mono ?_ ?_) ?_ ?_
    · exact Nat.le_refl _
    · omega
    · omega
    · omega

theorem utf8Len_pos (first : UInt8) : 0 < utf8Len first := by
  rw [utf8Len]
  split
  · decide
  · split
    · decide
    · split <;> decide

variable {raw : Bytes}

theorem decodeNext_spelled {offset : Nat} {n : Nat} (h : decodeNext offset raw = .ok (chars, n)) :
    n ≤ raw.length ∧ Spelled offset (offset + n) chars := by
  cases raw with
  | nil =>
    obtain ⟨rfl, rfl⟩ := Prod.mk.inj (Except.ok.inj h)
    exact ⟨Nat.le_refl _, .nil _ _⟩
  | cons first rest =>
    rw [decodeNext] at h
    split at h
    · -- a character reference
      split at h
      · exact (refuse_ne_ok h).elim
      next semi hsemi =>
        split at h
        · exact (refuse_ne_ok h).elim
        · split at h
          · exact (refuse_ne_ok h).elim
          · obtain ⟨rfl, rfl⟩ := Prod.mk.inj (Except.ok.inj h)
            have hlt := (findIdx?_eq_some_iff_getElem.mp hsemi).1
            refine ⟨hlt, .singleton (Nat.le_refl _) ?_ (Nat.le_refl _)⟩
            exact Nat.lt_add_of_pos_right (Nat.succ_pos _)
    · split at h
      · -- a CDATA section
        split at h
        · exact (refuse_ne_ok h).elim
        next stop hstop =>
          split at h
          · exact (refuse_ne_ok h).elim
          next text htext =>
            obtain ⟨rfl, rfl⟩ := Prod.mk.inj (Except.ok.inj h)
            have hle := findSub_add_length_le hstop
            have hclose : (bytes "]]>").length = 3 := by decide
            rw [hclose, length_drop] at hle
            have hbody := congrArg List.length (Library.Utf8.decode_eq_some_iff.mp htext)
            rw [length_take] at hbody
            refine ⟨by omega, (spelled_placeChars text (offset + 9)).mono (by omega) ?_⟩
            rw [utf8]
            omega
      · simp only at h
        split at h
        · exact (refuse_ne_ok h).elim
        next hlen =>
          split at h
          · exact (refuse_ne_ok h).elim
          · obtain ⟨char, -, h⟩ := bind_eq_ok h
            obtain ⟨rfl, rfl⟩ := Prod.mk.inj (Except.ok.inj h)
            refine ⟨Nat.le_of_not_lt hlen, .singleton (Nat.le_refl _) ?_ (Nat.le_refl _)⟩
            exact Nat.lt_add_of_pos_right (utf8Len_pos first)

theorem decodeFrom_nil (fuel offset : Nat) : decodeFrom fuel offset [] = .ok [] := by
  cases fuel <;> rfl

theorem decodeFrom_spelled : ∀ {fuel offset : Nat} {raw : Bytes} {chars : List DecodedChar},
    decodeFrom fuel offset raw = .ok chars → Spelled offset (offset + raw.length) chars
  | fuel, offset, [], chars, h => by
    rw [decodeFrom_nil] at h
    obtain rfl := Except.ok.inj h
    exact .nil _ _
  | 0, offset, first :: raw, chars, h => by
    obtain rfl := Except.ok.inj h
    exact .nil _ _
  | fuel + 1, offset, first :: raw, chars, h => by
    rw [decodeFrom] at h
    obtain ⟨⟨here, n⟩, hnext, h⟩ := bind_eq_ok h
    obtain ⟨rest, hrest, h⟩ := bind_eq_ok h
    obtain rfl := Except.ok.inj h
    obtain ⟨hn, hhere⟩ := decodeNext_spelled hnext
    have hbehind := decodeFrom_spelled hrest
    rw [length_drop] at hbehind
    exact hhere.append (hbehind.mono (Nat.le_refl _) (by omega)) (by omega) (by omega)

theorem decodeTextSegments_spelled (h : decodeTextSegments raw = .ok chars) :
    Spelled 0 raw.length chars := by
  have := decodeFrom_spelled h
  rwa [Nat.zero_add] at this

/-- The bytes found are some of the text's. -/
theorem findOldByteRange_inside {textStart textEnd : Nat} {old : Text} {start stop : Nat}
    (h : findOldByteRange raw textStart textEnd old = .ok (some (start, stop))) :
    textStart ≤ start ∧ start < stop ∧ stop ≤ textEnd ∧ textEnd ≤ raw.length := by
  rw [findOldByteRange] at h
  split at h
  · cases h
  next hold =>
    obtain ⟨body, hbody, h⟩ := bind_eq_ok h
    obtain ⟨hle, hlen, rfl⟩ := sliceOf_eq_ok hbody
    obtain ⟨chars, hchars, h⟩ := bind_eq_ok h
    simp only at h
    split at h
    · cases h
    next index hindex =>
      split at h
      · exact (refuse_ne_ok h).elim
      · obtain ⟨first, hfirst, h⟩ := bind_eq_ok h
        obtain ⟨last, hlast, h⟩ := bind_eq_ok h
        simp only [pure, Except.pure, Except.ok.injEq, Option.some.injEq, Prod.mk.injEq] at h
        obtain ⟨rfl, rfl⟩ := h
        rw [expect_eq_ok_iff] at hfirst hlast
        have hspelled := decodeTextSegments_spelled hchars
        have hslice : (slice raw textStart textEnd).length = textEnd - textStart := by
          rw [slice, length_drop, length_take]
          omega
        rw [hslice] at hspelled
        have hin := hspelled.inside first (mem_of_getElem? hfirst)
        have hin' := hspelled.inside last (mem_of_getElem? hlast)
        have hpos : 0 < old.length := length_pos_of_ne_nil hold
        have horder : first.start < last.stop := by
          rcases Nat.eq_or_lt_of_le (Nat.le_sub_one_of_lt (Nat.lt_add_of_pos_right hpos)) with
            heq | hlt
          · rw [← heq, hfirst] at hlast
            obtain rfl := Option.some.inj hlast
            exact hin.2.1
          · obtain ⟨hi, hfirst⟩ := List.getElem?_eq_some_iff.mp hfirst
            obtain ⟨hj, hlast⟩ := List.getElem?_eq_some_iff.mp hlast
            have := pairwise_iff_getElem.mp hspelled.apart _ _ hi hj hlt
            rw [hfirst, hlast] at this
            omega
        omega

end Docx2Typed
