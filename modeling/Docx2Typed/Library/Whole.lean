import Docx2Typed.Library.Scan

/-!
# Lists a scan reads to their end

A list is whole when a scan of it, whatever follows, is a scan of the list and then one of what
follows.  Where a token is found alike whatever follows it, a list cut at the boundaries of its
tokens is cut into whole lists.

* `Whole.append`, `Whole.of_append`: whole lists compose, and what is left of one is one;
* `whole_slice`: between two boundaries of tokens a list is whole.
-/

namespace Docx2Typed.Library

open List

universe u

variable {α : Type u} [DecidableEq α] {opener : α} {width : List α → Option ℕ} {xs us vs : List α}
  {span : ℕ × ℕ}

/-- Nothing behind a list changes how it is scanned. -/
def Whole (opener : α) (width : List α → Option ℕ) (us : List α) : Prop :=
  ∀ offset vs, scan opener width 0 offset (us ++ vs) =
    scan opener width 0 offset us ++ scan opener width 0 (offset + us.length) vs

/-- What follows a token does not change it. -/
structure Settles (opener : α) (width : List α → Option ℕ) : Prop extends
    Measures opener width where
  append : ∀ {xs n} ys, width (opener :: xs) = some n → width (opener :: xs ++ ys) = some n

theorem whole_nil : Whole opener width [] := fun _ _ => rfl

/-- One offset is enough. -/
theorem whole_of_scan (k : ℕ) (h : ∀ vs, scan opener width 0 k (us ++ vs) =
    scan opener width 0 k us ++ scan opener width 0 (k + us.length) vs) :
    Whole opener width us := by
  have hshift := fun (k : ℕ) (xs : List α) => scan_shift opener width k xs 0 0
  simp only [Nat.add_zero] at hshift
  intro offset vs
  have hzero : scan opener width 0 0 (us ++ vs) =
      scan opener width 0 0 us ++ scan opener width 0 us.length vs := by
    have hinjective : Function.Injective fun span : ℕ × ℕ => (k + span.1, k + span.2) := by
      intro a b hab
      simpa [Prod.ext_iff] using hab
    refine map_injective_iff.mpr hinjective ?_
    rw [map_append, ← hshift, ← hshift, ← scan_shift]
    exact h vs
  rw [hshift offset, hzero, map_append, ← hshift, ← scan_shift]

theorem Whole.append (hu : Whole opener width us) (hv : Whole opener width vs) :
    Whole opener width (us ++ vs) := by
  intro offset ws
  rw [append_assoc, hu, hv, hu offset vs, append_assoc, length_append, Nat.add_assoc]

theorem Whole.of_append (hu : Whole opener width us) (huv : Whole opener width (us ++ vs)) :
    Whole opener width vs := by
  refine whole_of_scan (0 + us.length) fun ws => ?_
  have h := huv 0 ws
  rw [append_assoc, hu, hu 0 vs, append_assoc, append_cancel_left_eq,
    length_append, ← Nat.add_assoc] at h
  exact h

/-- A list without the opener holds no token. -/
theorem whole_of_notMem : ∀ {us : List α}, opener ∉ us → Whole opener width us
  | [], _ => whole_nil
  | x :: us, h => fun offset vs => by
    rw [mem_cons, not_or] at h
    obtain ⟨hne, hus⟩ := h
    rw [cons_append, scan_of_ne (Ne.symm hne), scan_of_ne (Ne.symm hne),
      whole_of_notMem hus, length_cons, Nat.add_assoc, Nat.add_comm 1]

/-- A token is whole. -/
theorem whole_token (hwidth : Settles opener width) {us : List α}
    (h : width (opener :: us) = some (us.length + 1)) : Whole opener width (opener :: us) := by
  intro offset vs
  have happend : width (opener :: (us ++ vs)) = some (us.length + 1) := hwidth.append vs h
  rw [cons_append, scan_of_some happend, scan_of_some h, Nat.add_sub_cancel,
    scan_all_skipped le_rfl, scan_skipped, drop_left, length_cons, Nat.add_assoc,
    Nat.add_comm 1]
  rfl

/-- Up to the start or the end of a token, whatever is put behind it. -/
theorem scan_cut_append (hwidth : Settles opener width) (vs : List α) {i : ℕ} : ∀ {xs : List α}
    {skip offset : ℕ}, span ∈ scan opener width skip offset xs → span.1 = i ∨ span.2 = i →
      scan opener width skip offset (xs.take (i - offset) ++ vs) =
        scan opener width skip offset (xs.take (i - offset)) ++ scan opener width 0 i vs
  | [], _, _, h, _ => by simp [scan] at h
  | x :: xs, skip, offset, h, hi => by
    have hinside := scan_inside hwidth.toMeasures h
    have hcons : offset < i → ∃ k, i - offset = k + 1 ∧ i - (offset + 1) = k := fun hlt =>
      ⟨i - offset - 1, by omega, by omega⟩
    rcases scan_cons_cases opener width skip x xs with
      ⟨rest, rfl⟩ | ⟨rfl, hx⟩ | ⟨rfl, rfl, hnone⟩ | ⟨rfl, rfl, n, hsome⟩
    · obtain ⟨k, hk, hk'⟩ := hcons (by omega)
      rw [scan_skip] at h
      rw [hk, take_succ_cons, cons_append, scan_skip, scan_skip, ← hk',
        scan_cut_append hwidth vs h hi]
    · rw [scan_of_ne hx] at h
      have hlater := scan_inside hwidth.toMeasures h
      obtain ⟨k, hk, hk'⟩ := hcons (by omega)
      rw [hk, take_succ_cons, cons_append, scan_of_ne hx, scan_of_ne hx, ← hk',
        scan_cut_append hwidth vs h hi]
    · simp [scan_of_none hnone] at h
    · have hpos := hwidth.pos hsome
      have htaken : ∀ {k}, n ≤ k + 1 → width (opener :: xs.take k) = some n := fun hle => by
        simpa using hwidth.take hsome hle
      have hcut : ∀ {k}, n ≤ k + 1 → width (opener :: (xs.take k ++ vs)) = some n := fun hle =>
        hwidth.append vs (htaken hle)
      rw [scan_of_some hsome] at h
      rcases mem_cons.mp h with rfl | h
      · -- the cut is at the first token
        rcases hi with rfl | rfl
        · simp [scan]
        · obtain ⟨k, rfl⟩ : ∃ k, n = k + 1 := ⟨n - 1, by omega⟩
          have hlength : (xs.take k).length = k := by
            have := hwidth.le hsome
            rw [length_take]
            omega
          dsimp only
          rw [Nat.add_sub_cancel_left, take_succ_cons, cons_append,
            scan_of_some (hcut le_rfl), scan_of_some (htaken le_rfl),
            Nat.add_sub_cancel, scan_all_skipped hlength.le, scan_skipped, drop_left' hlength,
            singleton_append, Nat.add_right_comm, Nat.add_assoc]
      · have hlater := scan_inside hwidth.toMeasures h
        obtain ⟨k, hk, hk'⟩ := hcons (by omega)
        rw [hk, take_succ_cons, cons_append,
          scan_of_some (hcut (by omega)), scan_of_some (htaken (by omega)), cons_append,
          ← hk', scan_cut_append hwidth vs h hi]

/-- A place where a token starts or ends. -/
def Boundary (opener : α) (width : List α → Option ℕ) (xs : List α) (i : ℕ) : Prop :=
  i = 0 ∨ ∃ span ∈ scan opener width 0 0 xs, span.1 = i ∨ span.2 = i

theorem Boundary.le (hwidth : Settles opener width) {i : ℕ} (h : Boundary opener width xs i) :
    i ≤ xs.length := by
  rcases h with rfl | ⟨span, hspan, rfl | rfl⟩
  · exact Nat.zero_le _
  · have := scan_inside hwidth.toMeasures hspan
    omega
  · have := scan_inside hwidth.toMeasures hspan
    omega

theorem whole_take (hwidth : Settles opener width) {i : ℕ} (h : Boundary opener width xs i) :
    Whole opener width (xs.take i) := by
  have hle := h.le hwidth
  refine whole_of_scan 0 fun vs => ?_
  have hlength : (xs.take i).length = i := length_take_of_le hle
  rw [hlength, Nat.zero_add]
  rcases h with rfl | ⟨span, hspan, hi⟩
  · rfl
  · exact scan_cut_append hwidth vs hspan hi

/-- Between two boundaries. -/
theorem whole_slice (hwidth : Settles opener width) {i j : ℕ} (hi : Boundary opener width xs i)
    (hj : Boundary opener width xs j) (hij : i ≤ j) :
    Whole opener width ((xs.take j).drop i) := by
  refine (whole_take hwidth hi).of_append ?_
  have hcut : (xs.take j).take i = xs.take i := by rw [take_take, Nat.min_eq_left hij]
  rw [← hcut, take_append_drop]
  exact whole_take hwidth hj

end Docx2Typed.Library
