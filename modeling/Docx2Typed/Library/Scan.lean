import Mathlib.Data.List.Basic
import Mathlib.Data.List.TakeWhile

/-!
# Scans for tokens

A scan reads a list from the left.  Where it meets the opener, `width` says how long the token
is that starts there; the scan ends where there is none.  Where `width` reads no further than the
token it measures, the scan of a list cut at token boundaries is the part of the scan between
them.

* `exists_scan_drop`: the scan from the start of a token on;
* `scan_take`: the scan up to the end of a token;
* `exists_scan_slice`: the scan between the two.
-/

namespace Docx2Typed.Library

open List

universe u

variable {α : Type u} [DecidableEq α]

/-- The spans of the tokens of a list that stands at `offset`, with `skip` entries still taken by
the last token. -/
def scan (opener : α) (width : List α → Option ℕ) : ℕ → ℕ → List α → List (ℕ × ℕ)
  | _, _, [] => []
  | skip + 1, offset, _ :: xs => scan opener width skip (offset + 1) xs
  | 0, offset, x :: xs =>
    if x ≠ opener then scan opener width 0 (offset + 1) xs
    else
      match width (x :: xs) with
      | none => []
      | some n => (offset, offset + n) :: scan opener width (n - 1) (offset + 1) xs

/-- A token is not empty, lies in the list, and is all that is read of it. -/
structure Measures (opener : α) (width : List α → Option ℕ) : Prop where
  pos : ∀ {xs n}, width (opener :: xs) = some n → 0 < n
  le : ∀ {xs n}, width (opener :: xs) = some n → n ≤ xs.length + 1
  take : ∀ {xs n k}, width (opener :: xs) = some n → n ≤ k →
    width ((opener :: xs).take k) = some n

section Scan

variable {opener : α} {width : List α → Option ℕ} {skip offset : ℕ} {x : α} {xs : List α}
  {span : ℕ × ℕ}

theorem scan_skip : scan opener width (skip + 1) offset (x :: xs) =
    scan opener width skip (offset + 1) xs := rfl

theorem scan_of_ne (h : x ≠ opener) : scan opener width 0 offset (x :: xs) =
    scan opener width 0 (offset + 1) xs := by
  rw [scan, if_pos h]

theorem scan_of_none (h : width (opener :: xs) = none) :
    scan opener width 0 offset (opener :: xs) = [] := by
  rw [scan, if_neg (by simp), h]

theorem scan_of_some {n : ℕ} (h : width (opener :: xs) = some n) :
    scan opener width 0 offset (opener :: xs) =
      (offset, offset + n) :: scan opener width (n - 1) (offset + 1) xs := by
  rw [scan, if_neg (by simp), h]

/-- What a scan of a nonempty list can be. -/
theorem scan_cons_cases (opener : α) (width : List α → Option ℕ) (skip : ℕ) (x : α) (xs : List α) :
    (∃ rest, skip = rest + 1) ∨ (skip = 0 ∧ x ≠ opener) ∨
      (skip = 0 ∧ opener = x ∧ width (opener :: xs) = none) ∨
      (skip = 0 ∧ opener = x ∧ ∃ n, width (opener :: xs) = some n) := by
  cases skip with
  | succ rest => exact .inl ⟨rest, rfl⟩
  | zero =>
    by_cases hx : opener = x
    · cases h : width (opener :: xs) with
      | none => exact .inr (.inr (.inl ⟨rfl, hx, rfl⟩))
      | some n => exact .inr (.inr (.inr ⟨rfl, hx, n, rfl⟩))
    · exact .inr (.inl ⟨rfl, fun h => hx h.symm⟩)

theorem scan_shift (opener : α) (width : List α → Option ℕ) (k : ℕ) : ∀ (xs : List α)
    (skip offset : ℕ), scan opener width skip (k + offset) xs =
      (scan opener width skip offset xs).map fun span => (k + span.1, k + span.2)
  | [], _, _ => rfl
  | x :: xs, skip, offset => by
    have ih := fun skip => scan_shift opener width k xs skip (offset + 1)
    rcases scan_cons_cases opener width skip x xs with
      ⟨rest, rfl⟩ | ⟨rfl, hx⟩ | ⟨rfl, rfl, hnone⟩ | ⟨rfl, rfl, n, hsome⟩
    · exact ih rest
    · rw [scan_of_ne hx, scan_of_ne hx]
      exact ih 0
    · rw [scan_of_none hnone, scan_of_none hnone]
      rfl
    · rw [scan_of_some hsome, scan_of_some hsome, map_cons, ← ih, Nat.add_assoc, Nat.add_assoc]

/-- Where the tokens lie. -/
theorem scan_inside (hwidth : Measures opener width) : ∀ {xs : List α} {skip offset : ℕ},
    span ∈ scan opener width skip offset xs →
      offset + skip ≤ span.1 ∧ span.1 < span.2 ∧ span.2 ≤ offset + xs.length
  | [], _, _, h => by simp [scan] at h
  | x :: xs, skip, offset, h => by
    rcases scan_cons_cases opener width skip x xs with
      ⟨rest, rfl⟩ | ⟨rfl, hx⟩ | ⟨rfl, rfl, hnone⟩ | ⟨rfl, rfl, n, hsome⟩
    · rw [scan_skip] at h
      have := scan_inside hwidth h
      grind
    · rw [scan_of_ne hx] at h
      have := scan_inside hwidth h
      grind
    · simp [scan_of_none hnone] at h
    · rw [scan_of_some hsome] at h
      have hpos := hwidth.pos hsome
      have hle := hwidth.le hsome
      rcases mem_cons.mp h with rfl | h
      · grind
      · have := scan_inside hwidth h
        grind

theorem scan_pairwise (hwidth : Measures opener width) : ∀ {xs : List α} {skip offset : ℕ},
    (scan opener width skip offset xs).Pairwise fun a b => a.2 ≤ b.1
  | [], _, _ => .nil
  | x :: xs, skip, offset => by
    rcases scan_cons_cases opener width skip x xs with
      ⟨rest, rfl⟩ | ⟨rfl, hx⟩ | ⟨rfl, rfl, hnone⟩ | ⟨rfl, rfl, n, hsome⟩
    · rw [scan_skip]
      exact scan_pairwise hwidth
    · rw [scan_of_ne hx]
      exact scan_pairwise hwidth
    · rw [scan_of_none hnone]
      exact .nil
    · rw [scan_of_some hsome]
      refine pairwise_cons.mpr ⟨fun b hb => ?_, scan_pairwise hwidth⟩
      have hpos := hwidth.pos hsome
      have := scan_inside hwidth hb
      omega

/-- What is found behind the first letter starts behind it. -/
theorem exists_start_succ (hwidth : Measures opener width) {xs : List α} {skip offset : ℕ}
    (h : span ∈ scan opener width skip (offset + 1) xs) :
    ∃ k, span.1 - offset = k + 1 ∧ span.1 - (offset + 1) = k := by
  have hinside := scan_inside hwidth h
  exact ⟨span.1 - offset - 1, by omega, by omega⟩

/-- From the start of a token on, the scan is one of its own. -/
theorem exists_scan_drop (hwidth : Measures opener width) : ∀ {xs : List α} {skip offset : ℕ},
    span ∈ scan opener width skip offset xs →
      ∃ before, scan opener width skip offset xs =
          before ++ scan opener width 0 span.1 (xs.drop (span.1 - offset)) ∧
        ∀ token ∈ before, token.2 ≤ span.1
  | [], _, _, h => by simp [scan] at h
  | x :: xs, skip, offset, h => by
    have hdrop : ∀ {skip}, span ∈ scan opener width skip (offset + 1) xs →
        (x :: xs).drop (span.1 - offset) = xs.drop (span.1 - (offset + 1)) := by
      intro skip hspan
      obtain ⟨k, hk, hk'⟩ := exists_start_succ hwidth hspan
      rw [hk, hk', drop_succ_cons]
    rcases scan_cons_cases opener width skip x xs with
      ⟨rest, rfl⟩ | ⟨rfl, hx⟩ | ⟨rfl, rfl, hnone⟩ | ⟨rfl, rfl, n, hsome⟩
    · rw [scan_skip] at h ⊢
      rw [hdrop h]
      exact exists_scan_drop hwidth h
    · rw [scan_of_ne hx] at h ⊢
      rw [hdrop h]
      exact exists_scan_drop hwidth h
    · simp [scan_of_none hnone] at h
    · rw [scan_of_some hsome] at h
      rcases mem_cons.mp h with rfl | h
      · exact ⟨[], by simp⟩
      · obtain ⟨before, hbefore, hends⟩ := exists_scan_drop hwidth h
        have hpos := hwidth.pos hsome
        have hinside := scan_inside hwidth h
        refine ⟨(offset, offset + n) :: before, ?_, forall_mem_cons.mpr ⟨by omega, hends⟩⟩
        rw [scan_of_some hsome, hbefore, hdrop h, cons_append]

theorem scan_all_skipped : ∀ {xs : List α} {skip offset : ℕ}, xs.length ≤ skip →
    scan opener width skip offset xs = []
  | [], _, _, _ => by rw [scan]
  | x :: xs, skip, offset, h => by
    obtain ⟨rest, rfl⟩ : ∃ rest, skip = rest + 1 := ⟨skip - 1, by grind⟩
    rw [scan_skip]
    exact scan_all_skipped (by grind)

theorem scan_skipped : ∀ {xs : List α} {skip offset : ℕ},
    scan opener width skip offset xs = scan opener width 0 (offset + skip) (xs.drop skip)
  | [], skip, _ => by simp [scan]
  | x :: xs, 0, _ => rfl
  | x :: xs, skip + 1, offset => by
    rw [scan_skip, scan_skipped, drop_succ_cons, Nat.add_right_comm, Nat.add_assoc]

/-- Up to the end of a token, the scan is that of the list cut there. -/
theorem scan_take (hwidth : Measures opener width) : ∀ {xs : List α} {skip offset : ℕ},
    span ∈ scan opener width skip offset xs →
      scan opener width skip offset xs =
        scan opener width skip offset (xs.take (span.2 - offset)) ++
          scan opener width 0 span.2 (xs.drop (span.2 - offset))
  | [], _, _, h => by simp [scan] at h
  | x :: xs, skip, offset, h => by
    obtain ⟨k, hk⟩ : ∃ k, span.2 - offset = k + 1 := by
      have := scan_inside hwidth h
      exact ⟨span.2 - offset - 1, by omega⟩
    rw [hk, take_succ_cons, drop_succ_cons]
    have hk' : span.2 - (offset + 1) = k := by omega
    rcases scan_cons_cases opener width skip x xs with
      ⟨rest, rfl⟩ | ⟨rfl, hx⟩ | ⟨rfl, rfl, hnone⟩ | ⟨rfl, rfl, n, hsome⟩
    · rw [scan_skip] at h
      rw [scan_skip, scan_skip, scan_take hwidth h, hk']
    · rw [scan_of_ne hx] at h
      rw [scan_of_ne hx, scan_of_ne hx, scan_take hwidth h, hk']
    · simp [scan_of_none hnone] at h
    · have hpos := hwidth.pos hsome
      rw [scan_of_some hsome] at h
      have htaken : n ≤ k + 1 → width (opener :: xs.take k) = some n := fun hle => by
        simpa using hwidth.take hsome hle
      rcases mem_cons.mp h with rfl | h
      · have hn : n - 1 = k := by omega
        rw [scan_of_some hsome, scan_of_some (htaken (by omega)), hn,
          scan_all_skipped (length_take_le ..), scan_skipped]
        simp only [singleton_append]
        congr 2
        omega
      · have hinside := scan_inside hwidth h
        rw [scan_of_some hsome, scan_of_some (htaken (by omega)), cons_append,
          scan_take hwidth h, hk']

/-- One round of a scan: what comes before the next opener is passed over. -/
theorem scan_round (hwidth : Measures opener width) : ∀ (offset : ℕ) (xs : List α),
    scan opener width 0 offset xs =
      if xs.dropWhile (· != opener) = [] then []
      else
        match width (xs.dropWhile (· != opener)) with
        | none => []
        | some n =>
          (offset + (xs.takeWhile (· != opener)).length,
              offset + (xs.takeWhile (· != opener)).length + n) ::
            scan opener width 0 (offset + (xs.takeWhile (· != opener)).length + n)
              ((xs.dropWhile (· != opener)).drop n)
  | _, [] => by simp [scan]
  | offset, x :: xs => by
    rcases scan_cons_cases opener width 0 x xs with
      ⟨rest, h⟩ | ⟨-, hx⟩ | ⟨-, rfl, hnone⟩ | ⟨-, rfl, n, hsome⟩
    · cases h
    · rw [scan_of_ne hx, scan_round hwidth]
      simp [hx, Nat.add_assoc, Nat.add_comm 1]
    · simp [scan_of_none hnone, hnone]
    · obtain ⟨k, rfl⟩ : ∃ k, n = k + 1 := ⟨n - 1, by have := hwidth.pos hsome; omega⟩
      rw [scan_of_some hsome, scan_skipped]
      simp [hsome, Nat.add_assoc, Nat.add_comm 1]

/-- Between the start of a token and the end of one. -/
theorem exists_scan_slice (hwidth : Measures opener width) {start stop : ℕ} (hlt : start < stop)
    (hstart : ∃ span ∈ scan opener width 0 0 xs, span.1 = start)
    (hstop : ∃ span ∈ scan opener width 0 0 xs, span.2 = stop) :
    ∃ before after, scan opener width 0 0 xs =
        before ++ (scan opener width 0 0 ((xs.take stop).drop start)).map
          (fun span => (start + span.1, start + span.2)) ++ after ∧
      (∀ span ∈ before, span.2 ≤ start) ∧ ∀ span ∈ after, stop ≤ span.1 := by
  obtain ⟨last, hlast, rfl⟩ := hstop
  obtain ⟨first, hfirst, rfl⟩ := hstart
  have hcut := scan_take hwidth hlast
  rw [Nat.sub_zero] at hcut
  have hmem : first ∈ scan opener width 0 0 (xs.take last.2) := by
    rw [hcut] at hfirst
    refine (mem_append.mp hfirst).resolve_right fun hafter => ?_
    have := scan_inside hwidth hafter
    omega
  obtain ⟨before, hbefore, hends⟩ := exists_scan_drop hwidth hmem
  rw [Nat.sub_zero] at hbefore
  refine ⟨before, scan opener width 0 last.2 (xs.drop last.2), ?_, hends, fun span hspan => ?_⟩
  · rw [← scan_shift, Nat.add_zero, ← hbefore]
    exact hcut
  · have := scan_inside hwidth hspan
    omega

end Scan

end Docx2Typed.Library
