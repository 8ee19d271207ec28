import Docx2Typed.Library.Replacing
import Docx2Typed.Search.Document

/-!
# The span that a draft changed

When a draft is committed, `changed_span` tells which span of a body was replaced, and by what.  It
strips what the two bodies have in common: from the front as far as it goes, then from the end, but
not into the front.  What is left is the shortest span of all (`changedSpan_minimal`).
-/

namespace Docx2Typed

open Library (countWhile countWhile_spec Replacing)
open List

/-! ## `changed_span` -/

/-- The condition of the first loop. -/
def PrefixGoesOn (a b : Text) (lead : ℕ) : Prop :=
  lead < a.length ∧ lead < b.length ∧ a[lead]? = b[lead]?

/-- The condition of the second loop, which stops before the prefix. -/
def SuffixGoesOn (a b : Text) (lead trail : ℕ) : Prop :=
  lead + trail < a.length ∧ lead + trail < b.length ∧
    a[a.length - 1 - trail]? = b[b.length - 1 - trail]?

instance (a b : Text) : DecidablePred (PrefixGoesOn a b) :=
  fun _ => inferInstanceAs (Decidable (_ ∧ _ ∧ _))

instance (a b : Text) (lead : ℕ) : DecidablePred (SuffixGoesOn a b lead) :=
  fun _ => inferInstanceAs (Decidable (_ ∧ _ ∧ _))

def commonPrefix (a b : Text) : ℕ := countWhile (PrefixGoesOn a b) (fun _ h => h.1) 0

def commonSuffix (a b : Text) (lead : ℕ) : ℕ :=
  countWhile (SuffixGoesOn a b lead) (fun _ h => (Nat.le_add_left _ _).trans_lt h.1) 0

/-- `a.len() - suffix`; below zero it panics. -/
def beforeSuffix (a : Text) (trail : ℕ) : Outcome ℕ :=
  if trail ≤ a.length then pure (a.length - trail) else .error .panic

/-- The third loop: the suffix shrinks until the span, applied to the old body, gives the new
one. -/
def appliedSuffix (a b : Text) (lead : ℕ) : ℕ → Outcome ℕ
  | 0 => pure 0
  | trail + 1 => do
    let _oldSpan ← sliceChars a lead (← beforeSuffix a (trail + 1))
    let newSpan ← sliceChars b lead (← beforeSuffix b (trail + 1))
    let front ← sliceChars a 0 lead
    let back ← sliceChars a (← beforeSuffix a (trail + 1)) a.length
    if front ++ newSpan ++ back = b then pure (trail + 1) else appliedSuffix a b lead trail

/-- `changed_span`: the old span, the new one, and the characters in front of them. -/
def changedSpan (old new : Text) : Outcome (Text × Text × ℕ) := do
  let lead := commonPrefix old new
  let trail ← appliedSuffix old new lead (commonSuffix old new lead)
  let oldSpan ← sliceChars old lead (← beforeSuffix old trail)
  let newSpan ← sliceChars new lead (← beforeSuffix new trail)
  pure (oldSpan, newSpan, lead)

/-! ## What is cut -/

theorem beforeSuffix_append (text back : Text) :
    beforeSuffix (text ++ back) back.length = .ok text.length := by
  rw [beforeSuffix, length_append, if_pos (Nat.le_add_left _ _), Nat.add_sub_cancel]
  rfl

theorem sliceChars_middle (front part back : Text) :
    sliceChars (front ++ part ++ back) front.length (front ++ part).length = .ok part := by
  rw [sliceChars, if_pos ⟨by simp, by simp⟩, take_left, drop_left]
  rfl

variable {old new : Text}

/-- The span applies with the longest suffix, so that the third loop ends at once. -/
theorem appliedSuffix_eq (front oldPart newPart back : Text) :
    appliedSuffix (front ++ oldPart ++ back) (front ++ newPart ++ back) front.length back.length =
      .ok back.length := by
  cases hlength : back.length with
  | zero => rfl
  | succ trail =>
    have hold := beforeSuffix_append (front ++ oldPart) back
    have hnew := beforeSuffix_append (front ++ newPart) back
    have hfront : sliceChars (front ++ oldPart ++ back) 0 front.length = .ok front := by
      rw [append_assoc]
      exact sliceChars_middle [] front (oldPart ++ back)
    have hback := sliceChars_middle (front ++ oldPart) back []
    rw [append_nil] at hback
    rw [hlength] at hold hnew
    rw [appliedSuffix, bind_ok hold, bind_ok (sliceChars_middle front oldPart back), bind_ok hnew,
      bind_ok (sliceChars_middle front newPart back), bind_ok hfront, bind_ok hold, bind_ok hback,
      if_pos rfl]
    rfl

theorem changedSpan_eq (r : Replacing old new) (hlead : commonPrefix old new = r.front.length)
    (htrail : commonSuffix old new r.front.length = r.back.length) :
    changedSpan old new = .ok (r.oldPart, r.newPart, r.front.length) := by
  rw [changedSpan, hlead, htrail]
  obtain ⟨front, oldPart, newPart, back, rfl, rfl⟩ := r
  rw [bind_ok (appliedSuffix_eq front oldPart newPart back),
    bind_ok (beforeSuffix_append (front ++ oldPart) back),
    bind_ok (sliceChars_middle front oldPart back),
    bind_ok (beforeSuffix_append (front ++ newPart) back),
    bind_ok (sliceChars_middle front newPart back)]
  rfl

/-! ## What the loops count -/

theorem prefixGoesOn_of_lt {lead : ℕ} (h : lead < commonPrefix old new) :
    PrefixGoesOn old new lead :=
  (countWhile_spec 0).2 lead (Nat.zero_le _) h

theorem suffixGoesOn_of_lt {lead trail : ℕ} (h : trail < commonSuffix old new lead) :
    SuffixGoesOn old new lead trail :=
  (countWhile_spec 0).2 trail (Nat.zero_le _) h

theorem commonPrefix_le :
    commonPrefix old new ≤ old.length ∧ commonPrefix old new ≤ new.length := by
  cases hlead : commonPrefix old new with
  | zero => exact ⟨Nat.zero_le _, Nat.zero_le _⟩
  | succ lead =>
    obtain ⟨hold, hnew, -⟩ := prefixGoesOn_of_lt (by omega : lead < commonPrefix old new)
    exact ⟨hold, hnew⟩

theorem take_commonPrefix : old.take (commonPrefix old new) = new.take (commonPrefix old new) := by
  refine ext_getElem? fun i => ?_
  rw [getElem?_take, getElem?_take]
  split
  · rename_i hlt
    exact (prefixGoesOn_of_lt hlt).2.2
  · rfl

variable {lead : ℕ}

theorem commonSuffix_le (hold : lead ≤ old.length) (hnew : lead ≤ new.length) :
    lead + commonSuffix old new lead ≤ old.length ∧
      lead + commonSuffix old new lead ≤ new.length := by
  cases htrail : commonSuffix old new lead with
  | zero => exact ⟨hold, hnew⟩
  | succ trail =>
    obtain ⟨hold, hnew, -⟩ := suffixGoesOn_of_lt (by omega : trail < commonSuffix old new lead)
    exact ⟨hold, hnew⟩

theorem drop_commonSuffix (hold : lead + commonSuffix old new lead ≤ old.length)
    (hnew : lead + commonSuffix old new lead ≤ new.length) :
    old.drop (old.length - commonSuffix old new lead) =
      new.drop (new.length - commonSuffix old new lead) := by
  refine ext_getElem? fun i => ?_
  rw [getElem?_drop, getElem?_drop]
  by_cases hi : i < commonSuffix old new lead
  · -- the character at `i` is the one that the loop compares at this count
    obtain ⟨-, -, hsame⟩ :=
      @suffixGoesOn_of_lt old new lead (commonSuffix old new lead - 1 - i) (by omega)
    rwa [show old.length - 1 - (commonSuffix old new lead - 1 - i) =
        old.length - commonSuffix old new lead + i by omega,
      show new.length - 1 - (commonSuffix old new lead - 1 - i) =
        new.length - commonSuffix old new lead + i by omega] at hsame
  · rw [getElem?_eq_none (by omega), getElem?_eq_none (by omega)]

theorem take_middle_drop {text : Text} {trail : ℕ} (h : lead + trail ≤ text.length) :
    text = text.take lead ++ (text.take (text.length - trail)).drop lead ++
      text.drop (text.length - trail) := by
  have htake : text.take lead = (text.take (text.length - trail)).take lead := by
    rw [take_take, Nat.min_eq_left (by omega)]
  rw [htake, take_append_drop, take_append_drop]

/-- What the loops count is in front of a span and behind it. -/
theorem exists_replacing (old new : Text) :
    ∃ r : Replacing old new, commonPrefix old new = r.front.length ∧
      commonSuffix old new r.front.length = r.back.length := by
  obtain ⟨hlead, hlead'⟩ := @commonPrefix_le old new
  obtain ⟨hold, hnew⟩ := commonSuffix_le hlead hlead'
  have hfront := @take_commonPrefix old new
  have hback := drop_commonSuffix hold hnew
  have hlength := length_take_of_le hlead
  refine ⟨⟨old.take (commonPrefix old new), _,
    (new.take (new.length - commonSuffix old new (commonPrefix old new))).drop
      (commonPrefix old new), old.drop (old.length - commonSuffix old new (commonPrefix old new)),
    take_middle_drop hold, ?_⟩, hlength.symm, ?_⟩
  · rw [hfront, hback]
    exact take_middle_drop hnew
  · show commonSuffix old new (old.take (commonPrefix old new)).length = (old.drop _).length
    rw [hlength, length_drop]
    omega

/-- For any two bodies the span is cut without a panic: in front of it and behind it the bodies are
the same, also as bytes, and no other span replaces less. -/
theorem changedSpan_minimal (old new : Text) :
    ∃ r : Replacing old new, changedSpan old new = .ok (r.oldPart, r.newPart, r.front.length) ∧
      r.Minimal ∧ r.front.length + r.back.length ≤ old.length ∧
        r.front.length + r.back.length ≤ new.length ∧
          utf8 old = utf8 r.front ++ utf8 r.oldPart ++ utf8 r.back ∧
            utf8 new = utf8 r.front ++ utf8 r.newPart ++ utf8 r.back := by
  obtain ⟨r, hlead, htrail⟩ := exists_replacing old new
  have hfront : ¬ PrefixGoesOn old new (commonPrefix old new) := (countWhile_spec 0).1
  have hback : ¬ SuffixGoesOn old new r.front.length (commonSuffix old new r.front.length) :=
    (countWhile_spec 0).1
  have hbytes : ∀ front part back : Text, utf8 (front ++ part ++ back) =
      utf8 front ++ utf8 part ++ utf8 back := fun front part back => by
    rw [utf8, Library.Utf8.encode_append, Library.Utf8.encode_append]
  have hold := r.length_old
  have hnew := r.length_new
  rw [hlead] at hfront
  rw [htrail] at hback
  refine ⟨r, changedSpan_eq r hlead htrail, Replacing.minimal_of_stops hfront fun h => hback ?_,
    by omega, by omega, (congrArg utf8 r.old_eq).trans (hbytes _ _ _),
    (congrArg utf8 r.new_eq).trans (hbytes _ _ _)⟩
  obtain ⟨hold', hnew', hsame⟩ := h
  rw [List.getElem?_reverse (by omega), List.getElem?_reverse (by omega)] at hsame
  exact ⟨hold', hnew', hsame⟩

end Docx2Typed
