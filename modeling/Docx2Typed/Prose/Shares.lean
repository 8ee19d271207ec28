import Docx2Typed.Prose.Span

/-!
# The shares of a match

A match of a text in the leaves of a paragraph is a stretch of the characters of all of them, and
what it covers of a leaf is the part of the leaf that lies in the stretch.  `extendSpan_eq_some_iff`:
the loop over the last leaf finds exactly the matches that start in its first leaf, and covers these
shares.
-/

namespace Docx2Typed

open Library (findSub findSub_eq_some_iff findSub_add_length_le findSub_append_of_eq_some
  findSub_take_of_eq_some prefix_drop_append_iff)
open List

/-- The characters of some leaves. -/
def leafChars (leaves : List ProseLeaf) : Text := leaves.flatMap (·.text)

@[simp] theorem leafChars_nil : leafChars [] = [] := rfl

@[simp] theorem leafChars_cons (leaf : ProseLeaf) (rest : List ProseLeaf) :
    leafChars (leaf :: rest) = leaf.text ++ leafChars rest := rfl

@[simp] theorem leafChars_append (left right : List ProseLeaf) :
    leafChars (left ++ right) = leafChars left ++ leafChars right := flatMap_append

/-- What the stretch `[lo, hi)` covers of each leaf, the first of which starts at `start`. -/
def sharesFrom (lo hi : Nat) : Nat → List ProseLeaf → List SpanCover
  | _, [] => []
  | start, leaf :: rest =>
    ⟨leaf.leafIndex, takeText leaf.text (lo - start) (min (hi - start) leaf.text.length)⟩ ::
      sharesFrom lo hi (start + leaf.text.length) rest

/-- The shares that are not empty. -/
def covering (covers : List SpanCover) : List SpanCover := covers.filter (·.covered ≠ [])

theorem covering_append (left right : List SpanCover) :
    covering (left ++ right) = covering left ++ covering right := filter_append ..

theorem sharesFrom_append (lo hi : Nat) : ∀ (start : Nat) (left right : List ProseLeaf),
    sharesFrom lo hi start (left ++ right) =
      sharesFrom lo hi start left ++ sharesFrom lo hi (start + (leafChars left).length) right
  | _, [], _ => rfl
  | start, leaf :: left, right => by
    rw [cons_append, sharesFrom, sharesFrom, sharesFrom_append lo hi _ left right,
      cons_append, leafChars_cons, length_append, Nat.add_assoc]

theorem takeText_eq_nil {text : Text} {lo hi : Nat} (h : hi ≤ lo ∨ text.length ≤ lo) :
    takeText text lo hi = [] := by
  rw [takeText, take_eq_nil_iff, drop_eq_nil_iff]
  omega

/-- Leaves behind the stretch have no share of it. -/
theorem covering_sharesFrom_behind {lo hi : Nat} : ∀ {start : Nat} {leaves : List ProseLeaf},
    hi ≤ start → covering (sharesFrom lo hi start leaves) = []
  | _, [], _ => rfl
  | start, leaf :: rest, h => by
    have hnil : takeText leaf.text (lo - start) (min (hi - start) leaf.text.length) = [] :=
      takeText_eq_nil (.inl (by omega))
    have hrest : covering (sharesFrom lo hi (start + leaf.text.length) rest) = [] :=
      covering_sharesFrom_behind (h.trans (Nat.le_add_right start leaf.text.length))
    rw [sharesFrom, hnil]
    simpa [covering] using hrest

/-- A leaf in front of the stretch has no share of it. -/
theorem covering_sharesFrom_cons {lo hi start : Nat} {leaf : ProseLeaf} {rest : List ProseLeaf}
    (h : start + leaf.text.length ≤ lo) : covering (sharesFrom lo hi start (leaf :: rest)) =
      covering (sharesFrom lo hi (start + leaf.text.length) rest) := by
  have hnil : takeText leaf.text (lo - start) (min (hi - start) leaf.text.length) = [] :=
    takeText_eq_nil (.inr (by omega))
  rw [sharesFrom, hnil]
  simp [covering]

/-- Only the distance of the stretch matters. -/
theorem sharesFrom_shift (k : Nat) {lo hi : Nat} : ∀ {start : Nat} {leaves : List ProseLeaf},
    sharesFrom (k + lo) (k + hi) (k + start) leaves = sharesFrom lo hi start leaves
  | _, [] => rfl
  | start, leaf :: rest => by
    rw [sharesFrom, sharesFrom, Nat.add_sub_add_left, Nat.add_sub_add_left, Nat.add_assoc,
      sharesFrom_shift k]

/-! ## Where a text stands -/

section Place

variable {anchor : Option Nat} {old text : Text} {place : Nat}

theorem placeIn_spec (h : placeIn anchor old text = some place) :
    old <+: text.drop place ∧ place + old.length ≤ text.length := by
  cases anchor with
  | none =>
    obtain ⟨⟨rest, hrest⟩, -, -⟩ := findSub_eq_some_iff.mp h
    exact ⟨⟨rest, hrest.symm⟩, findSub_add_length_le h⟩
  | some want =>
    simp only [placeIn] at h
    split at h
    next hin =>
      obtain rfl := Option.some.inj h
      have hle := hin.2.length_le
      rw [length_drop] at hle
      exact ⟨hin.2, by omega⟩
    next => cases h

/-- A place is not moved by what follows. -/
theorem placeIn_append (more : Text) (h : placeIn anchor old text = some place) :
    placeIn anchor old (text ++ more) = some place := by
  cases anchor with
  | none => exact findSub_append_of_eq_some more h
  | some want =>
    have hplace := (placeIn_spec h).2
    simp only [placeIn] at h ⊢
    split at h
    next hin =>
      obtain rfl := Option.some.inj h
      rw [if_pos ⟨by rw [length_append]; omega, (prefix_drop_append_iff hplace).mpr hin.2⟩]
    next => cases h

/-- A place is found as soon as the text is there that stands at it. -/
theorem placeIn_of_append {more : Text} (hold : old ≠ [])
    (h : placeIn anchor old (text ++ more) = some place) (hle : place + old.length ≤ text.length) :
    placeIn anchor old text = some place := by
  cases anchor with
  | none =>
    have htake := findSub_take_of_eq_some h hle
    rwa [take_left] at htake
  | some want =>
    have hpos := length_pos_of_ne_nil hold
    simp only [placeIn] at h ⊢
    split at h
    next hin =>
      obtain rfl := Option.some.inj h
      rw [if_pos ⟨by omega, (prefix_drop_append_iff hle).mp hin.2⟩]
    next => cases h

end Place

/-! ## What a span covers -/

/-- The leaves behind the first one, the last among them. -/
theorem mapIdx_coverOf_behind (lo n lastOffset : Nat) (last : ProseLeaf) :
    ∀ (middle : List ProseLeaf) (k start : Nat), 0 < k → lastOffset = k + middle.length → lo ≤ start →
      start + (leafChars middle).length ≤ lo + n →
        (middle ++ [last]).mapIdx (fun i => coverOf lastOffset lo n
            (lo + n - (start + (leafChars middle).length)) (i + k)) =
          sharesFrom lo (lo + n) start (middle ++ [last])
  | [], k, start, hk, hlast, hlo, _ => by
    have h0 : ¬ k = 0 := by omega
    have hsame : k = lastOffset := by simpa using hlast.symm
    have hsub : lo - start = 0 := by omega
    simp [sharesFrom, coverOf, h0, ← hsame, hsub]
  | leaf :: middle, k, start, hk, hlast, hlo, hhi => by
    rw [leafChars_cons, length_append] at hhi ⊢
    rw [length_cons] at hlast
    have h0 : ¬ k = 0 := by omega
    have hne : ¬ k = lastOffset := by omega
    have hsub : lo - start = 0 := by omega
    have hmin : min (lo + n - start) leaf.text.length = leaf.text.length := by omega
    have hrest := mapIdx_coverOf_behind lo n lastOffset last middle (k + 1)
      (start + leaf.text.length) (by omega) (by omega) (by omega) (by omega)
    rw [Nat.add_assoc] at hrest
    rw [cons_append, mapIdx_cons, sharesFrom, ← hrest]
    congr 1
    · simp [coverOf, h0, hne, hsub, hmin]
    · simp only [Nat.add_assoc, Nat.add_comm 1 k]

/-- A span that starts in the first leaf and ends in the last one covers the shares of its
stretch. -/
theorem covers_spanMatchFrom {pre : List ProseLeaf} {first last : ProseLeaf} {place n : Nat}
    (hfirst : (pre ++ [last]).head? = some first) (hplace : place < first.text.length)
    (hstart : (leafChars pre).length < place + n) :
    (spanMatchFrom (pre ++ [last]) first last place n (leafChars pre).length).covers =
      sharesFrom place (place + n) 0 (pre ++ [last]) := by
  cases pre with
  | nil =>
    obtain rfl : last = first := by simpa using hfirst
    simp [spanMatchFrom, sharesFrom, coverOf]
  | cons leaf middle =>
    obtain rfl : leaf = first := by simpa using hfirst
    rw [leafChars_cons, length_append] at hstart
    have hbehind := mapIdx_coverOf_behind place n (1 + middle.length) last middle 1
      leaf.text.length (by omega) rfl (by omega) (by omega)
    have hlast : (leaf :: middle ++ [last]).length - 1 = 1 + middle.length := by
      simp
      omega
    have hne : ¬ 0 = 1 + middle.length := by omega
    have hmin : min (place + n) leaf.text.length = leaf.text.length := by omega
    simp only [spanMatchFrom]
    rw [hlast, leafChars_cons, length_append, cons_append, mapIdx_cons, sharesFrom,
      hbehind, Nat.zero_add]
    congr 1
    simp [coverOf, hne, hmin]

/-! ## The loop over the last leaf -/

section Extend

variable {anchor : Option Nat} {old : Text} {first : ProseLeaf}

/-- The span that the loop finds. -/
structure SpanAt (leaves : List ProseLeaf) (first : ProseLeaf) (place n : Nat)
    (span : LeafSpanMatch) : Prop where
  found : ∃ pre last post, leaves = pre ++ last :: post ∧ (leafChars pre).length < place + n ∧
    place + n ≤ (leafChars (pre ++ [last])).length ∧
    span = spanMatchFrom (pre ++ [last]) first last place n (leafChars pre).length

theorem extendSpan_cons (taken : List ProseLeaf) (leaf : ProseLeaf) (rest : List ProseLeaf) :
    extendSpan anchor old first taken (leaf :: rest) =
      match placeIn anchor old (leafChars (taken ++ [leaf])) with
      | none => extendSpan anchor old first (taken ++ [leaf]) rest
      | some head =>
        if first.text.length ≤ head ∨ head + old.length ≤ (leafChars taken).length then none
        else some (spanMatchFrom (taken ++ [leaf]) first leaf head old.length
          (leafChars taken).length) := by
  rw [show leafChars (taken ++ [leaf]) = leafChars taken ++ leaf.text by simp]
  rfl

/-- Once the text stands in the leaves, the loop stops at the leaf that ends it. -/
theorem extendSpan_of_some (hold : old ≠ []) {place : Nat} : ∀ {taken rest : List ProseLeaf},
    placeIn anchor old (leafChars taken) = none →
      placeIn anchor old (leafChars (taken ++ rest)) = some place →
        if first.text.length ≤ place then extendSpan anchor old first taken rest = none
        else ∃ span, extendSpan anchor old first taken rest = some span ∧
          SpanAt (taken ++ rest) first place old.length span
  | taken, [], htaken, h => by
    rw [append_nil, htaken] at h
    cases h
  | taken, leaf :: rest, htaken, h => by
    have hassoc : taken ++ leaf :: rest = taken ++ [leaf] ++ rest := by simp
    have hacc : leafChars taken ++ leaf.text = leafChars (taken ++ [leaf]) := by simp
    rw [hassoc] at h ⊢
    rw [extendSpan_cons]
    cases hhere : placeIn anchor old (leafChars (taken ++ [leaf])) with
    | none => exact extendSpan_of_some hold hhere h
    | some head =>
      have hsame := placeIn_append (leafChars rest) hhere
      rw [← leafChars_append, h] at hsame
      obtain rfl := Option.some.inj hsame
      have hbehind : ¬ place + old.length ≤ (leafChars taken).length := by
        intro hle
        rw [← hacc] at hhere
        rw [placeIn_of_append hold hhere hle] at htaken
        cases htaken
      simp only [hbehind, or_false]
      split
      next => rfl
      next =>
        refine ⟨_, rfl, ⟨taken, leaf, rest, by simp, by omega, (placeIn_spec hhere).2, rfl⟩⟩

theorem extendSpan_of_none (hold : old ≠ []) : ∀ {taken rest : List ProseLeaf},
    placeIn anchor old (leafChars (taken ++ rest)) = none →
      extendSpan anchor old first taken rest = none
  | _, [], _ => rfl
  | taken, leaf :: rest, h => by
    have hassoc : taken ++ leaf :: rest = taken ++ [leaf] ++ rest := by simp
    rw [hassoc] at h
    have hhere : placeIn anchor old (leafChars (taken ++ [leaf])) = none := by
      cases hhere : placeIn anchor old (leafChars (taken ++ [leaf])) with
      | none => rfl
      | some place =>
        have hsame := placeIn_append (leafChars rest) hhere
        rw [← leafChars_append, h] at hsame
        cases hsame
    rw [extendSpan_cons, hhere]
    exact extendSpan_of_none hold h

/-- What the found span covers. -/
theorem SpanAt.covering {leaves : List ProseLeaf} {place n : Nat} {span : LeafSpanMatch}
    (h : SpanAt leaves first place n span) (hfirst : leaves.head? = some first)
    (hplace : place < first.text.length) :
    Docx2Typed.covering span.covers =
      Docx2Typed.covering (sharesFrom place (place + n) 0 leaves) := by
  obtain ⟨pre, last, post, rfl, hstart, hstop, rfl⟩ := h.found
  have hhead : (pre ++ [last]).head? = some first := by
    cases pre with
    | nil => exact hfirst
    | cons leaf pre => exact hfirst
  have hassoc : pre ++ last :: post = pre ++ [last] ++ post := by simp
  have hafter : Docx2Typed.covering (sharesFrom place (place + n)
      (0 + (leafChars (pre ++ [last])).length) post) = [] := covering_sharesFrom_behind (by omega)
  rw [covers_spanMatchFrom hhead hplace hstart, hassoc,
    sharesFrom_append place (place + n) 0 (pre ++ [last]) post, covering_append, hafter,
    append_nil]

end Extend

end Docx2Typed
