import Docx2Typed.Style.Canonical

/-!
# The spellings of a canonical value

The JSON of a canonical value and its Python `repr` both give the value back, so that equal style
identities are equal values (`canonicalJson_injective`), and no two different children are alike to
the sort (`canonPythonRepr_injective`).
-/

namespace Docx2Typed

open List

/-! ## Texts in quotes -/

section Quoted

variable {escape : Char → Text} {quote : Char}

/-- An escape that can be read back, and that does not begin like the closing quote. -/
structure ReadsBack (escape : Char → Text) (quote : Char) : Prop where
  back : ∃ unescape : Text → Option (Char × Text), ∀ c s, unescape (escape c ++ s) = some (c, s)
  apart : ∀ c s t, escape c ++ s ≠ quote :: t

/-- A quoted text ends at its closing quote. -/
theorem ReadsBack.unique (h : ReadsBack escape quote) : ∀ {a b s t : Text},
    a.flatMap escape ++ quote :: s = b.flatMap escape ++ quote :: t → a = b ∧ s = t
  | [], [], _, _, heq => ⟨rfl, (List.cons.inj heq).2⟩
  | [], c :: b, s, t, heq => by
    rw [flatMap_nil, flatMap_cons, append_assoc] at heq
    exact absurd heq.symm (h.apart _ _ _)
  | c :: a, [], s, t, heq => by
    rw [flatMap_nil, flatMap_cons, append_assoc] at heq
    exact absurd heq (h.apart _ _ _)
  | c :: a, d :: b, s, t, heq => by
    rw [flatMap_cons, flatMap_cons, append_assoc, append_assoc] at heq
    obtain ⟨unescape, hback⟩ := h.back
    have hread := congrArg unescape heq
    rw [hback, hback] at hread
    obtain ⟨rfl, hrest⟩ := Prod.mk.inj (Option.some.inj hread)
    obtain ⟨rfl, rfl⟩ := h.unique hrest
    exact ⟨rfl, rfl⟩

end Quoted

/-- Reads back `pythonEscape`. -/
def pythonUnescape : Text → Option (Char × Text)
  | '\\' :: 'n' :: s => some ('\n', s)
  | '\\' :: 'r' :: s => some ('\r', s)
  | '\\' :: 't' :: s => some ('\t', s)
  | '\\' :: c :: s => some (c, s)
  | c :: s => some (c, s)
  | [] => none

theorem readsBack_pythonEscape {quote : Char} (hquote : quote = '"' ∨ quote = '\x27') :
    ReadsBack (pythonEscape quote) quote := by
  have hslash : quote ≠ '\\' := by
    rintro rfl
    revert hquote
    decide
  refine ⟨⟨pythonUnescape, fun c s => ?_⟩, fun c s t h => ?_⟩
  · unfold pythonEscape
    split_ifs with h1 h2 h3 h4 h5
    · rw [h1]; rfl
    · rw [h2]; rfl
    · rw [h3]; rfl
    · rw [h4]; rfl
    · rw [h5]
      rcases hquote with rfl | rfl
      · rfl
      · rfl
    · show pythonUnescape (c :: s) = _
      unfold pythonUnescape
      split <;> simp_all
  · unfold pythonEscape at h
    split_ifs at h with h1 h2 h3 h4 h5
    · exact hslash (List.cons.inj h).1.symm
    · exact hslash (List.cons.inj h).1.symm
    · exact hslash (List.cons.inj h).1.symm
    · exact hslash (List.cons.inj h).1.symm
    · exact hslash (List.cons.inj h).1.symm
    · exact h5 (List.cons.inj h).1

/-- The value of a hexadecimal digit. -/
def hexValue (c : Char) : Nat :=
  if c.toNat < 'a'.toNat then c.toNat - '0'.toNat else c.toNat - 'a'.toNat + 10

theorem hexValue_hexDigit : ∀ n : Fin 16, hexValue (hexDigit n) = n := by
  decide

/-- Reads back `jsonEscape`. -/
def jsonUnescape : Text → Option (Char × Text)
  | '\\' :: '"' :: s => some ('"', s)
  | '\\' :: 'n' :: s => some ('\n', s)
  | '\\' :: 'r' :: s => some ('\r', s)
  | '\\' :: 't' :: s => some ('\t', s)
  | '\\' :: 'b' :: s => some (Char.ofNat 8, s)
  | '\\' :: 'f' :: s => some (Char.ofNat 12, s)
  | '\\' :: 'u' :: '0' :: '0' :: high :: low :: s =>
    some (Char.ofNat (16 * hexValue high + hexValue low), s)
  | '\\' :: c :: s => some (c, s)
  | c :: s => some (c, s)
  | [] => none

theorem readsBack_jsonEscape : ReadsBack jsonEscape '"' := by
  refine ⟨⟨jsonUnescape, fun c s => ?_⟩, fun c s t h => ?_⟩
  · unfold jsonEscape
    split_ifs with h1 h2 h3 h4 h5 h6 h7 h8
    · rw [h1]; rfl
    · rw [h2]; rfl
    · rw [h3]; rfl
    · rw [h4]; rfl
    · rw [h5]; rfl
    · rw [← Char.ofNat_toNat c, h6]; rfl
    · rw [← Char.ofNat_toNat c, h7]; rfl
    · show some (Char.ofNat (16 * hexValue (hexDigit (c.toNat / 16)) +
        hexValue (hexDigit (c.toNat % 16))), s) = _
      rw [hexValue_hexDigit ⟨c.toNat / 16, by omega⟩, hexValue_hexDigit ⟨c.toNat % 16, by omega⟩,
        Nat.div_add_mod, Char.ofNat_toNat]
    · show jsonUnescape (c :: s) = _
      unfold jsonUnescape
      split <;> simp_all
  · unfold jsonEscape at h
    split_ifs at h with h1 h2 h3 h4 h5 h6 h7 h8
    -- every escape begins with a backslash
    on_goal 9 => exact h1 (List.cons.inj h).1
    all_goals exact absurd (List.cons.inj h).1 (by decide)

/-! ## JSON -/

theorem canonicalJson_ne_close (a : Canon) (s t : Text) : canonicalJson a ++ s ≠ ']' :: t := by
  intro h
  cases a with
  | text content => exact absurd (List.cons.inj h).1 (by decide)
  | seq items =>
    cases items with
    | nil => exact absurd (List.cons.inj h).1 (by decide)
    | cons item items =>
      rw [canonicalJson] at h
      exact absurd (List.cons.inj h).1 (by decide)

theorem canonicalJson_text (content : Text) (s : Text) :
    canonicalJson (.text content) ++ s = '"' :: (content.flatMap jsonEscape ++ '"' :: s) := by
  rw [canonicalJson]
  simp

theorem canonicalJson_seq_cons (item : Canon) (items : List Canon) (s : Text) :
    canonicalJson (.seq (item :: items)) ++ s =
      '[' :: (canonicalJson item ++ (canonicalJsons items ++ ']' :: s)) := by
  rw [canonicalJson]
  simp

mutual

/-- A value ends where its JSON does. -/
theorem canonicalJson_unique : ∀ (a b : Canon) {s t : Text},
    canonicalJson a ++ s = canonicalJson b ++ t → a = b ∧ s = t
  | .text content, .text content', s, t, h => by
    rw [canonicalJson_text, canonicalJson_text] at h
    obtain ⟨rfl, hst⟩ := readsBack_jsonEscape.unique (List.cons.inj h).2
    exact ⟨rfl, hst⟩
  | .text content, .seq [], s, t, h => by
    rw [canonicalJson_text] at h
    exact absurd (List.cons.inj h).1 (by decide)
  | .text content, .seq (item :: items), s, t, h => by
    rw [canonicalJson_text, canonicalJson_seq_cons] at h
    exact absurd (List.cons.inj h).1 (by decide)
  | .seq [], .text content, s, t, h => by
    rw [canonicalJson_text] at h
    exact absurd (List.cons.inj h).1 (by decide)
  | .seq [], .seq [], s, t, h => ⟨rfl, append_cancel_left h⟩
  | .seq [], .seq (item :: items), s, t, h => by
    rw [canonicalJson_seq_cons] at h
    exact absurd (List.cons.inj h).2.symm (canonicalJson_ne_close _ _ _)
  | .seq (item :: items), .text content, s, t, h => by
    rw [canonicalJson_text, canonicalJson_seq_cons] at h
    exact absurd (List.cons.inj h).1 (by decide)
  | .seq (item :: items), .seq [], s, t, h => by
    rw [canonicalJson_seq_cons] at h
    exact absurd (List.cons.inj h).2 (canonicalJson_ne_close _ _ _)
  | .seq (item :: items), .seq (item' :: items'), s, t, h => by
    rw [canonicalJson_seq_cons, canonicalJson_seq_cons] at h
    obtain ⟨rfl, hrest⟩ := canonicalJson_unique item item' (List.cons.inj h).2
    obtain ⟨rfl, hst⟩ := canonicalJsons_unique items items' hrest
    exact ⟨rfl, hst⟩

theorem canonicalJsons_unique : ∀ (as bs : List Canon) {s t : Text},
    canonicalJsons as ++ ']' :: s = canonicalJsons bs ++ ']' :: t → as = bs ∧ s = t
  | [], [], _, _, h => ⟨rfl, (List.cons.inj h).2⟩
  | [], b :: bs, _, _, h => by
    rw [canonicalJsons, canonicalJsons] at h
    exact absurd (List.cons.inj h).1 (by decide)
  | a :: as, [], _, _, h => by
    rw [canonicalJsons, canonicalJsons] at h
    exact absurd (List.cons.inj h).1 (by decide)
  | a :: as, b :: bs, s, t, h => by
    rw [canonicalJsons, canonicalJsons, append_assoc, append_assoc, append_assoc,
      append_assoc] at h
    obtain ⟨rfl, hrest⟩ := canonicalJson_unique a b (List.cons.inj h).2
    obtain ⟨rfl, hst⟩ := canonicalJsons_unique as bs hrest
    exact ⟨rfl, hst⟩

end

theorem canonicalJson_injective : Function.Injective canonicalJson := fun a b h =>
  (canonicalJson_unique a b (congrArg (· ++ ([] : Text)) h)).1

/-! ## The sort key -/

/-- The quote of a Python string literal. -/
def pythonQuote (content : Text) : Char := if '\x27' ∈ content ∧ '"' ∉ content then '"' else '\x27'

theorem pythonQuote_eq (content : Text) :
    pythonQuote content = '"' ∨ pythonQuote content = '\x27' := by
  rw [pythonQuote]
  split
  · exact .inl rfl
  · exact .inr rfl

theorem canonPythonRepr_text (content : Text) (s : Text) : canonPythonRepr (.text content) ++ s =
    pythonQuote content ::
      (content.flatMap (pythonEscape (pythonQuote content)) ++ pythonQuote content :: s) := by
  rw [canonPythonRepr]
  simp [pythonQuote]

theorem canonPythonRepr_seq_one (item : Canon) (s : Text) :
    canonPythonRepr (.seq [item]) ++ s = '(' :: (canonPythonRepr item ++ ',' :: ')' :: s) := by
  rw [canonPythonRepr]
  simp

theorem canonPythonRepr_seq_more (item next : Canon) (items : List Canon) (s : Text) :
    canonPythonRepr (.seq (item :: next :: items)) ++ s =
      '(' :: (canonPythonRepr item ++ (canonPythonReprs (next :: items) ++ ')' :: s)) := by
  rw [canonPythonRepr]
  · simp
  · simp

theorem canonPythonReprs_cons (item : Canon) (items : List Canon) (s : Text) :
    canonPythonReprs (item :: items) ++ s =
      ',' :: ' ' :: (canonPythonRepr item ++ (canonPythonReprs items ++ s)) := by
  rw [canonPythonReprs]
  simp

theorem canonPythonRepr_head (a : Canon) (s : Text) :
    ∃ c rest, canonPythonRepr a ++ s = c :: rest ∧ (c = '"' ∨ c = '\x27' ∨ c = '(') := by
  cases a with
  | text content =>
    refine ⟨_, _, canonPythonRepr_text content s, ?_⟩
    rcases pythonQuote_eq content with h | h
    · exact .inl h
    · exact .inr (.inl h)
  | seq items =>
    cases items with
    | nil => exact ⟨_, _, rfl, .inr (.inr rfl)⟩
    | cons item items =>
      cases items with
      | nil => exact ⟨_, _, canonPythonRepr_seq_one item s, .inr (.inr rfl)⟩
      | cons next items =>
        exact ⟨_, _, canonPythonRepr_seq_more item next items s, .inr (.inr rfl)⟩

theorem canonPythonRepr_ne_close (a : Canon) (s t : Text) : canonPythonRepr a ++ s ≠ ')' :: t := by
  intro h
  obtain ⟨c, rest, heq, hc⟩ := canonPythonRepr_head a s
  rw [heq] at h
  obtain ⟨rfl, -⟩ := List.cons.inj h
  revert hc
  decide

theorem pythonQuote_ne_open (content : Text) : pythonQuote content ≠ '(' := by
  rcases pythonQuote_eq content with h | h
  · rw [h]
    decide
  · rw [h]
    decide

mutual

/-- A value ends where its `repr` does. -/
theorem canonPythonRepr_unique : ∀ (a b : Canon) {s t : Text},
    canonPythonRepr a ++ s = canonPythonRepr b ++ t → a = b ∧ s = t
  | .text content, .text content', s, t, h => by
    rw [canonPythonRepr_text, canonPythonRepr_text] at h
    obtain ⟨hquote, hrest⟩ := List.cons.inj h
    rw [← hquote] at hrest
    obtain ⟨rfl, hst⟩ := (readsBack_pythonEscape (pythonQuote_eq content)).unique hrest
    exact ⟨rfl, hst⟩
  | .text content, .seq [], s, t, h => by
    rw [canonPythonRepr_text] at h
    exact absurd (List.cons.inj h).1 (pythonQuote_ne_open content)
  | .text content, .seq [item], s, t, h => by
    rw [canonPythonRepr_text, canonPythonRepr_seq_one] at h
    exact absurd (List.cons.inj h).1 (pythonQuote_ne_open content)
  | .text content, .seq (item :: next :: items), s, t, h => by
    rw [canonPythonRepr_text, canonPythonRepr_seq_more] at h
    exact absurd (List.cons.inj h).1 (pythonQuote_ne_open content)
  | .seq [], .text content, s, t, h => by
    rw [canonPythonRepr_text] at h
    exact absurd (List.cons.inj h).1.symm (pythonQuote_ne_open content)
  | .seq [], .seq [], s, t, h => ⟨rfl, append_cancel_left h⟩
  | .seq [], .seq [item], s, t, h => by
    rw [canonPythonRepr_seq_one] at h
    exact absurd (List.cons.inj h).2.symm (canonPythonRepr_ne_close _ _ _)
  | .seq [], .seq (item :: next :: items), s, t, h => by
    rw [canonPythonRepr_seq_more] at h
    exact absurd (List.cons.inj h).2.symm (canonPythonRepr_ne_close _ _ _)
  | .seq [item], .text content, s, t, h => by
    rw [canonPythonRepr_text, canonPythonRepr_seq_one] at h
    exact absurd (List.cons.inj h).1.symm (pythonQuote_ne_open content)
  | .seq [item], .seq [], s, t, h => by
    rw [canonPythonRepr_seq_one] at h
    exact absurd (List.cons.inj h).2 (canonPythonRepr_ne_close _ _ _)
  | .seq [item], .seq [item'], s, t, h => by
    rw [canonPythonRepr_seq_one, canonPythonRepr_seq_one] at h
    obtain ⟨rfl, hrest⟩ := canonPythonRepr_unique item item' (List.cons.inj h).2
    exact ⟨rfl, (List.cons.inj (List.cons.inj hrest).2).2⟩
  | .seq [item], .seq (item' :: next :: items), s, t, h => by
    rw [canonPythonRepr_seq_one, canonPythonRepr_seq_more] at h
    obtain ⟨-, hrest⟩ := canonPythonRepr_unique item item' (List.cons.inj h).2
    rw [canonPythonReprs_cons] at hrest
    exact absurd (List.cons.inj (List.cons.inj hrest).2).1 (by decide)
  | .seq (item :: next :: items), .text content, s, t, h => by
    rw [canonPythonRepr_text, canonPythonRepr_seq_more] at h
    exact absurd (List.cons.inj h).1.symm (pythonQuote_ne_open content)
  | .seq (item :: next :: items), .seq [], s, t, h => by
    rw [canonPythonRepr_seq_more] at h
    exact absurd (List.cons.inj h).2 (canonPythonRepr_ne_close _ _ _)
  | .seq (item :: next :: items), .seq [item'], s, t, h => by
    rw [canonPythonRepr_seq_one, canonPythonRepr_seq_more] at h
    obtain ⟨-, hrest⟩ := canonPythonRepr_unique item item' (List.cons.inj h).2
    rw [canonPythonReprs_cons] at hrest
    exact absurd (List.cons.inj (List.cons.inj hrest).2).1 (by decide)
  | .seq (item :: next :: items), .seq (item' :: next' :: items'), s, t, h => by
    rw [canonPythonRepr_seq_more, canonPythonRepr_seq_more] at h
    obtain ⟨rfl, hrest⟩ := canonPythonRepr_unique item item' (List.cons.inj h).2
    obtain ⟨heq, hst⟩ := canonPythonReprs_unique (next :: items) (next' :: items') hrest
    exact ⟨by rw [heq], hst⟩

theorem canonPythonReprs_unique : ∀ (as bs : List Canon) {s t : Text},
    canonPythonReprs as ++ ')' :: s = canonPythonReprs bs ++ ')' :: t → as = bs ∧ s = t
  | [], [], _, _, h => ⟨rfl, (List.cons.inj h).2⟩
  | [], b :: bs, _, _, h => by
    rw [canonPythonReprs_cons] at h
    exact absurd (List.cons.inj h).1 (by decide)
  | a :: as, [], _, _, h => by
    rw [canonPythonReprs_cons] at h
    exact absurd (List.cons.inj h).1 (by decide)
  | a :: as, b :: bs, s, t, h => by
    rw [canonPythonReprs_cons, canonPythonReprs_cons] at h
    obtain ⟨rfl, hrest⟩ := canonPythonRepr_unique a b (List.cons.inj (List.cons.inj h).2).2
    obtain ⟨rfl, hst⟩ := canonPythonReprs_unique as bs hrest
    exact ⟨rfl, hst⟩

end

theorem canonPythonRepr_injective : Function.Injective canonPythonRepr := fun a b h =>
  (canonPythonRepr_unique a b (congrArg (· ++ ([] : Text)) h)).1

/-! ## Sorted children -/

/-- Children in any order are sorted to one list. -/
theorem sortByText_eq_iff {as bs : List Canon} :
    sortByText canonPythonRepr as = sortByText canonPythonRepr bs ↔ as.Perm bs := by
  have hperm : ∀ l : List Canon, (sortByText canonPythonRepr l).Perm l := fun l =>
    perm_insertionSort _ l
  constructor
  · intro h
    exact (hperm as).symm.trans (h ▸ hperm bs)
  · intro h
    let r : Canon → Canon → Prop := fun a b => ¬ canonPythonRepr b < canonPythonRepr a
    have : Std.Total r := ⟨fun a b => List.le_total (canonPythonRepr a) (canonPythonRepr b)⟩
    have : IsTrans Canon r := ⟨fun _ _ _ => List.le_trans⟩
    have hanti : ∀ a b, a ∈ sortByText canonPythonRepr as → b ∈ sortByText canonPythonRepr bs →
        r a b → r b a → a = b := fun a b _ _ hab hba =>
      canonPythonRepr_injective (List.le_antisymm hab hba)
    exact ((hperm as).trans (h.trans (hperm bs).symm)).eq_of_pairwise hanti
      (pairwise_insertionSort r as) (pairwise_insertionSort r bs)

end Docx2Typed
