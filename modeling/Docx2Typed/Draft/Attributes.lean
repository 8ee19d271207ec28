import Docx2Typed.Draft.MarkupReading

/-!
# Looking up attributes in the text of a tag

Ids and kinds are read off a tag by searching for `id="` and `kind="`, and a tag is classified by
whether it contains `kind="insert"` and the like.  Quotes are escaped inside a value, so that a
search ends at a quote that opens one, unless a value ends like the name searched for.
-/

namespace Docx2Typed

open Library List

/-! ## Values -/

variable {c : Char}

section Values

variable {name before value after : Text}

theorem afterFirst_skip (hname : '"' ∉ name) (hbefore : '"' ∉ before)
    (hsuffix : ¬ name <:+ before) :
    afterFirst (name ++ ['"']) (before ++ '"' :: after) = afterFirst (name ++ ['"']) after := by
  have hskip : ∀ k, k < (before ++ ['"']).length →
      ¬ name ++ ['"'] <+: (before ++ ['"']).drop k ++ after := by
    rintro k hk ⟨rest, hrest⟩
    rw [length_append, length_singleton] at hk
    rw [drop_append_of_le_length (by omega), append_assoc, append_assoc,
      singleton_append, singleton_append] at hrest
    have hdrop : '"' ∉ before.drop k := fun h => hbefore (mem_of_mem_drop h)
    exact hsuffix ((append_cons_inj hname hdrop hrest).1 ▸ drop_suffix k before)
  have hfind := findSub_skip after hskip
  rw [append_assoc, singleton_append] at hfind
  unfold afterFirst
  rw [hfind]
  cases h : findSub (name ++ ['"']) after with
  | none => rfl
  | some found =>
    have hlength : (before ++ '"' :: after).drop
        (found + (before ++ ['"']).length + (name ++ ['"']).length) =
          after.drop (found + (name ++ ['"']).length) := by
      rw [show before ++ '"' :: after = before ++ ['"'] ++ after by simp,
        show found + (before ++ ['"']).length + (name ++ ['"']).length =
          (before ++ ['"']).length + (found + (name ++ ['"']).length) by omega,
        drop_length_add_append]
    simp only [Option.map_some, Option.bind_eq_bind, Option.bind_some, hlength]

theorem afterFirst_here (hname : '"' ∉ name) (hbefore : '"' ∉ before)
    (hvalue : '"' ∉ value) (hsuffix : ¬ name <:+ value) :
    (afterFirst (name ++ ['"']) (before ++ (name ++ '"' :: (value ++ '"' :: after)))).map
      quotedValue = some value := by
  have hskip : ∀ k, k < before.length →
      ¬ name ++ ['"'] <+: before.drop k ++ (name ++ '"' :: (value ++ '"' :: after)) := by
    rintro k hk ⟨rest, hrest⟩
    rw [append_assoc, singleton_append, ← append_assoc] at hrest
    have hdrop : '"' ∉ before.drop k ++ name := fun h =>
      (mem_append.mp h).elim (fun h => hbefore (mem_of_mem_drop h)) hname
    have hlength := congrArg List.length (append_cons_inj hname hdrop hrest).1
    rw [length_append, length_drop] at hlength
    omega
  have hfind : findSub (name ++ ['"']) (before ++ (name ++ '"' :: (value ++ '"' :: after))) =
      some before.length := by
    rw [findSub_skip _ hskip, findSub_of_isPrefix ⟨value ++ '"' :: after, by simp⟩]
    simp
  have hdrop : (before ++ (name ++ '"' :: (value ++ '"' :: after))).drop
      (before.length + (name ++ ['"']).length) = value ++ '"' :: after := by
    rw [drop_length_add_append, show name ++ '"' :: (value ++ '"' :: after) =
      name ++ ['"'] ++ (value ++ '"' :: after) by simp, drop_left]
  unfold afterFirst
  simp only [hfind, Option.bind_eq_bind, Option.bind_some, hdrop]
  cases hsecond : findSub (name ++ ['"']) (value ++ '"' :: after) with
  | none => exact congrArg some (quotedValue_append hvalue)
  | some found =>
    obtain ⟨⟨rest, hrest⟩, -, -⟩ := findSub_eq_some_iff.mp hsecond
    -- the second hit cannot end at the quote that closes the value
    have hlt : value.length < found := by
      by_contra hle
      rw [drop_append_of_le_length (by omega), append_assoc, singleton_append] at hrest
      have hmem : '"' ∉ value.drop found := fun h => hvalue (mem_of_mem_drop h)
      exact hsuffix ((append_cons_inj hmem hname hrest).1 ▸ drop_suffix found value)
    obtain ⟨more, rfl⟩ : ∃ more, found = value.length + (more + 1) :=
      ⟨found - value.length - 1, by omega⟩
    show some (quotedValue ((value ++ '"' :: after).take (value.length + (more + 1)))) = _
    rw [take_length_add_append, take_succ_cons, quotedValue_append hvalue]

theorem attrValue_skip (hname : '"' ∉ name) (hbefore : '"' ∉ before)
    (hsuffix : ¬ name <:+ before) :
    attrValue (name ++ ['"']) (before ++ '"' :: after) = attrValue (name ++ ['"']) after := by
  unfold attrValue
  rw [afterFirst_skip hname hbefore hsuffix]

theorem attrValue_here (hname : '"' ∉ name) (hbefore : '"' ∉ before)
    (hvalue : '"' ∉ value) (hsuffix : ¬ name <:+ value) :
    attrValue (name ++ ['"']) (before ++ (name ++ '"' :: (value ++ '"' :: after))) = value := by
  unfold attrValue
  rw [afterFirst_here hname hbefore hvalue hsuffix]
  rfl

/-- An id and a kind that no search takes for anything else. -/
def PlainValue (value : Text) : Prop := ∀ c ∈ value, c.isAlphanum = true ∨ c = '-' ∨ c = '_'

theorem PlainValue.notMem (h : PlainValue value) (hc : c.isAlphanum = false) (hdash : c ≠ '-')
    (hline : c ≠ '_') : c ∉ value := fun hmem => by
  rcases h c hmem with h | h | h
  · rw [hc] at h
    cases h
  · exact hdash h
  · exact hline h

theorem PlainValue.not_suffix (h : PlainValue value) {name : Text} : ¬ name ++ ['='] <:+ value :=
  fun hsuffix => h.notMem (by decide) (by decide) (by decide)
    (hsuffix.subset (mem_append_right _ (mem_singleton_self '=')))

theorem PlainValue.escaped : ∀ {value : Text}, PlainValue value →
    value.flatMap escapeAttrChar = value
  | [], _ => rfl
  | c :: value, h => by
    have hrest : PlainValue value := fun d hd => h d (mem_cons_of_mem _ hd)
    have hc : ∀ d : Char, d.isAlphanum = false → d ≠ '-' → d ≠ '_' → c ≠ d :=
      fun d hd hdash hline hcd => h.notMem hd hdash hline (hcd ▸ mem_cons_self)
    rw [flatMap_cons, hrest.escaped, escapeAttrChar,
      if_neg (hc _ (by decide) (by decide) (by decide)),
      if_neg (hc _ (by decide) (by decide) (by decide)),
      if_neg (hc _ (by decide) (by decide) (by decide)),
      if_neg (hc _ (by decide) (by decide) (by decide)), singleton_append]

theorem projectionAttrValue_plain (h : PlainValue value) :
    projectionAttrValue value = '"' :: (value ++ ['"']) := by
  unfold projectionAttrValue
  rw [h.escaped, singleton_append, cons_append]

end Values

/-! ## Id and kind of an element -/

section Element

variable {id kind after : Text}

theorem idAndKind_append (after : Text) :
    idAndKind id kind ++ after = " id=".toList ++ '"' :: (id ++ '"' ::
      (" kind=".toList ++ '"' :: (kind ++ '"' :: after))) := by
  unfold idAndKind
  rw [show " id=\"".toList = " id=".toList ++ ['"'] from rfl,
    show "\" kind=\"".toList = '"' :: (" kind=".toList ++ ['"']) from rfl]
  simp only [append_assoc, cons_append, nil_append]

/-- The id of an element whose name is plain. -/
theorem attrValue_id {before : Text} (hbefore : '"' ∉ before) (hid : PlainValue id) :
    attrValue "id=\"".toList (before ++ (idAndKind id kind ++ after)) = id := by
  rw [idAndKind_append, show " id=".toList = [' '] ++ "id=".toList from rfl, append_assoc,
    ← append_assoc before]
  have hname : '"' ∉ before ++ [' '] := fun h =>
    (mem_append.mp h).elim hbefore (by decide)
  exact @attrValue_here "id=".toList _ _ _ (by decide) hname (hid.notMem (by decide) (by decide) (by decide))
    (@PlainValue.not_suffix _ hid "id".toList)

/-- Its kind. -/
theorem attrValue_kind {before : Text} (hbefore : '"' ∉ before) (hid : PlainValue id)
    (hkind : PlainValue kind) :
    attrValue "kind=\"".toList (before ++ (idAndKind id kind ++ after)) = kind := by
  rw [idAndKind_append, ← append_assoc]
  have hname : '"' ∉ before ++ " id=".toList := fun h =>
    (mem_append.mp h).elim hbefore (by decide)
  refine (@attrValue_skip "kind=".toList _ _ (by decide) hname ?_).trans ?_
  · rintro ⟨rest, hrest⟩
    have hlast := congrArg (fun text : Text => text.reverse.take 3) hrest
    simp only [reverse_append] at hlast
    change "=dn".toList = "=di".toList at hlast
    exact absurd hlast (by decide)
  refine (@attrValue_skip "kind=".toList _ _ (by decide)
    (hid.notMem (by decide) (by decide) (by decide)) (@PlainValue.not_suffix _ hid "kind".toList)).trans ?_
  exact @attrValue_here "kind=".toList [' '] _ _ (by decide) (by decide) (hkind.notMem (by decide) (by decide) (by decide))
    (@PlainValue.not_suffix _ hkind "kind".toList)

end Element

/-! ## Copied attributes -/

theorem splitOnce_eq_some {sep : Char} {text key value : Text}
    (h : splitOnce sep text = some (key, value)) : text = key ++ sep :: value := by
  unfold splitOnce at h
  split_ifs at h with hmem
  rw [Option.some.injEq, Prod.mk.injEq] at h
  obtain ⟨after, htext, hdrop⟩ := eq_takeWhile_append hmem
  obtain ⟨rfl, rfl⟩ := h
  rw [hdrop, drop_one, tail_cons]
  exact htext

theorem splitOnce_append {sep : Char} {key value : Text} (h : sep ∉ key) :
    splitOnce sep (key ++ sep :: value) = some (key, value) := by
  unfold splitOnce
  rw [if_pos (mem_append_right _ mem_cons_self), takeWhile_ne_append h,
    dropWhile_ne_append h, drop_one, tail_cons]

theorem infix_joinSpaced {text : Text} : ∀ {texts : List Text}, text ∈ texts →
    text <:+: joinSpaced texts
  | [only], h => by
    rw [mem_singleton.mp h, joinSpaced, intercalate_singleton]
  | first :: next :: rest, h => by
    unfold joinSpaced
    rw [intercalate_cons_cons]
    rcases mem_cons.mp h with rfl | h
    · exact (List.prefix_append _ _).isInfix.trans (List.prefix_append _ _).isInfix
    · exact (infix_joinSpaced h).trans (suffix_append _ _).isInfix

theorem infix_of_mem_splitOn {text pair : Text} (h : pair ∈ text.splitOn ' ') : pair <:+: text := by
  have hinside := infix_joinSpaced h
  unfold joinSpaced at hinside
  rwa [intercalate_splitOn] at hinside

/-- What is copied of one pair. -/
def copiedPair (skipped : List Text) (pair : Text) : Text :=
  match splitOnce '=' pair with
  | some (key, value) => if skipped.contains key then [] else [' '] ++ key ++ ['='] ++ value
  | none => []

theorem copiedAttrs_eq (skipped : List Text) (attrs : Text) :
    copiedAttrs skipped attrs = (attrs.splitOn ' ').flatMap (copiedPair skipped) := rfl

theorem copiedPair_cases (skipped : List Text) (pair : Text) :
    copiedPair skipped pair = [] ∨ copiedPair skipped pair = ' ' :: pair := by
  unfold copiedPair
  cases h : splitOnce '=' pair with
  | none => exact .inl rfl
  | some parts =>
    obtain ⟨key, value⟩ := parts
    dsimp only
    split_ifs
    · exact .inl rfl
    · refine .inr ?_
      rw [splitOnce_eq_some h]
      simp

variable {skipped : List Text}

theorem mem_copiedAttrs {attrs : Text} (h : c ∈ copiedAttrs skipped attrs) :
    c = ' ' ∨ c ∈ attrs := by
  rw [copiedAttrs_eq] at h
  obtain ⟨pair, hpair, hc⟩ := mem_flatMap.mp h
  rcases copiedPair_cases skipped pair with hcopied | hcopied
  · rw [hcopied] at hc
    cases hc
  · rw [hcopied, mem_cons] at hc
    exact hc.imp_right fun hmem => (infix_of_mem_splitOn hpair).subset hmem

/-! ## What a tag says -/

theorem containsText_iff {needle text : Text} : containsText needle text = true ↔ needle <:+: text := by
  unfold containsText
  rw [Option.isSome_iff_ne_none, Ne, findSub_eq_none_iff, not_not]

/-- The text says `kind="value"`, in whatever case. -/
def SaysKind (value : String) (text : Text) : Prop :=
  "kind=\"".toList ++ value.toList ++ ['"'] <:+: text.map Char.toLower

instance (value : String) (text : Text) : Decidable (SaysKind value text) :=
  inferInstanceAs (Decidable (_ <:+: _))

variable {value : String}

theorem SaysKind.mono {text text' : Text} (h : SaysKind value text) (hinside : text <:+: text') :
    SaysKind value text' := by
  obtain ⟨before, after, rfl⟩ := hinside
  unfold SaysKind at h ⊢
  rw [map_append, map_append]
  exact h.trans ((suffix_append _ _).isInfix.trans (List.prefix_append _ _).isInfix)

/-- The kinds a tag is asked for. -/
def IsAskedKind (value : String) : Prop :=
  (value.toList.all fun c => c != ' ' && c != '/' && c != '>') = true

theorem notMem_kindNeedle (hvalue : IsAskedKind value) (hc : c = ' ' ∨ c = '/' ∨ c = '>') :
    c ∉ "kind=\"".toList ++ value.toList ++ ['"'] := by
  intro hmem
  rcases mem_append.mp hmem with hmem | hmem
  · rcases mem_append.mp hmem with hmem | hmem
    · rcases hc with rfl | rfl | rfl <;> exact absurd hmem (by decide)
    · have hchar := all_eq_true.mp hvalue c hmem
      rcases hc with rfl | rfl | rfl <;> exact absurd hchar (by decide)
  · rcases hc with rfl | rfl | rfl <;> exact absurd hmem (by decide)

/-- A kind is said on one side of a blank or a bracket. -/
theorem saysKind_append_cons (hvalue : IsAskedKind value) (hc : c = ' ' ∨ c = '/' ∨ c = '>')
    {left right : Text} :
    SaysKind value (left ++ c :: right) ↔ SaysKind value left ∨ SaysKind value right := by
  have hlower : c.toLower = c := by rcases hc with rfl | rfl | rfl <;> rfl
  unfold SaysKind
  rw [map_append, map_cons, hlower]
  exact infix_append_cons (notMem_kindNeedle hvalue hc)

theorem not_saysKind_nil : ¬ SaysKind value [] := fun h => by
  have := h.length_le
  simp at this

/-- What is appended is nothing, or starts with a blank. -/
def StartsBlank (text : Text) : Prop := text = [] ∨ ∃ more, text = ' ' :: more

theorem flatMap_copiedPair_cases : ∀ pairs : List Text,
    StartsBlank (pairs.flatMap (copiedPair skipped))
  | [] => .inl rfl
  | pair :: rest => by
    rw [flatMap_cons]
    rcases copiedPair_cases skipped pair with hcopied | hcopied
    · rw [hcopied, nil_append]
      exact flatMap_copiedPair_cases rest
    · exact .inr ⟨_, by rw [hcopied, cons_append]⟩

theorem saysKind_append_blank (hvalue : IsAskedKind value) {left right : Text}
    (hright : StartsBlank right) (h : SaysKind value (left ++ right)) :
    SaysKind value left ∨ SaysKind value right := by
  rcases hright with rfl | ⟨more, rfl⟩
  · rw [append_nil] at h
    exact .inl h
  · exact ((saysKind_append_cons hvalue (.inl rfl)).mp h).imp_right
      (·.mono (suffix_cons _ _).isInfix)

theorem toLower_eq_quote (h : c.toLower = '"') : c = '"' := by
  unfold Char.toLower at h
  split at h
  · rename_i hupper
    have hlow : 65 ≤ c.val.toNat := hupper.1
    have hhigh : c.val.toNat ≤ 90 := hupper.2
    have hval : (c.val + ('a'.val - 'A'.val)).toNat = 34 := congrArg (fun d : Char => d.val.toNat) h
    rw [UInt32.toNat_add, show ('a'.val - 'A'.val).toNat = 32 from rfl] at hval
    omega
  · exact h

/-- Under another name nothing is said. -/
theorem not_saysKind_named {name text : Text} (hname : '"' ∉ name)
    (hlower : name.map Char.toLower = name) (hsuffix : ¬ "kind=".toList <:+ name)
    (htext : '"' ∉ text) : ¬ SaysKind value (name ++ '"' :: (text ++ ['"'])) := by
  intro h
  unfold SaysKind at h
  rw [map_append, hlower, map_cons, map_append,
    show "kind=\"".toList = "kind=".toList ++ ['"'] from rfl, append_assoc,
    append_assoc] at h
  refine hsuffix (suffix_of_infix_append_cons (by decide)
    (mem_append_right _ (mem_singleton_self _)) hname (fun hmem => ?_) h)
  obtain ⟨c, hc, hquote⟩ := mem_map.mp hmem
  exact htext (toLower_eq_quote hquote ▸ hc)

theorem saysKind_flatMap_copiedPair (hvalue : IsAskedKind value) : ∀ {pairs : List Text},
    SaysKind value (pairs.flatMap (copiedPair skipped)) → ∃ pair ∈ pairs, SaysKind value pair
  | [], h => absurd h not_saysKind_nil
  | pair :: rest, h => by
    rw [flatMap_cons] at h
    have hrest : SaysKind value (rest.flatMap (copiedPair skipped)) →
        ∃ other ∈ pair :: rest, SaysKind value other := fun h => by
      obtain ⟨other, hmem, hsaid⟩ := saysKind_flatMap_copiedPair hvalue h
      exact ⟨other, mem_cons_of_mem _ hmem, hsaid⟩
    rcases copiedPair_cases skipped pair with hcopied | hcopied
    · rw [hcopied, nil_append] at h
      exact hrest h
    · rw [hcopied, cons_append, ← nil_append (' ' :: (pair ++ _)),
        saysKind_append_cons hvalue (.inl rfl)] at h
      rcases h with h | h
      · exact absurd h not_saysKind_nil
      rcases saysKind_append_blank hvalue (flatMap_copiedPair_cases rest) h with h | h
      · exact ⟨pair, mem_cons_self, h⟩
      · exact hrest h

/-- The copy says no more than what is copied. -/
theorem SaysKind.of_copiedAttrs (hvalue : IsAskedKind value) {attrs : Text}
    (h : SaysKind value (copiedAttrs skipped attrs)) : SaysKind value attrs := by
  rw [copiedAttrs_eq] at h
  obtain ⟨pair, hpair, hsaid⟩ := saysKind_flatMap_copiedPair hvalue h
  exact hsaid.mono (infix_of_mem_splitOn hpair)

end Docx2Typed
