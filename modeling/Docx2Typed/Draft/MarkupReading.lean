import Mathlib.Tactic.IntervalCases
import Docx2Typed.Draft.Markup
import Docx2Typed.Draft.ReadBack

/-!
# Reading markup that a writer has produced

Both spellings of a paragraph that `typed_body_visible_text` reads come out of a writer as prose
with the three XML entities, vertical tags, and elements.  On such markup the reader does what it
is meant to do: it follows the elements with its stack and gives back the prose in between.
-/

namespace Docx2Typed

open Library (findSub findSub_of_isPrefix findSub_skip eq_takeWhile_append takeWhile_ne_append
  dropWhile_ne_append)
open List

/-! ## The entities -/

section Replace

variable {old : Text} {ch : Char} {g : Char → Text}

/-- A spelling of characters of which `old`, for `ch`, is the only one that starts like `old`. -/
structure SpelledApart (old : Text) (ch : Char) (g : Char → Text) : Prop where
  nonempty : old ≠ []
  spelled : g ch = old
  apart : ∀ c, c ≠ ch → g c ≠ [] ∧ ∀ (k : Nat) (rest : Text), k < (g c).length →
    ¬ old <+: (g c).drop k ++ rest

theorem SpelledApart.findSub_append (h : SpelledApart old ch g) (rest : Text) :
    ∀ {text : Text}, ch ∉ text →
      findSub old (text.flatMap g ++ rest) =
        (findSub old rest).map (· + (text.flatMap g).length)
  | [], _ => by simp
  | c :: text, hch => by
    obtain ⟨hne, hmem⟩ := not_or.mp (mt mem_cons.mpr hch)
    rw [flatMap_cons, append_assoc,
      findSub_skip _ fun k hk => (h.apart c (Ne.symm hne)).2 k _ hk,
      h.findSub_append rest hmem, Option.map_map]
    congr 1
    funext n
    show n + (text.flatMap g).length + (g c).length = n + (g c ++ text.flatMap g).length
    rw [length_append]
    omega

/-- With the spelling undone at `ch`. -/
def spelledOnce (ch : Char) (g : Char → Text) (c : Char) : Text := if c = ch then [ch] else g c

theorem flatMap_spelledOnce : ∀ {text : Text}, ch ∉ text →
    text.flatMap (spelledOnce ch g) = text.flatMap g
  | [], _ => rfl
  | c :: text, hch => by
    obtain ⟨hne, hmem⟩ := not_or.mp (mt mem_cons.mpr hch)
    rw [flatMap_cons, flatMap_cons, spelledOnce, if_neg (Ne.symm hne),
      flatMap_spelledOnce hmem]

theorem SpelledApart.replaceFrom_flatMap (h : SpelledApart old ch g) :
    ∀ (fuel : Nat) (text : Text), text.length ≤ fuel →
      replaceFrom old [ch] fuel (text.flatMap g) = text.flatMap (spelledOnce ch g)
  | 0, text, hfuel => by
    rw [length_eq_zero_iff.mp (Nat.le_zero.mp hfuel)]
    rfl
  | fuel + 1, text, hfuel => by
    have hnil : findSub old [] = none := by
      show (if old = [] then some 0 else none) = none
      rw [if_neg h.nonempty]
    unfold replaceFrom
    by_cases hch : ch ∈ text
    · obtain ⟨after, htext, -⟩ := eq_takeWhile_append hch
      have hbefore : ch ∉ text.takeWhile (· ≠ ch) := fun hmem => by
        simpa using mem_takeWhile_imp hmem
      generalize text.takeWhile (· ≠ ch) = before at htext hbefore
      have hfound : findSub old (text.flatMap g) = some (before.flatMap g).length := by
        rw [htext, flatMap_append, h.findSub_append _ hbefore, flatMap_cons, h.spelled,
          findSub_of_isPrefix (List.prefix_append _ _)]
        simp
      have hafter : after.length ≤ fuel := by
        rw [htext, length_append, length_cons] at hfuel
        omega
      rw [hfound]
      dsimp only
      rw [htext, flatMap_append, flatMap_cons, h.spelled, take_left,
        ← append_assoc (before.flatMap g), ← length_append, drop_left,
        h.replaceFrom_flatMap fuel after hafter, flatMap_append, flatMap_cons,
        flatMap_spelledOnce hbefore, append_assoc, spelledOnce, if_pos rfl]
    · have hnone : findSub old (text.flatMap g) = none := by
        have := h.findSub_append [] hch
        rw [append_nil, hnil] at this
        exact this
      rw [hnone, flatMap_spelledOnce hch]

theorem SpelledApart.replaceText_flatMap (h : SpelledApart old ch g) (text : Text) :
    replaceText old [ch] (text.flatMap g) = text.flatMap (spelledOnce ch g) := by
  refine h.replaceFrom_flatMap _ text ?_
  induction text with
  | nil => exact Nat.zero_le _
  | cons c text ih =>
    have hpos : 0 < (g c).length := by
      by_cases hc : c = ch
      · rw [hc, h.spelled]
        exact length_pos_of_ne_nil h.nonempty
      · exact length_pos_of_ne_nil (h.apart c hc).1
    rw [flatMap_cons, length_append, length_cons]
    omega

end Replace

/-- No entity but `old` itself starts like it, and no other character does. -/
theorem not_prefix_entity {old : Text} {c : Char} (hc : c ≠ '&') (h : old.head? = some '&') :
    ∀ (k : Nat) (rest : Text), k < [c].length → ¬ old <+: [c].drop k ++ rest := by
  intro k rest hk hprefix
  obtain rfl : k = 0 := Nat.lt_one_iff.mp hk
  obtain ⟨tail, htail⟩ := hprefix
  cases old with
  | nil => cases h
  | cons a old =>
    rw [head?_cons, Option.some.injEq] at h
    rw [cons_append, drop_zero, singleton_append, List.cons.injEq] at htail
    exact hc (htail.1 ▸ h)

theorem spelledApart_lt : SpelledApart "&lt;".toList '<' escapeChar where
  nonempty := by decide
  spelled := rfl
  apart c hc := by
    rcases escapeChar_cases c with ⟨rfl, h⟩ | ⟨rfl, h⟩ | ⟨rfl, h⟩ | ⟨hamp, -, -, h⟩
    · refine ⟨by decide, fun k rest hk => ?_⟩
      rw [h] at hk ⊢
      change k < 5 at hk
      interval_cases k <;> simp
    · exact absurd rfl hc
    · refine ⟨by decide, fun k rest hk => ?_⟩
      rw [h] at hk ⊢
      change k < 4 at hk
      interval_cases k <;> simp
    · rw [h]
      exact ⟨cons_ne_nil _ _, not_prefix_entity hamp rfl⟩

theorem spelledApart_gt : SpelledApart "&gt;".toList '>' (spelledOnce '<' escapeChar) where
  nonempty := by decide
  spelled := rfl
  apart c hc := by
    unfold spelledOnce
    rcases escapeChar_cases c with ⟨rfl, h⟩ | ⟨rfl, h⟩ | ⟨rfl, h⟩ | ⟨hamp, hlt, -, h⟩
    · refine ⟨by decide, fun k rest hk => ?_⟩
      rw [if_neg (by decide), h] at hk ⊢
      change k < 5 at hk
      interval_cases k <;> simp
    · rw [if_pos rfl]
      exact ⟨cons_ne_nil _ _, not_prefix_entity (by decide) rfl⟩
    · exact absurd rfl hc
    · rw [if_neg hlt, h]
      exact ⟨cons_ne_nil _ _, not_prefix_entity hamp rfl⟩

theorem spelledApart_amp :
    SpelledApart "&amp;".toList '&' (spelledOnce '>' (spelledOnce '<' escapeChar)) where
  nonempty := by decide
  spelled := rfl
  apart c hc := by
    unfold spelledOnce
    rcases escapeChar_cases c with ⟨rfl, h⟩ | ⟨rfl, h⟩ | ⟨rfl, h⟩ | ⟨hamp, hlt, hgt, h⟩
    · exact absurd rfl hc
    · exact ⟨cons_ne_nil _ _, not_prefix_entity (by decide) rfl⟩
    · exact ⟨cons_ne_nil _ _, not_prefix_entity (by decide) rfl⟩
    · rw [if_neg hgt, if_neg hlt, h]
      exact ⟨cons_ne_nil _ _, not_prefix_entity hamp rfl⟩

/-- What the reader does to the entities at its end. -/
def decodeEntities (text : Text) : Text :=
  replaceText "&amp;".toList ['&'] (replaceText "&gt;".toList ['>']
    (replaceText "&lt;".toList ['<'] text))

theorem decodeEntities_xmlEscape (text : Text) : decodeEntities (xmlEscape text) = text := by
  have hplain : ∀ c, spelledOnce '&' (spelledOnce '>' (spelledOnce '<' escapeChar)) c = [c] := by
    intro c
    unfold spelledOnce
    rcases escapeChar_cases c with ⟨rfl, -⟩ | ⟨rfl, -⟩ | ⟨rfl, -⟩ | ⟨hamp, hlt, hgt, h⟩
    · rfl
    · rfl
    · rfl
    · rw [if_neg hamp, if_neg hgt, if_neg hlt, h]
  unfold decodeEntities xmlEscape
  rw [spelledApart_lt.replaceText_flatMap, spelledApart_gt.replaceText_flatMap,
    spelledApart_amp.replaceText_flatMap, funext hplain]
  exact flatMap_singleton' text

theorem xmlEscape_append (left right : Text) :
    xmlEscape (left ++ right) = xmlEscape left ++ xmlEscape right := flatMap_append

theorem lt_notMem_xmlEscape {text : Text} : '<' ∉ xmlEscape text := by
  intro hmem
  obtain ⟨c, -, hc⟩ := mem_flatMap.mp hmem
  exact lt_notMem_escapeChar c hc

/-! ## Prose without vertical tags -/

/-- No character and the one behind it open a vertical tag. -/
def NoOpening (text : Text) : Prop :=
  text.IsChain fun a b => ¬ (isVerticalMarker a = true ∧ b = '{')

instance (text : Text) : Decidable (NoOpening text) := inferInstanceAs (Decidable (List.IsChain _ _))

theorem noOpening_cons {c : Char} {text : Text} :
    NoOpening (c :: text) ↔
      ¬ (isVerticalMarker c = true ∧ text.head? = some '{') ∧ NoOpening text := by
  cases text with
  | nil => simp [NoOpening]
  | cons d text => simp [NoOpening, isChain_cons_cons]

/-- The head of what follows is all that counts of it. -/
theorem noOpening_append_take {text after : Text} :
    NoOpening (text ++ after.take 1) ↔ NoOpening text ∧
      (∀ c ∈ text.getLast?, ¬ (isVerticalMarker c = true ∧ after.head? = some '{')) := by
  unfold NoOpening
  rw [isChain_append]
  cases after with
  | nil => simp
  | cons d after => simp

theorem noOpening_append_of_head {text after after' : Text} (h : NoOpening (text ++ after'.take 1))
    (hhead : after.head? = some '{' → after'.head? = some '{') :
    NoOpening (text ++ after.take 1) := by
  rw [noOpening_append_take] at h ⊢
  exact ⟨h.1, fun c hc hopen => h.2 c hc ⟨hopen.1, hhead hopen.2⟩⟩

/-- The entities open nothing. -/
theorem noOpening_xmlEscape : ∀ {text after : Text}, NoOpening (text ++ after) →
    NoOpening (xmlEscape text ++ after)
  | [], _, h => h
  | c :: text, after, h => by
    obtain ⟨hc, hrest⟩ := noOpening_cons.mp h
    have ih := noOpening_xmlEscape hrest
    show NoOpening (escapeChar c ++ xmlEscape text ++ after)
    rw [append_assoc]
    have hentity : ∀ {word : Text}, (word.all fun d => !isVerticalMarker d) = true →
        NoOpening (word ++ (xmlEscape text ++ after)) := by
      intro word hword
      induction word with
      | nil => exact ih
      | cons d word ihw =>
        rw [all_cons, Bool.and_eq_true, Bool.not_eq_true'] at hword
        exact noOpening_cons.mpr ⟨fun hd => by simp [hword.1] at hd, ihw hword.2⟩
    rcases escapeChar_cases c with ⟨rfl, hword⟩ | ⟨rfl, hword⟩ | ⟨rfl, hword⟩ | ⟨-, -, -, hword⟩
    · exact hentity (by decide)
    · exact hentity (by decide)
    · exact hentity (by decide)
    · rw [hword]
      refine noOpening_cons.mpr ⟨fun ⟨hmarker, hhead⟩ => hc ⟨hmarker, ?_⟩, ih⟩
      cases text with
      | nil => exact hhead
      | cons d text =>
        change (escapeChar d ++ xmlEscape text ++ after).head? = some '{' at hhead
        rw [append_assoc] at hhead
        rcases escapeChar_cases d with ⟨rfl, hd⟩ | ⟨rfl, hd⟩ | ⟨rfl, hd⟩ | ⟨-, -, -, hd⟩
        · rw [hd] at hhead
          cases hhead
        · rw [hd] at hhead
          cases hhead
        · rw [hd] at hhead
          cases hhead
        · rw [hd] at hhead
          exact hhead

/-! ## Items -/

/-- What such markup is made of. -/
inductive MarkupItem where
  | prose (text : Text)
  | vertical (marker : Char) (text : Text)
  | tag (inner : Text)

/-- A tag with the text between its brackets. -/
def tagText (inner : Text) : Text := '<' :: inner ++ ['>']

def MarkupItem.render : MarkupItem → Text
  | .prose text => xmlEscape text
  | .vertical marker text => marker :: '{' :: (xmlEscape text ++ ['}'])
  | .tag inner => tagText inner

def renderItems (items : List MarkupItem) : Text := items.flatMap MarkupItem.render

@[simp] theorem renderItems_nil : renderItems [] = [] := rfl

@[simp] theorem renderItems_cons (item : MarkupItem) (rest : List MarkupItem) :
    renderItems (item :: rest) = item.render ++ renderItems rest := rfl

@[simp] theorem renderItems_append (left right : List MarkupItem) :
    renderItems (left ++ right) = renderItems left ++ renderItems right := flatMap_append

/-- The text the items show, with the elements open in front of them. -/
def readItems : List Passing → List MarkupItem → Text
  | _, [] => []
  | stack, .prose text :: rest =>
    (if stack.contains .skip then [] else text) ++ readItems stack rest
  | stack, .vertical _ text :: rest =>
    (if stack.contains .skip then [] else text) ++ readItems stack rest
  | stack, .tag inner :: rest =>
    (readTag stack (tagText inner)).2 ++ readItems (readTag stack (tagText inner)).1 rest

/-- Items that are read as they are meant: prose that is shown opens no vertical tag, the text of a
vertical tag holds no brace, and a tag ends where it ends and shows no entity. -/
def ReadsClean : List Passing → List MarkupItem → Prop
  | _, [] => True
  | stack, .prose text :: rest =>
    (stack.contains .skip = false → NoOpening (text ++ (renderItems rest).take 1)) ∧
      ReadsClean stack rest
  | stack, .vertical marker text :: rest =>
    isVerticalMarker marker = true ∧
      (stack.contains .skip = false → '{' ∉ text ∧ '}' ∉ text) ∧ ReadsClean stack rest
  | stack, .tag inner :: rest =>
    '>' ∉ inner ∧
      xmlEscape (readTag stack (tagText inner)).2 = (readTag stack (tagText inner)).2 ∧
      ReadsClean (readTag stack (tagText inner)).1 rest

/-! ## The reader -/

section Reader

variable {stack : List Passing}

/-- A run of characters that open neither an element nor a vertical tag. -/
theorem visibleTextFrom_run (after : Text) : ∀ {word : Text} {fuel : Nat}, '<' ∉ word →
    (stack.contains .skip = false → NoOpening (word ++ after.take 1)) →
    (word ++ after).length ≤ fuel → ∃ fuel', after.length ≤ fuel' ∧
      visibleTextFrom fuel stack (word ++ after) =
        (if stack.contains .skip then [] else word) ++ visibleTextFrom fuel' stack after
  | [], fuel, _, _, hfuel => ⟨fuel, hfuel, by simp⟩
  | c :: word, 0, _, _, hfuel => absurd hfuel (by simp)
  | c :: word, fuel + 1, hlt, hopen, hfuel => by
    obtain ⟨hne, hmem⟩ := not_or.mp (mt mem_cons.mpr hlt)
    obtain ⟨fuel', hle, ih⟩ := @visibleTextFrom_run after word fuel hmem
      (fun hskip => (noOpening_cons.mp (hopen hskip)).2) (by simpa using hfuel)
    refine ⟨fuel', hle, ?_⟩
    rw [cons_append, visibleTextFrom, if_neg (Ne.symm hne), ih]
    by_cases hskip : stack.contains .skip = true
    · rw [if_pos hskip, if_pos hskip, if_pos hskip]
    · rw [Bool.not_eq_true] at hskip
      have hc := (noOpening_cons.mp (hopen hskip)).1
      have hhead : (word ++ after).head? = (word ++ after.take 1).head? := by
        cases word with
        | nil => cases after <;> rfl
        | cons d word => rfl
      simp only [hskip, Bool.false_eq_true, if_false]
      rw [if_neg]
      · rfl
      · rintro ⟨hmarker, hbrace⟩
        refine hc ⟨?_, hhead ▸ hbrace⟩
        unfold isVerticalMarker
        rcases hmarker with rfl | rfl <;> decide

theorem readVerticalInner_run (after : Text) : ∀ {word : Text}, '{' ∉ word → '}' ∉ word →
    readVerticalInner 1 (word ++ '}' :: after) = (word, after)
  | [], _, _ => by
    rw [nil_append, readVerticalInner]
    cases after <;> rfl
  | c :: word, hopen, hclose => by
    obtain ⟨hopen', hopen⟩ := not_or.mp (mt mem_cons.mpr hopen)
    obtain ⟨hclose', hclose⟩ := not_or.mp (mt mem_cons.mpr hclose)
    rw [cons_append, readVerticalInner, readVerticalInner_run after hopen hclose]
    · exact fun h => hopen' h.symm
    · exact fun h => hclose' h.symm

theorem brace_mem_xmlEscape {brace : Char} (hbrace : brace = '{' ∨ brace = '}') {text : Text} :
    brace ∈ xmlEscape text ↔ brace ∈ text := by
  unfold xmlEscape
  rw [mem_flatMap]
  constructor
  · rintro ⟨c, hc, hmem⟩
    rcases escapeChar_cases c with ⟨rfl, h⟩ | ⟨rfl, h⟩ | ⟨rfl, h⟩ | ⟨-, -, -, h⟩
    · rcases hbrace with rfl | rfl <;> exact absurd hmem (by decide)
    · rcases hbrace with rfl | rfl <;> exact absurd hmem (by decide)
    · rcases hbrace with rfl | rfl <;> exact absurd hmem (by decide)
    · rw [h, mem_singleton] at hmem
      exact hmem ▸ hc
  · intro hmem
    refine ⟨brace, hmem, ?_⟩
    rcases hbrace with rfl | rfl <;> decide

theorem visibleTextFrom_vertical (after : Text) {marker : Char} {text : Text} {fuel : Nat}
    (hmarker : isVerticalMarker marker = true)
    (htext : stack.contains .skip = false → '{' ∉ text ∧ '}' ∉ text)
    (hfuel : ((MarkupItem.vertical marker text).render ++ after).length ≤ fuel) :
    ∃ fuel', after.length ≤ fuel' ∧
      visibleTextFrom fuel stack ((MarkupItem.vertical marker text).render ++ after) =
        (if stack.contains .skip then [] else xmlEscape text) ++ visibleTextFrom fuel' stack after := by
  have hchar : marker = '^' ∨ marker = '_' := by
    unfold isVerticalMarker at hmarker
    simpa using hmarker
  by_cases hskip : stack.contains .skip = true
  · have hword : '<' ∉ (MarkupItem.vertical marker text).render := by
      unfold MarkupItem.render
      rcases hchar with rfl | rfl <;> simp [lt_notMem_xmlEscape]
    obtain ⟨fuel', hle, h⟩ := @visibleTextFrom_run stack after _ fuel hword
      (fun h => absurd hskip (by rw [h]; decide)) hfuel
    refine ⟨fuel', hle, ?_⟩
    rw [h, if_pos hskip, if_pos hskip]
  · rw [Bool.not_eq_true] at hskip
    obtain ⟨hopen, hclose⟩ := htext hskip
    cases fuel with
    | zero => exact absurd hfuel (by simp [MarkupItem.render])
    | succ fuel =>
      refine ⟨fuel, ?_, ?_⟩
      · simp only [MarkupItem.render, cons_append, length_cons, length_append] at hfuel
        omega
      · have hlt : marker ≠ '<' := by rcases hchar with rfl | rfl <;> decide
        simp only [MarkupItem.render, cons_append, append_assoc, nil_append]
        rw [visibleTextFrom, if_neg hlt, if_neg (by rw [hskip]; decide),
          if_pos ⟨hchar, head?_cons⟩, drop_one, tail_cons,
          readVerticalInner_run after (mt (brace_mem_xmlEscape (.inl rfl)).mp hopen)
            (mt (brace_mem_xmlEscape (.inr rfl)).mp hclose), if_neg (by rw [hskip]; decide)]

theorem visibleTextFrom_tag (after : Text) {inner : Text} {fuel : Nat} (hinner : '>' ∉ inner)
    (hfuel : (tagText inner ++ after).length ≤ fuel) :
    ∃ fuel', after.length ≤ fuel' ∧
      visibleTextFrom fuel stack (tagText inner ++ after) =
        (readTag stack (tagText inner)).2 ++
          visibleTextFrom fuel' (readTag stack (tagText inner)).1 after := by
  cases fuel with
  | zero => exact absurd hfuel (by simp [tagText])
  | succ fuel =>
    refine ⟨fuel, ?_, ?_⟩
    · simp only [tagText, cons_append, length_cons, length_append] at hfuel
      omega
    · have hclose : '>' ∈ inner ++ '>' :: after := mem_append_right _ mem_cons_self
      simp only [tagText, cons_append, append_assoc, nil_append]
      rw [visibleTextFrom, if_pos rfl, if_neg (not_not_intro hclose), takeWhile_ne_append hinner,
        dropWhile_ne_append hinner, drop_one, tail_cons]
      rfl

/-- The reader gives back the text of the items, with its entities. -/
theorem visibleTextFrom_renderItems : ∀ {items : List MarkupItem} {stack : List Passing}
    {fuel : Nat}, ReadsClean stack items → (renderItems items).length ≤ fuel →
      visibleTextFrom fuel stack (renderItems items) = xmlEscape (readItems stack items)
  | [], stack, fuel, _, _ => by cases fuel <;> rfl
  | .prose text :: rest, stack, fuel, ⟨hopen, hrest⟩, hfuel => by
    obtain ⟨fuel', hle, h⟩ := @visibleTextFrom_run stack (renderItems rest) (xmlEscape text) fuel
      lt_notMem_xmlEscape (fun hskip => noOpening_xmlEscape (hopen hskip)) hfuel
    show visibleTextFrom fuel stack (xmlEscape text ++ renderItems rest) = _
    rw [h, visibleTextFrom_renderItems hrest hle, readItems]
    split
    · rfl
    · exact flatMap_append.symm
  | .vertical marker text :: rest, stack, fuel, ⟨hmarker, htext, hrest⟩, hfuel => by
    obtain ⟨fuel', hle, h⟩ := visibleTextFrom_vertical (renderItems rest) hmarker htext hfuel
    rw [renderItems_cons, h, visibleTextFrom_renderItems hrest hle, readItems]
    split
    · rfl
    · exact flatMap_append.symm
  | .tag inner :: rest, stack, fuel, ⟨hinner, hplain, hrest⟩, hfuel => by
    obtain ⟨fuel', hle, h⟩ := @visibleTextFrom_tag stack (renderItems rest) inner fuel hinner hfuel
    show visibleTextFrom fuel stack (tagText inner ++ renderItems rest) = _
    rw [h, visibleTextFrom_renderItems hrest hle, readItems, xmlEscape_append, hplain]

/-- `typed_body_visible_text` of clean markup is the text its items show. -/
theorem typedBodyVisibleText_renderItems {items : List MarkupItem} (h : ReadsClean [] items) :
    typedBodyVisibleText (renderItems items) = readItems [] items := by
  show decodeEntities (visibleTextFrom _ [] (renderItems items)) = _
  rw [visibleTextFrom_renderItems h (Nat.le_refl _), decodeEntities_xmlEscape]

end Reader

/-! ## Its tags -/

/-- The tags of a markup text, from one bracket to the next. -/
def tagsFrom : Nat → Text → List Text
  | _, [] => []
  | 0, _ :: _ => []
  | fuel + 1, c :: rest =>
    if c = '<' ∧ '>' ∈ rest then
      tagText (rest.takeWhile (· ≠ '>')) :: tagsFrom fuel ((rest.dropWhile (· ≠ '>')).drop 1)
    else tagsFrom fuel rest

def itemTags : List MarkupItem → List Text
  | [] => []
  | .tag inner :: rest => tagText inner :: itemTags rest
  | _ :: rest => itemTags rest

theorem tagsFrom_run (after : Text) : ∀ {word : Text} {fuel : Nat}, '<' ∉ word →
    (word ++ after).length ≤ fuel →
    ∃ fuel', after.length ≤ fuel' ∧ tagsFrom fuel (word ++ after) = tagsFrom fuel' after
  | [], fuel, _, hfuel => ⟨fuel, hfuel, rfl⟩
  | c :: word, 0, _, hfuel => absurd hfuel (by simp)
  | c :: word, fuel + 1, hlt, hfuel => by
    obtain ⟨hne, hmem⟩ := not_or.mp (mt mem_cons.mpr hlt)
    obtain ⟨fuel', hle, ih⟩ := @tagsFrom_run after word fuel hmem (by simpa using hfuel)
    refine ⟨fuel', hle, ?_⟩
    rw [cons_append, tagsFrom, if_neg fun h => hne h.1.symm, ih]

theorem tagsFrom_renderItems : ∀ {items : List MarkupItem} {stack : List Passing} {fuel : Nat},
    ReadsClean stack items → (renderItems items).length ≤ fuel →
      tagsFrom fuel (renderItems items) = itemTags items
  | [], _, fuel, _, _ => by cases fuel <;> rfl
  | .prose text :: rest, stack, fuel, ⟨_, hrest⟩, hfuel => by
    obtain ⟨fuel', hle, h⟩ := @tagsFrom_run (renderItems rest) (xmlEscape text) fuel
      lt_notMem_xmlEscape hfuel
    exact h.trans (tagsFrom_renderItems hrest hle)
  | .vertical marker text :: rest, stack, fuel, ⟨hmarker, _, hrest⟩, hfuel => by
    have hword : '<' ∉ (MarkupItem.vertical marker text).render := by
      have hne : '<' ≠ marker := fun h => absurd hmarker (by rw [← h]; decide)
      simp [MarkupItem.render, hne, lt_notMem_xmlEscape]
    obtain ⟨fuel', hle, h⟩ := @tagsFrom_run (renderItems rest) _ fuel hword hfuel
    exact h.trans (tagsFrom_renderItems hrest hle)
  | .tag inner :: rest, stack, 0, _, hfuel => absurd hfuel (by simp [MarkupItem.render, tagText])
  | .tag inner :: rest, stack, fuel + 1, ⟨hinner, _, hrest⟩, hfuel => by
    have hclose : '>' ∈ inner ++ '>' :: renderItems rest :=
      mem_append_right _ mem_cons_self
    have hle : (renderItems rest).length ≤ fuel := by
      simp only [renderItems_cons, MarkupItem.render, tagText, cons_append, length_cons,
        length_append] at hfuel
      omega
    show tagsFrom (fuel + 1) (tagText inner ++ renderItems rest) = _
    simp only [tagText, cons_append, append_assoc, nil_append]
    rw [tagsFrom, if_pos ⟨rfl, hclose⟩, takeWhile_ne_append hinner, dropWhile_ne_append hinner,
      drop_one, tail_cons, tagsFrom_renderItems hrest hle, itemTags]

end Docx2Typed
