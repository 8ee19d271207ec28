import Docx2Typed.Draft.Spellings

/-!
# Prose as units

The search takes prose apart into visible characters, each with the vertical tag it stands in, and
writes a stretch of them back as prose that a patch may carry (`prose_units`,
`render_prose_units`, `annotated_slice`).

`renderProseUnits_comesBack_iff`: what is written reads back except where a backslash stands in
front of a tag.  The marker of the tag is written behind it, in another group, and the two are read
as an escape.
-/

namespace Docx2Typed

open List

/-! ## The units -/

/-- The vertical annotation of a character. -/
inductive Vertical where
  | superscript
  | subscript
  deriving DecidableEq, Repr

def Vertical.marker : Vertical → Char
  | .superscript => '^'
  | .subscript => '_'

/-- `vertical_direction`. -/
def verticalDirection (c : Char) : Vertical := if c = '^' then .superscript else .subscript

/-- One visible character and the annotation in force on it. -/
abbrev TextUnit := Char × Option Vertical

/-- The loop of `prose_units`, on as much of the text as the fuel allows. -/
def unitsFrom : Nat → Text → Outcome (List TextUnit)
  | _, [] => pure []
  | 0, _ :: _ => pure []
  | fuel + 1, c :: rest =>
    if isVerticalEscape c rest then do
      let units ← unitsFrom fuel (rest.drop 1)
      pure ((rest.take 1).map (·, none) ++ units)
    else if opensVerticalTag c rest then do
      let (inner, after) ← readVerticalTag rest.length [] (rest.drop 1)
      let units ← unitsFrom fuel after
      pure (inner.map (·, some (verticalDirection c)) ++ units)
    else do
      let units ← unitsFrom fuel rest
      pure ((c, none) :: units)

def proseUnits (raw : Text) : Outcome (List TextUnit) := do
  let text ← validateEscapedProse raw
  unitsFrom text.length text

/-- `escape_prose`. -/
def escapeProse (text : Text) : Text :=
  text.flatMap fun c =>
    if c = '\\' then "\\\\".toList
    else if c = tokenStart then "\\u27E6".toList
    else if c = tokenEnd then "\\u27E7".toList
    else [c]

/-- One stretch of units that share their annotation. -/
def renderUnitGroup (vertical : Option Vertical) (text : Text) : Text :=
  match vertical with
  | some direction =>
    direction.marker :: '{' :: (escapeProse (escapeVerticalTagBody text) ++ ['}'])
  | none => escapeProse (escapeVerticalMarkers text)

/-- The loop of `render_prose_units`: every turn writes a group. -/
def renderUnitsFrom : Nat → List TextUnit → Text
  | _, [] => []
  | 0, _ :: _ => []
  | fuel + 1, unit :: rest =>
    renderUnitGroup unit.2 ((unit :: rest.takeWhile fun next => next.2 = unit.2).map (·.1)) ++
      renderUnitsFrom fuel (rest.dropWhile fun next => next.2 = unit.2)

def renderProseUnits (units : List TextUnit) : Text := renderUnitsFrom units.length units

/-! ## A slice of a body -/

section Slice

variable (start stop : Nat)

/-- `append_slice`: the part of one chunk of prose that lies in the slice, and the offset behind
the chunk. -/
def appendSlice (cursor : Nat) (out raw : Text) : Outcome (Nat × Text) := do
  let units ← proseUnits raw
  let localStart := start - cursor
  let localStop := min (stop - cursor) units.length
  pure (cursor + units.length,
    if localStart < localStop then
      out ++ renderProseUnits ((units.take localStop).drop localStart)
    else out)

/-- Prose is read only where there is some. -/
def sliceProse (cursor : Nat) (out prose : Text) : Outcome (Nat × Text) :=
  if prose = [] then pure (cursor, out) else appendSlice start stop cursor out prose

/-- The loop of `annotated_slice`; every turn but the last takes a placeholder. -/
def annotatedFrom : Nat → Nat → Text → Text → Outcome (Option Text)
  | 0, _, _, _ => refuse "edit-grammar-invalid: unclosed placeholder in draft"
  | fuel + 1, cursor, out, rest => do
    let (cursor, out) ← sliceProse start stop cursor out (rest.takeWhile (· ≠ tokenStart))
    match rest.dropWhile (· ≠ tokenStart) with
    | [] => pure (some out)
    | _ :: afterStart =>
      if start < cursor ∧ cursor < stop then pure none
      else if tokenEnd ∉ afterStart then
        refuse "edit-grammar-invalid: unclosed placeholder in draft"
      else annotatedFrom fuel cursor out ((afterStart.dropWhile (· ≠ tokenEnd)).drop 1)

/-- `annotated_slice`: none where the slice crosses a placeholder. -/
def annotatedSlice (body : Text) : Outcome (Option Text) :=
  annotatedFrom start stop (body.length + 1) 0 [] body

end Slice

/-- The units of a body, placeholders left out. -/
def bodyUnitsFrom : Nat → Text → Outcome (List TextUnit)
  | 0, _ => refuse "edit-grammar-invalid: unclosed placeholder in draft"
  | fuel + 1, rest => do
    let units ← proseUnits (rest.takeWhile (· ≠ tokenStart))
    match rest.dropWhile (· ≠ tokenStart) with
    | [] => pure units
    | _ :: afterStart => do
      let behind ← bodyUnitsFrom fuel ((afterStart.dropWhile (· ≠ tokenEnd)).drop 1)
      pure (units ++ behind)

/-- The visible characters of a body. -/
def bodyUnits (body : Text) : Outcome (List TextUnit) := bodyUnitsFrom (body.length + 1) body

/-- The units `[start, stop)`. -/
def unitSlice (units : List TextUnit) (start stop : Nat) : List TextUnit :=
  (units.take stop).drop start

/-! ## The first layer -/

/-- What a group is before its backslashes and brackets are escaped. -/
def taggedGroup (vertical : Option Vertical) (text : Text) : Text :=
  match vertical with
  | some direction => direction.marker :: '{' :: (escapeVerticalTagBody text ++ ['}'])
  | none => escapeVerticalMarkers text

def taggedFrom : Nat → List TextUnit → Text
  | _, [] => []
  | 0, _ :: _ => []
  | fuel + 1, unit :: rest =>
    taggedGroup unit.2 ((unit :: rest.takeWhile fun next => next.2 = unit.2).map (·.1)) ++
      taggedFrom fuel (rest.dropWhile fun next => next.2 = unit.2)

theorem escapeProse_cons (c : Char) (text : Text) :
    escapeProse (c :: text) = escapeProse [c] ++ escapeProse text := by
  rw [← singleton_append, escapeProse, flatMap_append]
  rfl

theorem escapeProse_append (left right : Text) :
    escapeProse (left ++ right) = escapeProse left ++ escapeProse right := flatMap_append

theorem renderUnitGroup_eq (vertical : Option Vertical) (text : Text) :
    renderUnitGroup vertical text = escapeProse (taggedGroup vertical text) := by
  cases vertical with
  | none => rfl
  | some direction =>
    rw [renderUnitGroup, taggedGroup, escapeProse_cons, escapeProse_cons '{', escapeProse_append]
    cases direction <;> rfl

theorem renderUnitsFrom_eq : ∀ (fuel : Nat) (units : List TextUnit),
    renderUnitsFrom fuel units = escapeProse (taggedFrom fuel units)
  | 0, [] | _ + 1, [] | 0, _ :: _ => rfl
  | fuel + 1, unit :: rest => by
    rw [renderUnitsFrom, taggedFrom, escapeProse_append, renderUnitGroup_eq, renderUnitsFrom_eq]

/-- The escapes of prose are undone. -/
theorem validateEscapedFrom_escapeProse : ∀ (fuel : Nat) (text : Text),
    (escapeProse text).length ≤ fuel → validateEscapedFrom fuel (escapeProse text) = .ok text
  | fuel, [], _ => by cases fuel <;> rfl
  | 0, c :: text, h => by
    exfalso
    rw [escapeProse_cons, length_append] at h
    have hpos : 0 < (escapeProse [c]).length := by
      simp only [escapeProse, flatMap_cons, flatMap_nil, append_nil]
      split_ifs <;> simp
    omega
  | fuel + 1, c :: text, h => by
    rw [escapeProse_cons, length_append] at h
    by_cases hslash : c = '\\'
    · subst hslash
      have hlength : (escapeProse ['\\']).length = 2 := rfl
      have hread := validateEscapedFrom_escapeProse fuel text (by omega)
      show validateEscapedFrom (fuel + 1) ('\\' :: '\\' :: escapeProse text) = _
      simp [validateEscapedFrom, hread, bind, Except.bind, pure, Except.pure]
    by_cases hstart : c = tokenStart
    · subst hstart
      have hlength : (escapeProse [tokenStart]).length = 6 := by decide
      have hread := validateEscapedFrom_escapeProse fuel text (by omega)
      show validateEscapedFrom (fuel + 1)
        ('\\' :: 'u' :: '2' :: '7' :: 'E' :: '6' :: escapeProse text) = _
      simp [validateEscapedFrom, hread, bind, Except.bind, pure, Except.pure]
    by_cases hend : c = tokenEnd
    · subst hend
      have hlength : (escapeProse [tokenEnd]).length = 6 := by decide
      have hread := validateEscapedFrom_escapeProse fuel text (by omega)
      show validateEscapedFrom (fuel + 1)
        ('\\' :: 'u' :: '2' :: '7' :: 'E' :: '7' :: escapeProse text) = _
      simp [validateEscapedFrom, hread, bind, Except.bind, pure, Except.pure]
    · have hchar : escapeProse [c] = [c] := by
        rw [escapeProse, flatMap_cons, if_neg hslash, if_neg hstart, if_neg hend]
        rfl
      rw [hchar, length_singleton] at h
      have hread := validateEscapedFrom_escapeProse fuel text (by omega)
      rw [escapeProse_cons, hchar, singleton_append]
      simp [validateEscapedFrom, hslash, hstart, hend, hread, bind, Except.bind, pure, Except.pure]

theorem proseUnits_render (units : List TextUnit) : proseUnits (renderProseUnits units) =
    unitsFrom (taggedFrom units.length units).length (taggedFrom units.length units) := by
  rw [proseUnits, renderProseUnits, renderUnitsFrom_eq, validateEscapedProse,
    bind_ok (validateEscapedFrom_escapeProse _ _ (Nat.le_refl _))]

/-! ## The second layer -/

/-- The text of a tag reads back up to its closing brace. -/
theorem readVerticalTag_tagBody : ∀ (fuel : Nat) (body text after : Text),
    (escapeVerticalTagBody text).length < fuel → body ++ text ≠ [] →
      readVerticalTag fuel body (escapeVerticalTagBody text ++ '}' :: after) =
        .ok (body ++ text, after)
  | 0, _, _, _, h, _ => absurd h (Nat.not_lt_zero _)
  | fuel + 1, body, [], after, _, hne => by
    rw [append_nil] at hne ⊢
    show readVerticalTag (fuel + 1) body ('}' :: after) = _
    simp [readVerticalTag, isVerticalEscape, hne, pure, Except.pure]
  | fuel + 1, body, c :: text, after, h, _ => by
    have hne : body ++ [c] ++ text ≠ [] := by simp
    have hcons : escapeVerticalTagBody (c :: text) =
        (if verticalEscapeChars.contains c then ['\\', c] else [c]) ++ escapeVerticalTagBody text :=
      rfl
    have hassoc : body ++ c :: text = body ++ [c] ++ text := by simp
    rw [hcons, length_append] at h
    rw [hcons, hassoc]
    split at h
    next hescaped =>
      have hread := readVerticalTag_tagBody fuel (body ++ [c]) text after (by simp at h; omega) hne
      rw [if_pos hescaped]
      show readVerticalTag (fuel + 1) body ('\\' :: c :: (escapeVerticalTagBody text ++ '}' :: after)) = _
      have hpair : isVerticalEscape '\\' (c :: (escapeVerticalTagBody text ++ '}' :: after)) = true := by
        rw [isVerticalEscape, head?_cons, Option.any_some, hescaped]
        rfl
      rw [readVerticalTag, if_pos hpair]
      exact hread
    next hplain =>
      have hread := readVerticalTag_tagBody fuel (body ++ [c]) text after (by simp at h; omega) hne
      have hnot : c ∉ verticalEscapeChars := fun hc => hplain (contains_iff_mem.mpr hc)
      simp only [verticalEscapeChars, mem_cons, not_mem_nil, or_false, not_or] at hnot
      obtain ⟨hcaret, hunder, -, hclose, hslash⟩ := hnot
      rw [if_neg hplain, singleton_append, cons_append, readVerticalTag]
      simp [isVerticalEscape, opensVerticalTag, isVerticalMarker, hslash, hclose, hcaret, hunder,
        hread]

/-- Fuel enough for the text is fuel enough. -/
theorem unitsFrom_fuel : ∀ {fuel fuel' : Nat} {text : Text}, text.length ≤ fuel →
    text.length ≤ fuel' → unitsFrom fuel text = unitsFrom fuel' text
  | fuel, fuel', [], _, _ => by cases fuel <;> cases fuel' <;> rfl
  | 0, _, _ :: _, h, _ | _, 0, _ :: _, _, h => absurd h (Nat.not_succ_le_zero _)
  | fuel + 1, fuel' + 1, c :: rest, h, h' => by
    have hrest : rest.length ≤ fuel := Nat.le_of_succ_le_succ h
    have hrest' : rest.length ≤ fuel' := Nat.le_of_succ_le_succ h'
    have hdrop : (rest.drop 1).length ≤ rest.length := by rw [length_drop]; omega
    rw [unitsFrom, unitsFrom]
    split
    next => rw [unitsFrom_fuel (hdrop.trans hrest) (hdrop.trans hrest')]
    next =>
      split
      next =>
        cases htag : readVerticalTag rest.length [] (rest.drop 1) with
        | error e => rfl
        | ok read =>
          obtain ⟨inner, after⟩ := read
          have hlength := readVerticalTag_length _ _ _ _ _ htag
          rw [length_nil] at hlength
          have hafter : after.length ≤ rest.length := by omega
          rw [bind_ok rfl, bind_ok rfl]
          simp only
          rw [unitsFrom_fuel (hafter.trans hrest) (hafter.trans hrest')]
      next => rw [unitsFrom_fuel hrest hrest']

/-- The units of a text whose escapes are undone. -/
def readUnits (text : Text) : Outcome (List TextUnit) := unitsFrom text.length text

variable {rest : Text}

theorem readUnits_escape {c d : Char} (h : isVerticalEscape c (d :: rest) = true) :
    readUnits (c :: d :: rest) = (do
      let units ← readUnits rest
      pure ((d, none) :: units)) := by
  have hfuel : rest.length ≤ (d :: rest).length := Nat.le_succ _
  rw [readUnits, length_cons, unitsFrom, if_pos h, drop_one, tail_cons,
    unitsFrom_fuel hfuel (Nat.le_refl _)]
  rfl

theorem readUnits_plain {c : Char} (hescape : isVerticalEscape c rest = false)
    (hopens : opensVerticalTag c rest = false) :
    readUnits (c :: rest) = (do
      let units ← readUnits rest
      pure ((c, none) :: units)) := by
  rw [readUnits, length_cons, unitsFrom, hescape, hopens, if_neg Bool.false_ne_true,
    if_neg Bool.false_ne_true]
  rfl

/-- A tag is read in one turn. -/
theorem readUnits_tag {direction : Vertical} {text : Text} (hne : text ≠ []) (after : Text) :
    readUnits (taggedGroup (some direction) text ++ after) = (do
      let units ← readUnits after
      pure (text.map (·, some direction) ++ units)) := by
  have hfuel : (escapeVerticalTagBody text).length <
      ('{' :: (escapeVerticalTagBody text ++ '}' :: after)).length := by
    rw [length_cons, length_append]
    omega
  have hread := readVerticalTag_tagBody ('{' :: (escapeVerticalTagBody text ++ '}' :: after)).length
    [] text after hfuel (by simpa using hne)
  rw [nil_append] at hread
  have htext : taggedGroup (some direction) text ++ after =
      direction.marker :: '{' :: (escapeVerticalTagBody text ++ '}' :: after) := by
    simp [taggedGroup]
  have hescape : isVerticalEscape direction.marker
      ('{' :: (escapeVerticalTagBody text ++ '}' :: after)) = false := by
    cases direction <;> rfl
  have hopens : opensVerticalTag direction.marker
      ('{' :: (escapeVerticalTagBody text ++ '}' :: after)) = true := by
    cases direction <;> rfl
  have hdirection : verticalDirection direction.marker = direction := by
    cases direction <;> rfl
  have hfuel : after.length ≤ ('{' :: (escapeVerticalTagBody text ++ '}' :: after)).length := by
    simp
    omega
  rw [htext, readUnits, length_cons, unitsFrom, hescape, hopens, if_neg Bool.false_ne_true,
    if_pos rfl, drop_one, tail_cons, bind_ok hread, hdirection]
  simp only
  rw [unitsFrom_fuel hfuel (Nat.le_refl _)]
  rfl

/-- What may stand behind a group of plain characters: nothing, or a tag. -/
def StartsTag (after : Text) : Prop := after = [] ∨ ∃ direction : Vertical, ∃ rest,
  after = direction.marker :: '{' :: rest

theorem head_escapeVerticalMarkers_cons (d : Char) (rest : Text) :
    (escapeVerticalMarkers (d :: rest)).head? = some d ∨
      (escapeVerticalMarkers (d :: rest)).head? = some '\\' ∧ isVerticalMarker d = true := by
  rw [escapeVerticalMarkers]
  split_ifs with hescape hopens
  · left
    rw [isVerticalEscape, Bool.and_eq_true, beq_iff_eq] at hescape
    rw [hescape.1]
    rfl
  · right
    exact ⟨rfl, (Bool.and_eq_true _ _ ▸ hopens : _ ∧ _).1⟩
  · left
    rfl

/-- A character that opens nothing in its own group opens nothing in front of what follows. -/
theorem plain_of_plain {c d : Char} (after : Text)
    (hescape : isVerticalEscape c (d :: rest) = false)
    (hopens : opensVerticalTag c (d :: rest) = false) :
    isVerticalEscape c (escapeVerticalMarkers (d :: rest) ++ after) = false ∧
      opensVerticalTag c (escapeVerticalMarkers (d :: rest) ++ after) = false := by
  have hne : escapeVerticalMarkers (d :: rest) ≠ [] := by
    intro h
    rcases head_escapeVerticalMarkers_cons d rest with hhead | ⟨hhead, -⟩
    · rw [h] at hhead
      cases hhead
    · rw [h] at hhead
      cases hhead
  have happend : (escapeVerticalMarkers (d :: rest) ++ after).head? =
      (escapeVerticalMarkers (d :: rest)).head? := head?_append_of_ne_nil _ hne
  unfold isVerticalEscape opensVerticalTag at *
  rw [happend]
  rcases head_escapeVerticalMarkers_cons d rest with hhead | ⟨hhead, hmarker⟩
  · rw [hhead]
    exact ⟨hescape, hopens⟩
  · rw [hhead]
    have hd : verticalEscapeChars.contains d = true := by
      simp only [isVerticalMarker, Bool.or_eq_true, beq_iff_eq] at hmarker
      rcases hmarker with rfl | rfl <;> decide
    rw [head?_cons, Option.any_some, hd, Bool.and_true] at hescape
    rw [hescape]
    exact ⟨rfl, by simp⟩

/-- The turn that reads one plain character, whatever spells it. -/
theorem readUnits_turn {c : Char} {text after : Text} (hafter : StartsTag after)
    (hlast : after = [] ∨ text ≠ [] ∨ c ≠ '\\') :
    readUnits (escapeVerticalMarkers (c :: text) ++ after) = (do
      let units ← readUnits (escapeVerticalMarkers text ++ after)
      pure ((c, none) :: units)) := by
  rw [escapeVerticalMarkers]
  split_ifs with hescape hopens
  · rw [isVerticalEscape, Bool.and_eq_true, beq_iff_eq] at hescape
    obtain rfl := hescape.1
    exact readUnits_escape rfl
  · have hmarker : verticalEscapeChars.contains c = true := by
      simp only [opensVerticalTag, isVerticalMarker, Bool.and_eq_true, Bool.or_eq_true,
        beq_iff_eq] at hopens
      rcases hopens.1 with rfl | rfl <;> decide
    refine readUnits_escape ?_
    rw [isVerticalEscape, head?_cons, Option.any_some, hmarker]
    rfl
  · rw [Bool.not_eq_true] at hescape hopens
    cases text with
    | cons d text =>
      obtain ⟨hescape, hopens⟩ := plain_of_plain after hescape hopens
      exact readUnits_plain hescape hopens
    | nil =>
      rcases hafter with rfl | ⟨direction, rest, rfl⟩
      · exact readUnits_plain (by simp [isVerticalEscape, escapeVerticalMarkers])
          (by simp [opensVerticalTag, escapeVerticalMarkers])
      · have hc : c ≠ '\\' := by
          rcases hlast with h | h | h
          · cases h
          · exact absurd rfl h
          · exact h
        refine readUnits_plain ?_ ?_
        · simp [isVerticalEscape, hc]
        · cases direction <;> simp [opensVerticalTag, escapeVerticalMarkers, Vertical.marker]

/-- A group of plain characters is read character by character, unless its last one and the marker
of the tag behind it are read as an escape. -/
theorem readUnits_group : ∀ (text after : Text), StartsTag after →
    (after = [] ∨ text.getLast? ≠ some '\\') →
      readUnits (escapeVerticalMarkers text ++ after) = (do
        let units ← readUnits after
        pure (text.map (·, none) ++ units))
  | [], after, _, _ => by
    show readUnits after = _
    cases readUnits after <;> rfl
  | c :: text, after, hafter, hlast => by
    have hlast' : after = [] ∨ text.getLast? ≠ some '\\' := by
      refine hlast.imp_right fun h hsame => h ?_
      cases text with
      | nil => cases hsame
      | cons d text => rwa [getLast?_cons_cons]
    have hturn : after = [] ∨ text ≠ [] ∨ c ≠ '\\' := by
      refine hlast.imp_right fun h => ?_
      cases text with
      | nil => exact .inr fun heq => h (by rw [heq]; rfl)
      | cons d text => exact .inl (cons_ne_nil d text)
    rw [readUnits_turn hafter hturn, readUnits_group text after hafter hlast']
    cases readUnits after <;> rfl

/-- A backslash that ends its group takes the marker of the tag behind it. -/
theorem readUnits_group_slash : ∀ (text : Text) (direction : Vertical) (rest : Text),
    readUnits (escapeVerticalMarkers (text ++ ['\\']) ++ direction.marker :: '{' :: rest) = (do
      let units ← readUnits ('{' :: rest)
      pure (text.map (·, none) ++ (direction.marker, none) :: units))
  | [], direction, rest => by
    show readUnits ('\\' :: direction.marker :: '{' :: rest) = _
    rw [readUnits_escape (by cases direction <;> rfl)]
    rfl
  | c :: text, direction, rest => by
    rw [cons_append, readUnits_turn (.inr ⟨direction, rest, rfl⟩) (.inr (.inl (by simp))),
      readUnits_group_slash text direction rest]
    cases readUnits ('{' :: rest) <;> rfl

/-! ## Group by group -/

/-- No backslash outside a tag stands in front of a character inside one. -/
def NoSlashBeforeTag (units : List TextUnit) : Prop :=
  units.IsChain fun a b => a = ('\\', none) → b.2 = none

instance (units : List TextUnit) : Decidable (NoSlashBeforeTag units) :=
  inferInstanceAs (Decidable (List.IsChain _ _))

variable {units : List TextUnit} {vertical : Option Vertical}

/-- Units that share their annotation. -/
theorem eq_map_of_shared (h : ∀ unit ∈ units, unit.2 = vertical) :
    (units.map (·.1)).map (·, vertical) = units := by
  rw [map_map]
  refine (map_congr_left fun unit hunit => ?_).trans (map_id units)
  exact Prod.ext rfl (h unit hunit).symm

theorem isChain_of_shared (h : ∀ unit ∈ units, unit.2 = vertical) : NoSlashBeforeTag units := by
  refine List.Pairwise.isChain (pairwise_iff_forall_sublist.mpr fun {a b} hsub heq => ?_)
  have ha := h a (hsub.subset (by simp))
  have hb := h b (hsub.subset (by simp))
  rw [hb, ← ha, heq]

/-- What a reader gets behind units that it has read. -/
theorem read_behind_iff {read : Outcome (List TextUnit)} {before units : List TextUnit} :
    (do
      let behind ← read
      pure (before ++ behind)) = .ok (before ++ units) ↔ read = .ok units := by
  cases read with
  | error e => simp [bind, Except.bind]
  | ok behind => simp [bind, Except.bind, pure, Except.pure]

theorem startsTag_taggedFrom {fuel : Nat} (hfuel : units.length ≤ fuel)
    (h : ∀ unit ∈ units.head?, unit.2 ≠ none) : StartsTag (taggedFrom fuel units) ∧
      (taggedFrom fuel units = [] ↔ units = []) := by
  cases units with
  | nil => cases fuel <;> exact ⟨.inl rfl, by simp [taggedFrom]⟩
  | cons unit rest =>
    obtain ⟨c, vertical⟩ := unit
    cases vertical with
    | none => exact absurd rfl (h (c, none) rfl)
    | some direction =>
      cases fuel with
      | zero => exact absurd hfuel (Nat.not_succ_le_zero _)
      | succ fuel => exact ⟨.inr ⟨direction, _, rfl⟩, by simp [taggedFrom, taggedGroup]⟩

theorem readUnits_tagged_iff : ∀ {fuel : Nat} {units : List TextUnit}, units.length ≤ fuel →
    (readUnits (taggedFrom fuel units) = .ok units ↔ NoSlashBeforeTag units)
  | fuel, [], _ => by
    have hempty : taggedFrom fuel [] = [] := by cases fuel <;> rfl
    rw [hempty]
    exact iff_of_true rfl .nil
  | 0, _ :: _, h => absurd h (Nat.not_succ_le_zero _)
  | fuel + 1, unit :: rest, h => by
    obtain ⟨c, vertical⟩ := unit
    set same := (c, vertical) :: rest.takeWhile fun next => next.2 = vertical with hsame
    set others := rest.dropWhile fun next => next.2 = vertical with hothers
    have hsplit : (c, vertical) :: rest = same ++ others := by
      rw [hsame, cons_append, takeWhile_append_dropWhile]
    have hshared : ∀ unit ∈ same, unit.2 = vertical := by
      intro unit hunit
      rcases mem_cons.mp hunit with rfl | hunit
      · rfl
      · simpa using mem_takeWhile_imp hunit
    have hhead : ∀ unit ∈ others.head?, unit.2 ≠ vertical := by
      intro unit hunit heq
      have := head?_dropWhile_not (fun next : TextUnit => decide (next.2 = vertical)) rest
      rw [← hothers, Option.mem_def.mp hunit] at this
      simp [heq] at this
    have hlength : others.length ≤ fuel := by
      have := length_dropWhile_le (fun next : TextUnit => decide (next.2 = vertical)) rest
      rw [← hothers] at this
      rw [length_cons] at h
      omega
    have hgroup : taggedFrom (fuel + 1) ((c, vertical) :: rest) =
        taggedGroup vertical (same.map (·.1)) ++ taggedFrom fuel others := rfl
    have hmap := eq_map_of_shared hshared
    have hrest := readUnits_tagged_iff hlength
    have hchain : NoSlashBeforeTag (same ++ others) ↔ NoSlashBeforeTag others ∧
        ∀ a ∈ same.getLast?, ∀ b ∈ others.head?, a = ('\\', none) → b.2 = none := by
      rw [NoSlashBeforeTag, isChain_append]
      exact and_iff_right (isChain_of_shared hshared)
    rw [hgroup, hsplit, hchain]
    cases vertical with
    | some direction =>
      rw [readUnits_tag (by simp [hsame]), hmap, read_behind_iff, hrest]
      refine (and_iff_left ?_).symm
      intro a ha b _ heq
      have := hshared a (mem_of_getLast? ha)
      rw [heq] at this
      cases this
    | none =>
      obtain ⟨hstarts, hempty⟩ := startsTag_taggedFrom hlength hhead
      by_cases hgood : others = [] ∨ (same.map (·.1)).getLast? ≠ some '\\'
      · have hread := readUnits_group (same.map (·.1)) _ hstarts (hgood.imp_left hempty.mpr)
        rw [taggedGroup, hread, hmap, read_behind_iff, hrest]
        refine (and_iff_left fun a ha b hb heq => ?_).symm
        rcases hgood with hnil | hlast
        · rw [hnil] at hb
          cases hb
        · rw [getLast?_map, Option.mem_def.mp ha, heq] at hlast
          exact absurd rfl hlast
      · -- the last backslash and the marker behind it
        rw [not_or, not_not] at hgood
        obtain ⟨hne, hlast⟩ := hgood
        obtain ⟨text, htext⟩ := getLast?_eq_some_iff.mp hlast
        obtain ⟨direction, behind, hbehind⟩ := hstarts.resolve_left (mt hempty.mp hne)
        obtain ⟨next, others', hcons⟩ := exists_cons_of_ne_nil hne
        rw [htext, map_append] at hmap
        refine iff_of_false ?_ fun hall => ?_
        · rw [taggedGroup, htext, hbehind, readUnits_group_slash, ← hmap, append_assoc]
          cases readUnits ('{' :: behind) with
          | error e => simp [bind, Except.bind]
          | ok units =>
            have hmarker : direction.marker ≠ '\\' := by cases direction <;> decide
            simp [bind, Except.bind, pure, Except.pure, hmarker]
        · have hnext : next.2 = none := hall.2 ('\\', none)
            (by rw [← hmap]; simp) next (by rw [hcons]; rfl) rfl
          exact hhead next (by rw [hcons]; rfl) hnext

theorem proseUnits_render_iff (units : List TextUnit) :
    proseUnits (renderProseUnits units) = .ok units ↔ NoSlashBeforeTag units := by
  rw [proseUnits_render]
  exact readUnits_tagged_iff (Nat.le_refl _)

/-! ## Slices -/

variable {start stop : Nat}

theorem unitSlice_of_le (h : stop ≤ start) : unitSlice units start stop = [] := by
  rw [unitSlice, drop_eq_nil_iff, length_take]
  omega

/-- A slice behind some units. -/
theorem unitSlice_append_of_le {before behind : List TextUnit} (h : before.length ≤ start) :
    unitSlice (before ++ behind) start stop =
      unitSlice behind (start - before.length) (stop - before.length) := by
  by_cases hstop : stop ≤ before.length
  · rw [unitSlice_of_le (by omega), unitSlice_of_le (by omega)]
  · rw [unitSlice, unitSlice, take_append, take_of_length_le (by omega), drop_append,
      drop_eq_nil_of_le h, nil_append]

/-- What a chunk adds to the slice. -/
theorem sliceProse_eq_ok {start stop cursor cursor' : Nat} {out out' prose : Text}
    (h : sliceProse start stop cursor out prose = .ok (cursor', out')) :
    ∃ units, proseUnits prose = .ok units ∧ cursor' = cursor + units.length ∧
      out' = out ++ renderProseUnits (unitSlice units (start - cursor) (stop - cursor)) := by
  rw [sliceProse] at h
  split at h
  next hempty =>
    obtain ⟨rfl, rfl⟩ := Prod.mk.inj (Except.ok.inj h)
    refine ⟨[], by rw [hempty]; rfl, rfl, ?_⟩
    rw [unitSlice, take_nil, drop_nil]
    exact (append_nil out).symm
  next =>
    obtain ⟨units, hunits, h⟩ := bind_eq_ok h
    obtain ⟨rfl, rfl⟩ := Prod.mk.inj (Except.ok.inj h)
    refine ⟨units, hunits, rfl, ?_⟩
    have hmin : units.take (min (stop - cursor) units.length) = units.take (stop - cursor) := by
      rw [← take_take, take_length]
    split
    next => rw [hmin, unitSlice]
    next hempty =>
      have hnil : unitSlice units (start - cursor) (stop - cursor) = [] := by
        rw [unitSlice, drop_eq_nil_iff, length_take]
        omega
      rw [hnil]
      exact (append_nil out).symm

/-- Behind the slice nothing is added. -/
theorem annotatedFrom_behind : ∀ {fuel cursor : Nat} {out rest matched : Text},
    stop ≤ cursor → annotatedFrom start stop fuel cursor out rest = .ok (some matched) →
      matched = out ∧ ∃ units, bodyUnitsFrom fuel rest = .ok units
  | 0, _, _, _, _, _, h => (refuse_ne_ok h).elim
  | fuel + 1, cursor, out, rest, matched, hle, h => by
    rw [annotatedFrom] at h
    obtain ⟨⟨cursor', out'⟩, hprose, h⟩ := bind_eq_ok h
    obtain ⟨units, hunits, rfl, rfl⟩ := sliceProse_eq_ok hprose
    have hnil : unitSlice units (start - cursor) (stop - cursor) = [] :=
      unitSlice_of_le (by omega)
    have hnone : renderProseUnits [] = [] := rfl
    rw [hnil, hnone, append_nil] at h
    rw [bodyUnitsFrom, bind_ok hunits]
    simp only at h
    cases hdrop : rest.dropWhile (· ≠ tokenStart) with
    | nil =>
      simp only [hdrop] at h
      exact ⟨(Option.some.inj (Except.ok.inj h)).symm, units, rfl⟩
    | cons token afterStart =>
      simp only [hdrop] at h
      rw [if_neg (by omega)] at h
      split at h
      · exact (refuse_ne_ok h).elim
      · obtain ⟨rfl, behind, hbehind⟩ := annotatedFrom_behind (by omega) h
        exact ⟨rfl, units ++ behind, by simp only [bind_ok hbehind]; rfl⟩

/-- A slice that crosses no placeholder is written from the units of the chunk it lies in. -/
theorem annotatedFrom_spec : ∀ {fuel cursor : Nat} {rest matched : Text},
    cursor ≤ start → annotatedFrom start stop fuel cursor [] rest = .ok (some matched) →
      ∃ units, bodyUnitsFrom fuel rest = .ok units ∧
        matched = renderProseUnits (unitSlice units (start - cursor) (stop - cursor))
  | 0, _, _, _, _, h => (refuse_ne_ok h).elim
  | fuel + 1, cursor, rest, matched, hle, h => by
    rw [annotatedFrom] at h
    obtain ⟨⟨cursor', out'⟩, hprose, h⟩ := bind_eq_ok h
    obtain ⟨units, hunits, rfl, rfl⟩ := sliceProse_eq_ok hprose
    rw [nil_append] at h
    rw [bodyUnitsFrom, bind_ok hunits]
    simp only at h
    cases hdrop : rest.dropWhile (· ≠ tokenStart) with
    | nil =>
      simp only [hdrop] at h
      exact ⟨units, rfl, (Option.some.inj (Except.ok.inj h)).symm⟩
    | cons token afterStart =>
      simp only [hdrop] at h
      split at h
      · cases h
      next hcrosses =>
        split at h
        · exact (refuse_ne_ok h).elim
        · by_cases hin : start < cursor + units.length
          · -- the slice ends with this chunk
            obtain ⟨rfl, behind, hbehind⟩ := annotatedFrom_behind (by omega) h
            refine ⟨units ++ behind, by simp only [bind_ok hbehind]; rfl, ?_⟩
            rw [unitSlice, unitSlice, take_append_of_le_length (by omega)]
          · have hnil : unitSlice units (start - cursor) (stop - cursor) = [] := by
              rw [unitSlice, drop_eq_nil_iff, length_take]
              omega
            have hnone : renderProseUnits [] = [] := rfl
            rw [hnil, hnone] at h
            obtain ⟨behind, hbehind, hmatched⟩ := annotatedFrom_spec (by omega) h
            refine ⟨units ++ behind, by simp only [bind_ok hbehind]; rfl, ?_⟩
            have hbefore : units.length ≤ start - cursor := by omega
            rw [hmatched, unitSlice_append_of_le hbefore, Nat.sub_sub, Nat.sub_sub]

/-! ## What comes back -/

/-- Units written as prose read back exactly where no backslash stands in front of a tag, and so
does the text that a search hands out for a patch. -/
theorem renderProseUnits_comesBack_iff (units : List TextUnit) :
    (proseUnits (renderProseUnits units) = .ok units ↔ NoSlashBeforeTag units) ∧
    ∀ start stop body matched, annotatedSlice start stop body = .ok (some matched) →
      ∃ units, bodyUnits body = .ok units ∧
        (proseUnits matched = .ok (unitSlice units start stop) ↔
          NoSlashBeforeTag (unitSlice units start stop)) := by
  refine ⟨proseUnits_render_iff units, fun start stop body matched h => ?_⟩
  obtain ⟨units, hunits, rfl⟩ := annotatedFrom_spec (Nat.zero_le _) h
  exact ⟨units, hunits, proseUnits_render_iff _⟩

/-- A square written behind a backslash: the caret of its tag is escaped. -/
theorem not_comesBack_slash : renderProseUnits [('\\', none), ('2', some .superscript)] =
      "\\\\^{2}".toList ∧
    proseUnits (renderProseUnits [('\\', none), ('2', some .superscript)]) ≠
      .ok [('\\', none), ('2', some .superscript)] ∧
    proseUnits "\\\\^{2}".toList =
      .ok [('^', none), ('{', none), ('2', none), ('}', none)] ∧
    annotatedSlice 0 2 "\\\\\\\\^{2}".toList = .ok (some "\\\\^{2}".toList) := by
  decide

end Docx2Typed
