import Docx2Typed.Library.Chunks
import Docx2Typed.Search.Document

/-!
# What the search addresses

A place found in the lower case of a text is taken for a place of the text.  The two are the same
as long as every character in front has a lower case of one letter; `İ` has one of two.

* `mem_blockOffsets`: the offsets are the places of the lower case, in the first pass that finds
  the query;
* `searchParagraph_spec`: the search of a paragraph ends exactly when they all lie in its text;
* `documentSearch_addresses_iff`: they address the query, and all of it, exactly when every place
  is in step with the text and no sigma is written in its other form.
-/

namespace Docx2Typed

open Library List

/-! ## The places of a word -/

variable {α : Type}

section Places

variable {hay candidate : Text} {cursor place : Nat}

theorem take_drop_eq_iff :
    decide ((hay.drop place).take candidate.length = candidate) = true ↔
      candidate <+: hay.drop place := by
  rw [decide_eq_true_iff, prefix_iff_eq_take, eq_comm]

/-- A word stands inside the text. -/
theorem add_length_le (hne : candidate ≠ []) (h : candidate <+: hay.drop place) :
    place + candidate.length ≤ hay.length := by
  have hle := h.length_le
  have hpos := length_pos_of_ne_nil hne
  rw [length_drop] at hle
  omega

theorem findChars_eq_some {found : Nat}
    (h : findChars hay candidate cursor = some found) :
    cursor ≤ found ∧ candidate <+: hay.drop found ∧
      ∀ place, cursor ≤ place → place < found → ¬ candidate <+: hay.drop place := by
  rw [findChars] at h
  split at h
  next => cases h
  next hbounds =>
    obtain ⟨hfound, hmem, hfirst⟩ := find?_range'_eq_some.mp h
    refine ⟨(mem_range'_1.mp hmem).1, take_drop_eq_iff.mp hfound, ?_⟩
    intro place hplace hlt hstands
    have hnot := hfirst place hplace hlt
    rw [take_drop_eq_iff.mpr hstands] at hnot
    exact absurd hnot (by decide)

theorem findChars_eq_none (hne : candidate ≠ []) (h : findChars hay candidate cursor = none) :
    ∀ place, cursor ≤ place → ¬ candidate <+: hay.drop place := by
  intro place hplace hstands
  have hle := add_length_le hne hstands
  rw [findChars] at h
  split at h
  next hbounds =>
    rcases hbounds with hnil | hshort
    · exact hne hnil
    · omega
  next =>
    have hnot := find?_range'_eq_none.mp h place hplace (by omega)
    rw [take_drop_eq_iff.mpr hstands] at hnot
    exact absurd hnot (by decide)

/-- The loop collects every place from the cursor on. -/
theorem mem_collectOffsets (hne : candidate ≠ []) : ∀ {fuel cursor : Nat} {offsets : List Nat},
    hay.length < cursor + fuel →
      (place ∈ collectOffsets hay candidate fuel cursor offsets ↔
        place ∈ offsets ∨ cursor ≤ place ∧ candidate <+: hay.drop place)
  | 0, cursor, offsets, hfuel => by
    refine ⟨.inl, fun h => h.elim id fun hplace => ?_⟩
    have hle := add_length_le hne hplace.2
    omega
  | fuel + 1, cursor, offsets, hfuel => by
    rw [collectOffsets]
    split
    next hfound =>
      refine ⟨.inl, fun h => h.elim id fun hplace => ?_⟩
      exact absurd hplace.2 (findChars_eq_none hne hfound place hplace.1)
    next found hfound =>
      obtain ⟨hcursor, hstands, hfirst⟩ := findChars_eq_some hfound
      rw [mem_collectOffsets hne (by omega)]
      have hmem : place ∈ (if found ∈ offsets then offsets else offsets ++ [found]) ↔
          place ∈ offsets ∨ place = found := by
        split
        next hin => exact ⟨.inl, fun h => h.elim id fun hplace => hplace ▸ hin⟩
        next => rw [mem_append, mem_singleton]
      rw [hmem, or_assoc]
      refine or_congr_right ⟨?_, ?_⟩
      · rintro (rfl | ⟨hplace, hplaceStands⟩)
        · exact ⟨hcursor, hstands⟩
        · exact ⟨by omega, hplaceStands⟩
      · rintro ⟨hplace, hplaceStands⟩
        rcases Nat.lt_trichotomy place found with hlt | heq | hlt
        · exact absurd hplaceStands (hfirst place hplace hlt)
        · exact .inl heq
        · exact .inr ⟨hlt, hplaceStands⟩

theorem infix_iff_exists_drop {word list : List α} :
    word <:+: list ↔ ∃ place, word <+: list.drop place := by
  constructor
  · rintro ⟨before, behind, rfl⟩
    refine ⟨before.length, behind, ?_⟩
    rw [append_assoc, drop_left]
  · rintro ⟨place, h⟩
    exact h.isInfix.trans (drop_suffix place list).isInfix

end Places

/-- The offsets are the places of the first pass that has any. -/
theorem mem_passOffsets {place : Nat} : ∀ {passes : List (Text × Text)},
    (∀ pass ∈ passes, pass.1 ≠ []) →
      (place ∈ passOffsets passes ↔
        ∃ pass, passes.find? (fun pass => pass.1 <:+: pass.2) = some pass ∧
          pass.1 <+: pass.2.drop place)
  | [], _ => by simp [passOffsets]
  | (candidate, hay) :: rest, h => by
    obtain ⟨hne, hrest⟩ := forall_mem_cons.mp h
    have hmem : ∀ place, place ∈ collectOffsets hay candidate (hay.length + 1) 0 [] ↔
        candidate <+: hay.drop place := by
      intro place
      rw [mem_collectOffsets hne (by omega)]
      simp
    rw [passOffsets, if_neg hne]
    by_cases hoffsets : collectOffsets hay candidate (hay.length + 1) 0 [] = []
    · have hnowhere : ¬ candidate <:+: hay := by
        rw [infix_iff_exists_drop]
        rintro ⟨place, hplace⟩
        exact absurd ((hmem place).mpr hplace) (by rw [hoffsets]; exact not_mem_nil)
      rw [if_neg (not_not.mpr hoffsets), find?_cons_of_neg (by simpa using hnowhere),
        mem_passOffsets hrest]
    · have hsome : candidate <:+: hay := by
        obtain ⟨place, hplace⟩ := exists_mem_of_ne_nil _ hoffsets
        exact infix_iff_exists_drop.mpr ⟨place, (hmem place).mp hplace⟩
      rw [if_pos hoffsets, find?_cons_of_pos (by simpa using hsome), hmem]
      simp

/-! ## Folding -/

/-- A character is folded to one of those the table holds, to ASCII, or not at all. -/
theorem foldChar_cases (c : Char) : foldChar c ∈ foldTable.map (·.2) ∨
    (∃ code < 0x80, foldChar c = Char.ofNat code) ∨ foldChar c = c := by
  rw [foldChar]
  split
  next folded hfolded =>
    left
    obtain ⟨before, behind, htable, -⟩ := lookup_eq_some_iff.mp hfolded
    rw [htable, map_append, map_cons]
    exact mem_append_right _ mem_cons_self
  next =>
    split
    next hrange =>
      exact .inr (.inl ⟨c.toNat - 0xfee0, by omega, rfl⟩)
    next => exact .inr (.inr rfl)

/-! ## The passes -/

/-- `σ` and `ς` are lower cases of one letter. -/
def sigmaForm (c : Char) : Char := if c = 'ς' then 'σ' else c

theorem sigmaForm_foldChar (c : Char) : sigmaForm (foldChar c) = foldChar (sigmaForm c) := by
  by_cases hc : c = 'ς'
  · rw [hc]
    decide +kernel
  · have hfolded : foldChar c ≠ 'ς' := by
      intro h
      rcases foldChar_cases c with hmem | ⟨code, hcode, hfolded⟩ | hsame
      · rw [h] at hmem
        exact absurd hmem (by decide +kernel)
      · have hnot : ∀ code < 0x80, Char.ofNat code ≠ 'ς' := by decide +kernel
        exact hnot code hcode (hfolded.symm.trans h)
      · exact hc (hsame.symm.trans h)
    rw [sigmaForm, sigmaForm, if_neg hfolded, if_neg hc]

namespace CaseTables

variable (tables : CaseTables)

/-- What a character is compared by where the case does not count. -/
def caseKey (c : Char) : Text := (if c = 'Σ' then ['σ'] else tables.lower c).map sigmaForm

theorem length_lowerChunks : ∀ before text : Text,
    (tables.lowerChunks before text).length = text.length
  | _, [] => rfl
  | before, c :: behind => by
    rw [lowerChunks, length_cons, length_cons, length_lowerChunks (c :: before) behind]

theorem ne_nil_of_mem_lowerChunks : ∀ {before text chunk : Text},
    chunk ∈ tables.lowerChunks before text → chunk ≠ []
  | _, [], _, h => absurd h not_mem_nil
  | before, c :: behind, chunk, h => by
    rw [lowerChunks] at h
    rcases mem_cons.mp h with rfl | h
    · split
      · exact cons_ne_nil _ _
      · exact tables.lower_ne_nil c
    · exact ne_nil_of_mem_lowerChunks h

/-- In whichever form a sigma is written, it is compared alike. -/
theorem map_sigmaForm_lowerChunks : ∀ before text : Text,
    (tables.lowerChunks before text).map (List.map sigmaForm) = text.map tables.caseKey
  | _, [] => rfl
  | before, c :: behind => by
    rw [lowerChunks, map_cons, map_cons, map_sigmaForm_lowerChunks (c :: before) behind,
      caseKey]
    congr 1
    split
    · rw [mapUppercaseSigma]
      split <;> decide
    · rfl

end CaseTables

variable {flat : Text}

variable {offsets : List Nat}

section Passes

variable (tables : CaseTables) (query : Text) (caseSensitive : Bool)

/-- How each character of the text is written where the query is looked for in it. -/
def searchChunks (flat : Text) : List Text :=
  if caseSensitive then flat.map ([·]) else tables.lowerChunks [] flat

/-- The passes by what they fold the characters with. -/
def searchPasses : List (Char → Char) := [id, foldChar]

variable (fold : Char → Char)

def passNeedle : Text := (searchNeedle tables query caseSensitive).map fold

def passChunks (flat : Text) : List Text :=
  (searchChunks tables caseSensitive flat).map (List.map fold)

/-- The pass that finds the query in a text. -/
def findingPass (flat : Text) : Option (Char → Char) :=
  searchPasses.find? fun fold =>
    passNeedle tables query caseSensitive fold <:+:
      (passChunks tables caseSensitive fold flat).flatten

/-- What a text is compared by. -/
def compared (text : Text) : Text :=
  (if caseSensitive then text else text.flatMap tables.caseKey).map fold

/-- The characters `[offset, offset + length)`. -/
def addressed (flat : Text) (length offset : Nat) : Text := (flat.drop offset).take length

/-- What a pass found addresses the query, and all of it. -/
structure Addresses (flat : Text) (offsets : List Nat) : Prop where
  inside : ∀ offset ∈ offsets,
    offset + (searchNeedle tables query caseSensitive).length ≤ flat.length
  /-- In the pass the characters are written like the query. -/
  sound : ∀ offset ∈ offsets,
    chunkSlice (passChunks tables caseSensitive fold flat) offset
      (searchNeedle tables query caseSensitive).length = passNeedle tables query caseSensitive fold
  equal : ∀ offset ∈ offsets,
    compared tables caseSensitive fold
        (addressed flat (searchNeedle tables query caseSensitive).length offset) =
      compared tables caseSensitive fold query
  /-- No characters equal to the query are missed. -/
  complete : ∀ offset, offset + (searchNeedle tables query caseSensitive).length ≤ flat.length →
    compared tables caseSensitive fold
        (addressed flat (searchNeedle tables query caseSensitive).length offset) =
      compared tables caseSensitive fold query →
    offset ∈ offsets

/-- No character whose lower case has another length stands in front of the end of a place where
the query is found, and no characters differ from the query by the form of a sigma. -/
structure StaysInStep (flat : Text) : Prop where
  inStep : ∀ place, passNeedle tables query caseSensitive fold <+:
      (passChunks tables caseSensitive fold flat).flatten.drop place →
    LetterByLetter (searchChunks tables caseSensitive flat)
      (place + (searchNeedle tables query caseSensitive).length)
  sigmas : ∀ offset, offset + (searchNeedle tables query caseSensitive).length ≤ flat.length →
    compared tables caseSensitive fold
        (addressed flat (searchNeedle tables query caseSensitive).length offset) =
      compared tables caseSensitive fold query →
    chunkSlice (passChunks tables caseSensitive fold flat) offset
      (searchNeedle tables query caseSensitive).length = passNeedle tables query caseSensitive fold

variable {tables query caseSensitive fold}

theorem length_searchChunks (flat : Text) :
    (searchChunks tables caseSensitive flat).length = flat.length := by
  rw [searchChunks]
  split
  · exact length_map _
  · exact tables.length_lowerChunks [] flat

theorem length_passChunks (flat : Text) :
    (passChunks tables caseSensitive fold flat).length = flat.length := by
  rw [passChunks, length_map, length_searchChunks]

theorem length_passNeedle : (passNeedle tables query caseSensitive fold).length =
    (searchNeedle tables query caseSensitive).length := length_map _

theorem ne_nil_of_mem_searchChunks {flat chunk : Text}
    (h : chunk ∈ searchChunks tables caseSensitive flat) : chunk ≠ [] := by
  rw [searchChunks] at h
  split at h
  · obtain ⟨c, -, rfl⟩ := mem_map.mp h
    exact cons_ne_nil _ _
  · exact tables.ne_nil_of_mem_lowerChunks h

theorem ne_nil_of_mem_passChunks :
    ∀ chunk ∈ passChunks tables caseSensitive fold flat, chunk ≠ [] := by
  intro chunk h
  obtain ⟨source, hsource, rfl⟩ := mem_map.mp h
  exact fun hnil => ne_nil_of_mem_searchChunks hsource (map_eq_nil_iff.mp hnil)

theorem flatten_searchChunks (flat : Text) :
    (searchChunks tables caseSensitive flat).flatten =
      searchHaystack tables caseSensitive flat := by
  rw [searchChunks, searchHaystack]
  split
  · rw [← flatMap_def, flatMap_singleton']
  · rfl

theorem searchNeedle_ne_nil (hquery : query ≠ []) :
    searchNeedle tables query caseSensitive ≠ [] := by
  have hle := length_le_length_flatten
    fun chunk (h : chunk ∈ searchChunks tables caseSensitive query) => ne_nil_of_mem_searchChunks h
  have hpos := length_pos_of_ne_nil hquery
  rw [length_searchChunks, flatten_searchChunks] at hle
  exact ne_nil_of_length_pos (Nat.lt_of_lt_of_le hpos hle)

/-- Folding leaves every character one character. -/
theorem letterByLetter_passChunks_iff {stop : Nat} :
    LetterByLetter (passChunks tables caseSensitive fold flat) stop ↔
      LetterByLetter (searchChunks tables caseSensitive flat) stop := by
  rw [LetterByLetter, LetterByLetter, passChunks, length_map, ← map_take,
    forall_mem_map]
  simp only [length_map]

/-- Where every letter has a lower case of one letter, the search is in step. -/
theorem inStep_of_letters {place : Nat}
    (hletters : ∀ chunk ∈ searchChunks tables caseSensitive flat, chunk.length = 1)
    (hquery : query ≠ []) (hplace : passNeedle tables query caseSensitive fold <+:
      (passChunks tables caseSensitive fold flat).flatten.drop place) :
    LetterByLetter (searchChunks tables caseSensitive flat)
      (place + (searchNeedle tables query caseSensitive).length) := by
  have hne : passNeedle tables query caseSensitive fold ≠ [] := fun hnil =>
    searchNeedle_ne_nil hquery (map_eq_nil_iff.mp hnil)
  have hle := add_length_le hne hplace
  have hlength : (passChunks tables caseSensitive fold flat).flatten.length = flat.length := by
    rw [passChunks, ← map_flatten, length_map,
      length_flatten_of_length_eq_one hletters, length_searchChunks]
  rw [length_passNeedle, hlength] at hle
  refine ⟨by rw [length_searchChunks]; exact hle, fun chunk hchunk => ?_⟩
  exact hletters chunk (mem_of_mem_take hchunk)

section

variable (hfold : ∀ c, sigmaForm (fold c) = fold (sigmaForm c))

include hfold

/-- What a text written in chunks is compared by. -/
theorem compared_of_chunks {chunks : List Text} {text : Text}
    (hchunks : chunks.map (List.map sigmaForm) = text.map tables.caseKey) :
    compared tables false fold text =
      ((chunks.map (List.map fold)).flatten).map sigmaForm := by
  have hcomm : List.map sigmaForm ∘ List.map fold = List.map fold ∘ List.map sigmaForm := by
    funext chunk
    simp [hfold]
  rw [compared, if_neg (by decide), flatMap_def, ← hchunks, map_flatten,
    map_flatten, map_map, map_map, hcomm]

theorem compared_query :
    compared tables false fold query = (passNeedle tables query false fold).map sigmaForm := by
  rw [compared_of_chunks hfold (tables.map_sigmaForm_lowerChunks [] query), passNeedle,
    searchNeedle, if_neg (by decide), CaseTables.toLowercase, ← map_flatten]

theorem compared_addressed (flat : Text) (length offset : Nat) :
    compared tables false fold (addressed flat length offset) =
      (chunkSlice (passChunks tables false fold flat) offset length).map sigmaForm := by
  have hchunks : (((tables.lowerChunks [] flat).drop offset).take length).map
      (List.map sigmaForm) = (addressed flat length offset).map tables.caseKey := by
    rw [map_take, map_drop, tables.map_sigmaForm_lowerChunks, addressed, map_take,
      map_drop]
  rw [compared_of_chunks hfold hchunks, chunkSlice, passChunks, searchChunks, if_neg (by decide),
    map_take, map_drop]

/-- Characters written like the query equal it up to case. -/
theorem compared_eq_of_chunkSlice {length offset : Nat}
    (h : chunkSlice (passChunks tables caseSensitive fold flat) offset length =
      passNeedle tables query caseSensitive fold) :
    compared tables caseSensitive fold (addressed flat length offset) =
      compared tables caseSensitive fold query := by
  cases caseSensitive with
  | true =>
    have hsingle : passChunks tables true fold flat = (flat.map fold).map ([·]) := by
      simp [passChunks, searchChunks]
    rw [hsingle, chunkSlice, ← map_drop, ← map_take, ← flatMap_def,
      flatMap_singleton', ← map_drop, ← map_take] at h
    exact h
  | false => rw [compared_addressed hfold, h, compared_query hfold]

end

theorem sigmaForm_fold (h : fold ∈ searchPasses) (c : Char) :
    sigmaForm (fold c) = fold (sigmaForm c) := by
  rcases mem_cons.mp h with rfl | h
  · rfl
  · obtain rfl := mem_singleton.mp h
    exact sigmaForm_foldChar c

/-- The places a pass finds address the query, and all of it, exactly where it stays in step. -/
theorem addresses_iff (hfold : fold ∈ searchPasses) (hoffsets : ∀ place, place ∈ offsets ↔
      passNeedle tables query caseSensitive fold <+:
        (passChunks tables caseSensitive fold flat).flatten.drop place) :
    Addresses tables query caseSensitive fold flat offsets ↔
      StaysInStep tables query caseSensitive fold flat := by
  have hsound := @sound_iff Char (passChunks tables caseSensitive fold flat)
    (passNeedle tables query caseSensitive fold) ne_nil_of_mem_passChunks
  simp only [length_passNeedle, length_passChunks, letterByLetter_passChunks_iff] at hsound
  constructor
  · intro h
    refine ⟨hsound.mp fun place hplace => ?_, fun offset hinside hequal => ?_⟩
    · have hmem := (hoffsets place).mpr hplace
      exact ⟨h.inside place hmem, h.sound place hmem⟩
    · exact h.sound offset (h.complete offset hinside hequal)
  · intro h
    have hfound := hsound.mpr h.inStep
    have hwritten : ∀ offset ∈ offsets, _ := fun offset hoffset =>
      hfound offset ((hoffsets offset).mp hoffset)
    refine
      { inside := fun offset hoffset => (hwritten offset hoffset).1
        sound := fun offset hoffset => (hwritten offset hoffset).2
        equal := fun offset hoffset =>
          compared_eq_of_chunkSlice (sigmaForm_fold hfold) (hwritten offset hoffset).2
        complete := fun offset hinside hequal => (hoffsets offset).mpr ?_ }
    refine stands_of_letterByLetter (fun place hplace => ?_) ne_nil_of_mem_passChunks ?_ ?_
    · rw [length_passNeedle, letterByLetter_passChunks_iff]
      exact h.inStep place hplace
    · rw [length_passNeedle, length_passChunks]
      exact hinside
    · rw [length_passNeedle]
      exact h.sigmas offset hinside hequal

theorem mem_blockOffsets (hquery : query ≠ []) {flat : Text} {place : Nat} :
    place ∈ blockOffsets tables query caseSensitive flat ↔
      ∃ fold, findingPass tables query caseSensitive flat = some fold ∧
        passNeedle tables query caseSensitive fold <+:
          (passChunks tables caseSensitive fold flat).flatten.drop place := by
  have hneedle := @searchNeedle_ne_nil tables query caseSensitive hquery
  have hhay : ∀ fold, (passChunks tables caseSensitive fold flat).flatten =
      (searchHaystack tables caseSensitive flat).map fold := by
    intro fold
    rw [passChunks, ← map_flatten, flatten_searchChunks]
  have hpasses : [(searchNeedle tables query caseSensitive,
          searchHaystack tables caseSensitive flat),
        (foldText (searchNeedle tables query caseSensitive),
          foldText (searchHaystack tables caseSensitive flat))] =
      searchPasses.map fun fold => (passNeedle tables query caseSensitive fold,
        (passChunks tables caseSensitive fold flat).flatten) := by
    simp [searchPasses, hhay, passNeedle, foldText]
  have hne : ∀ pass ∈ searchPasses.map fun fold => (passNeedle tables query caseSensitive fold,
      (passChunks tables caseSensitive fold flat).flatten), pass.1 ≠ [] := by
    intro pass hpass
    obtain ⟨fold, -, rfl⟩ := mem_map.mp hpass
    exact fun hnil => hneedle (map_eq_nil_iff.mp hnil)
  rw [blockOffsets, mem_insertionSort, hpasses, mem_passOffsets hne, find?_map]
  simp only [Option.map_eq_some_iff]
  constructor
  · rintro ⟨pass, ⟨fold, hfold, rfl⟩, hplace⟩
    exact ⟨fold, hfold, hplace⟩
  · rintro ⟨fold, hfold, hplace⟩
    exact ⟨_, ⟨fold, hfold, rfl⟩, hplace⟩

end Passes

/-! ## Reading a body twice -/

/-- The two readers of vertical tags refuse the same prose. -/
theorem exists_unitsFrom : ∀ {fuel : Nat} {buffer text : Text} {segments : List Text},
    splitVerticalFrom fuel buffer text = .ok segments → ∃ units, unitsFrom fuel text = .ok units
  | fuel, _, [], _, _ => by
    cases fuel <;> exact ⟨[], rfl⟩
  | 0, _, _ :: _, _, _ => ⟨[], rfl⟩
  | fuel + 1, buffer, c :: rest, segments, h => by
    rw [splitVerticalFrom] at h
    rw [unitsFrom]
    split at h
    next hescape =>
      obtain ⟨units, hunits⟩ := exists_unitsFrom h
      exact ⟨_, by rw [if_pos hescape, bind_ok hunits]; rfl⟩
    next hescape =>
      rw [if_neg hescape]
      split at h
      next htag =>
        obtain ⟨⟨inner, after⟩, hread, h⟩ := bind_eq_ok h
        obtain ⟨behind, hbehind, -⟩ := bind_eq_ok h
        obtain ⟨units, hunits⟩ := exists_unitsFrom hbehind
        exact ⟨_, by rw [if_pos htag, bind_ok hread]; exact bind_ok hunits⟩
      next htag =>
        obtain ⟨units, hunits⟩ := exists_unitsFrom h
        exact ⟨_, by rw [if_neg htag, bind_ok hunits]; rfl⟩

theorem exists_proseUnits {raw read : Text} (h : plainProse raw = .ok read) :
    ∃ units, proseUnits raw = .ok units := by
  obtain ⟨text, htext, h⟩ := bind_eq_ok h
  obtain ⟨segments, hsegments, -⟩ := bind_eq_ok h
  obtain ⟨units, hunits⟩ := exists_unitsFrom hsegments
  exact ⟨units, by rw [proseUnits, bind_ok htext, hunits]⟩

theorem exists_sliceProse {start stop cursor : Nat} {out prose flat read : Text}
    (h : readProse flat prose = .ok read) :
    ∃ sliced, sliceProse start stop cursor out prose = .ok sliced := by
  rw [readProse] at h
  rw [sliceProse]
  split at h
  next hnil => exact ⟨_, if_pos hnil⟩
  next hnil =>
    obtain ⟨text, htext, -⟩ := bind_eq_ok h
    obtain ⟨units, hunits⟩ := exists_proseUnits htext
    exact ⟨_, by rw [if_neg hnil, appendSlice, bind_ok hunits]; rfl⟩

/-- A body that can be read can be sliced. -/
theorem exists_annotatedFrom {isAlphanumeric : Char → Bool} {start stop : Nat} :
    ∀ {fuel cursor : Nat} {out flat rest : Text} {boundaries : List (Nat × Text)}
      {read : Text × List (Nat × Text)},
      boundariesFrom isAlphanumeric fuel flat boundaries rest = .ok read →
        ∃ sliced, annotatedFrom start stop fuel cursor out rest = .ok sliced
  | 0, _, _, _, _, _, _, h => absurd h refuse_ne_ok
  | fuel + 1, cursor, out, flat, rest, boundaries, read, h => by
    rw [boundariesFrom] at h
    obtain ⟨flat', hflat, h⟩ := bind_eq_ok h
    obtain ⟨⟨cursor', out'⟩, hsliced⟩ :=
      @exists_sliceProse start stop cursor out _ _ _ hflat
    rw [annotatedFrom, bind_ok hsliced]
    cases hrest : rest.dropWhile (· ≠ tokenStart) with
    | nil => exact ⟨some out', rfl⟩
    | cons _ afterStart =>
      rw [hrest] at h
      dsimp only at h ⊢
      by_cases hclosed : tokenEnd ∈ afterStart
      · rw [if_neg (not_not.mpr hclosed)] at h
        by_cases hcut : start < cursor' ∧ cursor' < stop
        · rw [if_pos hcut]
          exact ⟨none, rfl⟩
        · rw [if_neg hcut, if_neg (not_not.mpr hclosed)]
          exact exists_annotatedFrom h
      · rw [if_pos hclosed] at h
        exact absurd h refuse_ne_ok

/-! ## Nothing but a slice panics -/

/-- What a body that cannot be read is refused with. -/
def bodyRefusals : List String :=
  [literalBracketMessage, invalidEscapeMessage,
    "vertical-tag-unclosed: a vertical tag is missing its closing brace",
    "vertical-tag-empty: a vertical tag carries no text",
    "vertical-tag-nested: a vertical tag cannot contain another tag",
    "edit-grammar-invalid: unclosed placeholder in draft"]

/-- A failure that does not come from reading a body. -/
def Foreign (e : Failure) : Prop := ∀ message ∈ bodyRefusals, e ≠ .refused (.domain message)

theorem foreign_panic : Foreign .panic := fun _ _ h => by cases h

theorem bind_ne_error {α β : Type} {e : Failure} {x : Outcome α} {f : α → Outcome β}
    (hx : x ≠ .error e) (hf : ∀ a, x = .ok a → f a ≠ .error e) : (x >>= f) ≠ .error e := by
  cases x with
  | error e => simpa [bind, Except.bind] using hx
  | ok a => exact hf a rfl

theorem refuse_ne_panic {message : String} : (refuse message : Outcome α) ≠ .error .panic := by
  rw [refuse]
  simp

theorem pure_ne_error {e : Failure} {a : α} : (pure a : Outcome α) ≠ .error e :=
  fun h => by cases h

section Foreign

variable {e : Failure} (he : Foreign e)
include he

theorem refuse_ne_error {message : String} (h : message ∈ bodyRefusals) :
    (refuse message : Outcome α) ≠ .error e :=
  fun hrefuse => he message h (Except.error.inj hrefuse).symm

theorem validateEscapedFrom_ne_error : ∀ {fuel : Nat} {text : Text},
    validateEscapedFrom fuel text ≠ .error e
  | fuel, [] => by cases fuel <;> exact pure_ne_error
  | 0, _ :: _ => refuse_ne_error he (by simp [bodyRefusals])
  | fuel + 1, c :: rest => by
    have hread : ∀ (d : Char) (text : Text),
        (validateEscapedFrom fuel text >>= fun read => pure (d :: read)) ≠ .error e :=
      fun d text => bind_ne_error validateEscapedFrom_ne_error fun _ _ => pure_ne_error
    rw [validateEscapedFrom]
    dsimp only
    repeat' split
    all_goals first | exact refuse_ne_error he (by simp [bodyRefusals]) | exact hread _ _

theorem readVerticalTag_ne_error : ∀ {fuel : Nat} {body text : Text},
    readVerticalTag fuel body text ≠ .error e
  | fuel, _, [] => by cases fuel <;> exact refuse_ne_error he (by simp [bodyRefusals])
  | 0, _, _ :: _ => refuse_ne_error he (by simp [bodyRefusals])
  | fuel + 1, body, c :: rest => by
    rw [readVerticalTag]
    repeat' split
    all_goals first
      | exact refuse_ne_error he (by simp [bodyRefusals])
      | exact pure_ne_error
      | exact readVerticalTag_ne_error

theorem splitVerticalFrom_ne_error : ∀ {fuel : Nat} {buffer text : Text},
    splitVerticalFrom fuel buffer text ≠ .error e
  | fuel, _, [] => by cases fuel <;> exact pure_ne_error
  | 0, _, _ :: _ => pure_ne_error
  | fuel + 1, buffer, c :: rest => by
    rw [splitVerticalFrom]
    split
    · exact splitVerticalFrom_ne_error
    · split
      · refine bind_ne_error (readVerticalTag_ne_error he) fun _ _ => ?_
        exact bind_ne_error splitVerticalFrom_ne_error fun _ _ => pure_ne_error
      · exact splitVerticalFrom_ne_error

theorem readProse_ne_error {flat prose : Text} : readProse flat prose ≠ .error e := by
  rw [readProse]
  split
  · exact pure_ne_error
  · refine bind_ne_error ?_ fun _ _ => pure_ne_error
    refine bind_ne_error (validateEscapedFrom_ne_error he) fun _ _ => ?_
    exact bind_ne_error (splitVerticalFrom_ne_error he) fun _ _ => pure_ne_error

theorem boundariesFrom_ne_error {isAlphanumeric : Char → Bool} : ∀ {fuel : Nat} {flat rest : Text}
    {boundaries : List (Nat × Text)},
    boundariesFrom isAlphanumeric fuel flat boundaries rest ≠ .error e
  | 0, _, _, _ => refuse_ne_error he (by simp [bodyRefusals])
  | fuel + 1, flat, rest, boundaries => by
    rw [boundariesFrom]
    refine bind_ne_error (readProse_ne_error he) fun _ _ => ?_
    split
    · exact pure_ne_error
    · split
      · exact refuse_ne_error he (by simp [bodyRefusals])
      · exact boundariesFrom_ne_error

end Foreign

/-! ## One paragraph -/

section Paragraph

variable {tables : CaseTables} {isAlphanumeric : Char → Bool} {query : Text} {caseSensitive : Bool}

theorem sliceChars_eq_ok_iff {flat : Text} {start stop : Nat} :
    (∃ part, sliceChars flat start stop = .ok part) ↔ start ≤ stop ∧ stop ≤ flat.length := by
  rw [sliceChars]
  split
  next hin => exact iff_of_true ⟨_, rfl⟩ hin
  next hout => exact iff_of_false (fun ⟨_, h⟩ => by cases h) hout

theorem exists_excerptWindow {flat : Text} {hitLength half offset : Nat}
    (hinside : offset + hitLength ≤ flat.length) :
    ∃ window, excerptWindow flat hitLength half offset = .ok window := by
  obtain ⟨slice, hslice⟩ := (@sliceChars_eq_ok_iff flat (offset - half)
    (min (offset + hitLength + half) flat.length)).mpr ⟨by omega, Nat.min_le_right _ _⟩
  exact ⟨_, bind_ok hslice⟩

theorem exists_excerpt {flat : Text} {offsets : List Nat} {hitLength contextChars : Nat}
    (hinside : ∀ offset ∈ offsets, offset + hitLength ≤ flat.length) :
    ∃ text, excerpt flat offsets hitLength contextChars = .ok text := by
  rw [excerpt]
  split
  · exact ⟨flat, rfl⟩
  · obtain ⟨windows, hwindows⟩ := mapM_ok_iff.mpr fun offset hoffset =>
      @exists_excerptWindow _ _ (contextChars / 2) _ (hinside offset hoffset)
    exact ⟨_, bind_ok hwindows⟩

variable {revision : String} {id body flat : Text} {boundaries : List (Nat × Text)}
  {hitLength : Nat}

/-- An occurrence that is reported lies in the text. -/
theorem inside_of_occurrenceAt {offset : Nat} {occurrence : Occurrence}
    (h : occurrenceAt query revision id body flat boundaries hitLength offset = .ok occurrence) :
    offset + hitLength ≤ flat.length ∧ occurrence.offset = offset := by
  obtain ⟨part, hpart, h⟩ := bind_eq_ok h
  obtain ⟨sliced, -, h⟩ := bind_eq_ok h
  obtain rfl := Except.ok.inj h
  exact ⟨(sliceChars_eq_ok_iff.mp ⟨part, hpart⟩).2, rfl⟩

theorem exists_occurrenceAt
    (hread : bodyBoundaries isAlphanumeric body = .ok (flat, boundaries)) {offset : Nat}
    (hinside : offset + hitLength ≤ flat.length) : ∃ occurrence,
      occurrenceAt query revision id body flat boundaries hitLength offset = .ok occurrence := by
  obtain ⟨part, hpart⟩ := sliceChars_eq_ok_iff.mpr ⟨Nat.le_add_right offset hitLength, hinside⟩
  obtain ⟨sliced, hsliced⟩ :=
    @exists_annotatedFrom isAlphanumeric offset (offset + hitLength) _ 0 [] _ _ _ _ hread
  exact ⟨_, by rw [occurrenceAt, bind_ok hpart, annotatedSlice, bind_ok hsliced]; rfl⟩

theorem offsets_of_forall₂ {occurrences : List Occurrence}
    (h : List.Forall₂ (fun offset occurrence =>
      offset + hitLength ≤ flat.length ∧ occurrence.offset = offset) offsets occurrences) :
    occurrences.map (·.offset) = offsets ∧
      ∀ offset ∈ offsets, offset + hitLength ≤ flat.length := by
  induction h with
  | nil => exact ⟨rfl, by simp⟩
  | cons hat _ ih =>
    exact ⟨congrArg₂ List.cons hat.2 ih.1, forall_mem_cons.mpr ⟨hat.1, ih.2⟩⟩

/-- The offsets a paragraph is reported with. -/
def reportedOffsets (reported : Option MatchBlock) : List Nat :=
  (reported.map fun block => block.occurrences.map (·.offset)).getD []

/-- The search of a paragraph that can be read ends exactly when every place it found lies in the
text, and reports these places. -/
theorem searchParagraph_spec
    (hread : bodyBoundaries isAlphanumeric body = .ok (flat, boundaries))
    {contextChars index : Nat} {blocks : List Text} {kind : Text} :
    ((∀ offset ∈ blockOffsets tables query caseSensitive flat,
        offset + (searchNeedle tables query caseSensitive).length ≤ flat.length) →
      ∃ reported, searchParagraph tables isAlphanumeric query caseSensitive revision contextChars
        blocks index kind id body = .ok reported) ∧
    ∀ reported, searchParagraph tables isAlphanumeric query caseSensitive revision contextChars
        blocks index kind id body = .ok reported →
      reportedOffsets reported = blockOffsets tables query caseSensitive flat ∧
      ∀ offset ∈ blockOffsets tables query caseSensitive flat,
        offset + (searchNeedle tables query caseSensitive).length ≤ flat.length := by
  have hunfold : searchParagraph tables isAlphanumeric query caseSensitive revision contextChars
      blocks index kind id body =
        if blockOffsets tables query caseSensitive flat = [] then pure none
        else matchBlock tables query caseSensitive revision blocks index kind id body flat
          boundaries contextChars (blockOffsets tables query caseSensitive flat) := by
    rw [searchParagraph, bind_ok hread]
  rw [hunfold]
  split
  next hnone =>
    rw [hnone]
    refine ⟨fun _ => ⟨none, rfl⟩, fun reported h => ?_⟩
    obtain rfl := Except.ok.inj h
    exact ⟨rfl, by simp⟩
  next hsome =>
    generalize blockOffsets tables query caseSensitive flat = offsets at hsome ⊢
    constructor
    · intro hinside
      obtain ⟨text, htext⟩ := @exists_excerpt _ _ _ contextChars hinside
      obtain ⟨occurrences, hoccurrences⟩ := mapM_ok_iff.mpr fun offset hoffset =>
        @exists_occurrenceAt _ query revision id _ _ _ _ hread _ (hinside offset hoffset)
      have hall := (mapM_eq_ok hoccurrences).imp fun _ _ => inside_of_occurrenceAt
      rw [matchBlock, bind_ok htext, bind_ok hoccurrences]
      cases hall with
      | nil => exact absurd rfl hsome
      | @cons offset first _ _ hfirst hrest =>
        obtain ⟨part, hpart⟩ := sliceChars_eq_ok_iff.mpr
          ⟨Nat.le_add_right first.offset _, hfirst.2.symm ▸ hfirst.1⟩
        exact ⟨_, bind_ok hpart⟩
    · intro reported h
      obtain ⟨text, -, h⟩ := bind_eq_ok h
      obtain ⟨occurrences, hoccurrences, h⟩ := bind_eq_ok h
      obtain ⟨first, -, h⟩ := bind_eq_ok h
      obtain ⟨part, -, h⟩ := bind_eq_ok h
      obtain rfl := Except.ok.inj h
      exact offsets_of_forall₂ ((mapM_eq_ok hoccurrences).imp fun _ _ => inside_of_occurrenceAt)

end Paragraph

variable {contextChars limit offset : Nat} {draft : SearchedDraft} {scope : Text}

variable {blocks : List Text} {body : Text} {read : Except CoreError α} {reply : DocumentSearch}

section Draft

variable (tables : CaseTables) (isAlphanumeric : Char → Bool) (query : Text) (caseSensitive : Bool)

/-- The search of a paragraph that can be read ends, and what it reports addresses the query. -/
def SearchesRight (body : Text) : Prop :=
  ∀ flat boundaries, bodyBoundaries isAlphanumeric body = .ok (flat, boundaries) →
    ∀ revision contextChars blocks index kind id, ∃ reported,
      searchParagraph tables isAlphanumeric query caseSensitive revision contextChars blocks index
        kind id body = .ok reported ∧
      match findingPass tables query caseSensitive flat with
      | none => reportedOffsets reported = []
      | some fold =>
        Addresses tables query caseSensitive fold flat (reportedOffsets reported)

/-- A paragraph the search looks at, by its body. -/
def Searched (draft : SearchedDraft) (scope body : Text) : Prop :=
  ∃ state text header blocks allowed, draft.editState = .ok state ∧ draft.projection = .ok text ∧
    splitEditBlocks text = .ok (header, blocks) ∧ scopeParagraphIds blocks scope = .ok allowed ∧
    ∃ block ∈ blocks, (searchedIdent allowed block).isSome = true ∧ blockBody block = body

/-- The search stays inside the text of every paragraph, and addresses the query there. -/
structure SearchesDraft (draft : SearchedDraft) (scope : Text) : Prop where
  not_panic : ∀ contextChars limit offset,
    documentSearch tables isAlphanumeric query caseSensitive draft contextChars limit offset scope ≠
      .error .panic
  reported : ∀ contextChars limit offset reply,
    documentSearch tables isAlphanumeric query caseSensitive draft contextChars limit offset scope =
      .ok reply →
    ∀ entry ∈ reply.found, ∃ body flat boundaries fold, Searched draft scope body ∧
      bodyBoundaries isAlphanumeric body = .ok (flat, boundaries) ∧
      findingPass tables query caseSensitive flat = some fold ∧
      Addresses tables query caseSensitive fold flat (entry.occurrences.map (·.offset))
  paragraphs : ∀ body, Searched draft scope body →
    SearchesRight tables isAlphanumeric query caseSensitive body

variable {tables isAlphanumeric query caseSensitive}

theorem searchesRight_iff (hquery : query ≠ []) :
    SearchesRight tables isAlphanumeric query caseSensitive body ↔
      ∀ flat boundaries, bodyBoundaries isAlphanumeric body = .ok (flat, boundaries) →
        ∀ fold, findingPass tables query caseSensitive flat = some fold →
          StaysInStep tables query caseSensitive fold flat := by
  refine forall_congr' fun flat => forall_congr' fun boundaries => forall_congr' fun hread => ?_
  have hmem := @mem_blockOffsets tables query caseSensitive hquery flat
  constructor
  · intro h fold hfold
    obtain ⟨reported, hreported, haddresses⟩ := h "" 0 [] 0 [] []
    have hoffsets := ((searchParagraph_spec hread).2 reported hreported).1
    rw [hfold, hoffsets] at haddresses
    refine (addresses_iff (mem_of_find?_eq_some hfold) fun place => ?_).mp haddresses
    simp [hmem, hfold]
  · intro h revision contextChars blocks index kind id
    cases hfold : findingPass tables query caseSensitive flat with
    | none =>
      have hnone : blockOffsets tables query caseSensitive flat = [] := by
        refine eq_nil_iff_forall_not_mem.mpr fun place hplace => ?_
        obtain ⟨fold, hfound, -⟩ := hmem.mp hplace
        rw [hfold] at hfound
        cases hfound
      obtain ⟨reported, hreported⟩ :=
        (@searchParagraph_spec tables isAlphanumeric query caseSensitive revision id body flat
          boundaries hread contextChars index blocks kind).1 (by rw [hnone]; simp)
      have hoffsets := ((searchParagraph_spec hread).2 reported hreported).1
      exact ⟨reported, hreported, hoffsets.trans hnone⟩
    | some fold =>
      have hoffsets : ∀ place, place ∈ blockOffsets tables query caseSensitive flat ↔
          passNeedle tables query caseSensitive fold <+:
            (passChunks tables caseSensitive fold flat).flatten.drop place := by
        intro place
        simp [hmem, hfold]
      have haddresses := (addresses_iff (mem_of_find?_eq_some hfold) hoffsets).mpr
        (h fold hfold)
      obtain ⟨reported, hreported⟩ :=
        (@searchParagraph_spec tables isAlphanumeric query caseSensitive revision id body flat
          boundaries hread contextChars index blocks kind).1 haddresses.inside
      have hoffsets := ((searchParagraph_spec hread).2 reported hreported).1
      exact ⟨reported, hreported, hoffsets.symm ▸ haddresses⟩

theorem searchParagraph_ne_panic (h : SearchesRight tables isAlphanumeric query caseSensitive body)
    {revision : String} {contextChars index : Nat} {kind id : Text} :
    searchParagraph tables isAlphanumeric query caseSensitive revision contextChars blocks index
      kind id body ≠ .error .panic := by
  cases hread : bodyBoundaries isAlphanumeric body with
  | ok read =>
    obtain ⟨reported, hreported, -⟩ := h read.1 read.2 hread revision contextChars blocks index
      kind id
    rw [hreported]
    exact fun h => by cases h
  | error e =>
    intro hpanic
    rw [searchParagraph, hread] at hpanic
    obtain rfl : e = .panic := by simpa [bind, Except.bind] using hpanic
    exact (boundariesFrom_ne_error foreign_panic) hread

theorem mapM_ne_panic {α β : Type} {f : α → Outcome β} : ∀ {xs : List α},
    (∀ x ∈ xs, f x ≠ .error .panic) → xs.mapM f ≠ .error .panic
  | [], _ => pure_ne_error
  | x :: xs, h => by
    obtain ⟨hx, hxs⟩ := forall_mem_cons.mp h
    rw [mapM_cons]
    refine bind_ne_error hx fun _ _ => ?_
    exact bind_ne_error (mapM_ne_panic hxs) fun _ _ => pure_ne_error

theorem readWorkdir_eq_ok {a : α} (h : readWorkdir read = .ok a) : read = .ok a := by
  cases read with
  | ok a' => exact congrArg Except.ok (Except.ok.inj h)
  | error e => cases h

theorem readWorkdir_ne_panic : readWorkdir read ≠ .error .panic := by
  cases read with
  | ok a => exact fun h => by cases h
  | error e => exact fun h => by cases h

theorem splitEditBlocks_ne_panic {text : Text} : splitEditBlocks text ≠ .error .panic := by
  rw [splitEditBlocks]
  split
  · exact refuse_ne_panic
  · split
    · exact pure_ne_error
    · exact refuse_ne_panic

theorem scopeParagraphIds_ne_panic : scopeParagraphIds blocks scope ≠ .error .panic := by
  rw [scopeParagraphIds]
  dsimp only
  repeat' split
  all_goals first | exact pure_ne_error | exact refuse_ne_panic

section

variable
  (h : documentSearch tables isAlphanumeric query caseSensitive draft contextChars limit offset
    scope = .ok reply)

include h

/-- What the search of a draft is made of. -/
theorem documentSearch_blocks : query ≠ [] ∧ ∃ state text header blocks allowed,
      draft.editState = .ok state ∧ draft.projection = .ok text ∧
      splitEditBlocks text = .ok (header, blocks) ∧ scopeParagraphIds blocks scope = .ok allowed ∧
      ∀ entry ∈ reply.found, ∃ block ∈ blocks, ∃ index kind id,
        searchedIdent allowed block = some (kind, id) ∧
        searchParagraph tables isAlphanumeric query caseSensitive state.editBodySha256 contextChars
          blocks index kind id (blockBody block) = .ok (some entry) := by
  rw [documentSearch] at h
  split at h
  next => exact absurd h refuse_ne_ok
  next hquery =>
    obtain ⟨state, hstate, h⟩ := bind_eq_ok h
    obtain ⟨text, htext, h⟩ := bind_eq_ok h
    obtain ⟨⟨header, blocks⟩, hsplit, h⟩ := bind_eq_ok h
    obtain ⟨allowed, hallowed, h⟩ := bind_eq_ok h
    obtain ⟨searched, hsearched, h⟩ := bind_eq_ok h
    obtain rfl := Except.ok.inj h
    refine ⟨hquery, state, text, header, blocks, allowed, readWorkdir_eq_ok hstate,
      readWorkdir_eq_ok htext, hsplit, hallowed, fun entry hentry => ?_⟩
    have hsome : some entry ∈ searched := by
      obtain ⟨_, hmem, rfl⟩ :=
        mem_filterMap.mp (mem_of_mem_take (mem_of_mem_drop hentry))
      exact hmem
    obtain ⟨⟨block, index⟩, hblock, hfound⟩ :=
      exists_of_forall₂_of_mem (mapM_eq_ok hsearched) hsome
    rw [searchBlock] at hfound
    split at hfound
    next => cases hfound
    next kind id hident =>
      exact ⟨block, (mem_zipIdx' hblock).2 ▸ getElem_mem _, index, kind, id, hident,
        hfound⟩

theorem documentSearch_eq_ok :
    ∀ entry ∈ reply.found, ∃ body revision blocks index kind id, Searched draft scope body ∧
      searchParagraph tables isAlphanumeric query caseSensitive revision contextChars blocks index
        kind id body = .ok (some entry) := by
  obtain ⟨-, state, text, header, blocks, allowed, hstate, htext, hsplit, hallowed, hfound⟩ :=
    documentSearch_blocks h
  intro entry hentry
  obtain ⟨block, hblock, index, kind, id, hident, hfound⟩ := hfound entry hentry
  refine ⟨blockBody block, _, _, _, _, _, ?_, hfound⟩
  exact ⟨state, text, header, blocks, allowed, hstate, htext, hsplit, hallowed, block, hblock,
    by rw [hident]; rfl, rfl⟩

end

theorem documentSearch_ne_panic (h : ∀ body, Searched draft scope body →
      SearchesRight tables isAlphanumeric query caseSensitive body) :
    documentSearch tables isAlphanumeric query caseSensitive draft contextChars limit offset scope ≠
      .error .panic := by
  rw [documentSearch]
  split
  · exact refuse_ne_panic
  · refine bind_ne_error readWorkdir_ne_panic fun state hstate => ?_
    refine bind_ne_error readWorkdir_ne_panic fun text htext => ?_
    refine bind_ne_error splitEditBlocks_ne_panic fun ⟨header, blocks⟩ hsplit => ?_
    refine bind_ne_error scopeParagraphIds_ne_panic fun allowed hallowed => ?_
    refine bind_ne_error (mapM_ne_panic fun ⟨block, index⟩ hblock => ?_) fun _ _ => pure_ne_error
    rw [searchBlock]
    split
    next => exact pure_ne_error
    next kind id hident =>
      refine searchParagraph_ne_panic (h _ ?_)
      exact ⟨state, text, header, blocks, allowed, readWorkdir_eq_ok hstate,
        readWorkdir_eq_ok htext, hsplit, hallowed, block,
        (mem_zipIdx' hblock).2 ▸ getElem_mem _, by rw [hident]; rfl, rfl⟩

/-- The tables on ASCII and on `İ`, which becomes two letters. -/
def dottedTables : CaseTables where
  lower c := if c = 'İ' then ['i', '\u0307'] else [c.toLower]
  lower_ne_nil c := by split <;> exact List.cons_ne_nil _ _
  cased c := c.isAlpha || c == 'İ' || c == 'Σ'
  caseIgnorable c := c == '\u0307'

/-- A draft of one paragraph. -/
def draftOf (body : String) : SearchedDraft where
  editState := .ok ⟨"clean", ""⟩
  projection := .ok ("<!--@edit-->\n<!--@p id=\"P1\"-->\n" ++ body).toList

theorem searched_draftOf_plain (h : Searched (draftOf "aBxb") "all".toList body) :
    body = "aBxb".toList := by
  obtain ⟨state, text, header, blocks, allowed, -, htext, hsplit, -, block, hblock, -, rfl⟩ := h
  obtain rfl := Except.ok.inj htext
  have hblocks : splitEditBlocks "<!--@edit-->\n<!--@p id=\"P1\"-->\naBxb".toList =
      .ok ("<!--@edit-->".toList, ["<!--@p id=\"P1\"-->\naBxb".toList]) := by decide +kernel
  obtain ⟨-, rfl⟩ := Prod.mk.inj (Except.ok.inj (hsplit.symm.trans hblocks))
  obtain rfl := mem_singleton.mp hblock
  decide +kernel

end Draft

end Docx2Typed
