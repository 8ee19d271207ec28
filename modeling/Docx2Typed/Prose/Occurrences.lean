import Docx2Typed.Prose.Validation

/-!
# Is an edit without an offset unambiguous?

Without an offset, `match_leaf_span_at` keeps one match for each leaf in which one starts, and the
check of a share looks for a second one behind the first.  `validateEdit_unique_iff` says when that
catches a second occurrence: it does not see one that starts in the same leaf and overlaps the first
or runs on into the next leaf, unless a share of the first happens to repeat.
-/

namespace Docx2Typed

open Library (findSub findSub_eq_some_iff findSub_eq_none_iff)
open List

/-- The places at which a text stands, overlapping ones among them. -/
def occurrences (old text : Text) : List Nat :=
  (List.range text.length).filter fun place => decide (old <+: text.drop place)

/-- The leaf that holds a character. -/
def leafAt : List ProseLeaf → Nat → Nat
  | [], _ => 0
  | leaf :: rest, place =>
    if place < leaf.text.length then 0 else leafAt rest (place - leaf.text.length) + 1

/-- Occurrences start in two leaves. -/
def StartsInTwo (old : Text) (leaves : List ProseLeaf) : Prop :=
  ∃ a ∈ occurrences old (leafChars leaves), ∃ b ∈ occurrences old (leafChars leaves),
    leafAt leaves a ≠ leafAt leaves b

/-- The leaves of a paragraph from one on. -/
def leavesFrom (inventory : ProseInventory) (part paragraphId : String) (fromLeaf : Nat) :
    List ProseLeaf :=
  (addressedLeaves inventory part paragraphId).dropWhile fun leaf => leaf.leafIndex < fromLeaf

/-- The spans that start in each leaf. -/
def startingSpans (old : Text) : List ProseLeaf → List LeafSpanMatch
  | [] => []
  | leaf :: rest => (extendSpan none old leaf [] (leaf :: rest)).toList ++ startingSpans old rest

theorem spansFrom_started (old : Text) (fromLeaf : Nat) :
    ∀ (leaves : List ProseLeaf) (projectedPrefix : Nat),
      spansFrom old none fromLeaf true projectedPrefix leaves = startingSpans old leaves
  | [], _ => rfl
  | leaf :: rest, projectedPrefix => by
    rw [spansFrom, startingSpans]
    simp only [Bool.true_or, if_true]
    rw [spansFrom_started old fromLeaf rest]

theorem spansFrom_none (old : Text) (fromLeaf : Nat) :
    ∀ (leaves : List ProseLeaf) (projectedPrefix : Nat),
      spansFrom old none fromLeaf false projectedPrefix leaves =
        startingSpans old (leaves.dropWhile fun leaf => leaf.leafIndex < fromLeaf)
  | [], _ => rfl
  | leaf :: rest, projectedPrefix => by
    by_cases hlate : leaf.leafIndex < fromLeaf
    · have hnot : decide (fromLeaf ≤ leaf.leafIndex) = false := by simpa using hlate
      rw [spansFrom, dropWhile_cons_of_pos (by simpa using hlate)]
      simp only [hnot, Bool.or_false, Bool.false_eq_true, if_false]
      exact spansFrom_none old fromLeaf rest _
    · have hstarted : decide (fromLeaf ≤ leaf.leafIndex) = true := by
        simpa using Nat.le_of_not_lt hlate
      rw [spansFrom, dropWhile_cons_of_neg (by simpa using hlate), startingSpans]
      simp only [hstarted, Bool.or_true, if_true]
      rw [spansFrom_started old fromLeaf rest]

section Starting

variable {old : Text}

theorem mem_occurrences (hold : old ≠ []) {text : Text} {place : Nat} :
    place ∈ occurrences old text ↔ old <+: text.drop place := by
  rw [occurrences, mem_filter, mem_range, decide_eq_true_eq, and_iff_right_iff_imp]
  intro h
  have hpos := length_pos_of_ne_nil hold
  have hle := h.length_le
  rw [length_drop] at hle
  omega

theorem occurrences_eq_nil_iff (hold : old ≠ []) {text : Text} :
    occurrences old text = [] ↔ findSub old text = none := by
  rw [findSub_eq_none_iff, eq_nil_iff_forall_not_mem]
  constructor
  · rintro hnone ⟨before, after, hsplit⟩
    refine hnone before.length ((mem_occurrences hold).mpr ⟨after, ?_⟩)
    rw [← hsplit, append_assoc, drop_left]
  · intro hnone place hplace
    exact hnone (((mem_occurrences hold).mp hplace).isInfix.trans (drop_suffix _ _).isInfix)

/-- The first occurrence is the least one. -/
theorem findSub_le {text : Text} {first place : Nat} (h : findSub old text = some first)
    (hplace : old <+: text.drop place) : first ≤ place := by
  obtain ⟨-, -, hfirst⟩ := findSub_eq_some_iff.mp h
  exact Nat.le_of_not_lt fun hlt => hfirst place hlt hplace

theorem mem_occurrences_behind (hold : old ≠ []) (leaf : ProseLeaf) (rest : List ProseLeaf)
    (place : Nat) : leaf.text.length + place ∈ occurrences old (leafChars (leaf :: rest)) ↔
      place ∈ occurrences old (leafChars rest) := by
  rw [mem_occurrences hold, mem_occurrences hold, leafChars_cons, drop_length_add_append]

/-- A span starts in a leaf where an occurrence does; it is the first one from there on. -/
theorem extendSpan_cases (hold : old ≠ []) (leaf : ProseLeaf) (rest : List ProseLeaf) :
    (∃ place span, findSub old (leafChars (leaf :: rest)) = some place ∧
      place < leaf.text.length ∧ extendSpan none old leaf [] (leaf :: rest) = some span ∧
      covering span.covers =
        covering (sharesFrom place (place + old.length) 0 (leaf :: rest))) ∨
    extendSpan none old leaf [] (leaf :: rest) = none ∧
      ∀ place ∈ occurrences old (leafChars (leaf :: rest)), leaf.text.length ≤ place := by
  have hempty : placeIn none old (leafChars []) = none := if_neg hold
  cases hfind : findSub old (leafChars (leaf :: rest)) with
  | none =>
    refine .inr ⟨extendSpan_of_none hold hfind, fun place hplace => ?_⟩
    rw [(occurrences_eq_nil_iff hold).mpr hfind] at hplace
    cases hplace
  | some place =>
    have hextend := @extendSpan_of_some none old leaf hold place [] (leaf :: rest) hempty hfind
    split at hextend
    next hbehind =>
      refine .inr ⟨hextend, fun other hother => hbehind.trans ?_⟩
      exact findSub_le hfind ((mem_occurrences hold).mp hother)
    next hin =>
      obtain ⟨span, hspan, hat⟩ := hextend
      rw [not_le] at hin
      exact .inl ⟨place, span, rfl, hin, hspan, hat.covering rfl hin⟩

theorem leafAt_behind (leaf : ProseLeaf) (rest : List ProseLeaf) (place : Nat) :
    leafAt (leaf :: rest) (leaf.text.length + place) = leafAt rest place + 1 := by
  rw [leafAt, if_neg (by omega), Nat.add_sub_cancel_left]

theorem startingSpans_eq_nil_iff (hold : old ≠ []) : ∀ leaves : List ProseLeaf,
    startingSpans old leaves = [] ↔ occurrences old (leafChars leaves) = []
  | [] => by simp [startingSpans, occurrences]
  | leaf :: rest => by
    have hrest := startingSpans_eq_nil_iff hold rest
    rcases extendSpan_cases hold leaf rest with
      ⟨place, span, hfind, -, hspan, -⟩ | ⟨hnone, hbehind⟩
    · rw [startingSpans, hspan, occurrences_eq_nil_iff hold, hfind]
      simp
    · rw [startingSpans, hnone, Option.toList_none, nil_append, hrest]
      constructor
      · intro h
        refine eq_nil_iff_forall_not_mem.mpr fun place hplace => ?_
        obtain ⟨q, rfl⟩ := Nat.exists_eq_add_of_le (hbehind place hplace)
        rw [mem_occurrences_behind hold, h] at hplace
        cases hplace
      · intro h
        refine eq_nil_iff_forall_not_mem.mpr fun place hplace => ?_
        rw [← mem_occurrences_behind hold leaf, h] at hplace
        cases hplace

/-- Two spans, where occurrences start in two leaves. -/
theorem two_le_startingSpans_iff (hold : old ≠ []) : ∀ leaves : List ProseLeaf,
    2 ≤ (startingSpans old leaves).length ↔ StartsInTwo old leaves
  | [] => by simp [startingSpans, StartsInTwo, occurrences]
  | leaf :: rest => by
    have hrest := two_le_startingSpans_iff hold rest
    have hempty := startingSpans_eq_nil_iff hold rest
    -- two occurrences behind the leaf
    have hshift : StartsInTwo old rest → StartsInTwo old (leaf :: rest) := by
      rintro ⟨a, ha, b, hb, hne⟩
      refine ⟨_, (mem_occurrences_behind hold leaf rest a).mpr ha, _,
        (mem_occurrences_behind hold leaf rest b).mpr hb, ?_⟩
      rw [leafAt_behind, leafAt_behind]
      exact fun h => hne (Nat.succ_injective h)
    have hunshift : ∀ a ∈ occurrences old (leafChars (leaf :: rest)),
        ∀ b ∈ occurrences old (leafChars (leaf :: rest)), leaf.text.length ≤ a →
          leaf.text.length ≤ b → leafAt (leaf :: rest) a ≠ leafAt (leaf :: rest) b →
            StartsInTwo old rest := by
      intro a ha b hb hlea hleb hne
      obtain ⟨a, rfl⟩ := Nat.exists_eq_add_of_le hlea
      obtain ⟨b, rfl⟩ := Nat.exists_eq_add_of_le hleb
      rw [leafAt_behind, leafAt_behind] at hne
      exact ⟨a, (mem_occurrences_behind hold leaf rest a).mp ha, b,
        (mem_occurrences_behind hold leaf rest b).mp hb, fun h => hne (by rw [h])⟩
    rcases extendSpan_cases hold leaf rest with
      ⟨place, span, hfind, hin, hspan, -⟩ | ⟨hnone, hbehind⟩
    · rw [startingSpans, hspan, Option.toList_some, singleton_append, length_cons]
      have hplace : place ∈ occurrences old (leafChars (leaf :: rest)) := by
        obtain ⟨⟨after, hafter⟩, -⟩ := findSub_eq_some_iff.mp hfind
        exact (mem_occurrences hold).mpr ⟨after, hafter.symm⟩
      have hzero : leafAt (leaf :: rest) place = 0 := by rw [leafAt, if_pos hin]
      constructor
      · intro h
        have hne : occurrences old (leafChars rest) ≠ [] := by
          intro hnil
          rw [hempty.mpr hnil] at h
          exact absurd h (by decide)
        obtain ⟨b, hb⟩ := exists_mem_of_ne_nil _ hne
        refine ⟨place, hplace, _, (mem_occurrences_behind hold leaf rest b).mpr hb, ?_⟩
        rw [hzero, leafAt_behind]
        exact (Nat.succ_ne_zero _).symm
      · rintro ⟨a, ha, b, hb, hne⟩
        by_contra hfew
        have hnil : occurrences old (leafChars rest) = [] :=
          hempty.mp (length_eq_zero_iff.mp (by omega))
        have hlt : ∀ c ∈ occurrences old (leafChars (leaf :: rest)), c < leaf.text.length := by
          intro c hc
          by_contra hle
          obtain ⟨c, rfl⟩ := Nat.exists_eq_add_of_le (Nat.le_of_not_lt hle)
          rw [mem_occurrences_behind hold, hnil] at hc
          cases hc
        rw [leafAt, leafAt, if_pos (hlt a ha), if_pos (hlt b hb)] at hne
        exact hne rfl
    · rw [startingSpans, hnone, Option.toList_none, nil_append, hrest]
      refine ⟨hshift, ?_⟩
      rintro ⟨a, ha, b, hb, hne⟩
      exact hunshift a ha b hb (hbehind a ha) (hbehind b hb) hne

/-- The only span covers the shares of the first occurrence. -/
theorem covering_of_startingSpans (hold : old ≠ []) {span : LeafSpanMatch} :
    ∀ {leaves : List ProseLeaf}, startingSpans old leaves = [span] →
      ∃ place, findSub old (leafChars leaves) = some place ∧
        covering span.covers = covering (sharesFrom place (place + old.length) 0 leaves)
  | [], h => by cases h
  | leaf :: rest, h => by
    rw [startingSpans] at h
    rcases extendSpan_cases hold leaf rest with
      ⟨place, span', hfind, -, hspan, hcovers⟩ | ⟨hnone, hbehind⟩
    · rw [hspan, Option.toList_some, singleton_append] at h
      obtain ⟨rfl, -⟩ := List.cons.inj h
      exact ⟨place, hfind, hcovers⟩
    · rw [hnone, Option.toList_none, nil_append] at h
      obtain ⟨place, hfind, hcovers⟩ := covering_of_startingSpans hold h
      refine ⟨leaf.text.length + place, ?_, ?_⟩
      · obtain ⟨⟨after, hafter⟩, hle, hfirst⟩ := findSub_eq_some_iff.mp hfind
        refine findSub_eq_some_iff.mpr ⟨⟨after, ?_⟩, ?_, fun j hj hstarts => ?_⟩
        · rw [leafChars_cons, drop_length_add_append, hafter]
        · rw [leafChars_cons, length_append]
          omega
        · have hj' := hbehind j ((mem_occurrences hold).mpr hstarts)
          obtain ⟨k, rfl⟩ := Nat.exists_eq_add_of_le hj'
          rw [leafChars_cons, drop_length_add_append] at hstarts
          exact hfirst k (by omega) hstarts
      · have hshift : sharesFrom (leaf.text.length + place)
            (leaf.text.length + (place + old.length)) (leaf.text.length + 0) rest =
              sharesFrom place (place + old.length) 0 rest := sharesFrom_shift leaf.text.length
        rw [hcovers, Nat.add_assoc, covering_sharesFrom_cons (by omega), Nat.zero_add, ← hshift,
          Nat.add_zero]

end Starting

/-! ## What the validator says -/

/-- An edit without an offset is accepted only if its text stands once, and refused as ambiguous
where it stands twice. -/
def UniqueOrRefused (outcome : Outcome Unit) (old chars : Text) : Prop :=
  (outcome = .ok () → (occurrences old chars).length = 1) ∧
    (2 ≤ (occurrences old chars).length → RefusedAmbiguous outcome)

/-- A second occurrence is seen: it starts in another leaf, or a share of the first repeats. -/
def SeesSecond (inventory : ProseInventory) (edit : IslandEdit) : Prop :=
  let leaves := leavesFrom inventory edit.part edit.paragraphId edit.leafIndex
  (occurrences edit.old (leafChars leaves)).length ≤ 1 ∨ StartsInTwo edit.old leaves ∨
    ∃ place, findSub edit.old (leafChars leaves) = some place ∧
      FirstFailureRepeats inventory edit.part edit.paragraphId
        (covering (sharesFrom place (place + edit.old.length) 0 leaves))

theorem matchLeafSpanAt_none {inventory : ProseInventory} {part paragraphId : String}
    {fromLeaf : Nat} {old : Text} (hold : old ≠ []) :
    matchLeafSpanAt inventory part paragraphId fromLeaf old none =
      match startingSpans old (leavesFrom inventory part paragraphId fromLeaf) with
      | [] => pure none
      | [found] => pure (some found)
      | _ => refuse ("prose-edit-ambiguous: old text occurs more than once across the text " ++
          "runs of this paragraph") := by
  rw [matchLeafSpanAt, if_neg hold, spansFrom_none]
  rfl

theorem checkEdit_unique_iff {part : Bytes} {inventory : ProseInventory} {edit : IslandEdit}
    (hread : ReadFrom part inventory edit.part) (hold : edit.old ≠ [])
    (hchar : edit.charStart = none) :
    UniqueOrRefused (checkEdit part inventory edit) edit.old
        (leafChars (leavesFrom inventory edit.part edit.paragraphId edit.leafIndex)) ↔
      SeesSecond inventory edit := by
  set leaves := leavesFrom inventory edit.part edit.paragraphId edit.leafIndex with hleaves
  have hempty := startingSpans_eq_nil_iff hold leaves
  have htwo := two_le_startingSpans_iff hold leaves
  rw [SeesSecond, ← hleaves, ← htwo, checkEdit, hchar, matchLeafSpanAt_none hold, ← hleaves]
  cases hspans : startingSpans edit.old leaves with
  | nil =>
    -- no occurrence
    have hnone := hempty.mp hspans
    refine iff_of_true ⟨fun h => (refuse_ne_ok h).elim, fun h => ?_⟩ (.inl ?_)
    · rw [hnone] at h
      exact absurd h (by decide)
    · rw [hnone]
      exact Nat.zero_le _
  | cons span more =>
    have hsome : occurrences edit.old (leafChars leaves) ≠ [] := by
      rw [Ne, ← hempty, hspans]
      exact cons_ne_nil _ _
    have hpos := length_pos_of_ne_nil hsome
    cases more with
    | nil =>
      obtain ⟨place, hplace, hcovers⟩ := covering_of_startingSpans hold hspans
      obtain ⟨-, hrepeats⟩ := @checkCovers_spec part inventory edit.part edit.paragraphId
        hread span.covers
      rw [hcovers] at hrepeats
      simp only [pure_bind]
      rw [UniqueOrRefused, hrepeats]
      constructor
      · rintro ⟨-, htwice⟩
        by_cases hfew : (occurrences edit.old (leafChars leaves)).length ≤ 1
        · exact .inl hfew
        · exact .inr (.inr ⟨place, hplace, htwice (by omega)⟩)
      · rintro (hfew | hstarts | ⟨place', hplace', hfails⟩)
        · exact ⟨fun _ => by omega, fun h => by omega⟩
        · simp at hstarts
        · obtain rfl := Option.some.inj (hplace.symm.trans hplace')
          refine ⟨fun hok => ?_, fun _ => hfails⟩
          rw [hok] at hrepeats
          exact (refusedAmbiguous_ok _ (hrepeats.mpr hfails)).elim
    | cons second more =>
      have hmessage : ("prose-edit-ambiguous: old text occurs more than once across the text " ++
          "runs of this paragraph") = "prose-edit-ambiguous" ++
            ": old text occurs more than once across the text runs of this paragraph" := by decide
      have hrefused : RefusedAmbiguous (refuse ("prose-edit-ambiguous: old text occurs more than " ++
          "once across the text " ++ "runs of this paragraph") : Outcome Unit) :=
        ⟨_, congrArg refuse hmessage⟩
      exact iff_of_true ⟨fun h => (refuse_ne_ok h).elim, fun _ => hrefused⟩ (.inr (.inl (by simp)))

/-- A second occurrence is refused exactly where it is seen. -/
theorem validateEdit_unique_iff (crates : Crates) (hnames : crates.IndexesByName)
    (package part : Bytes) (inventory : ProseInventory) (edit : IslandEdit)
    (hpart : readPartBytes crates package (partPath edit.part) = .ok part)
    (hinventory : enumeratePackage crates package = .ok inventory)
    (hold : edit.old ≠ []) (hchar : edit.charStart = none) :
    UniqueOrRefused (validateEdit crates package edit) edit.old
        (leafChars (leavesFrom inventory edit.part edit.paragraphId edit.leafIndex)) ↔
      SeesSecond inventory edit := by
  rw [validateEdit, bind_ok hpart, bind_ok hinventory]
  exact checkEdit_unique_iff (readFrom_of_enumerate hnames hpart hinventory) hold hchar

/-- The edit replaces `old` in the first paragraph of the document. -/
def unanchoredEdit (old : String) : IslandEdit where
  part := "document"
  paragraphId := "P0"
  leafIndex := 0
  old := old.toList
  new := []

theorem validateEdit_unique_twoRuns : ∃ inventory,
    enumeratePackage twoRunsCrates twoRunsPackage = .ok inventory ∧
    (UniqueOrRefused (validateEdit twoRunsCrates twoRunsPackage (unanchoredEdit "bc"))
        (unanchoredEdit "bc").old
        (leafChars (leavesFrom inventory "document" "P0" 0)) ↔
      SeesSecond inventory (unanchoredEdit "bc")) := by
  have hpart : (readPartBytes twoRunsCrates twoRunsPackage (partPath "document")).toOption.map
      (fun _ => ()) = some () := by
    rw [twoRunsCrates, twoRunsPackage, twoRuns, bytes_ofList]
    decide +kernel
  have hinventory : (enumeratePackage twoRunsCrates twoRunsPackage).toOption.map (fun _ => ()) =
      some () := by
    rw [twoRunsCrates, twoRunsPackage, twoRuns, bytes_ofList]
    decide +kernel
  obtain ⟨part, hpart, -⟩ := exists_ok_of_map hpart
  obtain ⟨inventory, hinventory, -⟩ := exists_ok_of_map hinventory
  exact ⟨inventory, hinventory, validateEdit_unique_iff _ (storedCrates_indexesByName _ _) _ part
    inventory (unanchoredEdit "bc") hpart hinventory (by decide) rfl⟩

/-- A second occurrence that runs on into the next leaf. -/
def runningOn : Bytes :=
  bytes "<w:document><w:body><w:p><w:r><w:t>abxa</w:t></w:r><w:r><w:t>b</w:t></w:r></w:p></w:body></w:document>"

theorem runningOn_accepted : ∃ inventory,
    enumeratePackage (storedCrates 0x1f0a385f runningOn) (storedDocument 0x1f0a385f runningOn) =
      .ok inventory ∧
    occurrences "ab".toList (leafChars (leavesFrom inventory "document" "P0" 0)) = [0, 3] ∧
    validateEdit (storedCrates 0x1f0a385f runningOn) (storedDocument 0x1f0a385f runningOn)
      (unanchoredEdit "ab") = .ok () ∧
    ¬ UniqueOrRefused (validateEdit (storedCrates 0x1f0a385f runningOn)
      (storedDocument 0x1f0a385f runningOn) (unanchoredEdit "ab")) "ab".toList
        (leafChars (leavesFrom inventory "document" "P0" 0)) := by
  have hinventory : (enumeratePackage (storedCrates 0x1f0a385f runningOn)
      (storedDocument 0x1f0a385f runningOn)).toOption.map (fun inventory =>
        occurrences "ab".toList (leafChars (leavesFrom inventory "document" "P0" 0))) =
      some [0, 3] := by
    rw [runningOn, bytes_ofList]
    decide +kernel
  have haccepted : validateEdit (storedCrates 0x1f0a385f runningOn)
      (storedDocument 0x1f0a385f runningOn) (unanchoredEdit "ab") = .ok () := by
    rw [runningOn, bytes_ofList]
    decide +kernel
  obtain ⟨inventory, hinventory, hplaces⟩ := exists_ok_of_map hinventory
  refine ⟨inventory, hinventory, hplaces, haccepted, fun h => ?_⟩
  have hone := h.1 haccepted
  rw [hplaces] at hone
  exact absurd hone (by decide)

end Docx2Typed
