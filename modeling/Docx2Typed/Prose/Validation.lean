import Docx2Typed.Prose.Collisions
import Docx2Typed.Prose.Shares

/-!
# What the validator accepts

`validate_edit` resolves an edit as the applier does and proves each share the applier's way: the
share must stand in its own leaf, and not twice.  `checkCovers_eq_ok_iff` and
`checkCovers_ambiguous_iff` say when the shares of a match pass, and when the first that does not
is refused as ambiguous.
-/

namespace Docx2Typed

open Library (findSub findSub_eq_some_iff findSub_eq_none_iff findSub_add_length_le)
open List

/-! ## The validator -/

section Check

variable (part : Bytes) (inventory : ProseInventory) (partKey paragraphId : String)

/-- The proof of one share. -/
def checkCover (cover : SpanCover) : Outcome Unit := do
  let leaf ← resolveLeaf inventory partKey paragraphId cover.leafIndex
  match ← findOldByteRange part leaf.textStart leaf.textEnd cover.covered with
  | none => refuse (s!"invalid-edit: {repr (String.ofList cover.covered)} not found in run " ++
      s!"{paragraphId}.{cover.leafIndex} of {partKey}")
  | some _ => pure ()

def checkCovers : List SpanCover → Outcome Unit
  | [] => pure ()
  | cover :: rest =>
    if cover.covered = [] then checkCovers rest
    else do
      checkCover part inventory partKey paragraphId cover
      checkCovers rest

end Check

/-- `validate_edit`, on a part and the inventory of its package. -/
def checkEdit (part : Bytes) (inventory : ProseInventory) (edit : IslandEdit) : Outcome Unit := do
  match ← matchLeafSpanAt inventory edit.part edit.paragraphId edit.leafIndex edit.old
      edit.charStart with
  | none => refuse (s!"invalid-edit: old text {repr (String.ofList edit.old)} not found in " ++
      s!"paragraph {edit.paragraphId} of {edit.part}")
  | some span => checkCovers part inventory edit.part edit.paragraphId span.covers

/-- `validate_edit`. -/
def validateEdit (crates : Crates) (package : Bytes) (edit : IslandEdit) : Outcome Unit := do
  let part ← readPartBytes crates package (partPath edit.part)
  let inventory ← enumeratePackage crates package
  checkEdit part inventory edit

/-! ## How often a share stands in its leaf -/

/-- The text stands at two places that do not overlap. -/
def StandsTwice (share text : Text) : Prop :=
  ∃ i j, share <+: text.drop i ∧ share <+: text.drop j ∧ i + share.length ≤ j

/-- The text stands somewhere, and not at two places that do not overlap. -/
def StandsOnce (share text : Text) : Prop :=
  (∃ i, share <+: text.drop i) ∧ ¬ StandsTwice share text

/-- The leaf that an index names. -/
def namedLeaf (inventory : ProseInventory) (partKey paragraphId : String) (leafIndex : Nat) :
    Option ProseLeaf :=
  inventory.leaves.find? fun leaf =>
    leaf.partKey = partKey ∧ leaf.paragraphId = paragraphId ∧ leaf.leafIndex = leafIndex

section Share

variable (inventory : ProseInventory) (partKey paragraphId : String)

/-- The share is proved. -/
def SharePasses (cover : SpanCover) : Prop :=
  ∃ leaf, namedLeaf inventory partKey paragraphId cover.leafIndex = some leaf ∧
    leaf.editable = true ∧ StandsOnce cover.covered leaf.text

/-- The share is refused as ambiguous. -/
def ShareRepeats (cover : SpanCover) : Prop :=
  ∃ leaf, namedLeaf inventory partKey paragraphId cover.leafIndex = some leaf ∧
    leaf.editable = true ∧ StandsTwice cover.covered leaf.text

end Share

/-- Refused with `prose-edit-ambiguous`. -/
def RefusedAmbiguous {α : Type} (outcome : Outcome α) : Prop :=
  ∃ rest : String, outcome = refuse ("prose-edit-ambiguous" ++ rest)

/-- A failure with another message. -/
def NotAmbiguous (failure : Failure) : Prop :=
  ∀ rest : String, failure ≠ .refused (.domain ("prose-edit-ambiguous" ++ rest))

theorem notAmbiguous_panic : NotAmbiguous .panic := fun _ h => by cases h

theorem prefix_append {start message rest : String} (h : start.toList <+: message.toList) :
    start.toList <+: (message ++ rest).toList := by
  rw [String.toList_append]
  exact h.trans (List.prefix_append _ _)

theorem notAmbiguous_of_starts (start : String) {message : String} (hstart : start.toList <+: message.toList)
    (hleft : ¬ start.toList <+: "prose-edit-ambiguous".toList)
    (hright : ¬ "prose-edit-ambiguous".toList <+: start.toList) :
    NotAmbiguous (.refused (.domain message)) := by
  intro rest h
  have hmessage : message = "prose-edit-ambiguous" ++ rest := by
    injection h with h
    injection h
  rw [hmessage, String.toList_append] at hstart
  rcases prefix_or_prefix_of_prefix hstart (List.prefix_append _ _) with h | h
  · exact hleft h
  · exact hright h

theorem refusedAmbiguous_error {α : Type} {failure : Failure} (h : NotAmbiguous failure) :
    ¬ RefusedAmbiguous (.error failure : Outcome α) := by
  rintro ⟨rest, hsame⟩
  exact h rest (Except.error.inj hsame)

theorem refusedAmbiguous_ok {α : Type} (a : α) : ¬ RefusedAmbiguous (.ok a : Outcome α) := by
  rintro ⟨rest, h⟩
  cases h

/-! ## The decoder's refusals -/

theorem decodeNext_error {offset : Nat} {raw : Bytes} {failure : Failure}
    (h : decodeNext offset raw = .error failure) : NotAmbiguous failure := by
  have hrefuse : ∀ {message : String}, "prose-xml-invalid".toList <+: message.toList →
      (refuse message : Outcome (List DecodedChar × Nat)) = .error failure →
        NotAmbiguous failure := by
    intro message hstarts heq
    obtain rfl := Except.error.inj heq
    exact notAmbiguous_of_starts "prose-xml-invalid" hstarts (by decide) (by decide)
  cases raw with
  | nil => cases h
  | cons first rest =>
    rw [decodeNext] at h
    split at h
    · split at h
      · exact hrefuse (by decide) h
      · split at h
        · exact hrefuse (by decide) h
        · split at h
          · refine hrefuse ?_ h
            exact prefix_append
              (by decide : _ <+: "prose-xml-invalid: unrecognized entity ".toList)
          · cases h
    · split at h
      · split at h
        · exact hrefuse (by decide) h
        · split at h
          · exact hrefuse (by decide) h
          · cases h
      · simp only at h
        split at h
        · exact hrefuse (by decide) h
        · split at h
          · exact hrefuse (by decide) h
          next text htext =>
            cases hhead : text.head? with
            | none =>
              rw [hhead] at h
              obtain rfl := Except.error.inj h
              exact notAmbiguous_panic
            | some char =>
              rw [hhead] at h
              cases h

theorem decodeFrom_error : ∀ {fuel offset : Nat} {raw : Bytes} {failure : Failure},
    decodeFrom fuel offset raw = .error failure → NotAmbiguous failure
  | fuel, offset, [], _, h => by
    rw [decodeFrom_nil] at h
    cases h
  | 0, _, _ :: _, _, h => by cases h
  | fuel + 1, offset, first :: raw, failure, h => by
    rw [decodeFrom] at h
    cases hnext : decodeNext offset (first :: raw) with
    | error e =>
      rw [hnext] at h
      obtain rfl := Except.error.inj h
      exact decodeNext_error hnext
    | ok read =>
      rw [bind_ok hnext] at h
      simp only at h
      cases hrest : decodeFrom fuel (offset + read.2) ((first :: raw).drop read.2) with
      | error e =>
        rw [hrest] at h
        obtain rfl := Except.error.inj h
        exact decodeFrom_error hrest
      | ok rest =>
        rw [bind_ok hrest] at h
        cases h

/-! ## One share -/

section

variable {share text : Text} {index : Nat} (h : findSub share text = some index)

include h

theorem standsTwice_iff :
    StandsTwice share text ↔ (findSub share (text.drop (index + share.length))).isSome := by
  obtain ⟨⟨rest, hrest⟩, hle, hfirst⟩ := findSub_eq_some_iff.mp h
  constructor
  · rintro ⟨i, j, hi, hj, hapart⟩
    have hindex : index ≤ i := by
      by_contra hlt
      exact hfirst i (Nat.lt_of_not_le hlt) hi
    rw [Option.isSome_iff_ne_none, Ne, findSub_eq_none_iff, not_not]
    have hdrop : text.drop j = (text.drop (index + share.length)).drop
        (j - (index + share.length)) := by
      rw [drop_drop]
      congr 1
      omega
    rw [hdrop] at hj
    exact hj.isInfix.trans (drop_suffix _ _).isInfix
  · intro hsome
    obtain ⟨k, hk⟩ := Option.isSome_iff_exists.mp hsome
    obtain ⟨⟨behind, hbehind⟩, -, -⟩ := findSub_eq_some_iff.mp hk
    refine ⟨index, index + share.length + k, ⟨rest, hrest.symm⟩, ⟨behind, ?_⟩, by omega⟩
    rw [← hbehind, drop_drop]

theorem standsOnce_iff : StandsOnce share text ↔ ¬ StandsTwice share text := by
  obtain ⟨⟨rest, hrest⟩, -, -⟩ := findSub_eq_some_iff.mp h
  exact and_iff_right ⟨index, rest, hrest.symm⟩

end

theorem not_stands_of_none {share text : Text} (h : findSub share text = none) :
    ¬ StandsOnce share text ∧ ¬ StandsTwice share text := by
  have hno : ∀ i, ¬ share <+: text.drop i := fun i hi =>
    findSub_eq_none_iff.mp h (hi.isInfix.trans (drop_suffix i text).isInfix)
  exact ⟨fun hs => hs.1.elim fun i hi => hno i hi, fun ⟨i, _, hi, _⟩ => hno i hi⟩

/-- A range of the part. -/
def InPart (part : Bytes) (leaf : ProseLeaf) : Prop :=
  leaf.textStart ≤ leaf.textEnd ∧ leaf.textEnd ≤ part.length ∧
    leaf.text = decodedText (slice part leaf.textStart leaf.textEnd)

theorem map_decoded {part : Bytes} {leaf : ProseLeaf} (h : InPart part leaf)
    {chars : List DecodedChar}
    (hchars : decodeTextSegments (slice part leaf.textStart leaf.textEnd) = .ok chars) :
    leaf.text = chars.map (·.char) := by
  rw [h.2.2, decodedText, hchars]

/-- What `find_old_byte_range` makes of a share. -/
theorem findOldByteRange_spec {part : Bytes} {leaf : ProseLeaf} (hleaf : InPart part leaf)
    {share : Text} (hshare : share ≠ []) :
    ((∃ range, findOldByteRange part leaf.textStart leaf.textEnd share = .ok (some range)) ↔
      StandsOnce share leaf.text) ∧
    (RefusedAmbiguous (findOldByteRange part leaf.textStart leaf.textEnd share) ↔
      StandsTwice share leaf.text) := by
  have hslice : sliceOf part leaf.textStart leaf.textEnd =
      .ok (slice part leaf.textStart leaf.textEnd) := if_pos ⟨hleaf.1, hleaf.2.1⟩
  rw [findOldByteRange, if_neg hshare, bind_ok hslice]
  cases hchars : decodeTextSegments (slice part leaf.textStart leaf.textEnd) with
  | error failure =>
    -- a leaf that does not decode reads as empty
    have hempty : leaf.text = [] := by rw [hleaf.2.2, decodedText, hchars]
    have hnone : findSub share leaf.text = none := by rw [hempty, findSub, if_neg hshare]
    obtain ⟨honce, htwice⟩ := not_stands_of_none hnone
    refine ⟨iff_of_false ?_ honce, iff_of_false ?_ htwice⟩
    · rintro ⟨range, h⟩
      cases h
    · exact refusedAmbiguous_error (decodeFrom_error hchars)
  | ok chars =>
    have htext := map_decoded hleaf hchars
    rw [bind_ok rfl]
    simp only [← htext]
    cases hfind : findSub share leaf.text with
    | none =>
      obtain ⟨honce, htwice⟩ := not_stands_of_none hfind
      refine ⟨iff_of_false ?_ honce, iff_of_false (refusedAmbiguous_ok _) htwice⟩
      rintro ⟨range, h⟩
      cases h
    | some index =>
      rw [standsOnce_iff hfind, standsTwice_iff hfind]
      simp only
      split
      next htwice =>
        have hmessage : "prose-edit-ambiguous: old text occurs more than once in the leaf" =
            "prose-edit-ambiguous" ++ ": old text occurs more than once in the leaf" := by decide
        refine ⟨iff_of_false ?_ (fun h => h htwice),
          iff_of_true ⟨_, congrArg refuse hmessage⟩ htwice⟩
        rintro ⟨range, h⟩
        exact refuse_ne_ok h
      next htwice =>
        have hle := findSub_add_length_le hfind
        have hpos := length_pos_of_ne_nil hshare
        have hlength : chars.length = leaf.text.length := by rw [htext, length_map]
        have hfirst : expect chars[index]? = .ok chars[index] :=
          expect_eq_ok_iff.mpr (getElem?_eq_getElem _)
        have hlast : expect chars[index + share.length - 1]? =
            .ok chars[index + share.length - 1] :=
          expect_eq_ok_iff.mpr (getElem?_eq_getElem _)
        rw [bind_ok hfirst, bind_ok hlast]
        exact ⟨iff_of_true ⟨_, rfl⟩ htwice, iff_of_false (refusedAmbiguous_ok _) htwice⟩

/-! ## All shares -/

section Covers

variable {part : Bytes} {inventory : ProseInventory} {partKey paragraphId : String}

/-- The leaves that the inventory has of a part are read from it. -/
def ReadFrom (part : Bytes) (inventory : ProseInventory) (partKey : String) : Prop :=
  ∀ leaf ∈ inventory.leaves, leaf.partKey = partKey → InPart part leaf

theorem resolveLeaf_spec (paragraphId : String) (leafIndex : Nat) :
    (∃ leaf, namedLeaf inventory partKey paragraphId leafIndex = some leaf ∧
      leaf.editable = true ∧ resolveLeaf inventory partKey paragraphId leafIndex = .ok leaf) ∨
    (∀ leaf, namedLeaf inventory partKey paragraphId leafIndex = some leaf →
        leaf.editable = false) ∧
      ∃ failure, NotAmbiguous failure ∧
        resolveLeaf inventory partKey paragraphId leafIndex = .error failure := by
  rw [resolveLeaf]
  cases hfind : namedLeaf inventory partKey paragraphId leafIndex with
  | none =>
    rw [namedLeaf] at hfind
    simp only [hfind]
    refine .inr ⟨(by intro leaf h; cases h), _, ?_, rfl⟩
    refine notAmbiguous_of_starts "invalid-edit" ?_ (by decide) (by decide)
    repeat apply prefix_append
    exact (by decide : "invalid-edit".toList <+: "invalid-edit: leaf not found: ".toList)
  | some leaf =>
    rw [namedLeaf] at hfind
    simp only [hfind]
    cases heditable : leaf.editable with
    | true => exact .inl ⟨leaf, rfl, heditable, if_pos rfl⟩
    | false =>
      rw [if_neg Bool.false_ne_true]
      refine .inr ⟨fun leaf' h => Option.some.inj h ▸ heditable, _, ?_, rfl⟩
      refine notAmbiguous_of_starts "opaque-paragraph-mutated" ?_ (by decide) (by decide)
      repeat apply prefix_append
      exact (by decide : "opaque-paragraph-mutated".toList <+: "opaque-paragraph-mutated: ".toList)

/-- What the check makes of one share. -/
theorem checkCover_spec (hread : ReadFrom part inventory partKey) (paragraphId : String)
    {cover : SpanCover} (hcover : cover.covered ≠ []) :
    (checkCover part inventory partKey paragraphId cover = .ok () ↔
      SharePasses inventory partKey paragraphId cover) ∧
    (RefusedAmbiguous (checkCover part inventory partKey paragraphId cover) ↔
      ShareRepeats inventory partKey paragraphId cover) := by
  rw [checkCover]
  rcases resolveLeaf_spec paragraphId cover.leafIndex with
    ⟨leaf, hnamed, heditable, hleaf⟩ | ⟨hlocked, failure, hother, hleaf⟩
  · obtain ⟨hmem, hkey, -⟩ := resolveLeaf_eq_ok hleaf
    obtain ⟨honce, htwice⟩ := findOldByteRange_spec (hread leaf hmem hkey) hcover
    have hpasses : SharePasses inventory partKey paragraphId cover ↔
        StandsOnce cover.covered leaf.text := by
      refine ⟨fun ⟨leaf', hnamed', _, h⟩ => ?_, fun h => ⟨leaf, hnamed, heditable, h⟩⟩
      rw [hnamed] at hnamed'
      exact Option.some.inj hnamed' ▸ h
    have hrepeats : ShareRepeats inventory partKey paragraphId cover ↔
        StandsTwice cover.covered leaf.text := by
      refine ⟨fun ⟨leaf', hnamed', _, h⟩ => ?_, fun h => ⟨leaf, hnamed, heditable, h⟩⟩
      rw [hnamed] at hnamed'
      exact Option.some.inj hnamed' ▸ h
    rw [bind_ok hleaf, hpasses, hrepeats, ← honce, ← htwice]
    cases hfind : findOldByteRange part leaf.textStart leaf.textEnd cover.covered with
    | error failure =>
      refine ⟨iff_of_false (fun h => by cases h) ?_, ?_⟩
      · rintro ⟨range, h⟩
        cases h
      · constructor
        · rintro ⟨rest, h⟩
          exact ⟨rest, congrArg Except.error (Except.error.inj h)⟩
        · rintro ⟨rest, h⟩
          exact ⟨rest, congrArg Except.error (Except.error.inj h)⟩
    | ok found =>
      rw [bind_ok rfl]
      cases found with
      | none =>
        refine ⟨iff_of_false (fun h => refuse_ne_ok h) ?_, iff_of_false ?_ (refusedAmbiguous_ok _)⟩
        · rintro ⟨range, h⟩
          cases h
        · refine refusedAmbiguous_error (notAmbiguous_of_starts "invalid-edit" ?_
            (by decide) (by decide))
          repeat apply prefix_append
          exact (by decide : "invalid-edit".toList <+: "invalid-edit: ".toList)
      | some range =>
        exact ⟨iff_of_true rfl ⟨range, rfl⟩,
          iff_of_false (refusedAmbiguous_ok _) (refusedAmbiguous_ok _)⟩
  · rw [hleaf]
    refine ⟨iff_of_false (fun h => by cases h) ?_, iff_of_false (refusedAmbiguous_error hother) ?_⟩
    · rintro ⟨leaf, hnamed, heditable, -⟩
      rw [hlocked leaf hnamed] at heditable
      cases heditable
    · rintro ⟨leaf, hnamed, heditable, -⟩
      rw [hlocked leaf hnamed] at heditable
      cases heditable

/-- The first share that does not pass is one that repeats. -/
def FirstFailureRepeats (inventory : ProseInventory) (partKey paragraphId : String)
    (covers : List SpanCover) : Prop :=
  ∃ before cover after, covers = before ++ cover :: after ∧
    (∀ other ∈ before, SharePasses inventory partKey paragraphId other) ∧
    ShareRepeats inventory partKey paragraphId cover

theorem firstFailureRepeats_cons {cover : SpanCover} {rest : List SpanCover} :
    FirstFailureRepeats inventory partKey paragraphId (cover :: rest) ↔
      ShareRepeats inventory partKey paragraphId cover ∨
        SharePasses inventory partKey paragraphId cover ∧
          FirstFailureRepeats inventory partKey paragraphId rest := by
  constructor
  · rintro ⟨before, found, after, hsplit, hbefore, hrepeats⟩
    cases before with
    | nil =>
      obtain ⟨rfl, -⟩ := List.cons.inj hsplit
      exact .inl hrepeats
    | cons first before =>
      obtain ⟨rfl, rfl⟩ := List.cons.inj hsplit
      exact .inr ⟨hbefore cover mem_cons_self, before, found, after, rfl,
        fun other hother => hbefore other (mem_cons_of_mem _ hother), hrepeats⟩
  · rintro (hrepeats | ⟨hpasses, before, found, after, rfl, hbefore, hrepeats⟩)
    · exact ⟨[], cover, rest, rfl, by simp, hrepeats⟩
    · exact ⟨cover :: before, found, after, rfl,
        forall_mem_cons.mpr ⟨hpasses, hbefore⟩, hrepeats⟩

/-- The check of a match: its shares pass, or the first that does not decides. -/
theorem checkCovers_spec (hread : ReadFrom part inventory partKey) : ∀ covers : List SpanCover,
    (checkCovers part inventory partKey paragraphId covers = .ok () ↔
      ∀ cover ∈ covering covers, SharePasses inventory partKey paragraphId cover) ∧
    (RefusedAmbiguous (checkCovers part inventory partKey paragraphId covers) ↔
      FirstFailureRepeats inventory partKey paragraphId (covering covers))
  | [] => by
    refine ⟨iff_of_true rfl (by simp [covering]), iff_of_false (refusedAmbiguous_ok _) ?_⟩
    rintro ⟨before, cover, after, hsplit, -⟩
    simp [covering] at hsplit
  | cover :: rest => by
    obtain ⟨hpass, hrepeat⟩ := checkCovers_spec hread rest
    rw [checkCovers]
    by_cases hempty : cover.covered = []
    · have hskip : covering (cover :: rest) = covering rest := by simp [covering, hempty]
      rw [if_pos hempty, hskip]
      exact ⟨hpass, hrepeat⟩
    · have hkeep : covering (cover :: rest) = cover :: covering rest := by simp [covering, hempty]
      obtain ⟨hpasses, hrepeats⟩ := checkCover_spec hread paragraphId hempty
      rw [if_neg hempty, hkeep, forall_mem_cons, firstFailureRepeats_cons, ← hpasses,
        ← hrepeats]
      cases hcheck : checkCover part inventory partKey paragraphId cover with
      | ok _ =>
        rw [bind_ok rfl, hpass, hrepeat]
        refine ⟨by simp, ?_⟩
        rw [or_iff_right (refusedAmbiguous_ok _), and_iff_right rfl]
      | error failure =>
        refine ⟨by simp [bind, Except.bind], ?_⟩
        rw [or_iff_left (fun h => by cases h.1)]
        constructor
        · rintro ⟨rest, h⟩
          exact ⟨rest, congrArg Except.error (Except.error.inj h)⟩
        · rintro ⟨rest, h⟩
          exact ⟨rest, congrArg Except.error (Except.error.inj h)⟩

end Covers

section Package

variable {crates : Crates} (hnames : crates.IndexesByName) {package part : Bytes}
  {inventory : ProseInventory} {partKey : String}
  (hpart : readPartBytes crates package (partPath partKey) = .ok part)
  (hinventory : enumeratePackage crates package = .ok inventory)

include hnames hpart hinventory

theorem readFrom_of_enumerate : ReadFrom part inventory partKey := by
  intro leaf hmem hkey
  obtain ⟨nodes, hnodes, hreads⟩ := leaf_element hnames hpart hinventory hmem hkey
  obtain ⟨node, hnode, -, hrange⟩ := hreads.element
  obtain ⟨hstart, hstop⟩ := Prod.mk.inj hrange
  have hlies := (buildTree_geometry hnodes).1 node hnode
  have hcontent := hlies.content
  have hclose := hlies.closeTag
  have hend := hlies.stop
  refine ⟨?_, ?_, hreads.text⟩
  · rw [hstart, hstop]
    split <;> omega
  · rw [hstop]
    split <;> omega

end Package

end Docx2Typed
