import Docx2Typed.Prose.Occurrences

/-!
# Does an anchored edit land where its offset says?

With an offset, `match_leaf_span_at` finds the one match that starts there.  The validator and the
applier then look for each share by its text alone: `anchored_lands_iff` says that both accept the
edit and put it at its offset exactly when no share stands a second time in its leaf, and none of a
direct edit stands earlier in it.
-/

namespace Docx2Typed

open Library (findSub findSub_eq_some_iff findSub_add_length_le prefix_drop_append_iff)
open List

/-! ## The match at an offset -/

/-- The characters that the projection shows of some leaves. -/
def projectedChars (leaves : List ProseLeaf) : Text := leafChars (leaves.filter (·.projected))

theorem spansFrom_before (old : Text) (want fromLeaf : Nat) : ∀ (before rest : List ProseLeaf)
    (started : Bool) (offset : Nat), offset + (projectedChars before).length ≤ want →
      spansFrom old (some want) fromLeaf started offset (before ++ rest) =
        spansFrom old (some want) fromLeaf
          (started || before.any fun leaf => fromLeaf ≤ leaf.leafIndex)
          (offset + (projectedChars before).length) rest
  | [], rest, started, offset, _ => by simp [projectedChars]
  | leaf :: before, rest, started, offset, h => by
    have hchars : (projectedChars (leaf :: before)).length =
        (if leaf.projected then leaf.text.length else 0) + (projectedChars before).length := by
      by_cases hprojected : leaf.projected = true
      · simp [projectedChars, hprojected]
      · simp [projectedChars, hprojected]
    have hoffset : (if leaf.projected then offset + leaf.text.length else offset) =
        offset + if leaf.projected then leaf.text.length else 0 := by
      split <;> rfl
    rw [hchars] at h
    have hnot : ¬ (leaf.projected ∧ offset ≤ want ∧ want < offset + leaf.text.length) := by
      rintro ⟨hprojected, -, hlt⟩
      rw [if_pos hprojected] at h
      omega
    have hrest := spansFrom_before old want fromLeaf before rest
      (started || decide (fromLeaf ≤ leaf.leafIndex))
      (if leaf.projected then offset + leaf.text.length else offset) (by rw [hoffset]; omega)
    rw [cons_append, spansFrom]
    simp only [hnot, if_false, Option.toList_none, nil_append, ite_self]
    rw [hrest, hoffset, hchars, Nat.add_assoc, any_cons, Bool.or_assoc]

theorem spansFrom_behind (old : Text) (want fromLeaf : Nat) : ∀ (leaves : List ProseLeaf)
    (started : Bool) (offset : Nat), want < offset →
      spansFrom old (some want) fromLeaf started offset leaves = []
  | [], _, _, _ => rfl
  | leaf :: rest, started, offset, h => by
    have hnot : ¬ (leaf.projected ∧ offset ≤ want ∧ want < offset + leaf.text.length) := by
      rintro ⟨-, hle, -⟩
      omega
    rw [spansFrom]
    simp only [hnot, if_false, Option.toList_none, nil_append, ite_self]
    exact spansFrom_behind old want fromLeaf rest _ _ (by split <;> omega)

variable {first : ProseLeaf}

/-- The only leaf that is asked is the one that holds the offset. -/
theorem spansFrom_anchored {old : Text} {fromLeaf head : Nat} {before rest : List ProseLeaf}
    (hprojected : first.projected = true) (hhead : head < first.text.length) :
    spansFrom old (some ((projectedChars before).length + head)) fromLeaf false 0
        (before ++ first :: rest) =
      if (before ++ [first]).any fun leaf => fromLeaf ≤ leaf.leafIndex then
        (extendSpan (some head) old first [] (first :: rest)).toList
      else [] := by
  have hin : first.projected = true ∧
      0 + (projectedChars before).length ≤ (projectedChars before).length + head ∧
      (projectedChars before).length + head <
        0 + (projectedChars before).length + first.text.length :=
    ⟨hprojected, by omega, by omega⟩
  have hsub : (projectedChars before).length + head - (0 + (projectedChars before).length) = head := by
    omega
  rw [spansFrom_before _ _ _ _ _ _ _ (by omega), Bool.false_or, spansFrom]
  simp only [hin, and_self, if_true]
  rw [spansFrom_behind _ _ _ _ _ _ (by omega), hsub, append_nil, any_append]
  simp

/-! ## The shares of the match -/

/-- The characters `[lo, hi)` of a leaf. -/
structure PlacedShare where
  leaf : ProseLeaf
  lo : Nat
  hi : Nat
  deriving DecidableEq, Repr

def PlacedShare.text (share : PlacedShare) : Text := takeText share.leaf.text share.lo share.hi

def PlacedShare.cover (share : PlacedShare) : SpanCover := ⟨share.leaf.leafIndex, share.text⟩

/-- What the stretch `[lo, hi)` covers of the leaves, the first of which starts at `start`. -/
def placedShares (lo hi : Nat) : Nat → List ProseLeaf → List PlacedShare
  | _, [] => []
  | start, leaf :: rest =>
    let share : PlacedShare := ⟨leaf, lo - start, min (hi - start) leaf.text.length⟩
    if share.text = [] then placedShares lo hi (start + leaf.text.length) rest
    else share :: placedShares lo hi (start + leaf.text.length) rest

theorem covering_sharesFrom (lo hi : Nat) : ∀ (start : Nat) (leaves : List ProseLeaf),
    covering (sharesFrom lo hi start leaves) = (placedShares lo hi start leaves).map (·.cover)
  | _, [] => rfl
  | start, leaf :: rest => by
    have hrest := covering_sharesFrom lo hi (start + leaf.text.length) rest
    rw [sharesFrom]
    by_cases hempty : takeText leaf.text (lo - start) (min (hi - start) leaf.text.length) = []
    · rw [placedShares, if_pos (show PlacedShare.text ⟨leaf, _, _⟩ = [] from hempty), ← hrest]
      simp [covering, hempty]
    · rw [placedShares, if_neg (show ¬ PlacedShare.text ⟨leaf, _, _⟩ = [] from hempty),
        map_cons, ← hrest]
      simp [covering, hempty, PlacedShare.cover, PlacedShare.text]

theorem placedShares_spec {lo hi : Nat} : ∀ {start : Nat} {leaves : List ProseLeaf},
    ∀ share ∈ placedShares lo hi start leaves, share.leaf ∈ leaves ∧ share.text ≠ [] ∧
      share.hi ≤ share.leaf.text.length
  | _, [], share, h => by cases h
  | start, leaf :: rest, share, h => by
    rw [placedShares] at h
    split at h
    · obtain ⟨hmem, hspec⟩ := placedShares_spec share h
      exact ⟨mem_cons_of_mem _ hmem, hspec⟩
    next hne =>
      rcases mem_cons.mp h with rfl | h
      · exact ⟨mem_cons_self, hne, Nat.min_le_right _ _⟩
      · obtain ⟨hmem, hspec⟩ := placedShares_spec share h
        exact ⟨mem_cons_of_mem _ hmem, hspec⟩

variable {others : List ProseLeaf}

theorem placedShares_ne_nil {old : Text} {head : Nat} (hold : old ≠ [])
    (hhead : head < first.text.length) :
    placedShares head (head + old.length) 0 (first :: others) ≠ [] := by
  have hpos := length_pos_of_ne_nil hold
  have hne : PlacedShare.text ⟨first, head - 0,
      min (head + old.length - 0) first.text.length⟩ ≠ [] := by
    rw [PlacedShare.text, takeText, Ne, take_eq_nil_iff, drop_eq_nil_iff]
    simp only
    omega
  rw [placedShares, if_neg hne]
  exact cons_ne_nil _ _

/-- The bytes that spell a share. -/
def shareBytes (part : Bytes) (share : PlacedShare) : Option (Nat × Nat) :=
  match decodeTextSegments (slice part share.leaf.textStart share.leaf.textEnd) with
  | .error _ => none
  | .ok chars => do
    let first ← chars[share.lo]?
    let last ← chars[share.hi - 1]?
    pure (first.start + share.leaf.textStart, last.stop + share.leaf.textStart)

variable {share : PlacedShare}

/-- The applier finds a share at its own bytes exactly when it stands there first, and only once. -/
theorem findOldByteRange_placed_iff {part : Bytes} (hleaf : InPart part share.leaf)
    (hne : share.text ≠ []) (hhi : share.hi ≤ share.leaf.text.length) :
    (∃ range, shareBytes part share = some range ∧
        findOldByteRange part share.leaf.textStart share.leaf.textEnd share.text =
          .ok (some range)) ↔
      findSub share.text share.leaf.text = some share.lo ∧
        ¬ StandsTwice share.text share.leaf.text := by
  have hlt : share.lo < share.hi := by
    by_contra hge
    exact hne (takeText_eq_nil (.inl (by omega)))
  have hlength : share.text.length = share.hi - share.lo := by
    rw [PlacedShare.text, takeText, length_take, length_drop]
    omega
  have hnonempty : share.leaf.text ≠ [] := by
    intro hnil
    rw [hnil] at hhi
    simp at hhi
    omega
  have hslice : sliceOf part share.leaf.textStart share.leaf.textEnd =
      .ok (slice part share.leaf.textStart share.leaf.textEnd) := if_pos ⟨hleaf.1, hleaf.2.1⟩
  cases hchars : decodeTextSegments (slice part share.leaf.textStart share.leaf.textEnd) with
  | error failure =>
    exact absurd (by rw [hleaf.2.2, decodedText, hchars]) hnonempty
  | ok chars =>
    have htext := map_decoded hleaf hchars
    have hcount : chars.length = share.leaf.text.length := by rw [htext, length_map]
    have hspelled := decodeTextSegments_spelled hchars
    have hlo : share.lo < chars.length := by omega
    have hstop : share.hi - 1 < chars.length := by omega
    have hbytes : shareBytes part share =
        some (chars[share.lo].start + share.leaf.textStart,
          chars[share.hi - 1].stop + share.leaf.textStart) := by
      rw [shareBytes, hchars]
      simp only
      rw [getElem?_eq_getElem hlo, getElem?_eq_getElem hstop]
      rfl
    rw [hbytes, findOldByteRange, if_neg hne, bind_ok hslice, bind_ok hchars]
    simp only [← htext, Option.some.injEq, exists_eq_left']
    cases hfind : findSub share.text share.leaf.text with
    | none =>
      refine iff_of_false (fun h => ?_) (fun h => by cases h.1)
      simp [pure, Except.pure] at h
    | some index =>
      have hle := findSub_add_length_le hfind
      have hindex : index < chars.length := by omega
      have hend : index + share.text.length - 1 < chars.length := by omega
      have hfirst : expect chars[index]? = .ok chars[index] :=
        expect_eq_ok_iff.mpr (getElem?_eq_getElem hindex)
      have hlast : expect chars[index + share.text.length - 1]? =
          .ok chars[index + share.text.length - 1] :=
        expect_eq_ok_iff.mpr (getElem?_eq_getElem hend)
      rw [standsTwice_iff hfind]
      simp only
      split
      next htwice => exact iff_of_false (fun h => refuse_ne_ok h) fun h => h.2 htwice
      next htwice =>
        rw [bind_ok hfirst, bind_ok hlast, and_iff_left htwice, Option.some.injEq]
        constructor
        · intro h
          -- two characters that start at one byte are one
          have hstart : chars[index].start = chars[share.lo].start := by
            have hsame := (Prod.mk.inj (Option.some.inj (Except.ok.inj h))).1
            omega
          have hapart := pairwise_iff_getElem.mp hspelled.apart
          have hin := hspelled.inside _ (getElem_mem hindex)
          have hin' := hspelled.inside _ (getElem_mem hlo)
          rcases Nat.lt_trichotomy index share.lo with hless | heq | hmore
          · have := hapart index share.lo (by omega) (by omega) hless
            omega
          · exact heq
          · have := hapart share.lo index (by omega) (by omega) hmore
            omega
        · rintro rfl
          have hend : share.lo + share.text.length - 1 = share.hi - 1 := by omega
          simp only [hend]
          rfl

/-! ## The applier's shares -/

section Plan

variable {part : Bytes} {inventory : ProseInventory} {partKey : String}

/-- What a direct edit needs of a share. -/
def DirectFinds (part : Bytes) (inventory : ProseInventory) (partKey paragraphId : String)
    (cover : SpanCover) : Prop :=
  ∃ leaf range, resolveLeaf inventory partKey paragraphId cover.leafIndex = .ok leaf ∧
    findOldByteRange part leaf.textStart leaf.textEnd cover.covered = .ok (some range)

/-- What a tracked edit needs of a share. -/
def TrackedFinds (part : Bytes) (inventory : ProseInventory) (partKey paragraphId : String)
    (cover : SpanCover) : Prop :=
  ∃ leaf run, resolveLeaf inventory partKey paragraphId cover.leafIndex = .ok leaf ∧
    runRangeForLeaf part leaf = .ok run

theorem directSplices_ok_iff (edit : IslandEdit) : ∀ (covers : List SpanCover) (isFirst : Bool),
    (∃ splices, directSplices part inventory partKey edit isFirst covers = .ok splices) ↔
      ∀ cover ∈ covering covers, DirectFinds part inventory partKey edit.paragraphId cover
  | [], _ => iff_of_true ⟨[], rfl⟩ (by simp [covering])
  | cover :: rest, isFirst => by
    have hrest := directSplices_ok_iff edit rest false
    rw [directSplices]
    by_cases hempty : cover.covered = []
    · have hskip : covering (cover :: rest) = covering rest := by simp [covering, hempty]
      rw [if_pos hempty, hskip]
      exact hrest
    · have hkeep : covering (cover :: rest) = cover :: covering rest := by simp [covering, hempty]
      rw [if_neg hempty, hkeep, forall_mem_cons, ← hrest, exists_bind_ok]
      constructor
      · rintro ⟨leaf, hleaf, hfound⟩
        obtain ⟨found, hfound, splices, h⟩ := exists_bind_ok.mp hfound
        cases found with
        | none => exact (refuse_ne_ok h).elim
        | some range =>
          obtain ⟨others, hothers, -⟩ := exists_bind_ok.mp ⟨splices, h⟩
          exact ⟨⟨leaf, range, hleaf, hfound⟩, others, hothers⟩
      · rintro ⟨⟨leaf, range, hleaf, hfound⟩, others, hothers⟩
        refine ⟨leaf, hleaf, exists_bind_ok.mpr ⟨some range, hfound, ?_⟩⟩
        obtain ⟨start, stop⟩ := range
        exact exists_bind_ok.mpr ⟨others, hothers, _, rfl⟩

theorem coveredRuns_ok_iff (paragraphId : String) : ∀ (covers : List SpanCover)
    (runs : List CoveredRun),
    (∃ runs', coveredRuns part inventory partKey paragraphId covers runs = .ok runs') ↔
      ∀ cover ∈ covering covers, TrackedFinds part inventory partKey paragraphId cover
  | [], runs => iff_of_true ⟨runs, rfl⟩ (by simp [covering])
  | cover :: rest, runs => by
    rw [coveredRuns]
    by_cases hempty : cover.covered = []
    · have hskip : covering (cover :: rest) = covering rest := by simp [covering, hempty]
      rw [if_pos hempty, hskip]
      exact coveredRuns_ok_iff paragraphId rest runs
    · have hkeep : covering (cover :: rest) = cover :: covering rest := by simp [covering, hempty]
      rw [if_neg hempty, hkeep, forall_mem_cons, exists_bind_ok]
      constructor
      · rintro ⟨leaf, hleaf, hrun⟩
        obtain ⟨run, hrun, hrest⟩ := exists_bind_ok.mp hrun
        exact ⟨⟨leaf, run, hleaf, hrun⟩, (coveredRuns_ok_iff paragraphId rest _).mp hrest⟩
      · rintro ⟨⟨leaf, run, hleaf, hrun⟩, hrest⟩
        exact ⟨leaf, hleaf, exists_bind_ok.mpr
          ⟨run, hrun, (coveredRuns_ok_iff paragraphId rest _).mpr hrest⟩⟩

theorem pushRun_ne_nil (runs : List CoveredRun) (run : CoveredRun) : pushRun runs run ≠ [] := by
  rw [pushRun]
  split
  · split <;> simp
  · simp

theorem coveredRuns_ne_nil {paragraphId : String} : ∀ {covers : List SpanCover}
    {runs runs' : List CoveredRun},
    coveredRuns part inventory partKey paragraphId covers runs = .ok runs' →
      (runs ≠ [] ∨ covering covers ≠ []) → runs' ≠ []
  | [], runs, runs', h, hne => by
    obtain rfl := Except.ok.inj h
    exact hne.resolve_right (by simp [covering])
  | cover :: rest, runs, runs', h, hne => by
    rw [coveredRuns] at h
    split at h
    next hempty =>
      refine coveredRuns_ne_nil h (hne.imp_right ?_)
      simp [covering, hempty]
    next =>
      obtain ⟨leaf, -, h⟩ := bind_eq_ok h
      obtain ⟨run, -, h⟩ := bind_eq_ok h
      exact coveredRuns_ne_nil h (.inl (pushRun_ne_nil _ _))

/-- An edit can be planned when the applier finds what it needs of each share. -/
theorem planEdit_ok_iff {edit : IslandEdit} {span : LeafSpanMatch} {nextId : Nat}
    (hspan : matchLeafSpanAt inventory partKey edit.paragraphId edit.leafIndex edit.old
      edit.charStart = .ok (some span)) (hne : covering span.covers ≠ []) :
    (∃ planned, planEdit part inventory partKey nextId edit = .ok planned) ↔
      ∀ cover ∈ covering span.covers,
        if edit.tracked then TrackedFinds part inventory partKey edit.paragraphId cover
        else DirectFinds part inventory partKey edit.paragraphId cover := by
  rw [planEdit, bind_ok hspan]
  simp only
  cases htracked : edit.tracked with
  | true =>
    simp only [if_true]
    rw [← coveredRuns_ok_iff edit.paragraphId span.covers [], exists_bind_ok]
    constructor
    · rintro ⟨splices, hsplices, -⟩
      obtain ⟨runs, hruns, -⟩ := bind_eq_ok hsplices
      exact ⟨runs, hruns⟩
    · rintro ⟨runs, hruns⟩
      have hsome := coveredRuns_ne_nil hruns (.inr hne)
      cases runs with
      | nil => exact absurd rfl hsome
      | cons first rest =>
        refine ⟨runSplices edit span first.rpr nextId true (first :: rest), ?_, _, rfl⟩
        rw [trackedSpanReplacement, bind_ok hruns]
        rfl
  | false =>
    simp only [Bool.false_eq_true, if_false]
    rw [← directSplices_ok_iff edit span.covers true, exists_bind_ok]
    exact ⟨fun ⟨splices, h, _⟩ => ⟨splices, h⟩, fun ⟨splices, h⟩ => ⟨splices, h, _, rfl⟩⟩

end Plan

/-! ## An anchored edit -/

/-- What is left of `apply_edits` once an edit is planned: the splices are written back. -/
def writeBack (crates : Crates) (package part : Bytes) (partKey : String)
    (splices : List Splice) : Outcome (List PartLog × Bytes) := do
  let patched ← applySplices part splices
  let current ← Zip.patchZipMember crates package (partPath partKey) patched
  pure ([⟨partKey, part, splices, patched⟩], current)

/-- The text of an edit stands at its offset: `head` characters into the leaf `first`, in leaves
that follow one another, that the projection shows, and that can be edited. -/
structure StandsAt (inventory : ProseInventory) (edit : IslandEdit) (before : List ProseLeaf)
    (first : ProseLeaf) (others after : List ProseLeaf) (head : Nat) : Prop where
  leaves : addressedLeaves inventory edit.part edit.paragraphId =
    before ++ first :: (others ++ after)
  offset : edit.charStart = some ((projectedChars before).length + head)
  inside : head < first.text.length
  stands : edit.old <+: (leafChars (first :: others)).drop head
  shown : ∀ leaf ∈ first :: others, leaf.projected = true
  editable : ∀ leaf ∈ first :: others, leaf.editable = true

section Anchored

variable (crates : Crates) (package part : Bytes) (inventory : ProseInventory) (edit : IslandEdit)

/-- The applier finds a share in its own leaf, and a direct edit takes its own bytes. -/
def ShareLands (share : PlacedShare) : Prop :=
  ∃ leaf, resolveLeaf inventory edit.part edit.paragraphId share.leaf.leafIndex = .ok leaf ∧
    leaf.textStart = share.leaf.textStart ∧ leaf.textEnd = share.leaf.textEnd ∧
    (edit.tracked = false → ∃ range, shareBytes part share = some range ∧
      findOldByteRange part leaf.textStart leaf.textEnd share.text = .ok (some range))

/-- Both accept the edit, and it lands on the shares of its offset: `apply_edits` plans it, and what
is left is to check the package and to write the splices back. -/
def LandsOn (shares : List PlacedShare) : Prop :=
  validateEdit crates package edit = .ok () ∧
    (∃ plan, planEdits part inventory edit.part (saturatingAdd (maxRevisionId package) 1) [edit] =
        .ok plan ∧
      editRun crates package [edit] = (validatePackage crates package >>= fun _ =>
        writeBack crates package part edit.part plan.1)) ∧
    ∀ share ∈ shares, ShareLands part inventory edit share

/-- The number of a share's leaf names it, the share does not stand in it twice, and first where
the match has it; a tracked edit finds the run around it. -/
def ShareStands (share : PlacedShare) : Prop :=
  (∃ leaf, namedLeaf inventory edit.part edit.paragraphId share.leaf.leafIndex = some leaf ∧
    leaf.editable = true ∧ leaf.textStart = share.leaf.textStart ∧
    leaf.textEnd = share.leaf.textEnd) ∧
  ¬ StandsTwice share.text share.leaf.text ∧
  if edit.tracked then ∃ run, runRangeForLeaf part share.leaf = .ok run
  else findSub share.text share.leaf.text = some share.lo

end Anchored

section Lands

variable {crates : Crates} {package part : Bytes} {inventory : ProseInventory} {edit : IslandEdit}

theorem runRangeForLeaf_congr {leaf other : ProseLeaf} (hstart : leaf.textStart = other.textStart)
    (hend : leaf.textEnd = other.textEnd) :
    runRangeForLeaf part leaf = runRangeForLeaf part other := by
  rw [runRangeForLeaf, runRangeForLeaf, hstart, hend]

/-- A share that stands where the match has it, stands in its leaf. -/
theorem share_stands : share.text <+: share.leaf.text.drop share.lo :=
  List.take_prefix _ _

theorem share_iff (hread : ReadFrom part inventory edit.part) (hleaf : InPart part share.leaf)
    (hne : share.text ≠ []) (hhi : share.hi ≤ share.leaf.text.length) :
    (SharePasses inventory edit.part edit.paragraphId share.cover ∧
        (if edit.tracked then TrackedFinds part inventory edit.part edit.paragraphId share.cover
          else DirectFinds part inventory edit.part edit.paragraphId share.cover) ∧
        ShareLands part inventory edit share) ↔
      ShareStands part inventory edit share := by
  have hplaced := findOldByteRange_placed_iff hleaf hne hhi
  rcases @resolveLeaf_spec inventory edit.part edit.paragraphId share.leaf.leafIndex with
    ⟨leaf, hnamed, heditable, hresolved⟩ | ⟨hlocked, failure, -, herror⟩
  · obtain ⟨hmem, hkey, -⟩ := resolveLeaf_eq_ok hresolved
    have hin := hread leaf hmem hkey
    constructor
    · rintro ⟨⟨leaf', hnamed', -, honce⟩, hfinds, leaf'', hresolved'', hstart, hend, hbytes⟩
      obtain rfl := Option.some.inj (hnamed.symm.trans hnamed')
      obtain rfl := Except.ok.inj (hresolved.symm.trans hresolved'')
      have htext : leaf.text = share.leaf.text := by rw [hin.2.2, hleaf.2.2, hstart, hend]
      refine ⟨⟨leaf, hnamed, heditable, hstart, hend⟩, htext ▸ honce.2, ?_⟩
      cases htracked : edit.tracked with
      | true =>
        rw [if_pos htracked] at hfinds
        obtain ⟨leaf', run, hresolved', hrun⟩ := hfinds
        obtain rfl := Except.ok.inj (hresolved.symm.trans hresolved')
        rw [runRangeForLeaf_congr hstart hend] at hrun
        exact ⟨run, hrun⟩
      | false =>
        rw [hstart, hend] at hbytes
        exact (hplaced.mp (hbytes htracked)).1
    · rintro ⟨⟨leaf', hnamed', -, hstart, hend⟩, htwice, hplace⟩
      obtain rfl := Option.some.inj (hnamed.symm.trans hnamed')
      have htext : leaf.text = share.leaf.text := by rw [hin.2.2, hleaf.2.2, hstart, hend]
      have hpasses : SharePasses inventory edit.part edit.paragraphId share.cover :=
        ⟨leaf, hnamed, heditable, ⟨share.lo, htext ▸ share_stands⟩, htext ▸ htwice⟩
      cases htracked : edit.tracked with
      | true =>
        rw [if_pos htracked] at hplace
        obtain ⟨run, hrun⟩ := hplace
        rw [← runRangeForLeaf_congr hstart hend] at hrun
        refine ⟨hpasses, ⟨leaf, run, hresolved, hrun⟩, leaf, hresolved, hstart, hend, ?_⟩
        intro hdirect
        rw [htracked] at hdirect
        cases hdirect
      | false =>
        rw [if_neg (by rw [htracked]; exact Bool.false_ne_true)] at hplace
        obtain ⟨range, hbytes, hfound⟩ := hplaced.mpr ⟨hplace, htwice⟩
        rw [← hstart, ← hend] at hfound
        exact ⟨hpasses, ⟨leaf, range, hresolved, hfound⟩, leaf, hresolved, hstart, hend,
          fun _ => ⟨range, hbytes, hfound⟩⟩
  · refine iff_of_false ?_ ?_
    · rintro ⟨-, -, leaf, hresolved, -⟩
      rw [herror] at hresolved
      cases hresolved
    · rintro ⟨⟨leaf, hnamed, heditable, -⟩, -⟩
      rw [hlocked leaf hnamed] at heditable
      cases heditable

variable {before others after : List ProseLeaf} {first : ProseLeaf} {head : Nat}

section

variable (h : StandsAt inventory edit before first others after head)

include h

theorem StandsAt.mem {leaf : ProseLeaf} (hleaf : leaf ∈ first :: others) :
    leaf ∈ inventory.leaves ∧ leaf.partKey = edit.part := by
  have hmem : leaf ∈ addressedLeaves inventory edit.part edit.paragraphId := by
    rw [h.leaves, ← cons_append]
    exact mem_append_right _ (mem_append_left _ hleaf)
  rw [addressedLeaves, mem_insertionSort, mem_filter] at hmem
  exact ⟨hmem.1, (of_decide_eq_true hmem.2).1⟩

/-- The leaves come in order, so that some leaf is late enough by then when the first one is. -/
theorem StandsAt.any_le_iff :
    ((before ++ [first]).any fun leaf => edit.leafIndex ≤ leaf.leafIndex) = true ↔
      edit.leafIndex ≤ first.leafIndex := by
  have hsorted : (before ++ first :: (others ++ after)).Pairwise
      fun a b => a.leafIndex ≤ b.leafIndex := by
    rw [← h.leaves]
    exact pairwise_insertionSort _ _
  have hbefore := (pairwise_append.mp hsorted).2.2
  rw [any_eq_true]
  constructor
  · rintro ⟨leaf, hmem, hle⟩
    have hle := of_decide_eq_true hle
    rcases mem_append.mp hmem with hmem | hmem
    · exact hle.trans (hbefore leaf hmem first mem_cons_self)
    · rwa [mem_singleton.mp hmem] at hle
  · intro hle
    exact ⟨first, by simp, decide_eq_true hle⟩

/-- The match at the offset covers the shares of the stretch there. -/
theorem StandsAt.matchLeafSpanAt (hold : edit.old ≠ []) :
    if edit.leafIndex ≤ first.leafIndex then
      ∃ span, Docx2Typed.matchLeafSpanAt inventory edit.part edit.paragraphId edit.leafIndex
          edit.old edit.charStart = .ok (some span) ∧
        covering span.covers =
          (placedShares head (head + edit.old.length) 0 (first :: others)).map (·.cover)
    else Docx2Typed.matchLeafSpanAt inventory edit.part edit.paragraphId edit.leafIndex
      edit.old edit.charStart = .ok none := by
  rw [Docx2Typed.matchLeafSpanAt, if_neg hold, h.leaves, h.offset,
    spansFrom_anchored (h.shown first mem_cons_self) h.inside]
  simp only [h.any_le_iff]
  by_cases hle : edit.leafIndex ≤ first.leafIndex
  · rw [if_pos hle, if_pos hle]
    have hin : head + edit.old.length ≤ (leafChars (first :: others)).length := by
      have hle := h.stands.length_le
      have hinside := h.inside
      rw [length_drop] at hle
      rw [leafChars_cons, length_append] at hle ⊢
      omega
    have hplace : placeIn (some head) edit.old (leafChars ([] ++ first :: (others ++ after))) =
        some head := by
      have hinside := h.inside
      have hstands : edit.old <+: (leafChars (first :: (others ++ after))).drop head := by
        have hsplit : leafChars (first :: (others ++ after)) =
            leafChars (first :: others) ++ leafChars after := by simp
        rw [hsplit]
        exact (prefix_drop_append_iff hin).mpr h.stands
      refine if_pos ⟨?_, hstands⟩
      rw [nil_append, leafChars_cons, length_append]
      omega
    have hempty : placeIn (some head) edit.old (leafChars []) = none := by
      simp [placeIn]
    have hextend := @extendSpan_of_some (some head) edit.old first hold head []
      (first :: (others ++ after)) hempty hplace
    rw [if_neg (Nat.not_le.mpr h.inside)] at hextend
    obtain ⟨span, hspan, hat⟩ := hextend
    refine ⟨span, by rw [hspan]; rfl, ?_⟩
    have hcovers := hat.covering rfl h.inside
    have hafter : covering (sharesFrom head (head + edit.old.length)
        (0 + (leafChars (first :: others)).length) after) = [] :=
      covering_sharesFrom_behind (by omega)
    rw [hcovers, nil_append, ← cons_append, sharesFrom_append, covering_append, hafter,
      append_nil, covering_sharesFrom]
  · rw [if_neg hle, if_neg hle]
    rfl

end

theorem planEdits_single (nextId : Nat) :
    (∃ plan, planEdits part inventory edit.part nextId [edit] = .ok plan) ↔
      ∃ plan, planEdit part inventory edit.part nextId edit = .ok plan := by
  rw [planEdits, exists_bind_ok]
  exact ⟨fun ⟨plan, h, _⟩ => ⟨plan, h⟩, fun ⟨plan, h⟩ => ⟨plan, h, _, rfl⟩⟩

theorem editRun_single
    (hpart : readPartBytes crates package (partPath edit.part) = .ok part)
    (hinventory : enumeratePackage crates package = .ok inventory) {plan : List Splice × Nat}
    (hplan : planEdits part inventory edit.part (saturatingAdd (maxRevisionId package) 1) [edit] =
      .ok plan) :
    editRun crates package [edit] = (validatePackage crates package >>= fun _ =>
      writeBack crates package part edit.part plan.1) := by
  rw [editRun, if_neg (cons_ne_nil _ _)]
  congr 1
  funext _
  have hgroups : groupEdits [edit] = [(edit.part, [edit])] := rfl
  rw [hgroups, applyParts, applyPart, bind_ok hpart, bind_ok hinventory, bind_ok hplan, writeBack]
  simp only [bind_assoc]
  rfl

end Lands

/-- An anchored edit lands at its offset exactly when the search by text finds every share there. -/
theorem anchored_lands_iff (crates : Crates) (hnames : crates.IndexesByName)
    (package part : Bytes) (inventory : ProseInventory) (edit : IslandEdit)
    (hpart : readPartBytes crates package (partPath edit.part) = .ok part)
    (hinventory : enumeratePackage crates package = .ok inventory)
    (before others after : List ProseLeaf) (first : ProseLeaf) (head : Nat)
    (hstands : StandsAt inventory edit before first others after head) :
    LandsOn crates package part inventory edit
        (placedShares head (head + edit.old.length) 0 (first :: others)) ↔
      edit.old ≠ [] ∧ edit.leafIndex ≤ first.leafIndex ∧
        ∀ share ∈ placedShares head (head + edit.old.length) 0 (first :: others),
          ShareStands part inventory edit share := by
  have hread : ReadFrom part inventory edit.part :=
    readFrom_of_enumerate hnames hpart hinventory
  by_cases hold : edit.old = []
  · refine iff_of_false (fun h => ?_) (fun h => h.1 hold)
    have hnone : matchLeafSpanAt inventory edit.part edit.paragraphId edit.leafIndex edit.old
        edit.charStart = .ok none := if_pos hold
    have hvalid := h.1
    rw [validateEdit, bind_ok hpart, bind_ok hinventory, checkEdit, bind_ok hnone] at hvalid
    exact refuse_ne_ok hvalid
  have hmatch := hstands.matchLeafSpanAt hold
  by_cases hlate : edit.leafIndex ≤ first.leafIndex
  · rw [if_pos hlate] at hmatch
    obtain ⟨span, hspan, hcovers⟩ := hmatch
    have hsome : covering span.covers ≠ [] := by
      rw [hcovers]
      exact fun h => placedShares_ne_nil hold hstands.inside (List.map_eq_nil_iff.mp h)
    have hvalid : validateEdit crates package edit = .ok () ↔
        ∀ share ∈ placedShares head (head + edit.old.length) 0 (first :: others),
          SharePasses inventory edit.part edit.paragraphId share.cover := by
      rw [validateEdit, bind_ok hpart, bind_ok hinventory, checkEdit, bind_ok hspan]
      simp only
      rw [(checkCovers_spec hread span.covers).1, hcovers, List.forall_mem_map]
    have hplan := @planEdit_ok_iff part inventory edit.part edit span
      (saturatingAdd (maxRevisionId package) 1) hspan hsome
    rw [hcovers, List.forall_mem_map, ← planEdits_single] at hplan
    have hshares : ∀ share ∈ placedShares head (head + edit.old.length) 0 (first :: others),
        _ ↔ ShareStands part inventory edit share := fun share hshare => by
      obtain ⟨hmem, hne, hhi⟩ := placedShares_spec share hshare
      obtain ⟨hin, hkey⟩ := hstands.mem hmem
      exact share_iff hread (hread _ hin hkey) hne hhi
    rw [LandsOn, hvalid, and_iff_right hold, and_iff_right hlate]
    constructor
    · rintro ⟨hpass, ⟨plan, hplanned, -⟩, hland⟩ share hshare
      exact (hshares share hshare).mp
        ⟨hpass share hshare, hplan.mp ⟨plan, hplanned⟩ share hshare, hland share hshare⟩
    · intro h
      have hall := fun share hshare => (hshares share hshare).mpr (h share hshare)
      obtain ⟨plan, hplanned⟩ := hplan.mpr fun share hshare => (hall share hshare).2.1
      exact ⟨fun share hshare => (hall share hshare).1,
        ⟨plan, hplanned, editRun_single hpart hinventory hplanned⟩,
        fun share hshare => (hall share hshare).2.2⟩
  · rw [if_neg hlate] at hmatch
    refine iff_of_false (fun h => ?_) (fun h => hlate h.2.1)
    have hvalid := h.1
    rw [validateEdit, bind_ok hpart, bind_ok hinventory, checkEdit, bind_ok hmatch] at hvalid
    exact refuse_ne_ok hvalid

/-- A run of the first paragraph without properties, whose text starts at a byte. -/
def plainLeaf (index : Nat) (text : String) (start : Nat) : ProseLeaf where
  partKey := "document"
  paragraphId := "P0"
  leafIndex := index
  text := text.toList
  editable := true
  projected := true
  textStart := start
  textEnd := start + text.length
  openEnd := start
  styleSha256 := "e3b0c44298fc1c149afbf4c8996fb92427ae41e4649b934ca495991b7852b855"
  rpr := []
  rprStart := 0
  rprEnd := 0
  runOpenEnd := start - 5

/-- The edit replaces `old` at a character of the first paragraph. -/
def anchoredEdit (old : String) (offset : Nat) : IslandEdit :=
  { unanchoredEdit old with charStart := some offset }

theorem standsAt_of_leaves {inventory : ProseInventory} {old : String} {offset : Nat}
    (hleaves : addressedLeaves inventory "document" "P0" = first :: others)
    (hstands : offset < first.text.length ∧
      old.toList <+: (leafChars (first :: others)).drop offset ∧
      ∀ leaf ∈ first :: others, leaf.projected = true ∧ leaf.editable = true) :
    StandsAt inventory (anchoredEdit old offset) [] first others [] offset where
  leaves := by simpa [anchoredEdit, unanchoredEdit] using hleaves
  offset := by simp [anchoredEdit, projectedChars]
  inside := hstands.1
  stands := hstands.2.1
  shown := fun leaf hleaf => (hstands.2.2 leaf hleaf).1
  editable := fun leaf hleaf => (hstands.2.2 leaf hleaf).2

theorem anchored_lands_twoRuns : ∃ part inventory,
    readPartBytes twoRunsCrates twoRunsPackage (partPath "document") = .ok part ∧
    enumeratePackage twoRunsCrates twoRunsPackage = .ok inventory ∧
    (LandsOn twoRunsCrates twoRunsPackage part inventory (anchoredEdit "bc" 1)
        (placedShares 1 3 0 [plainLeaf 0 "ab" 35, plainLeaf 1 "cd" 59]) ↔
      (anchoredEdit "bc" 1).old ≠ [] ∧ (anchoredEdit "bc" 1).leafIndex ≤ 0 ∧
        ∀ share ∈ placedShares 1 3 0 [plainLeaf 0 "ab" 35, plainLeaf 1 "cd" 59],
          ShareStands part inventory (anchoredEdit "bc" 1) share) := by
  have hpart : (readPartBytes twoRunsCrates twoRunsPackage (partPath "document")).toOption.map
      (fun _ => ()) = some () := by
    rw [twoRunsCrates, twoRunsPackage, twoRuns, bytes_ofList]
    decide +kernel
  have hinventory : (enumeratePackage twoRunsCrates twoRunsPackage).toOption.map
      (fun inventory => addressedLeaves inventory "document" "P0") =
        some [plainLeaf 0 "ab" 35, plainLeaf 1 "cd" 59] := by
    rw [twoRunsCrates, twoRunsPackage, twoRuns, bytes_ofList]
    decide +kernel
  obtain ⟨part, hpart, -⟩ := exists_ok_of_map hpart
  obtain ⟨inventory, hinventory, hleaves⟩ := exists_ok_of_map hinventory
  exact ⟨part, inventory, hpart, hinventory, anchored_lands_iff _ (storedCrates_indexesByName _ _)
    _ part inventory (anchoredEdit "bc" 1) hpart hinventory [] _ [] _ 1
    (standsAt_of_leaves hleaves (by decide))⟩

/-- One run of text that repeats. -/
def repeating : Bytes :=
  bytes "<w:document><w:body><w:p><w:r><w:t>aa</w:t></w:r></w:p></w:body></w:document>"

theorem repeating_refused : ∃ part inventory,
    readPartBytes (storedCrates 0x3321e383 repeating) (storedDocument 0x3321e383 repeating)
      (partPath "document") = .ok part ∧
    enumeratePackage (storedCrates 0x3321e383 repeating) (storedDocument 0x3321e383 repeating) =
      .ok inventory ∧
    StandsAt inventory (anchoredEdit "a" 1) [] (plainLeaf 0 "aa" 35) [] [] 1 ∧
    RefusedAmbiguous (validateEdit (storedCrates 0x3321e383 repeating)
      (storedDocument 0x3321e383 repeating) (anchoredEdit "a" 1)) ∧
    ¬ LandsOn (storedCrates 0x3321e383 repeating) (storedDocument 0x3321e383 repeating) part
      inventory (anchoredEdit "a" 1) (placedShares 1 2 0 [plainLeaf 0 "aa" 35]) := by
  have hpart : (readPartBytes (storedCrates 0x3321e383 repeating)
      (storedDocument 0x3321e383 repeating) (partPath "document")).toOption.map
        (fun _ => ()) = some () := by
    rw [repeating, bytes_ofList]
    decide +kernel
  have hinventory : (enumeratePackage (storedCrates 0x3321e383 repeating)
      (storedDocument 0x3321e383 repeating)).toOption.map (fun inventory =>
        addressedLeaves inventory "document" "P0") = some [plainLeaf 0 "aa" 35] := by
    rw [repeating, bytes_ofList]
    decide +kernel
  have hrefused : validateEdit (storedCrates 0x3321e383 repeating)
      (storedDocument 0x3321e383 repeating) (anchoredEdit "a" 1) =
        refuse ("prose-edit-ambiguous" ++ ": old text occurs more than once in the leaf") := by
    rw [repeating, bytes_ofList]
    decide +kernel
  obtain ⟨part, hpart, -⟩ := exists_ok_of_map hpart
  obtain ⟨inventory, hinventory, hleaves⟩ := exists_ok_of_map hinventory
  refine ⟨part, inventory, hpart, hinventory, standsAt_of_leaves hleaves (by decide),
    ⟨_, hrefused⟩, fun h => ?_⟩
  have haccepted := h.1
  rw [hrefused] at haccepted
  exact refuse_ne_ok haccepted

end Docx2Typed
