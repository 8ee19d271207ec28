import Docx2Typed.Collab.Batch
import Docx2Typed.Draft.Lossless
import Docx2Typed.Library.Splice

/-!
# A batch is one simultaneous replacement

Where the ranges of a paragraph are applied from the last to the first, each is still where it was
measured when its turn comes, and the result is that of replacing all of them at once.

The order of application is by start only, and equal starts keep the order of the queue: an
insertion queued before a replacement at the same start is carried out first and shifts the
replacement.  Offsets behind the end of a body stand for its end.  And the draft is read again
before every patch, so lines the reader drops or takes for markers are gone or moved by then.
`MeasuredBatch` says that none of this happens; under it the batch is simultaneous and its order
does not matter.
-/

namespace Docx2Typed

open Library List

/-! ## The simultaneous replacement -/

def StagedPatch.cut (patch : StagedPatch) : Cut Char := ⟨patch.start, patch.stop, patch.after⟩

def cutLe (a b : Cut Char) : Prop := a.start < b.start ∨ a.start = b.start ∧ a.stop ≤ b.stop

instance : DecidableRel cutLe := fun _ _ => inferInstanceAs (Decidable (_ ∨ _))

/-- The ranges of some patches in the order in which they stand in the text. -/
def sortedCuts (patches : List StagedPatch) : List (Cut Char) :=
  (patches.map StagedPatch.cut).insertionSort cutLe

/-- The block a patch is about. -/
def patchedBlock (blocks : List Text) (patch : StagedPatch) : Option Nat :=
  findBlock blocks "p".toList patch.paragraphId

/-- The patches of one block. -/
def patchesOf (blocks : List Text) (patches : List StagedPatch) (index : Nat) :
    List StagedPatch :=
  patches.filter fun patch => patchedBlock blocks patch = some index

/-- The blocks with every range replaced, each measured in the bodies as they were. -/
def simultaneousBlocks (blocks : List Text) (patches : List StagedPatch) : List Text :=
  blocks.mapIdx fun index block =>
    if patchesOf blocks patches index = [] then block
    else
      withBody (markerLine block)
        (replaceAll (blockBody block) (sortedCuts (patchesOf blocks patches index)))

/-- The range of a patch is there, with the text the patch expects. -/
def RangeExists (blocks : List Text) (patch : StagedPatch) : Prop :=
  ∃ index block, patchedBlock blocks patch = some index ∧ blocks[index]? = some block ∧
    patch.stop ≤ (blockBody block).length ∧
    bodyRange (blockBody block) patch.start patch.stop = patch.expected

/-- Two patches of one paragraph, the first of which is applied first. -/
def AppliesBehind (a b : StagedPatch) : Prop :=
  a.paragraphId = b.paragraphId → a.start = b.start → a.start = a.stop → b.start = b.stop

/-- The patches of a batch stay where they were measured. -/
structure MeasuredBatch (draft : Text) (blocks : List Text) (patches : List StagedPatch) :
    Prop where
  /-- An expected text is as long as its range. -/
  measured : ∀ patch ∈ patches, patch.expected.length = patch.stop - patch.start
  /-- No insertion behind the end of a body. -/
  inserted : ∀ patch ∈ patches, patch.start = patch.stop → ∀ index block,
    patchedBlock blocks patch = some index → blocks[index]? = some block →
      patch.start ≤ (blockBody block).length
  /-- At one start, no insertion is queued before a replacement. -/
  queued : (applicationOrder patches).Pairwise AppliesBehind
  small : ∀ patch ∈ patches, patch.stop < 2 ^ 63
  /-- The ids are plain, so that different ids name different blocks. -/
  plain : ∀ patch ∈ patches, '"' ∉ patch.paragraphId ∧ '\n' ∉ patch.paragraphId
  /-- What the first patches leave behind reads back as it was written. -/
  stable : ∀ done, done <+: applicationOrder patches → done ≠ [] →
    done ≠ applicationOrder patches →
    let text := renderDraft (editHeader draft) (simultaneousBlocks blocks done)
    paragraphBlocks text = .ok (simultaneousBlocks blocks done) ∧ editHeader text = editHeader draft

/-! ## Sorting -/

instance : Std.Total rangeLe where
  total a b := by
    simp only [rangeLe]
    omega

instance : IsTrans (Nat × Nat) rangeLe where
  trans a b c := by
    simp only [rangeLe]
    omega

instance : Std.Total cutLe where
  total a b := by
    simp only [cutLe]
    omega

instance : IsTrans (Cut Char) cutLe where
  trans a b c := by
    simp only [cutLe]
    omega

instance : Std.Total appliesFirst where
  total a b := by
    simp only [appliesFirst]
    rcases lt_trichotomy a.paragraphId b.paragraphId with h | h | h
    · exact .inl (.inl h)
    · rcases Nat.le_total (asI64 a.start) (asI64 b.start) with hle | hle
      · exact .inr (.inr ⟨h.symm, hle⟩)
      · exact .inl (.inr ⟨h, hle⟩)
    · exact .inr (.inl h)

instance : IsTrans StagedPatch appliesFirst where
  trans a b c := by
    rintro (hab | ⟨hab, hle⟩) (hbc | ⟨hbc, hle'⟩)
    · exact .inl (hab.trans hbc)
    · exact .inl (hbc ▸ hab)
    · exact .inl (hab ▸ hbc)
    · exact .inr ⟨hab.trans hbc, hle'.trans hle⟩

theorem asI64_of_lt {n : Nat} (h : n < 2 ^ 63) : asI64 n = n := if_pos h

theorem perm_applicationOrder (patches : List StagedPatch) :
    (applicationOrder patches).Perm patches := perm_insertionSort _ _

/-! ## Ranges that lie apart -/

/-- `a` lies behind `b`, and they are not one insertion made twice. -/
def Behind (a b : StagedPatch) : Prop := b.stop ≤ a.start ∧ b.start < a.stop

def LieApart (a b : StagedPatch) : Prop := Behind a b ∨ Behind b a

variable {a b : StagedPatch}

theorem LieApart.symm (h : LieApart a b) : LieApart b a := Or.symm h

instance : Std.Symm LieApart := ⟨fun _ _ => LieApart.symm⟩

theorem cutLe_of_behind (h : Behind a b) : cutLe b.cut a.cut := by
  have ha := a.ordered
  have hb := b.ordered
  obtain ⟨h1, h2⟩ := h
  show b.start < a.start ∨ b.start = a.start ∧ b.stop ≤ a.stop
  omega

variable {patches : List StagedPatch}

/-- Ranges that lie apart are sorted in one way. -/
theorem sortedCuts_unique (hapart : patches.Pairwise LieApart) {cuts : List (Cut Char)}
    (hperm : cuts.Perm (patches.map StagedPatch.cut)) (hsorted : cuts.Pairwise cutLe) :
    sortedCuts patches = cuts := by
  have hperm' : (sortedCuts patches).Perm cuts :=
    (perm_insertionSort cutLe _).trans hperm.symm
  refine hperm'.eq_of_pairwise ?_ (pairwise_insertionSort cutLe _) hsorted
  intro a b ha hb hab hba
  rw [hperm'.mem_iff, hperm.mem_iff, mem_map] at ha
  rw [hperm.mem_iff, mem_map] at hb
  obtain ⟨p, hp, rfl⟩ := ha
  obtain ⟨q, hq, rfl⟩ := hb
  by_contra hne
  have hpq : p ≠ q := fun h => hne (by rw [h])
  have hpo := p.ordered
  have hqo := q.ordered
  rcases hapart.forall hp hq hpq with ⟨h1, h2⟩ | ⟨h1, h2⟩
  · simp only [cutLe, StagedPatch.cut] at hab hba
    omega
  · simp only [cutLe, StagedPatch.cut] at hab hba
    omega

variable {xs ys : List StagedPatch}

theorem sortedCuts_perm (hapart : xs.Pairwise LieApart) (hperm : xs.Perm ys) :
    sortedCuts xs = sortedCuts ys :=
  sortedCuts_unique hapart
    ((perm_insertionSort cutLe _).trans (hperm.map StagedPatch.cut).symm)
    (pairwise_insertionSort cutLe _)

/-- Patches applied one after the other, each before the one applied before it. -/
theorem foldl_apply_eq_replaceAll {body : Text} (hbehind : patches.Pairwise Behind)
    (hinside : ∀ patch ∈ patches, patch.stop ≤ body.length) :
    patches.foldl (fun body patch => patch.cut.apply body) body =
      replaceAll body (sortedCuts patches) := by
  have hsorted : (patches.map StagedPatch.cut).reverse.Pairwise cutLe := by
    rw [pairwise_reverse, pairwise_map]
    exact hbehind.imp cutLe_of_behind
  rw [sortedCuts_unique (hbehind.imp Or.inl) (reverse_perm _) hsorted]
  have hordered : OrderedCuts (patches.map StagedPatch.cut).reverse := by
    rw [OrderedCuts, pairwise_reverse, pairwise_map]
    exact hbehind.imp fun h => h.1
  rw [← applyCuts_eq_replaceAll hordered, applyCuts, foldr_reverse, foldl_map]
  intro cut hcut
  rw [mem_reverse, mem_map] at hcut
  obtain ⟨patch, hpatch, rfl⟩ := hcut
  exact ⟨patch.ordered, hinside patch hpatch⟩

/-- What lies before all ranges stays. -/
theorem take_foldl_apply {body : Text} {n : Nat} (hbehind : ∀ patch ∈ patches, n ≤ patch.start)
    (hn : n ≤ body.length) :
    (patches.foldl (fun body patch => patch.cut.apply body) body).take n = body.take n := by
  have h := @take_applyCuts _ body n (patches.map StagedPatch.cut).reverse
  rw [applyCuts, foldr_reverse, foldl_map] at h
  apply h _ hn
  intro cut hcut
  rw [mem_reverse, mem_map] at hcut
  obtain ⟨patch, hpatch, rfl⟩ := hcut
  exact hbehind patch hpatch

/-! ## What the guard lets through -/

/-- Ranges the loop lets through, sorted, lie one behind the other. -/
theorem pairwise_of_overlapsFrom : ∀ {ranges : List (Nat × Nat)} {start stop : Int},
    (∀ range ∈ ranges, range.1 ≤ range.2) → start ≤ stop →
      overlapsFrom start stop ranges = false →
      (∀ range ∈ ranges, stop ≤ (range.1 : Int) ∧ start < (range.2 : Int)) ∧
        ranges.Pairwise fun a b => a.2 ≤ b.1 ∧ a.1 < b.2
  | [], _, _, _, _, _ => ⟨by simp, .nil⟩
  | (start', stop') :: rest, start, stop, hordered, hle, h => by
    obtain ⟨hhead, hrest⟩ := forall_mem_cons.mp hordered
    rw [overlapsFrom] at h
    split at h
    · cases h
    next hguard =>
      obtain ⟨hbehind, hpairwise⟩ :=
        pairwise_of_overlapsFrom hrest (by exact_mod_cast hhead) h
      dsimp only at hhead
      refine ⟨?_, pairwise_cons.mpr ⟨?_, hpairwise⟩⟩
      · intro range hrange
        rcases mem_cons.mp hrange with rfl | hrange
        · dsimp only
          omega
        · have := hbehind range hrange
          have := hrest range hrange
          omega
      · intro range hrange
        have := hbehind range hrange
        dsimp only
        omega

theorem overlapGuard_eq_ok_iff (patches : List StagedPatch) :
    overlapGuard patches = .ok () ↔
      ∀ patch ∈ patches, overlapsFrom (-1) (-1) (paragraphRanges patches patch.paragraphId) = false := by
  have hmem : ∀ id, id ∈ patchedParagraphs patches ↔ ∃ patch ∈ patches, patch.paragraphId = id := by
    intro id
    rw [patchedParagraphs, (perm_insertionSort _ _).mem_iff, mem_dedup, mem_map]
  rw [overlapGuard]
  cases hfind : (patchedParagraphs patches).find? fun id =>
      overlapsFrom (-1) (-1) (paragraphRanges patches id) with
  | some id =>
    refine iff_of_false (fun h => deny_ne_ok h) fun h => ?_
    obtain ⟨patch, hpatch, rfl⟩ := (hmem id).mp (mem_of_find?_eq_some hfind)
    have hover := find?_some hfind
    rw [h patch hpatch] at hover
    cases hover
  | none =>
    refine iff_of_true rfl fun patch hpatch => ?_
    have h := find?_eq_none.mp hfind patch.paragraphId ((hmem _).mpr ⟨patch, hpatch, rfl⟩)
    exact Bool.not_eq_true _ ▸ h

/-- Patches of one paragraph that the guard lets through lie apart. -/
theorem lieApart_of_overlapGuard (h : overlapGuard patches = .ok ())
    (hsmall : ∀ patch ∈ patches, patch.stop < 2 ^ 63) :
    patches.Pairwise fun a b => a.paragraphId = b.paragraphId → LieApart a b := by
  rw [overlapGuard_eq_ok_iff] at h
  rw [pairwise_iff_forall_sublist]
  intro a b hab hid
  have ha : a ∈ patches := hab.subset (by simp)
  have hb : b ∈ patches := hab.subset (by simp)
  have hperm := perm_insertionSort rangeLe
    ((patches.filter (·.paragraphId = a.paragraphId)).map fun patch =>
      (asI64 patch.start, asI64 patch.stop))
  have hoffsets : ∀ patch ∈ patches, asI64 patch.start = patch.start ∧
      asI64 patch.stop = patch.stop := by
    intro patch hpatch
    have h1 := hsmall patch hpatch
    have h2 := patch.ordered
    exact ⟨asI64_of_lt (by omega), asI64_of_lt h1⟩
  obtain ⟨-, hpairwise⟩ := @pairwise_of_overlapsFrom _ (-1) (-1)
    (fun range hrange => by
      rw [paragraphRanges, hperm.mem_iff, mem_map] at hrange
      obtain ⟨patch, hpatch, rfl⟩ := hrange
      obtain ⟨h1, h2⟩ := hoffsets patch (mem_of_mem_filter hpatch)
      rw [h1, h2]
      exact patch.ordered) (le_refl _) (h a ha)
  -- the order of the two in the sorted list is not known
  have hsymm : (patches.filter (·.paragraphId = a.paragraphId)).Pairwise fun p q =>
      (asI64 p.stop ≤ asI64 q.start ∧ asI64 p.start < asI64 q.stop) ∨
        (asI64 q.stop ≤ asI64 p.start ∧ asI64 q.start < asI64 p.stop) := by
    have hboth := hpairwise.imp (S := fun x y : Nat × Nat =>
      (x.2 ≤ y.1 ∧ x.1 < y.2) ∨ (y.2 ≤ x.1 ∧ y.1 < x.2)) Or.inl
    rw [paragraphRanges, hperm.pairwise_iff fun h => Or.symm h, pairwise_map] at hboth
    exact hboth
  have hfiltered : [a, b].Sublist (patches.filter (·.paragraphId = a.paragraphId)) := by
    have := hab.filter fun patch => decide (patch.paragraphId = a.paragraphId)
    simpa [hid.symm] using this
  have hranges := (pairwise_iff_forall_sublist.mp hsymm) hfiltered
  obtain ⟨ha1, ha2⟩ := hoffsets a ha
  obtain ⟨hb1, hb2⟩ := hoffsets b hb
  rw [ha1, ha2, hb1, hb2] at hranges
  exact hranges.symm

/-- In the order of application, each range lies before those applied earlier. -/
theorem pairwise_behind (h : overlapGuard patches = .ok ())
    (hsmall : ∀ patch ∈ patches, patch.stop < 2 ^ 63)
    (hqueued : (applicationOrder patches).Pairwise AppliesBehind) :
    (applicationOrder patches).Pairwise fun a b => a.paragraphId = b.paragraphId → Behind a b := by
  have hperm := perm_applicationOrder patches
  have hapart := (hperm.pairwise_iff fun {a b} (h : a.paragraphId = b.paragraphId → LieApart a b)
    hid => (h hid.symm).symm).mpr (lieApart_of_overlapGuard h hsmall)
  have hsorted : (applicationOrder patches).Pairwise appliesFirst :=
    pairwise_insertionSort appliesFirst patches
  refine ((hapart.and hsorted).and hqueued).imp_of_mem ?_
  rintro a b ha hb ⟨⟨hapart, hfirst⟩, hqueued⟩ hid
  have hao := a.ordered
  have hbo := b.ordered
  have ha' := hsmall a (hperm.mem_iff.mp ha)
  have hb' := hsmall b (hperm.mem_iff.mp hb)
  have hstart : b.start ≤ a.start := by
    rcases hfirst with hlt | ⟨-, hle⟩
    · exact absurd hlt (hid ▸ lt_irrefl _)
    · rwa [asI64_of_lt (by omega), asI64_of_lt (by omega)] at hle
  rcases hapart hid with hbehind | ⟨h1, h2⟩
  · exact hbehind
  · -- `a` is an insertion where `b` starts
    have hinsertion := hqueued hid (by omega) (by omega)
    omega

/-! ## Blocks -/

theorem newline_notMem_markerLine (block : Text) : '\n' ∉ markerLine block := fun h => by
  simpa using mem_takeWhile_imp h

@[simp] theorem markerLine_withBody (block body : Text) :
    markerLine (withBody (markerLine block) body) = markerLine block := by
  rw [withBody]
  split
  · exact (takeWhile_ne_eq_self (newline_notMem_markerLine block)).1
  · exact takeWhile_ne_append (newline_notMem_markerLine block)

@[simp] theorem blockBody_withBody (block body : Text) :
    blockBody (withBody (markerLine block) body) = body := by
  have hmarker := newline_notMem_markerLine block
  rw [withBody, blockBody]
  split
  next hempty =>
    rw [(takeWhile_ne_eq_self hmarker).2, hempty]
    rfl
  · rw [dropWhile_ne_append hmarker]
    rfl

/-- Whether a block starts like the marker of a paragraph is up to its marker line. -/
theorem blockStart_isPrefix_iff {kind id : Text} (hid : '\n' ∉ blockStart kind id) (block : Text) :
    blockStart kind id <+: block ↔ blockStart kind id <+: markerLine block := by
  constructor
  · rintro ⟨rest, rfl⟩
    rw [markerLine, takeWhile_append_of_pos fun c hc =>
      decide_eq_true (ne_of_mem_of_not_mem hc hid)]
    exact List.prefix_append _ _
  · exact fun h => h.trans (List.takeWhile_prefix _)

theorem newline_notMem_blockStart {id : Text} (hid : '\n' ∉ id) :
    '\n' ∉ blockStart "p".toList id := by
  have h1 : '\n' ∉ "<!--@".toList ++ "p".toList ++ " id=\"".toList := by decide
  unfold blockStart
  rw [mem_append, mem_append, not_or, not_or]
  exact ⟨⟨h1, hid⟩, by decide⟩

/-- Blocks with the same marker lines are found alike. -/
theorem findBlock_congr {id : Text} (hid : '\n' ∉ id) {xs ys : List Text}
    (h : xs.map markerLine = ys.map markerLine) :
    findBlock xs "p".toList id = findBlock ys "p".toList id := by
  have hfind : ∀ blocks : List Text, findBlock blocks "p".toList id =
      (blocks.map markerLine).findIdx? fun line => blockStart "p".toList id <+: line := by
    intro blocks
    rw [findBlock, findIdx?_map]
    congr 1
    funext block
    simp only [Function.comp_apply, blockStart_isPrefix_iff (newline_notMem_blockStart hid) block]
  rw [hfind, hfind, h]

theorem blockStart_append (kind id rest : Text) :
    blockStart kind id ++ rest =
      ("<!--@".toList ++ kind ++ " id=\"".toList) ++ (id ++ '"' :: rest) := by
  unfold blockStart
  rw [append_assoc, append_assoc, singleton_append]

variable {blocks : List Text}

/-- Plain ids that name one block are one. -/
theorem id_unique {index : Nat} {id id' : Text} (hid : '"' ∉ id) (hid' : '"' ∉ id')
    (h : findBlock blocks "p".toList id = some index)
    (h' : findBlock blocks "p".toList id' = some index) : id = id' := by
  obtain ⟨_, hstart, -⟩ := findIdx?_eq_some_iff_getElem.mp h
  obtain ⟨_, hstart', -⟩ := findIdx?_eq_some_iff_getElem.mp h'
  obtain ⟨rest, hrest⟩ := of_decide_eq_true hstart
  obtain ⟨rest', hrest'⟩ := of_decide_eq_true hstart'
  rw [← hrest', blockStart_append, blockStart_append] at hrest
  have h1 := congrArg (List.takeWhile fun c => decide (c ≠ '"')) (append_cancel_left hrest)
  rwa [takeWhile_ne_append hid, takeWhile_ne_append hid'] at h1

/-! ## The loop -/

def bodyAfter (patches : List StagedPatch) (body : Text) : Text :=
  patches.foldl (fun body patch => patch.cut.apply body) body

/-- The blocks after some patches, applied one after the other. -/
def blocksAfter (blocks : List Text) (done : List StagedPatch) : List Text :=
  blocks.mapIdx fun index block =>
    if patchesOf blocks done index = [] then block
    else withBody (markerLine block) (bodyAfter (patchesOf blocks done index) (blockBody block))

theorem getElem?_blocksAfter (blocks : List Text) (done : List StagedPatch) (index : Nat) :
    (blocksAfter blocks done)[index]? = blocks[index]?.map fun block =>
      if patchesOf blocks done index = [] then block
      else withBody (markerLine block) (bodyAfter (patchesOf blocks done index) (blockBody block)) :=
  getElem?_mapIdx

theorem blocksAfter_nil (blocks : List Text) : blocksAfter blocks [] = blocks := by
  ext1 index
  rw [getElem?_blocksAfter]
  simp [patchesOf]

theorem map_markerLine_blocksAfter (blocks : List Text) (done : List StagedPatch) :
    (blocksAfter blocks done).map markerLine = blocks.map markerLine := by
  ext1 index
  rw [getElem?_map, getElem?_blocksAfter, getElem?_map, Option.map_map]
  congr 1
  funext block
  simp only [Function.comp_apply]
  split
  · rfl
  · exact markerLine_withBody block _

/-- The body of a block after some patches, and its marker line. -/
theorem getElem?_blocksAfter_body {index : Nat} {block : Text} (h : blocks[index]? = some block)
    (done : List StagedPatch) :
    ∃ after, (blocksAfter blocks done)[index]? = some after ∧ markerLine after = markerLine block ∧
      blockBody after = bodyAfter (patchesOf blocks done index) (blockBody block) := by
  refine ⟨_, by rw [getElem?_blocksAfter, h, Option.map_some], ?_, ?_⟩
  · split
    · rfl
    · exact markerLine_withBody block _
  · split
    next hnone => rw [hnone]; rfl
    · exact blockBody_withBody block _

theorem patchesOf_append (blocks : List Text) (xs ys : List StagedPatch) (index : Nat) :
    patchesOf blocks (xs ++ ys) index = patchesOf blocks xs index ++ patchesOf blocks ys index :=
  filter_append ..

theorem bodyAfter_concat (patches : List StagedPatch) (patch : StagedPatch) (body : Text) :
    bodyAfter (patches ++ [patch]) body = patch.cut.apply (bodyAfter patches body) := by
  rw [bodyAfter, foldl_append]
  rfl

/-- One patch more. -/
theorem set_blocksAfter {blocks : List Text} {done : List StagedPatch} {patch : StagedPatch}
    {index : Nat} {block : Text} (hindex : patchedBlock blocks patch = some index)
    (hblock : blocks[index]? = some block) :
    (blocksAfter blocks done).set index (withBody (markerLine block)
        (patch.cut.apply (bodyAfter (patchesOf blocks done index) (blockBody block)))) =
      blocksAfter blocks (done ++ [patch]) := by
  have hmine : patchesOf blocks [patch] index = [patch] := by
    rw [patchesOf, filter_singleton, decide_eq_true hindex]
    rfl
  ext1 i
  by_cases hi : i = index
  · subst hi
    have hlt : i < (blocksAfter blocks done).length := by
      rw [blocksAfter, length_mapIdx]
      exact (List.getElem?_eq_some_iff.mp hblock).1
    rw [getElem?_set_self hlt, getElem?_blocksAfter, hblock, Option.map_some, patchesOf_append,
      hmine, if_neg (by simp), bodyAfter_concat]
  · have hother : patchesOf blocks [patch] i = [] := by
      rw [patchesOf, filter_singleton, decide_eq_false fun h => hi (by
        rw [hindex] at h
        exact (Option.some.inj h).symm)]
      rfl
    rw [getElem?_set_ne (Ne.symm hi), getElem?_blocksAfter, getElem?_blocksAfter,
      patchesOf_append, hother, append_nil]

variable {done : List StagedPatch} {patch : StagedPatch}

/-- One patch, on a draft that reads as the blocks after some patches. -/
theorem applyPatchToDraft_eq_ok_iff {text : Text}
    (hread : paragraphBlocks text = .ok (blocksAfter blocks done))
    (hplain : '\n' ∉ patch.paragraphId) {result : Text} :
    applyPatchToDraft text patch = .ok result ↔
      ∃ index block, patchedBlock blocks patch = some index ∧ blocks[index]? = some block ∧
        bodyRange (bodyAfter (patchesOf blocks done index) (blockBody block)) patch.start patch.stop
          = patch.expected ∧
        result = renderDraft (editHeader text) (blocksAfter blocks (done ++ [patch])) := by
  have hfind : findBlock (blocksAfter blocks done) "p".toList patch.paragraphId =
      patchedBlock blocks patch := findBlock_congr hplain (map_markerLine_blocksAfter blocks done)
  rw [applyPatchToDraft, bind_ok hread, hfind]
  cases hindex : patchedBlock blocks patch with
  | none =>
    refine iff_of_false (fun h => deny_ne_ok h) ?_
    rintro ⟨index, block, ⟨⟩, -⟩
  | some index =>
    obtain ⟨hlt, -⟩ := findIdx?_eq_some_iff_getElem.mp hindex
    obtain ⟨after, hafter, hmarker, hbody⟩ :=
      getElem?_blocksAfter_body (getElem?_eq_getElem hlt) done
    have hget : (blocksAfter blocks done).getD index [] = after := by
      rw [getD_eq_getElem?_getD, hafter, Option.getD_some]
    simp only [hget, hmarker, hbody]
    split
    next hne =>
      refine iff_of_false (fun h => deny_ne_ok h) ?_
      rintro ⟨_, block, ⟨⟩, hblock, hrange, -⟩
      rw [getElem?_eq_getElem hlt] at hblock
      cases hblock
      exact hne hrange
    next heq =>
      rw [not_not] at heq
      have hset := @set_blocksAfter blocks done patch _ _ hindex (getElem?_eq_getElem hlt)
      constructor
      · intro h
        refine ⟨index, blocks[index], rfl, getElem?_eq_getElem hlt, heq, ?_⟩
        rw [← hset]
        exact (Except.ok.inj h).symm
      · rintro ⟨_, block, ⟨⟩, -, -, rfl⟩
        rw [← hset]
        rfl

/-! ## The run -/

section Run

variable {draft : Text} {blocks : List Text} {patches : List StagedPatch}

theorem bodyRange_congr {body body' : Text} {start stop : Nat}
    (h : body.take stop = body'.take stop) : bodyRange body start stop = bodyRange body' start stop := by
  rw [bodyRange, bodyRange, h]

/-- Where the patches applied so far lie behind a range, it still reads as before. -/
theorem bodyRange_bodyAfter {body : Text} (hbehind : ∀ other ∈ done, Behind other patch)
    (hinside : patch.stop ≤ body.length) :
    bodyRange (bodyAfter done body) patch.start patch.stop =
      bodyRange body patch.start patch.stop :=
  bodyRange_congr (take_foldl_apply (fun other hother => (hbehind other hother).1) hinside)

variable (hm : MeasuredBatch draft blocks patches)
  (hbehind : (applicationOrder patches).Pairwise fun a b => a.paragraphId = b.paragraphId → Behind a b)

include hm

theorem MeasuredBatch.sameId (ha : a ∈ patches) (hb : b ∈ patches) {index : Nat}
    (h : patchedBlock blocks a = some index) (h' : patchedBlock blocks b = some index) :
    a.paragraphId = b.paragraphId :=
  id_unique (hm.plain a ha).1 (hm.plain b hb).1 h h'

include hbehind

/-- The patches of one block, in the order of application. -/
theorem pairwise_patchesOf (hdone : done <+: applicationOrder patches) (index : Nat) :
    (patchesOf blocks done index).Pairwise Behind := by
  refine ((hbehind.sublist hdone.sublist).filter _).imp_of_mem ?_
  intro a b ha hb h
  have hmem : ∀ p ∈ patchesOf blocks done index, p ∈ patches ∧ patchedBlock blocks p = some index :=
    fun p hp => ⟨(perm_applicationOrder patches).mem_iff.mp (hdone.subset (mem_of_mem_filter hp)),
      of_decide_eq_true (mem_filter.mp hp).2⟩
  obtain ⟨ha1, ha2⟩ := hmem a ha
  obtain ⟨hb1, hb2⟩ := hmem b hb
  exact h (hm.sameId ha1 hb1 ha2 hb2)

theorem blocksAfter_eq_simultaneousBlocks (hdone : done <+: applicationOrder patches)
    (hexists : ∀ patch ∈ done, RangeExists blocks patch) :
    blocksAfter blocks done = simultaneousBlocks blocks done := by
  ext1 index
  rw [getElem?_blocksAfter, simultaneousBlocks, getElem?_mapIdx]
  cases hblock : blocks[index]? with
  | none => rfl
  | some block =>
    rw [Option.map_some, Option.map_some, bodyAfter,
      foldl_apply_eq_replaceAll (pairwise_patchesOf hm hbehind hdone index)]
    intro patch hpatch
    obtain ⟨hmem, hmine⟩ := mem_filter.mp hpatch
    obtain ⟨_, _, hindex, hblock', hinside, -⟩ := hexists patch hmem
    rw [of_decide_eq_true hmine] at hindex
    cases hindex
    rw [hblock] at hblock'
    cases hblock'
    exact hinside

/-- A patch goes through where its range exists, whatever has been applied behind it. -/
theorem rangeExists_iff {done todo : List StagedPatch}
    (horder : applicationOrder patches = done ++ patch :: todo)
    (hexists : ∀ other ∈ done, RangeExists blocks other) :
    (∃ index block, patchedBlock blocks patch = some index ∧ blocks[index]? = some block ∧
      bodyRange (bodyAfter (patchesOf blocks done index) (blockBody block)) patch.start patch.stop
        = patch.expected) ↔ RangeExists blocks patch := by
  have hmem : ∀ {p}, p ∈ done ++ patch :: todo → p ∈ patches := fun hp =>
    (perm_applicationOrder patches).mem_iff.mp (horder ▸ hp)
  have hpatch : patch ∈ patches := hmem (by simp)
  have hdoneBehind : ∀ index, patchedBlock blocks patch = some index →
      ∀ other ∈ patchesOf blocks done index, Behind other patch := by
    intro index hindex other hother
    obtain ⟨hother, hmine⟩ := mem_filter.mp hother
    rw [horder] at hbehind
    exact (pairwise_append.mp hbehind).2.2 other hother patch mem_cons_self
      (hm.sameId (hmem (mem_append_left _ hother)) hpatch (of_decide_eq_true hmine) hindex)
  constructor
  · rintro ⟨index, block, hindex, hblock, hrange⟩
    have hinside : patch.stop ≤ (blockBody block).length := by
      cases hnone : patchesOf blocks done index with
      | nil =>
        -- the first patch of the block: its text is as long as its range
        rw [hnone] at hrange
        have hlength := congrArg List.length hrange
        rw [hm.measured patch hpatch, bodyRange, length_drop, length_take] at hlength
        change min patch.stop (blockBody block).length - patch.start = _ at hlength
        by_cases hinsertion : patch.start = patch.stop
        · rw [← hinsertion]
          exact hm.inserted patch hpatch hinsertion index block hindex hblock
        · have := patch.ordered
          omega
      | cons other rest =>
        have hother : other ∈ patchesOf blocks done index := by rw [hnone]; exact mem_cons_self
        obtain ⟨hle, -⟩ := hdoneBehind index hindex other hother
        obtain ⟨hother, hmine⟩ := mem_filter.mp hother
        obtain ⟨_, _, hindex', hblock', hstop, -⟩ := hexists other hother
        rw [of_decide_eq_true hmine] at hindex'
        cases hindex'
        rw [hblock] at hblock'
        cases hblock'
        have := other.ordered
        omega
    exact ⟨index, block, hindex, hblock, hinside,
      (bodyRange_bodyAfter (hdoneBehind index hindex) hinside).symm.trans hrange⟩
  · rintro ⟨index, block, hindex, hblock, hinside, hrange⟩
    exact ⟨index, block, hindex, hblock,
      (bodyRange_bodyAfter (hdoneBehind index hindex) hinside).trans hrange⟩

/-- The rest of the batch, once some patches have been applied. -/
theorem foldlM_eq_ok_iff : ∀ {todo done : List StagedPatch} {text result : Text},
    applicationOrder patches = done ++ todo → (∀ patch ∈ done, RangeExists blocks patch) →
      todo ≠ [] → paragraphBlocks text = .ok (blocksAfter blocks done) →
      editHeader text = editHeader draft →
      (todo.foldlM applyPatchToDraft text = .ok result ↔
        (∀ patch ∈ todo, RangeExists blocks patch) ∧
          result = renderDraft (editHeader draft) (blocksAfter blocks (done ++ todo)))
  | [], _, _, _, _, _, hne, _, _ => absurd rfl hne
  | patch :: todo, done, text, result, horder, hexists, _, hread, hheader => by
    have hpatch : patch ∈ patches := (perm_applicationOrder patches).mem_iff.mp (by
      rw [horder]
      simp)
    have hstep := rangeExists_iff hm hbehind horder hexists
    have happly : ∀ result, applyPatchToDraft text patch = .ok result ↔ RangeExists blocks patch ∧
        result = renderDraft (editHeader draft) (blocksAfter blocks (done ++ [patch])) := by
      intro result
      rw [applyPatchToDraft_eq_ok_iff hread (hm.plain patch hpatch).2, ← hstep, hheader]
      constructor
      · rintro ⟨index, block, h1, h2, h3, h4⟩
        exact ⟨⟨index, block, h1, h2, h3⟩, h4⟩
      · rintro ⟨⟨index, block, h1, h2, h3⟩, h4⟩
        exact ⟨index, block, h1, h2, h3, h4⟩
    rw [foldlM_cons]
    by_cases hmore : todo = []
    · subst hmore
      simp only [foldlM_nil, bind_pure, happly, forall_mem_singleton]
    · have horder' : applicationOrder patches = (done ++ [patch]) ++ todo := by
        rw [horder, append_assoc, singleton_append]
      -- what this patch leaves behind reads back, so the rest goes on from there
      have hrest : RangeExists blocks patch →
          ((todo.foldlM applyPatchToDraft (renderDraft (editHeader draft)
              (blocksAfter blocks (done ++ [patch]))) = .ok result) ↔
            (∀ patch ∈ todo, RangeExists blocks patch) ∧
              result = renderDraft (editHeader draft) (blocksAfter blocks (done ++ patch :: todo))) := by
        intro hpatchExists
        have hexists' : ∀ p ∈ done ++ [patch], RangeExists blocks p := by
          intro p hp
          rcases mem_append.mp hp with hp | hp
          · exact hexists p hp
          · rw [mem_singleton.mp hp]
            exact hpatchExists
        have hprefix : done ++ [patch] <+: applicationOrder patches := ⟨todo, horder'.symm⟩
        have hread' := hm.stable (done ++ [patch]) hprefix (by simp) (by
          rw [horder']
          intro heq
          exact hmore (self_eq_append_right.mp heq))
        rw [← blocksAfter_eq_simultaneousBlocks hm hbehind hprefix hexists'] at hread'
        have ih := @foldlM_eq_ok_iff todo (done ++ [patch]) _ result horder' hexists' hmore hread'.1
          hread'.2
        rwa [append_assoc, singleton_append] at ih
      rw [forall_mem_cons]
      constructor
      · intro h
        obtain ⟨text', htext', htodo⟩ := bind_eq_ok h
        obtain ⟨hpatchExists, rfl⟩ := (happly text').mp htext'
        obtain ⟨htodoExists, hresult⟩ := (hrest hpatchExists).mp htodo
        exact ⟨⟨hpatchExists, htodoExists⟩, hresult⟩
      · rintro ⟨⟨hpatchExists, htodoExists⟩, hresult⟩
        rw [bind_ok ((happly _).mpr ⟨hpatchExists, rfl⟩)]
        exact (hrest hpatchExists).mpr ⟨htodoExists, hresult⟩

end Run

/-! ## The batch -/

theorem patchesOf_perm (blocks : List Text) (h : xs.Perm ys) (index : Nat) :
    (patchesOf blocks xs index).Perm (patchesOf blocks ys index) := h.filter _

/-- The order of the patches does not matter to the simultaneous replacement. -/
theorem simultaneousBlocks_perm (hperm : xs.Perm ys)
    (hapart : ∀ index, (patchesOf blocks xs index).Pairwise LieApart) :
    simultaneousBlocks blocks xs = simultaneousBlocks blocks ys := by
  ext1 index
  rw [simultaneousBlocks, simultaneousBlocks, getElem?_mapIdx, getElem?_mapIdx]
  congr 1
  funext block
  have hpatches := patchesOf_perm blocks hperm index
  rw [sortedCuts_perm (hapart index) hpatches]
  by_cases hnone : patchesOf blocks xs index = []
  · rw [if_pos hnone, if_pos (by rwa [hnone, nil_perm] at hpatches)]
  · rw [if_neg hnone, if_neg fun hnone' => hnone (by rwa [hnone', perm_nil] at hpatches)]

/-- Accepted are the measured batches whose ranges lie apart and exist; the draft they produce is
the simultaneous replacement. -/
theorem applyBatch_eq_ok_iff {draft : Text} (hread : paragraphBlocks draft = .ok blocks)
    (hm : MeasuredBatch draft blocks patches) (batchId : Option String) (result : Text) :
    applyBatch batchId draft patches = .ok result ↔
      patches ≠ [] ∧ overlapGuard patches = .ok () ∧ (∀ patch ∈ patches, RangeExists blocks patch) ∧
        result = renderDraft (editHeader draft) (simultaneousBlocks blocks patches) := by
  rw [applyBatch]
  by_cases hempty : patches = []
  · rw [if_pos hempty]
    exact iff_of_false (fun h => deny_ne_ok h) fun h => h.1 hempty
  rw [if_neg hempty]
  cases hguard : overlapGuard patches with
  | error failure =>
    refine iff_of_false (fun h => ?_) fun h => ?_
    · cases h
    · cases h.2.1
  | ok _ =>
    have hbehind := pairwise_behind hguard hm.small hm.queued
    have hperm := perm_applicationOrder patches
    have horder : applicationOrder patches ≠ [] := fun h => hempty (by
      rw [h] at hperm
      exact nil_perm.mp hperm)
    have hapart : ∀ index, (patchesOf blocks (applicationOrder patches) index).Pairwise LieApart :=
      fun index => (pairwise_patchesOf hm hbehind (prefix_refl _) index).imp Or.inl
    have hrun := @foldlM_eq_ok_iff draft blocks patches hm hbehind (applicationOrder patches) []
      draft result (nil_append _).symm (by simp) horder (by rwa [blocksAfter_nil]) rfl
    have hexists : (∀ patch ∈ applicationOrder patches, RangeExists blocks patch) ↔
        ∀ patch ∈ patches, RangeExists blocks patch :=
      forall_congr' fun patch => by rw [hperm.mem_iff]
    rw [bind_ok rfl, hrun, nil_append, hexists]
    -- the loop's blocks are the simultaneous ones, in whatever order the patches are listed
    have hblocks : (∀ patch ∈ patches, RangeExists blocks patch) →
        blocksAfter blocks (applicationOrder patches) = simultaneousBlocks blocks patches := by
      intro h
      rw [blocksAfter_eq_simultaneousBlocks hm hbehind (prefix_refl _) (hexists.mpr h)]
      exact simultaneousBlocks_perm hperm hapart
    constructor
    · rintro ⟨h, rfl⟩
      exact ⟨hempty, rfl, h, by rw [hblocks h]⟩
    · rintro ⟨-, -, h, rfl⟩
      exact ⟨h, by rw [hblocks h]⟩

/-- The guard looks at the ranges only, not at their order in the queue. -/
theorem overlapGuard_perm (h : xs.Perm ys) (hguard : overlapGuard xs = .ok ()) :
    overlapGuard ys = .ok () := by
  rw [overlapGuard_eq_ok_iff] at hguard ⊢
  intro patch hpatch
  rw [← hguard patch (h.mem_iff.mpr hpatch)]
  congr 1
  have hranges := (h.filter (·.paragraphId = patch.paragraphId)).map fun patch =>
    (asI64 patch.start, asI64 patch.stop)
  have hperm := ((perm_insertionSort rangeLe _).trans hranges.symm).trans
    (perm_insertionSort rangeLe _).symm
  refine hperm.eq_of_pairwise ?_ (pairwise_insertionSort rangeLe _)
    (pairwise_insertionSort rangeLe _)
  rintro ⟨a1, a2⟩ ⟨b1, b2⟩ - - hab hba
  simp only [rangeLe] at hab hba
  rw [Prod.mk.injEq]
  omega

/-- What a batch promises of the draft it produces. -/
structure CarriedOut (draft : Text) (patches : List StagedPatch) (result : Text)
    (blocks : List Text) : Prop where
  reads : paragraphBlocks draft = .ok blocks
  simultaneous : result = renderDraft (editHeader draft) (simultaneousBlocks blocks patches)
  exists_ranges : ∀ patch ∈ patches, RangeExists blocks patch

/-- A measured batch that is accepted is carried out at once, every range of it was there, and
every measured order of its patches gives the same draft. -/
theorem applyBatch_simultaneous {batchId : Option String} {draft result : Text}
    {patches : List StagedPatch} (haccepted : applyBatch batchId draft patches = .ok result)
    (hmeasured : ∀ blocks, paragraphBlocks draft = .ok blocks → MeasuredBatch draft blocks patches) :
    ∃ blocks, CarriedOut draft patches result blocks ∧
      ∀ order, order.Perm patches → MeasuredBatch draft blocks order →
        applyBatch batchId draft order = .ok result := by
  cases hread : paragraphBlocks draft with
  | error failure =>
    -- the first patch would have met the unreadable draft
    exfalso
    rw [applyBatch] at haccepted
    split at haccepted
    · exact deny_ne_ok haccepted
    next hne =>
      obtain ⟨_, -, hrun⟩ := bind_eq_ok haccepted
      cases horder : applicationOrder patches with
      | nil =>
        have hperm := perm_applicationOrder patches
        rw [horder] at hperm
        exact hne (List.nil_perm.mp hperm)
      | cons patch rest =>
        rw [horder, List.foldlM_cons] at hrun
        obtain ⟨_, hstep, -⟩ := bind_eq_ok hrun
        rw [applyPatchToDraft, hread] at hstep
        cases hstep
  | ok blocks =>
    obtain ⟨hne, hguard, hexists, hresult⟩ :=
      (applyBatch_eq_ok_iff hread (hmeasured blocks hread) batchId result).mp haccepted
    refine ⟨blocks, ⟨hread, hresult, hexists⟩, fun order hperm hm => ?_⟩
    rw [applyBatch_eq_ok_iff hread hm]
    have hguard' := overlapGuard_perm hperm.symm hguard
    refine ⟨fun h => hne ?_, hguard', fun patch h => hexists patch (hperm.mem_iff.mp h), ?_⟩
    · rw [h] at hperm
      exact List.nil_perm.mp hperm
    · rw [hresult]
      congr 1
      refine (simultaneousBlocks_perm hperm fun index => ?_).symm
      -- the ranges of one block lie apart in any order
      have hapart := lieApart_of_overlapGuard hguard' hm.small
      refine (hapart.filter _).imp_of_mem ?_
      intro a b ha hb h
      obtain ⟨ha, hamine⟩ := List.mem_filter.mp ha
      obtain ⟨hb, hbmine⟩ := List.mem_filter.mp hb
      exact h (hm.sameId ha hb (of_decide_eq_true hamine) (of_decide_eq_true hbmine))

/-! ## Two batches -/

def patchedDraft (body : Text) : Text := "<!--@edit-->\n<!--@p id=\"P0\"-->\n".toList ++ body

def insertionPatch (start : Nat) (after : Text) : StagedPatch where
  paragraphId := "P0".toList
  start
  stop := start
  expected := []
  after
  ordered := le_refl _
  insertion := by simp

/-- The span of the first character. -/
theorem first_ordered : (0 : ℕ) ≤ 1 := Nat.zero_le 1

/-- A replacement and an insertion behind it. -/
def measuredPatches : List StagedPatch :=
  [⟨"P0".toList, 0, 1, ['a'], ['X'], first_ordered, by decide⟩, insertionPatch 4 ['Y']]

theorem measuredPatches_measured : ∀ blocks,
    paragraphBlocks (patchedDraft "abcd".toList) = .ok blocks →
      MeasuredBatch (patchedDraft "abcd".toList) blocks measuredPatches := by
  have hread : paragraphBlocks (patchedDraft "abcd".toList) =
      .ok ["<!--@p id=\"P0\"-->\nabcd".toList] := by decide
  have horder : applicationOrder measuredPatches =
      [insertionPatch 4 ['Y'], ⟨"P0".toList, 0, 1, ['a'], ['X'], by decide, by decide⟩] := by
    decide
  intro blocks hblocks
  rw [hread] at hblocks
  cases hblocks
  constructor
  · decide
  · intro patch hpatch hinsertion index block hindex hblock
    have hlength : ∀ block ∈ ["<!--@p id=\"P0\"-->\nabcd".toList], (blockBody block).length = 4 := by
      decide
    have hstarts : ∀ patch ∈ measuredPatches, patch.start ≤ 4 := by decide
    rw [hlength block (mem_of_getElem? hblock)]
    exact hstarts patch hpatch
  · rw [horder]
    simp [AppliesBehind, insertionPatch]
  · decide
  · decide
  · rw [horder]
    intro done hdone hne hne'
    obtain ⟨rest, hrest⟩ := hdone
    cases done with
    | nil => exact absurd rfl hne
    | cons first done =>
      obtain ⟨rfl, htail⟩ := List.cons.inj hrest
      cases done with
      | nil => decide
      | cons second done =>
        obtain ⟨rfl, htail'⟩ := List.cons.inj htail
        obtain ⟨rfl, -⟩ := append_eq_nil_iff.mp htail'
        exact absurd rfl hne'

theorem measuredPatches_carriedOut :
    ∃ blocks, CarriedOut (patchedDraft "abcd".toList) measuredPatches (patchedDraft "XbcdY".toList)
        blocks ∧
      ∀ order, order.Perm measuredPatches →
        MeasuredBatch (patchedDraft "abcd".toList) blocks order →
          applyBatch none (patchedDraft "abcd".toList) order =
            .ok (patchedDraft "XbcdY".toList) :=
  applyBatch_simultaneous (by decide) measuredPatches_measured

/-- An insertion queued before a replacement at the same start. -/
def shiftingPatches : List StagedPatch :=
  [insertionPatch 0 ['a'], ⟨"P0".toList, 0, 2, "aa".toList, ['Y'], by decide, by decide⟩]

theorem shiftingPatches_misplaced :
    ¬ ∀ batchId draft patches result, applyBatch batchId draft patches = .ok result →
      ∃ blocks, CarriedOut draft patches result blocks := by
  intro h
  obtain ⟨blocks, hread, hresult, -⟩ := h none (patchedDraft "aaaa".toList) shiftingPatches
    (patchedDraft "Yaaa".toList) (by decide)
  have hblocks : paragraphBlocks (patchedDraft "aaaa".toList) =
      .ok ["<!--@p id=\"P0\"-->\naaaa".toList] := by decide
  rw [hblocks] at hread
  cases hread
  have hother : renderDraft (editHeader (patchedDraft "aaaa".toList))
      (simultaneousBlocks ["<!--@p id=\"P0\"-->\naaaa".toList] shiftingPatches) =
        patchedDraft "aYaa".toList := by decide
  rw [hother] at hresult
  exact absurd hresult (by decide)

end Docx2Typed
