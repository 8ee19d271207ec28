import Docx2Typed.Prose.Edits
import Docx2Typed.Zip.Stored

/-!
# Are revision ids fresh?

A run of `apply_edits` takes its first revision id from a scan of the package's own bytes and goes
up by two for each tracked edit.  A tracked edit writes its deletion id once for every run it
rewrites, and the id behind it once, for its insertion.

So the ids of a run are distinct and new exactly when every tracked edit rewrites one run, the
ids stay below the `u32` bound where addition saturates, and none of them was in use.
-/

namespace Docx2Typed

open List

/-! ## The ids a package uses -/

/-- Attributes from some point of an open tag on: qualified names and raw values. -/
def attributesFrom : Nat → Bytes → List (Bytes × Bytes)
  | 0, _ => []
  | fuel + 1, rest =>
    let rest := rest.dropWhile isAsciiWhitespace
    match (rest.dropWhile isNameByte).dropWhile fun b => isAsciiWhitespace b || b == byte '=' with
    | [] => []
    | quote :: value =>
      if quote = byte '"' ∨ quote = byte '\'' then
        (rest.takeWhile isNameByte, value.takeWhile (· != quote)) ::
          attributesFrom fuel ((value.dropWhile (· != quote)).drop 1)
      else []

def tagAttributes (xml : Bytes) (tag : Tag) : List (Bytes × Bytes) :=
  attributesFrom xml.length (((slice xml tag.start tag.stop).drop 1).dropWhile isNameByte)

/-- A decimal number, as attribute values write it. -/
def decimalValue (value : Bytes) : Option Nat :=
  let digits := if value.head? = some (byte '+') then value.drop 1 else value
  if digits ≠ [] ∧ digits.all isAsciiDigit then
    some (digits.foldl (fun n b => 10 * n + (b.toNat - 48)) 0)
  else none

/-- The values of `w:id` in one part. -/
def markupIds (xml : Bytes) : List Nat :=
  ((scanTags xml).filter (!·.closing)).flatMap fun tag =>
    ((tagAttributes xml tag).filter (·.1 = bytes "w:id")).filterMap fun entry =>
      decimalValue entry.2

/-- The values of `w:id` in the XML parts of a package. -/
def packageIds (crates : Crates) (package : Bytes) : List Nat :=
  ((crates.members package).getD []).flatMap fun member =>
    if ".xml".toList <:+ member.1.toList then (member.2.map markupIds).getD [] else []

/-! ## The ids a run writes -/

/-- The ids of the revisions a run writes, in its order. -/
def writtenIds (logs : List PartLog) : List Nat :=
  logs.flatMap fun log => log.splices.flatMap (·.replacement.ids)

/-- How many runs an edit rewrites when it is tracked; zero when it fails. -/
def runsRewritten (part : Bytes) (inventory : ProseInventory) (partKey : String)
    (edit : IslandEdit) : Nat :=
  match matchLeafSpanAt inventory partKey edit.paragraphId edit.leafIndex edit.old edit.charStart with
  | .ok (some span) =>
    match coveredRuns part inventory partKey edit.paragraphId span.covers [] with
    | .ok runs => runs.length
    | .error _ => 0
  | _ => 0

/-- In every step of the run, every tracked edit rewrites one run. -/
def OneRunEach (crates : Crates) : Bytes → Nat → List (String × List IslandEdit) → Prop
  | _, _, [] => True
  | current, nextId, group :: rest =>
    (∀ part inventory, readPartBytes crates current (partPath group.1) = .ok part →
      enumeratePackage crates current = .ok inventory →
        ∀ edit ∈ group.2, edit.tracked → runsRewritten part inventory group.1 edit = 1) ∧
    ∀ log current' nextId', applyPart crates current nextId group = .ok (log, current', nextId') →
      OneRunEach crates current' nextId' rest

/-- The ids of tracked edits that rewrite so many runs each. -/
def idBlocks : Nat → List Nat → List Nat
  | _, [] => []
  | nextId, runs :: rest =>
    List.replicate runs nextId ++ saturatingAdd nextId 1 :: idBlocks (saturatingAdd nextId 2) rest

/-- The id behind `n` tracked edits. -/
def advance : Nat → Nat → Nat
  | nextId, 0 => nextId
  | nextId, n + 1 => advance (saturatingAdd nextId 2) n

theorem idBlocks_append : ∀ (nextId : Nat) (xs ys : List Nat),
    idBlocks nextId (xs ++ ys) = idBlocks nextId xs ++ idBlocks (advance nextId xs.length) ys
  | _, [], _ => rfl
  | nextId, runs :: rest, ys => by
    rw [cons_append, idBlocks, idBlocks, idBlocks_append, append_assoc]
    rfl

theorem advance_add : ∀ (nextId m n : Nat), advance nextId (m + n) = advance (advance nextId m) n
  | _, 0, n => by rw [Nat.zero_add]; rfl
  | nextId, m + 1, n => by
    rw [Nat.add_right_comm]
    exact advance_add _ m n

/-! ## From a run to its blocks -/

/-- The ids of some splices. -/
def spliceIds (splices : List Splice) : List Nat := splices.flatMap (·.replacement.ids)

theorem spliceIds_append (xs ys : List Splice) :
    spliceIds (xs ++ ys) = spliceIds xs ++ spliceIds ys := flatMap_append

/-- What a run of edits writes: blocks of ids, a block for each tracked edit. -/
structure WritesBlocks (tracked : Nat) (oneRunEach : Prop) (nextId nextId' : Nat)
    (ids : List Nat) : Prop where
  intro ::
  blocks : ∃ counts, ids = idBlocks nextId counts ∧ counts.length = tracked ∧
    (∀ runs ∈ counts, 0 < runs) ∧ (oneRunEach ↔ ∀ runs ∈ counts, runs = 1)
  advanced : nextId' = advance nextId tracked

theorem WritesBlocks.none {nextId : Nat} {oneRunEach : Prop} (h : oneRunEach) :
    WritesBlocks 0 oneRunEach nextId nextId [] :=
  ⟨⟨[], rfl, rfl, by simp, by simpa using h⟩, rfl⟩

theorem WritesBlocks.append {m n nextId nextId' nextId'' : Nat} {p q : Prop} {xs ys : List Nat}
    (h : WritesBlocks m p nextId nextId' xs) (h' : WritesBlocks n q nextId' nextId'' ys) :
    WritesBlocks (m + n) (p ∧ q) nextId nextId'' (xs ++ ys) := by
  obtain ⟨⟨counts, rfl, rfl, hpos, hone⟩, rfl⟩ := h
  obtain ⟨⟨counts', rfl, rfl, hpos', hone'⟩, rfl⟩ := h'
  refine ⟨⟨counts ++ counts', (idBlocks_append _ _ _).symm, length_append, ?_, ?_⟩,
    (advance_add _ _ _).symm⟩
  · exact forall_mem_append.mpr ⟨hpos, hpos'⟩
  · rw [forall_mem_append, hone, hone']

theorem ids_runPieces (edit : IslandEdit) (span : LeafSpanMatch) (insertRpr : Text) (deleteId : Nat)
    (isFirst isLast : Bool) (run : CoveredRun) :
    (runPieces edit span insertRpr deleteId isFirst isLast run).flatMap Piece.ids =
      deleteId :: if isLast then [saturatingAdd deleteId 1] else [] := by
  cases isLast with
  | true =>
    by_cases hfirst : isFirst = true ∧ span.prefixText ≠ []
    · by_cases hsuffix : span.suffixText = []
      · simp [runPieces, hfirst, hsuffix, Piece.ids]
      · simp [runPieces, hfirst, hsuffix, Piece.ids]
    · by_cases hsuffix : span.suffixText = []
      · simp [runPieces, hfirst, hsuffix, Piece.ids]
      · simp [runPieces, hfirst, hsuffix, Piece.ids]
  | false =>
    by_cases hfirst : isFirst = true ∧ span.prefixText ≠ []
    · simp [runPieces, hfirst, Piece.ids]
    · simp [runPieces, hfirst, Piece.ids]

/-- The deletion id stands at every run, the insertion id behind the last one. -/
theorem spliceIds_runSplices (edit : IslandEdit) (span : LeafSpanMatch) (insertRpr : Text)
    (deleteId : Nat) : ∀ (isFirst : Bool) (run : CoveredRun) (rest : List CoveredRun),
    spliceIds (runSplices edit span insertRpr deleteId isFirst (run :: rest)) =
      List.replicate (run :: rest).length deleteId ++ [saturatingAdd deleteId 1]
  | isFirst, run, [] => by
    simp [spliceIds, runSplices, Replacement.ids, ids_runPieces]
  | isFirst, run, next :: rest => by
    have ih := spliceIds_runSplices edit span insertRpr deleteId false next rest
    rw [runSplices, spliceIds, flatMap_cons, ← spliceIds, ih]
    simp [Replacement.ids, ids_runPieces, replicate_succ]

theorem spliceIds_directSplices {part : Bytes} {inventory : ProseInventory} {partKey : String}
    {edit : IslandEdit} : ∀ {covers : List SpanCover} {isFirst : Bool} {splices : List Splice},
    directSplices part inventory partKey edit isFirst covers = .ok splices → spliceIds splices = []
  | [], _, splices, h => by
    obtain rfl := Except.ok.inj h
    rfl
  | cover :: rest, isFirst, splices, h => by
    by_cases hcovered : cover.covered = []
    · rw [directSplices, if_pos hcovered] at h
      exact spliceIds_directSplices h
    obtain ⟨leaf, start, stop, others, -, -, hothers, rfl⟩ := directSplices_cons_eq_ok hcovered h
    rw [spliceIds_append, spliceIds_directSplices hothers, append_nil]
    cases isFirst with
    | false => rfl
    | true =>
      -- the start tag of a text element carries no revision id
      have htag : ∀ splice ∈ (maybeInjectXmlSpace part leaf.openEnd).toList,
          splice.replacement.ids = [] := by
        intro splice hsplice
        rw [Option.mem_toList, maybeInjectXmlSpace] at hsplice
        split at hsplice
        · cases hsplice
        · simp only at hsplice
          split at hsplice
          · cases hsplice
          · obtain rfl := Option.some.inj hsplice
            rfl
      rw [if_pos rfl]
      split
      · exact flatMap_eq_nil_iff.mpr (forall_mem_cons.mpr ⟨rfl, htag⟩)
      · rfl

section Part

variable {part : Bytes} {inventory : ProseInventory} {partKey : String}

theorem planEdit_writes {nextId nextId' : Nat} {edit : IslandEdit} {splices : List Splice}
    (h : planEdit part inventory partKey nextId edit = .ok (splices, nextId')) :
    WritesBlocks (if edit.tracked then 1 else 0)
      (edit.tracked → runsRewritten part inventory partKey edit = 1) nextId nextId'
      (spliceIds splices) := by
  obtain ⟨span, hspan, hcase⟩ := planEdit_eq_ok h
  rcases hcase with ⟨htracked, rfl, run, rest, hruns, rfl⟩ | ⟨hdirect, rfl, hsplices⟩
  · have hcount : runsRewritten part inventory partKey edit = (run :: rest).length := by
      simp only [runsRewritten, hspan, hruns]
    rw [spliceIds_runSplices, hcount, if_pos htracked]
    refine ⟨⟨[(run :: rest).length], rfl, rfl, ?_, ?_⟩, rfl⟩
    · simp
    · simp [htracked]
  · have hnot : ¬ edit.tracked = true := Bool.eq_false_iff.mp hdirect
    rw [spliceIds_directSplices hsplices, if_neg hnot]
    exact .none fun h => absurd h hnot

theorem planEdits_writes : ∀ {edits : List IslandEdit} {nextId nextId' : Nat}
    {splices : List Splice},
    planEdits part inventory partKey nextId edits = .ok (splices, nextId') →
      WritesBlocks (edits.countP (·.tracked))
        (∀ edit ∈ edits, edit.tracked → runsRewritten part inventory partKey edit = 1)
        nextId nextId' (spliceIds splices)
  | [], _, _, _, h => by
    obtain ⟨rfl, rfl⟩ := Prod.mk.inj (Except.ok.inj h)
    exact .none (by simp)
  | edit :: rest, nextId, nextId', splices, h => by
    obtain ⟨here, middle, others, hhere, hothers, rfl⟩ := planEdits_cons_eq_ok h
    have := (planEdit_writes hhere).append (planEdits_writes hothers)
    rw [spliceIds_append, countP_cons, Nat.add_comm]
    rwa [forall_mem_cons]

end Part

theorem applyParts_writes {crates : Crates} : ∀ {groups : List (String × List IslandEdit)}
    {current final : Bytes} {nextId : Nat} {logs : List PartLog},
    applyParts crates current nextId groups = .ok (logs, final) →
      ∃ nextId', WritesBlocks ((groups.flatMap (·.2)).countP (·.tracked))
        (OneRunEach crates current nextId groups) nextId nextId' (writtenIds logs)
  | [], _, _, nextId, _, h => by
    obtain ⟨rfl, rfl⟩ := Prod.mk.inj (Except.ok.inj h)
    exact ⟨nextId, .none trivial⟩
  | group :: rest, current, final, nextId, logs, h => by
    obtain ⟨log, current', middle, others, hpart, hothers, rfl⟩ := applyParts_cons_eq_ok h
    obtain ⟨nextId', hrest⟩ := applyParts_writes hothers
    obtain ⟨part, inventory, splices, patched, hread, hinventory, hplan, -, rfl⟩ :=
      applyPart_eq_ok hpart
    refine ⟨nextId', ?_⟩
    have := (planEdits_writes hplan).append hrest
    rw [writtenIds, flatMap_cons, flatMap_cons, countP_append]
    refine ⟨?_, this.advanced⟩
    obtain ⟨counts, hids, hlength, hpos, hone⟩ := this.blocks
    refine ⟨counts, hids, hlength, hpos, Iff.trans ?_ hone⟩
    -- the step is the one the run has taken
    rw [OneRunEach]
    constructor
    · exact fun h => ⟨h.1 part inventory hread hinventory, h.2 _ _ _ hpart⟩
    · refine fun h => ⟨?_, ?_⟩
      · intro part' inventory' hread' hinventory'
        obtain rfl := Except.ok.inj (hread.symm.trans hread')
        obtain rfl := Except.ok.inj (hinventory.symm.trans hinventory')
        exact h.1
      · intro log' current'' nextId'' hpart''
        obtain ⟨rfl, rfl, rfl⟩ : _ ∧ _ ∧ _ := by
          simpa using Except.ok.inj (hpart.symm.trans hpart'')
        exact h.2

/-! ## Distinct and new -/

/-- Grouping by part keeps every edit once. -/
theorem groupEdit_perm (edit : IslandEdit) : ∀ groups : List (String × List IslandEdit),
    ((groupEdit edit groups).flatMap (·.2)).Perm (edit :: groups.flatMap (·.2))
  | [] => .refl _
  | group :: rest => by
    rw [groupEdit]
    split
    · simp only [flatMap_cons, append_assoc, singleton_append]
      exact perm_middle
    · split
      · exact .refl _
      · simp only [flatMap_cons]
        exact ((groupEdit_perm edit rest).append_left group.2).trans perm_middle

theorem groupEdits_perm (edits : List IslandEdit) :
    ((groupEdits edits).flatMap (·.2)).Perm edits := by
  have h : ∀ (edits : List IslandEdit) (groups : List (String × List IslandEdit)),
      ((edits.foldl (fun groups edit => groupEdit edit groups) groups).flatMap (·.2)).Perm
        (groups.flatMap (·.2) ++ edits) := by
    intro edits
    induction edits with
    | nil =>
      intro groups
      rw [append_nil]
      exact .refl _
    | cons edit rest ih =>
      intro groups
      refine (ih _).trans (((groupEdit_perm edit groups).append_right rest).trans ?_)
      exact perm_middle.symm
  exact h edits []

/-- Below the bound, one run each: the ids count up. -/
theorem idBlocks_ones : ∀ {counts : List Nat} {nextId : Nat}, (∀ runs ∈ counts, runs = 1) →
    (counts = [] ∨ nextId + 2 * counts.length ≤ 2 ^ 32) →
      idBlocks nextId counts = List.range' nextId (2 * counts.length)
  | [], _, _, _ => rfl
  | runs :: rest, nextId, hone, hfit => by
    obtain ⟨rfl, hrest⟩ := forall_mem_cons.mp hone
    have hfit : nextId + 2 * (rest.length + 1) ≤ 2 ^ 32 := by
      rcases hfit with h | h
      · cases h
      · exact h
    have hins : saturatingAdd nextId 1 = nextId + 1 := Nat.min_eq_left (by unfold u32Max; omega)
    rw [idBlocks, hins, length_cons, Nat.mul_succ, range'_succ, range'_succ]
    refine congrArg₂ List.cons rfl (congrArg₂ List.cons rfl ?_)
    cases rest with
    | nil => rfl
    | cons next rest =>
      rw [length_cons] at hfit
      have hnext : saturatingAdd nextId 2 = nextId + 2 := Nat.min_eq_left (by unfold u32Max; omega)
      rw [hnext, idBlocks_ones hrest (.inr (by rw [length_cons]; omega))]

/-- Distinct ids come from single runs below the bound. -/
theorem of_nodup_idBlocks : ∀ {counts : List Nat} {nextId : Nat}, nextId ≤ u32Max →
    (∀ runs ∈ counts, 0 < runs) → (idBlocks nextId counts).Nodup →
      (∀ runs ∈ counts, runs = 1) ∧ (counts = [] ∨ nextId + 2 * counts.length ≤ 2 ^ 32)
  | [], _, _, _, _ => ⟨by simp, .inl rfl⟩
  | runs :: rest, nextId, hnext, hpos, h => by
    obtain ⟨hruns, hrest⟩ := forall_mem_cons.mp hpos
    rw [idBlocks, nodup_append, nodup_cons] at h
    obtain ⟨hblock, ⟨-, htail⟩, happart⟩ := h
    obtain rfl : runs = 1 := by
      have := nodup_replicate.mp hblock
      omega
    have hne : nextId ≠ saturatingAdd nextId 1 :=
      happart nextId (by simp) _ mem_cons_self
    have hlt : nextId < u32Max := by
      by_contra hge
      exact hne (by unfold saturatingAdd; omega)
    obtain ⟨hone, hfit⟩ := of_nodup_idBlocks (Nat.min_le_right _ _) hrest htail
    refine ⟨forall_mem_cons.mpr ⟨rfl, hone⟩, .inr ?_⟩
    rw [length_cons]
    rcases hfit with rfl | hfit
    · unfold u32Max at hlt
      rw [length_nil]
      omega
    · unfold u32Max at hfit hlt
      cases rest with
      | nil =>
        rw [length_nil]
        omega
      | cons next rest =>
        rw [length_cons] at hfit ⊢
        omega

/-- The first revision id of a run. -/
def firstRevisionId (package : Bytes) : Nat := saturatingAdd (maxRevisionId package) 1

/-- Every tracked edit rewrites one run, the ids stay below the bound, and none was in use. -/
structure IdsFit (crates : Crates) (package : Bytes) (edits : List IslandEdit) : Prop where
  oneRunEach : OneRunEach crates package (firstRevisionId package) (groupEdits edits)
  fits : edits.countP (·.tracked) = 0 ∨
    firstRevisionId package + 2 * edits.countP (·.tracked) ≤ 2 ^ 32
  unused : ∀ id ∈ packageIds crates package, id < firstRevisionId package ∨
    firstRevisionId package + 2 * edits.countP (·.tracked) ≤ id

/-- A tracked edit of the first paragraph. -/
def trackedEdit (old new : String) : IslandEdit where
  part := "document"
  paragraphId := "P0"
  leafIndex := 0
  old := old.toList
  new := new.toList
  tracked := true
  author := "editor".toList
  date := "2024-01-01T00:00:00Z".toList

end Docx2Typed
