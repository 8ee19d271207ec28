import Docx2Typed.Draft.Structure
import Docx2Typed.Draft.Lossless

/-!
# Which paragraph ids a workspace allocates

The commit numbers its pending paragraphs from the highest number in the draft on, where a deleted
paragraph counts as long as its mark stands there.  The marks go with the commit.  So a number
that was deleted and committed is free again, if it was the highest: the next paragraph inserted
gets the id of the one deleted, although the template, the structure record or an earlier commit
still knows it.

Where the draft still holds a number as high as any that was ever in use, the numbers are fresh;
over a run whose commits all find the draft so, no id is ever given twice.
-/

namespace Docx2Typed

open List

/-! ## Numbers of formal ids -/

theorem digitValue_digitChar : ∀ {d : Nat}, d < 10 → digitValue 10 (Nat.digitChar d) = some d := by
  decide

/-- Reading digits, from a value on. -/
def readDigits (value : Option Nat) (digits : Text) : Option Nat :=
  digits.foldl (fun value c => do
    let value ← value
    let digit ← digitValue 10 c
    pure (value * 10 + digit)) value

theorem readDigits_toDigits (n : Nat) : readDigits (some 0) (Nat.toDigits 10 n) = some n := by
  induction n using Nat.strongRecOn with
  | ind n ih =>
    by_cases hn : n < 10
    · rw [Nat.toDigits_of_lt_base hn, readDigits, foldl_cons, foldl_nil]
      simp [digitValue_digitChar hn]
    · have hstep : Nat.toDigits 10 n = Nat.toDigits 10 (n / 10) ++ [Nat.digitChar (n % 10)] :=
        Nat.toDigits_of_base_le (by decide) (by omega)
      have ih := ih (n / 10) (by omega)
      rw [readDigits] at ih
      rw [hstep, readDigits, foldl_append, ih, foldl_cons, foldl_nil]
      simp [digitValue_digitChar (Nat.mod_lt n (by decide : 0 < 10))]
      omega

theorem parseDigits_toDigits (n : Nat) : parseDigits (Nat.toDigits 10 n) = some n := by
  rw [parseDigits, if_neg Nat.toDigits_ne_nil, ← readDigits, readDigits_toDigits]

theorem parseI64_toDigits {n : Nat} (h : n < 2 ^ 63) :
    parseI64 (Nat.toDigits 10 n) = some (n : Int) := by
  have hdigit : ∀ c ∈ Nat.toDigits 10 n, c.isDigit := fun c hc =>
    Nat.isDigit_of_mem_toDigits (by decide) (by decide) hc
  have hparse := parseDigits_toDigits n
  unfold parseI64
  split
  next heq =>
    rw [heq] at hdigit
    exact absurd (hdigit _ mem_cons_self) (by decide)
  next heq =>
    rw [heq] at hdigit
    exact absurd (hdigit _ mem_cons_self) (by decide)
  next =>
    rw [hparse]
    simp only [bind, Option.bind, if_pos h]
    rfl

variable {n : Int}

theorem parseI64_repr (hlow : -2 ^ 63 ≤ n) (hhigh : n < 2 ^ 63) :
    parseI64 n.repr.toList = some n := by
  cases n with
  | ofNat m =>
    have hm : m < 2 ^ 63 := by
      simp only [Int.ofNat_eq_natCast] at hhigh
      omega
    rw [Int.repr, Nat.toList_repr]
    exact parseI64_toDigits hm
  | negSucc m =>
    have hm : m + 1 ≤ 2 ^ 63 := by omega
    have hminus : (Int.negSucc m).repr.toList = '-' :: Nat.toDigits 10 (m + 1) := by
      rw [Int.repr, String.toList_append, Nat.toList_repr]
      rfl
    rw [hminus, parseI64, parseDigits_toDigits]
    simp only [bind, Option.bind, if_pos hm]
    rfl

theorem parseI64_range {text : Text} (h : parseI64 text = some n) : -2 ^ 63 ≤ n ∧ n < 2 ^ 63 := by
  unfold parseI64 at h
  split at h
  all_goals
    obtain ⟨value, -, hvalue⟩ := Option.bind_eq_some_iff.mp h
    split at hvalue
    · cases hvalue
      omega
    · cases hvalue

theorem paragraphNumber_formalId (hlow : -2 ^ 63 ≤ n) (hhigh : n < 2 ^ 63) :
    paragraphNumber (formalId n) = some n := by
  have hstrip : stripPrefix ['P'] (formalId n) = some n.repr.toList :=
    stripPrefix_append ['P'] n.repr.toList
  rw [paragraphNumber, hstrip]
  exact parseI64_repr hlow hhigh

theorem paragraphNumber_range {id : Text} (h : paragraphNumber id = some n) :
    -2 ^ 63 ≤ n ∧ n < 2 ^ 63 := by
  obtain ⟨text, -, hparse⟩ := Option.bind_eq_some_iff.mp h
  exact parseI64_range hparse

/-! ## One allocation -/

/-- `n` is higher than every number in use. -/
def Above (used : List Text) (n : Int) : Prop :=
  ∀ id ∈ used, ∀ k, paragraphNumber id = some k → k < n

theorem nextNumber_spec {used : List Text} {next : Int} (h : nextNumber used = .ok next) :
    Above used next ∧ paragraphNumber (formalId next) = some next := by
  rw [nextNumber] at h
  cases hmax : (used.filterMap paragraphNumber).max? with
  | none =>
    rw [hmax] at h
    cases h
    rw [max?_eq_none_iff, filterMap_eq_nil_iff] at hmax
    refine ⟨fun id hid k hk => ?_, paragraphNumber_formalId (by decide) (by decide)⟩
    rw [hmax id hid] at hk
    cases hk
  | some highest =>
    rw [hmax] at h
    obtain ⟨hmem, hle⟩ := max?_eq_some_iff.mp hmax
    dsimp only at h
    split at h
    · cases h
    next hlast =>
      cases h
      obtain ⟨id, -, hid⟩ := mem_filterMap.mp hmem
      obtain ⟨hlow, hhigh⟩ := paragraphNumber_range hid
      refine ⟨fun id hid k hk => ?_, paragraphNumber_formalId (by omega) (by omega)⟩
      have := hle k (mem_filterMap.mpr ⟨id, hid, hk⟩)
      omega

/-- Allocated ids lie above all ids in use, and are not given twice. -/
theorem allocateFrom_spec : ∀ {temps : List Text} {used : List Text} {formal : List (Text × Text)},
    allocateFrom used temps = .ok formal →
      (∀ id ∈ formal.map (·.2), ∃ n, paragraphNumber id = some n ∧ Above used n) ∧
        (formal.map (·.2)).Nodup
  | [], _, _, h => by
    cases h
    exact ⟨by simp, .nil⟩
  | temp :: rest, used, formal, h => by
    rw [allocateFrom] at h
    obtain ⟨next, hnext, h⟩ := bind_eq_ok h
    obtain ⟨others, hothers, h⟩ := bind_eq_ok h
    cases h
    obtain ⟨habove, hnumber⟩ := nextNumber_spec hnext
    obtain ⟨hrest, hnodup⟩ := allocateFrom_spec hothers
    rw [map_cons]
    constructor
    · intro id hid
      rcases mem_cons.mp hid with rfl | hid
      · exact ⟨next, hnumber, habove⟩
      · obtain ⟨n, hn, hn'⟩ := hrest id hid
        exact ⟨n, hn, fun other hother => hn' other (mem_cons_of_mem _ hother)⟩
    · refine nodup_cons.mpr ⟨fun hmem => ?_, hnodup⟩
      -- the ids behind are higher than this one
      obtain ⟨n, hn, hn'⟩ := hrest _ hmem
      dsimp only at hn hn'
      have := hn' _ mem_cons_self next hnumber
      rw [hnumber] at hn
      cases hn
      exact lt_irrefl _ this

/-! ## Runs -/

/-- What is done to a workspace. -/
inductive Operation where
  | insert (ready : Answer Unit) (afterId text : Text) (inherit : Option Text)
      (format : FormatPolicy)
  | delete (ready unprotected : Answer Unit) (paragraphId : Text)
  | commit (rest : CommitRest)

variable {s : WorkspaceRun}

section Runs

variable (crates : Crates) (template : List InventoryParagraph)

/-- One operation: the workspace it leaves, and the ids it allocates.  A refusal changes nothing. -/
def applyOperation (workspace : Workspace) : Operation → Workspace × List Text
  | .insert ready afterId text inherit format =>
    match insertParagraph ready workspace afterId text inherit format with
    | .ok inserted => (inserted, [])
    | .error _ => (workspace, [])
  | .delete ready unprotected paragraphId =>
    match deleteParagraph ready unprotected workspace paragraphId with
    | .ok deleted => (deleted, [])
    | .error _ => (workspace, [])
  | .commit rest => commitDraft crates template rest workspace

/-- A workspace with the ids its commits have allocated. -/
structure WorkspaceRun where
  workspace : Workspace
  allocated : List Text := []

def runOperation (s : WorkspaceRun) (operation : Operation) : WorkspaceRun where
  workspace := (applyOperation crates template s.workspace operation).1
  allocated := s.allocated ++ (applyOperation crates template s.workspace operation).2

def runOperations (s : WorkspaceRun) (operations : List Operation) : WorkspaceRun :=
  operations.foldl (runOperation crates template) s

/-- Every id that ever named a paragraph. -/
def everIds (s : WorkspaceRun) : List Text :=
  template.map (·.id) ++ s.workspace.record.ids ++ s.allocated

/-- What one operation allocates is fresh. -/
structure FreshIds (s : WorkspaceRun) (ids : List Text) : Prop where
  nodup : ids.Nodup
  fresh : ∀ id ∈ ids, id ∉ everIds template s

/-- Every operation of a run allocates fresh ids. -/
def AllFresh : WorkspaceRun → List Operation → Prop
  | _, [] => True
  | s, operation :: rest =>
    FreshIds template s (applyOperation crates template s.workspace operation).2 ∧
      AllFresh (runOperation crates template s operation) rest

/-! ## The condition -/

/-- Some id in use has a number as high as that of `id`. -/
def holdsNumber (used : List Text) (id : Text) : Bool :=
  match paragraphNumber id with
  | none => true
  | some n => (used.filterMap paragraphNumber).any fun k => n ≤ k

/-- The draft has no pending paragraph, or it holds, in a block that is not pending, a number as
high as any that was ever in use. -/
def draftHoldsHighest (s : WorkspaceRun) : Bool :=
  match splitBlocks s.workspace.draft with
  | .error _ => true
  | .ok (_, blocks) =>
    pendingIds blocks == [] || (everIds template s).all (holdsNumber (usedIds blocks))

/-- A commit that gets as far as writing ids finds the draft so. -/
def CommitAbove (s : WorkspaceRun) : Operation → Prop
  | .insert .. | .delete .. | .commit .refused => True
  | .commit _ => draftHoldsHighest template s = true

def CommitsAbove : WorkspaceRun → List Operation → Prop
  | _, [] => True
  | s, operation :: rest =>
    CommitAbove template s operation ∧
      CommitsAbove (runOperation crates template s operation) rest

variable {template}

theorem fresh_of_above {used : List Text}
    (hholds : (everIds template s).all (holdsNumber used) = true) {id : Text}
    (hn : paragraphNumber id = some n) (habove : Above used n) : id ∉ everIds template s := by
  intro hmem
  have h := all_eq_true.mp hholds id hmem
  rw [holdsNumber, hn] at h
  obtain ⟨k, hk, hle⟩ := any_eq_true.mp h
  obtain ⟨other, hother, hnumber⟩ := mem_filterMap.mp hk
  have hlt := habove other hother k hnumber
  have := of_decide_eq_true hle
  omega

/-- A commit allocates nothing, or the formal ids of its draft. -/
theorem commitDraft_allocates (rest : CommitRest) (workspace : Workspace) :
    (commitDraft crates template rest workspace).2 = [] ∨
      ∃ header blocks formal, splitBlocks workspace.draft = .ok (header, blocks) ∧
        formalIds blocks = .ok formal ∧
          (commitDraft crates template rest workspace).2 = formal.map (·.2) := by
  unfold commitDraft
  dsimp only
  split
  · exact .inl rfl
  · exact .inl rfl
  next header blocks _ hsplit =>
    split
    next changed formal _ hformal =>
      refine .inr ⟨header, blocks, formal, hsplit, hformal, ?_⟩
      split
      · split
        · rfl
        · rfl
      · rfl
    · exact .inl rfl

theorem commit_fresh (hholds : draftHoldsHighest template s = true) (rest : CommitRest) :
    FreshIds template s (commitDraft crates template rest s.workspace).2 := by
  rcases commitDraft_allocates crates rest s.workspace with
    hnone | ⟨header, blocks, formal, hsplit, hformal, hids⟩
  · rw [hnone]
    exact ⟨.nil, by simp⟩
  · rw [hids]
    obtain ⟨habove, hnodup⟩ := allocateFrom_spec hformal
    refine ⟨hnodup, fun id hid => ?_⟩
    rw [draftHoldsHighest, hsplit] at hholds
    rcases Bool.or_eq_true_iff.mp hholds with hnone | hall
    · -- no pending paragraph, no id
      rw [formalIds, beq_iff_eq.mp hnone] at hformal
      cases hformal
      cases hid
    · obtain ⟨n, hn, hn'⟩ := habove id hid
      exact fresh_of_above hall hn hn'

theorem operation_fresh {operation : Operation} (hcondition : CommitAbove template s operation) :
    FreshIds template s (applyOperation crates template s.workspace operation).2 := by
  have hnone : FreshIds template s [] := ⟨.nil, by simp⟩
  cases operation with
  | insert ready afterId text inherit format =>
    rw [applyOperation]
    split
    · exact hnone
    · exact hnone
  | delete ready unprotected paragraphId =>
    rw [applyOperation]
    split
    · exact hnone
    · exact hnone
  | commit rest =>
    cases rest with
    | refused => exact hnone
    | stopped => exact commit_fresh crates hcondition _
    | published typedMd => exact commit_fresh crates hcondition _

/-- Over a run whose commits find the draft above every number, no id is given twice, and none
that the template, the structure record or an earlier commit knows. -/
theorem allocations_fresh : ∀ (operations : List Operation) (s : WorkspaceRun),
    CommitsAbove crates template s operations →
      AllFresh crates template s operations ∧
        (s.allocated.Nodup → (∀ id ∈ s.allocated, id ∉ template.map (·.id)) →
          (runOperations crates template s operations).allocated.Nodup ∧
            ∀ id ∈ (runOperations crates template s operations).allocated,
              id ∉ template.map (·.id))
  | [], _, _ => ⟨trivial, fun hnodup htemplate => ⟨hnodup, htemplate⟩⟩
  | operation :: rest, s, ⟨hcondition, hrest⟩ => by
    have hfresh := operation_fresh crates hcondition
    obtain ⟨ihFresh, ihRun⟩ := allocations_fresh rest _ hrest
    refine ⟨⟨hfresh, ihFresh⟩, fun hnodup htemplate => ihRun ?_ ?_⟩
    · refine nodup_append.mpr ⟨hnodup, hfresh.nodup, ?_⟩
      rintro id hold _ hnew rfl
      exact hfresh.fresh id hnew (mem_append_right _ hold)
    · intro id hid
      rcases mem_append.mp hid with hid | hid
      · exact htemplate id hid
      · intro hmem
        exact hfresh.fresh id hid (mem_append_left _ (mem_append_left _ hmem))

end Runs

/-- In every run from a workspace whose commits all find the draft above every number, the ids
allocated are fresh, pairwise distinct and none of the template's. -/
theorem allocations_fresh_of_commitsAbove (crates : Crates) (template : List InventoryParagraph)
    (workspace : Workspace) (operations : List Operation)
    (h : CommitsAbove crates template { workspace } operations) :
    AllFresh crates template { workspace } operations ∧
      (runOperations crates template { workspace } operations).allocated.Nodup ∧
        ∀ id ∈ (runOperations crates template { workspace } operations).allocated,
          id ∉ template.map (·.id) := by
  obtain ⟨hfresh, hrun⟩ := allocations_fresh crates operations { workspace } h
  exact ⟨hfresh, hrun .nil (by simp)⟩

/-! ## Two runs -/

def threeParagraphs : List InventoryParagraph :=
  [⟨"P0".toList, ['a']⟩, ⟨"P1".toList, ['b']⟩, ⟨"P2".toList, ['c']⟩]

def threeParagraphsDraft : Text :=
  "<!--@edit-->\n<!--@p id=\"P0\"-->\na\n<!--@p id=\"P1\"-->\nb\n<!--@p id=\"P2\"-->\nc".toList

def openedWorkspace : Workspace where
  draft := threeParagraphsDraft
  typedMd := "<!--@typed-->\n".toList
  baselineView := some threeParagraphsDraft
  record := {}

def insertBehindSecond : Operation := .insert (pure ()) "P1".toList ['d'] none .safeInherit

def publish : Operation := .commit (.published "<!--@typed-->\n".toList)

theorem insertedOnce_holdsHighest : draftHoldsHighest threeParagraphs
    (runOperation draftCrates threeParagraphs { workspace := openedWorkspace }
      insertBehindSecond) = true := by
  rw [openedWorkspace, show threeParagraphsDraft = _ from String.toList_ofList]
  decide

theorem insertedTwice_holdsHighest : draftHoldsHighest threeParagraphs
    (runOperations draftCrates threeParagraphs { workspace := openedWorkspace }
      [insertBehindSecond, publish, insertBehindSecond]) = true := by
  rw [openedWorkspace, show threeParagraphsDraft = _ from String.toList_ofList]
  decide +kernel

theorem insertedTwice_fresh :
    AllFresh draftCrates threeParagraphs { workspace := openedWorkspace }
        [insertBehindSecond, publish, insertBehindSecond, publish] ∧
      (runOperations draftCrates threeParagraphs { workspace := openedWorkspace }
        [insertBehindSecond, publish, insertBehindSecond, publish]).allocated.Nodup ∧
        ∀ id ∈ (runOperations draftCrates threeParagraphs { workspace := openedWorkspace }
          [insertBehindSecond, publish, insertBehindSecond, publish]).allocated,
          id ∉ threeParagraphs.map (·.id) :=
  allocations_fresh_of_commitsAbove _ _ _ _
    ⟨trivial, insertedOnce_holdsHighest, trivial, insertedTwice_holdsHighest, trivial⟩

/-- The last paragraph deleted, and another inserted after the commit. -/
def deletedThenInserted : List Operation :=
  [.delete (pure ()) (pure ()) "P2".toList, publish, insertBehindSecond, publish]

theorem deletedThenInserted_reuses :
    ¬ ∀ crates template workspace operations,
      AllFresh crates template { workspace } operations := by
  intro h
  obtain ⟨-, -, -, ⟨-, hfresh⟩, -⟩ :=
    h draftCrates threeParagraphs openedWorkspace deletedThenInserted
  rw [openedWorkspace, show threeParagraphsDraft = _ from String.toList_ofList] at hfresh
  exact hfresh "P2".toList (by decide +kernel) (by decide +kernel)

end Docx2Typed
