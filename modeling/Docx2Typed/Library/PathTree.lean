import Mathlib.Data.List.Infix
import Mathlib.Data.List.Basic

/-!
# Trees of directories by their paths

The contents of a directory tree are what stands at each path: nothing, a directory that can or
cannot be listed, or a leaf.  A tree is closed when what has something below it is a directory.

* `leafAt_writeFile`, `leafAt_removeBelow`: what an operation leaves at each path;
* `of_mem_walk`, `mem_walk`: what a walk that enters every directory it can list finds.
-/

namespace Docx2Typed.Library.PathTree

open List

universe u v

variable {ν : Type u} {β : Type v}

inductive Node (β : Type v) where
  | dir (readable : Bool)
  | leaf (leaf : β)
  deriving DecidableEq

/-- What stands at each path. -/
abbrev Contents (ν : Type u) (β : Type v) := List ν → Option (Node β)

def leafAt (t : Contents ν β) (p : List ν) : Option β :=
  match t p with
  | some (.leaf leaf) => some leaf
  | _ => none

def isDir (t : Contents ν β) (p : List ν) : Bool :=
  match t p with
  | some (.dir _) => true
  | _ => false

/-- What has something below it is a directory. -/
def Closed (t : Contents ν β) : Prop := ∀ p n, t (p ++ [n]) ≠ none → isDir t p = true

theorem leafAt_eq_some_iff {t : Contents ν β} {p : List ν} {leaf : β} :
    leafAt t p = some leaf ↔ t p = some (.leaf leaf) := by
  rw [leafAt]
  split <;> simp_all

/-- Above something there are only directories. -/
theorem Closed.isDir_of_prefix {t : Contents ν β} (h : Closed t) {p q : List ν}
    (hpre : p <+: q) (hne : p ≠ q) (hq : t q ≠ none) : isDir t p = true := by
  obtain ⟨rest, rfl⟩ := hpre
  induction rest using List.reverseRecOn with
  | nil => simp at hne
  | append_singleton rest n ih =>
    rw [← append_assoc] at hq
    have hdir := h _ _ hq
    by_cases hnil : rest = []
    · rwa [hnil, append_nil] at hdir
    · refine ih (by simpa using hnil) fun hnone => ?_
      rw [isDir, hnone] at hdir
      cases hdir

section Operations

variable [DecidableEq ν]

/-- Replaces what stands at a path. -/
def put (t : Contents ν β) (p : List ν) (node : Node β) : Contents ν β :=
  fun q => if q = p then some node else t q

/-- Removes what stands at a path or below it. -/
def removeBelow (t : Contents ν β) (p : List ν) : Contents ν β :=
  fun q => if p <+: q then none else t q

/-- Makes the directories on a path that are missing; a leaf on the path forbids it. -/
def makeDirs (t : Contents ν β) (p : List ν) : Option (Contents ν β) :=
  if p.inits.any fun q => (leafAt t q).isSome then none
  else some fun q => if q <+: p ∧ t q = none then some (.dir true) else t q

/-- Writes a leaf, with the directories above it; nothing is written over a directory. -/
def writeFile (t : Contents ν β) (p : List ν) (leaf : β) : Option (Contents ν β) := do
  let t ← makeDirs t p.dropLast
  if isDir t p then none else some (put t p (.leaf leaf))

variable {t t' : Contents ν β} {p q : List ν} {leaf : β}

theorem makeDirs_eq_some (h : makeDirs t p = some t') :
    (∀ q, q <+: p → leafAt t q = none) ∧
      t' = fun q => if q <+: p ∧ t q = none then some (.dir true) else t q := by
  rw [makeDirs] at h
  split_ifs at h with hany
  refine ⟨fun q hq => ?_, (Option.some.inj h).symm⟩
  simp only [any_eq_true, mem_inits, not_exists, not_and] at hany
  simpa using hany q hq

theorem leafAt_makeDirs (h : makeDirs t p = some t') (q : List ν) : leafAt t' q = leafAt t q := by
  obtain ⟨-, rfl⟩ := makeDirs_eq_some h
  by_cases hmissing : q <+: p ∧ t q = none
  · rw [leafAt, leafAt, if_pos hmissing, hmissing.2]
  · simp only [leafAt, if_neg hmissing]

theorem isDir_makeDirs (h : makeDirs t p = some t') :
    isDir t' q = true ↔ q <+: p ∨ isDir t q = true := by
  obtain ⟨hfree, rfl⟩ := makeDirs_eq_some h
  rw [isDir, isDir]
  cases htq : t q with
  | none =>
    by_cases hpre : q <+: p
    · simp [hpre]
    · simp [hpre]
  | some node =>
    cases node with
    | dir readable => simp
    | leaf leaf =>
      have hpre : ¬ q <+: p := fun hpre => by
        have hleaf := hfree q hpre
        rw [leafAt, htq] at hleaf
        cases hleaf
      simp [hpre]

theorem Closed.makeDirs (hclosed : Closed t) (h : makeDirs t p = some t') : Closed t' := by
  have hmade : ∀ q, isDir t' q = true ↔ q <+: p ∨ isDir t q = true :=
    fun q => isDir_makeDirs h
  obtain ⟨hfree, rfl⟩ := makeDirs_eq_some h
  intro q n hq
  by_cases hmissing : q ++ [n] <+: p ∧ t (q ++ [n]) = none
  · -- a directory that was missing has its parents made as well
    exact (hmade q).mpr (.inl ((List.prefix_append q [n]).trans hmissing.1))
  · simp only [if_neg hmissing] at hq
    exact (hmade q).mpr (.inr (hclosed q n hq))

theorem Closed.put_leaf (hclosed : Closed t) (hparent : p = [] ∨ isDir t p.dropLast = true)
    (hdir : isDir t p = false) : Closed (put t p (.leaf leaf)) := by
  intro q n hq
  have hqp : q ≠ p := by
    rintro rfl
    rw [put, if_neg (by simp)] at hq
    rw [hclosed q n hq] at hdir
    cases hdir
  have hold : isDir t q = true := by
    by_cases hlast : q ++ [n] = p
    · rw [← hlast, dropLast_concat] at hparent
      exact hparent.resolve_left (by simp)
    · rw [put, if_neg hlast] at hq
      exact hclosed q n hq
  rw [isDir, put, if_neg hqp]
  exact hold

theorem writeFile_eq_some (hclosed : Closed t) (hroot : isDir t [] = true) (hp : p ≠ [])
    (h : writeFile t p leaf = some t') : Closed t' ∧ isDir t' [] = true ∧
      ∀ q, leafAt t' q = if q = p then some leaf else if p <+: q then none else leafAt t q := by
  obtain ⟨dirs, hdirs, h⟩ := Option.bind_eq_some_iff.mp h
  split_ifs at h with hdir
  obtain rfl := Option.some.inj h
  have hclosed' := hclosed.makeDirs hdirs
  have hparent : isDir dirs p.dropLast = true :=
    (isDir_makeDirs hdirs).mpr (.inl (prefix_refl _))
  refine ⟨hclosed'.put_leaf (.inr hparent) (by simpa using hdir), ?_, fun q => ?_⟩
  · rw [isDir, put, if_neg (Ne.symm hp)]
    exact (isDir_makeDirs hdirs).mpr (.inr hroot)
  · by_cases hq : q = p
    · rw [if_pos hq, leafAt, put, if_pos hq]
    · rw [if_neg hq, leafAt, put, if_neg hq]
      split_ifs with hbelow
      · -- below a path that is no directory nothing stands
        have hnone : dirs q = none := by
          by_contra hsome
          exact hdir (hclosed'.isDir_of_prefix hbelow (Ne.symm hq) hsome)
        rw [hnone]
      · rw [← leafAt_makeDirs hdirs q, leafAt]

theorem isDir_writeFile (hp : p ≠ []) (h : writeFile t p leaf = some t') :
    isDir t' q = true ↔ q <+: p.dropLast ∨ isDir t q = true := by
  obtain ⟨dirs, hdirs, h⟩ := Option.bind_eq_some_iff.mp h
  split_ifs at h with hdir
  obtain rfl := Option.some.inj h
  rw [← isDir_makeDirs hdirs]
  by_cases hq : q = p
  · subst hq
    rw [isDir, put, if_pos rfl]
    exact iff_of_false Bool.false_ne_true hdir
  · rw [isDir, put, if_neg hq, isDir]

theorem isDir_removeBelow {t : Contents ν β} {p q : List ν} :
    isDir (removeBelow t p) q = true ↔ ¬ p <+: q ∧ isDir t q = true := by
  rw [isDir, removeBelow]
  split_ifs with hbelow
  · simp [hbelow]
  · simp [hbelow, isDir]

theorem leafAt_removeBelow (t : Contents ν β) (p q : List ν) :
    leafAt (removeBelow t p) q = if p <+: q then none else leafAt t q := by
  rw [leafAt, removeBelow]
  split_ifs <;> rfl

theorem Closed.removeBelow (hclosed : Closed t) : Closed (removeBelow t p) := by
  intro q n hq
  rw [PathTree.removeBelow] at hq
  split_ifs at hq with hbelow
  · exact absurd rfl hq
  · have hnot : ¬ p <+: q := fun h => hbelow (h.trans (List.prefix_append q [n]))
    rw [isDir, PathTree.removeBelow, if_neg hnot]
    exact hclosed q n hq

end Operations

/-! ## Walks -/

section Walks

variable [DecidableEq ν]

/-- The paths right below a directory, from a list of all paths. -/
def childrenOf (paths : List (List ν)) (top : List ν) : List (List ν) :=
  paths.filter fun p => p ≠ [] ∧ p.dropLast = top

/-- Every leaf with `keep` below `top`, through the directories that can be listed. -/
def walk (keep : β → Bool) (t : Contents ν β) (paths : List (List ν)) : ℕ → List ν → List (List ν)
  | 0, _ => []
  | fuel + 1, top =>
    match t top with
    | some (.dir true) => (childrenOf paths top).flatMap fun p =>
        match t p with
        | some (.leaf leaf) => if keep leaf then [p] else []
        | some (.dir _) => walk keep t paths fuel p
        | none => []
    | _ => []

variable {keep : β → Bool} {t : Contents ν β} {paths : List (List ν)}

/-- Every directory from `top` to above `p` can be listed. -/
def Reachable (t : Contents ν β) (top p : List ν) : Prop :=
  ∀ q, top <+: q → q <+: p → q ≠ p → t q = some (.dir true)

theorem mem_childrenOf {top p : List ν} :
    p ∈ childrenOf paths top ↔ p ∈ paths ∧ ∃ n, p = top ++ [n] := by
  rw [childrenOf, mem_filter, decide_eq_true_iff]
  constructor
  · rintro ⟨hp, hne, hlast⟩
    exact ⟨hp, p.getLast hne, by rw [← hlast, dropLast_append_getLast hne]⟩
  · rintro ⟨hp, n, rfl⟩
    exact ⟨hp, by simp, dropLast_concat⟩

omit [DecidableEq ν] in
theorem prefix_between {top q rest : List ν} {n : ν} (htop : top <+: q)
    (hq : q <+: top ++ n :: rest) : q = top ∨ top ++ [n] <+: q := by
  by_cases hlength : q.length ≤ top.length
  · exact .inl (htop.eq_of_length_le hlength).symm
  · have hlong : top ++ [n] <+: top ++ n :: rest := ⟨rest, by simp⟩
    refine .inr (prefix_of_prefix_length_le hlong hq ?_)
    rw [length_append, length_singleton]
    omega

/-- What a walk finds. -/
theorem of_mem_walk : ∀ {fuel : ℕ} {top p : List ν}, p ∈ walk keep t paths fuel top →
    top <+: p ∧ top ≠ p ∧ (∃ leaf, t p = some (.leaf leaf) ∧ keep leaf = true) ∧ Reachable t top p
  | 0, _, _, h => absurd h not_mem_nil
  | fuel + 1, top, p, h => by
    rw [walk] at h
    split at h
    next htop =>
      obtain ⟨c, hc, h⟩ := mem_flatMap.mp h
      obtain ⟨-, n, rfl⟩ := mem_childrenOf.mp hc
      split at h
      next leaf hleaf =>
        split_ifs at h with hkeep
        · obtain rfl := mem_singleton.mp h
          refine ⟨List.prefix_append _ _, by simp, ⟨leaf, hleaf, hkeep⟩, fun q hq hqc hne => ?_⟩
          rcases prefix_between hq hqc with rfl | hlong
          · exact htop
          · exact absurd (hqc.eq_of_length_le hlong.length_le) hne
        · exact absurd h not_mem_nil
      next readable hdir =>
        obtain ⟨hpre, hne, hleaf, hreach⟩ := of_mem_walk h
        refine ⟨(List.prefix_append top [n]).trans hpre, ?_, hleaf, fun q hq hqp hqne => ?_⟩
        · rintro rfl
          have := hpre.length_le
          rw [length_append, length_singleton] at this
          omega
        · obtain ⟨rest, rfl⟩ := hpre
          rw [append_assoc] at hqp
          rcases prefix_between hq hqp with rfl | hcq
          · exact htop
          · exact hreach q hcq (by rwa [append_assoc]) hqne
      next => exact absurd h not_mem_nil
    next => exact absurd h not_mem_nil

/-- A walk finds every leaf it can reach. -/
theorem mem_walk (hlisted : ∀ p, t p ≠ none → p ∈ paths) : ∀ {fuel : ℕ} {top p : List ν},
    p.length ≤ top.length + fuel → top <+: p → top ≠ p →
      (∃ leaf, t p = some (.leaf leaf) ∧ keep leaf = true) → Reachable t top p →
        p ∈ walk keep t paths fuel top
  | 0, top, p, hfuel, hpre, hne, _, _ =>
    absurd (hpre.eq_of_length (le_antisymm hpre.length_le hfuel)) hne
  | fuel + 1, top, p, hfuel, hpre, hne, hkept, hreach => by
    obtain ⟨rest, rfl⟩ := hpre
    obtain ⟨leaf, hleaf, hkeep⟩ := hkept
    have htop : t top = some (.dir true) :=
      hreach top (prefix_refl _) (List.prefix_append _ _) hne
    rw [walk]
    simp only [htop, mem_flatMap]
    cases rest with
    | nil => simp at hne
    | cons n rest =>
      by_cases hnil : rest = []
      · subst hnil
        refine ⟨top ++ [n], mem_childrenOf.mpr ⟨hlisted _ (by simp [hleaf]), n, rfl⟩, ?_⟩
        simp [hleaf, hkeep]
      · have hc : t (top ++ [n]) = some (.dir true) :=
          hreach _ (List.prefix_append _ _) ⟨rest, by simp⟩ (by simpa using Ne.symm hnil)
        have hlength : (top ++ n :: rest).length ≤ (top ++ [n]).length + fuel := by
          simp only [length_append, length_cons, length_nil] at hfuel ⊢
          omega
        refine ⟨top ++ [n], mem_childrenOf.mpr ⟨hlisted _ (by simp [hc]), n, rfl⟩, ?_⟩
        simp only [hc]
        refine mem_walk hlisted hlength ⟨rest, by simp⟩ (by simpa using Ne.symm hnil)
          ⟨leaf, hleaf, hkeep⟩ fun q hq hqp hqne => ?_
        exact hreach q ((List.prefix_append top [n]).trans hq) hqp hqne

end Walks

end Docx2Typed.Library.PathTree
