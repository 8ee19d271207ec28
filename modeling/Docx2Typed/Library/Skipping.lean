import Docx2Typed.Library.Forest
import Mathlib.Data.Bool.Basic

/-!
# Leaving elements out without counting

A reader may leave a kind of element out by dropping what stands from an opening token to the next
closing token of that kind, without counting how many are open.  On a forest this goes wrong when
elements of the kind stand inside one another: the element is then taken to end too early, and
closing tokens are left behind.

* `leaveOut`: such a reader, with a mark put where an element began;
* `Forest.Skippable`: the forests on which two such readers, one behind the other, end every
  element where it ends;
* `leaveOut_tokens`, `exists_closing_of_not_skippable`: what is left of a forest is then a forest,
  and otherwise holds a closing token of one of the two kinds.
-/

namespace Docx2Typed

open List
namespace Library

universe u v

deriving instance DecidableEq for Bracket

variable {α : Type u} {ν : Type v} (kind : α → Bracket ν)

/-- The token opens an element with a name of the kind. -/
def opensNamed (named : ν → Bool) (t : α) : Bool :=
  match kind t with
  | .opens name => named name
  | _ => false

def closesNamed (named : ν → Bool) (t : α) : Bool :=
  match kind t with
  | .closes name => named name
  | _ => false

/-- What a reader keeps that leaves out from an opening token to the next closing one; `skipping`
says that it stands inside such a stretch. -/
def leaveOut (named : ν → Bool) (mark : List α) (skipping : Bool) : List α → List α
  | [] => []
  | t :: l =>
    if opensNamed kind named t then mark ++ leaveOut named mark true l
    else if skipping then leaveOut named mark (!closesNamed kind named t) l
    else t :: leaveOut named mark false l

/-- Whether the reader stands inside such a stretch behind a list. -/
def leavingOut (named : ν → Bool) (skipping : Bool) : List α → Bool
  | [] => skipping
  | t :: l =>
    if opensNamed kind named t then leavingOut named true l
    else leavingOut named (skipping && !closesNamed kind named t) l

variable {kind} {named dropped marked : ν → Bool} {mark : List α}

theorem leavingOut_append (skipping : Bool) (l m : List α) :
    leavingOut kind named skipping (l ++ m) =
      leavingOut kind named (leavingOut kind named skipping l) m := by
  induction l generalizing skipping with
  | nil => rfl
  | cons t l ih =>
    rw [cons_append, leavingOut, leavingOut]
    split
    · exact ih true
    · exact ih _

theorem leaveOut_append (skipping : Bool) (l m : List α) :
    leaveOut kind named mark skipping (l ++ m) =
      leaveOut kind named mark skipping l ++
        leaveOut kind named mark (leavingOut kind named skipping l) m := by
  induction l generalizing skipping with
  | nil => rfl
  | cons t l ih =>
    rw [cons_append, leaveOut, leaveOut, leavingOut]
    split
    · rw [ih, append_assoc]
    · cases skipping with
      | true => exact ih _
      | false =>
        rw [if_neg Bool.false_ne_true, if_neg Bool.false_ne_true, ih, cons_append,
          Bool.false_and]

/-- No opening token is kept. -/
theorem mem_of_mem_leaveOut {t : α} : ∀ {skipping : Bool} {l : List α},
    t ∈ leaveOut kind named mark skipping l → t ∈ mark ∨ t ∈ l ∧ opensNamed kind named t = false
  | _, [], h => by simp [leaveOut] at h
  | skipping, s :: l, h => by
    have hrest : ∀ {b : Bool}, t ∈ leaveOut kind named mark b l →
        t ∈ mark ∨ t ∈ s :: l ∧ opensNamed kind named t = false := fun h =>
      (mem_of_mem_leaveOut h).imp_right (And.imp_left (mem_cons_of_mem s))
    rw [leaveOut] at h
    split at h
    · exact (mem_append.mp h).elim Or.inl hrest
    · split at h
      · exact hrest h
      · rcases mem_cons.mp h with rfl | h
        · exact .inr ⟨mem_cons_self, by simpa using ‹¬ opensNamed kind named t = true›⟩
        · exact hrest h

/-! ## One token -/

section Token

variable {t : α} {name : ν}

theorem opensNamed_of_opens (h : kind t = .opens name) : opensNamed kind named t = named name := by
  simp [opensNamed, h]

theorem closesNamed_of_opens (h : kind t = .opens name) : closesNamed kind named t = false := by
  simp [closesNamed, h]

theorem opensNamed_of_closes (h : kind t = .closes name) : opensNamed kind named t = false := by
  simp [opensNamed, h]

theorem closesNamed_of_closes (h : kind t = .closes name) :
    closesNamed kind named t = named name := by
  simp [closesNamed, h]

theorem opensNamed_of_single (h : kind t = .single) : opensNamed kind named t = false := by
  simp [opensNamed, h]

theorem closesNamed_of_single (h : kind t = .single) : closesNamed kind named t = false := by
  simp [closesNamed, h]

end Token

/-- The token opens or closes an element of the kind. -/
def bounds (kind : α → Bracket ν) (named : ν → Bool) (t : α) : Bool :=
  opensNamed kind named t || closesNamed kind named t

/-- Without a token of the kind nothing is left, and nothing changes. -/
theorem leaveOut_of_quiet : ∀ {l : List α}, l.any (bounds kind named) = false →
    leaveOut kind named mark true l = [] ∧ leavingOut kind named true l = true
  | [], _ => ⟨rfl, rfl⟩
  | t :: l, h => by
    rw [any_cons, Bool.or_eq_false_iff, bounds, Bool.or_eq_false_iff] at h
    obtain ⟨⟨hopens, hcloses⟩, hl⟩ := h
    simpa [leaveOut, leavingOut, hopens, hcloses] using leaveOut_of_quiet hl

/-! ## Elements in a forest -/

/-- A forest that closes an element of the kind opens one. -/
theorem exists_opens_of_closes {t : α} : ∀ {F : Forest α}, F.Matched kind → t ∈ F.tokens →
    closesNamed kind named t = true → ∃ s ∈ F.tokens, opensNamed kind named s = true
  | .nil, _, h, _ => by simp at h
  | .leaf s next, hF, h, hcloses => by
    rcases mem_cons.mp h with rfl | h
    · rw [closesNamed_of_single hF.1] at hcloses
      exact absurd hcloses Bool.false_ne_true
    · obtain ⟨s', hs', hopens⟩ := exists_opens_of_closes hF.2 h hcloses
      exact ⟨s', mem_cons_of_mem _ hs', hopens⟩
  | .node o children c next, hF, h, hcloses => by
    obtain ⟨⟨name, ho, hc⟩, hchildren, hnext⟩ := hF
    rw [Forest.tokens_node] at h ⊢
    rcases mem_cons.mp h with rfl | h
    · rw [closesNamed_of_opens ho] at hcloses
      exact absurd hcloses Bool.false_ne_true
    rcases mem_append.mp h with h | h
    · obtain ⟨s, hs, hopens⟩ := exists_opens_of_closes hchildren h hcloses
      exact ⟨s, mem_cons_of_mem _ (mem_append_left _ hs), hopens⟩
    rcases mem_cons.mp h with rfl | h
    · rw [closesNamed_of_closes hc] at hcloses
      exact ⟨o, mem_cons_self, (opensNamed_of_opens ho).trans hcloses⟩
    · obtain ⟨s, hs, hopens⟩ := exists_opens_of_closes hnext h hcloses
      exact ⟨s, mem_cons_of_mem _ (mem_append_right _ (mem_cons_of_mem _ hs)), hopens⟩

theorem any_bounds_eq_false {F : Forest α} (hF : F.Matched kind)
    (h : F.tokens.any (opensNamed kind named) = false) :
    F.tokens.any (bounds kind named) = false := by
  rw [any_eq_false] at h ⊢
  intro t ht hbounds
  rcases Bool.or_eq_true_iff.mp hbounds with hopens | hcloses
  · exact h t ht hopens
  · obtain ⟨s, hs, hopens⟩ := exists_opens_of_closes hF ht hcloses
    exact h s hs hopens

/-- Behind a forest the reader stands in a stretch only if it did before, and met no element of the
kind. -/
theorem leavingOut_tokens : ∀ {F : Forest α} (skipping : Bool), F.Matched kind →
    leavingOut kind named skipping F.tokens =
      (skipping && !F.tokens.any (opensNamed kind named))
  | .nil, skipping, _ => by simp [leavingOut]
  | .leaf t next, skipping, h => by
    rw [Forest.tokens_leaf, leavingOut, opensNamed_of_single h.1, closesNamed_of_single h.1,
      if_neg Bool.false_ne_true, leavingOut_tokens _ h.2, any_cons, opensNamed_of_single h.1]
    simp
  | .node o children c next, skipping, h => by
    obtain ⟨⟨name, ho, hc⟩, hchildren, hnext⟩ := h
    have hopens : opensNamed kind named o = named name := opensNamed_of_opens ho
    rw [Forest.tokens_node, leavingOut, hopens, closesNamed_of_opens ho, Bool.not_false,
      Bool.and_true]
    have hrest : ∀ b : Bool, leavingOut kind named b (children.tokens ++ c :: next.tokens) =
        ((b && !children.tokens.any (opensNamed kind named)) && !named name &&
          !next.tokens.any (opensNamed kind named)) := fun b => by
      rw [leavingOut_append, leavingOut_tokens b hchildren, leavingOut, opensNamed_of_closes hc,
        if_neg Bool.false_ne_true, closesNamed_of_closes hc, leavingOut_tokens _ hnext]
    rw [hrest, hrest, any_cons, any_append, any_cons, hopens,
      opensNamed_of_closes hc]
    cases named name with
    | true => simp
    | false =>
      cases skipping with
      | true => simp [Bool.not_or]
      | false => simp

/-! ## One reader behind another -/

variable (kind dropped marked) in
/-- Elements of one kind are dropped; in what is left, a mark is put for those of the other. -/
def leaveOutBoth (mark : List α) (l : List α) : List α :=
  leaveOut kind marked mark false (leaveOut kind dropped [] false l)

/-- No name is of both kinds. -/
def Apart (dropped marked : ν → Bool) : Prop := ∀ name, dropped name = true → marked name = false

/-- Behind the list the reader stands in a stretch only if it did before and has met nothing of its
kind. -/
def Steady (kind : α → Bracket ν) (named : ν → Bool) (l : List α) : Prop :=
  ∀ skipping, leavingOut kind named skipping l = (skipping && !l.any (bounds kind named))

theorem steady_nil : Steady kind named [] := fun skipping => by simp [leavingOut]

theorem Steady.append {l m : List α} (hl : Steady kind named l) (hm : Steady kind named m) :
    Steady kind named (l ++ m) := fun skipping => by
  rw [leavingOut_append, hl, hm, any_append, Bool.not_or, Bool.and_assoc]

/-- Only an opening token unsettles it. -/
theorem steady_singleton {t : α} (h : opensNamed kind named t = false) :
    Steady kind named [t] := fun skipping => by
  simp [leavingOut, bounds, h]

theorem Steady.cons {t : α} {l : List α} (h : opensNamed kind named t = false)
    (hl : Steady kind named l) : Steady kind named (t :: l) :=
  (steady_singleton h).append hl

theorem Steady.element {o c : α} {l : List α} (ho : opensNamed kind named o = true)
    (hc : opensNamed kind named c = false) (hcloses : closesNamed kind named c = true)
    (hl : Steady kind named l) : Steady kind named (o :: (l ++ [c])) := fun skipping => by
  rw [leavingOut, if_pos ho, leavingOut_append, hl, leavingOut, if_neg (by simp [hc]), hcloses,
    any_cons, bounds, ho]
  simp [leavingOut]

/-- What the first reader keeps of an element: the element's own tokens where it sees them. -/
theorem leaveOut_node {o c : α} {name : ν} {children next : Forest α} (ho : kind o = .opens name)
    (hc : kind c = .closes name) (skipping : Bool) :
    leaveOut kind named [] skipping (Forest.node o children c next).tokens =
      (if named name = true ∨ skipping = true then [] else [o]) ++
        (leaveOut kind named [] (skipping || named name) children.tokens ++
          ((if leavingOut kind named (skipping || named name) children.tokens = true then []
              else [c]) ++
            leaveOut kind named []
              (leavingOut kind named (skipping || named name) children.tokens && !named name)
              next.tokens)) := by
  have hrest : ∀ b : Bool, leaveOut kind named [] b (children.tokens ++ c :: next.tokens) =
      leaveOut kind named [] b children.tokens ++
        ((if leavingOut kind named b children.tokens = true then [] else [c]) ++
          leaveOut kind named [] (leavingOut kind named b children.tokens && !named name)
            next.tokens) := by
    intro b
    rw [leaveOut_append, leaveOut, opensNamed_of_closes hc, if_neg Bool.false_ne_true,
      closesNamed_of_closes hc]
    cases leavingOut kind named b children.tokens with
    | true => rfl
    | false => rfl
  rw [Forest.tokens_node, leaveOut, opensNamed_of_opens ho, closesNamed_of_opens ho, Bool.not_false,
    hrest, hrest]
  cases hnamed : named name with
  | true => simp
  | false =>
    cases skipping with
    | true => simp
    | false => simp

/-- Whether the first reader stood in a stretch or not, what it keeps of a forest is steady. -/
theorem steady_leaveOut (happart : Apart dropped marked) :
    ∀ {F : Forest α} (skipping : Bool), F.Matched kind →
      Steady kind marked (leaveOut kind dropped [] skipping F.tokens)
  | .nil, _, _ => steady_nil
  | .leaf t next, skipping, h => by
    have hnext := fun b => steady_leaveOut happart (F := next) b h.2
    rw [Forest.tokens_leaf, leaveOut, opensNamed_of_single h.1, if_neg Bool.false_ne_true]
    split
    · exact hnext _
    · exact (hnext false).cons (opensNamed_of_single h.1)
  | .node o children c next, skipping, h => by
    obtain ⟨⟨name, ho, hc⟩, hchildren, hnext⟩ := h
    have hinside := fun b => steady_leaveOut happart (F := children) b hchildren
    have hafter := fun b => steady_leaveOut happart (F := next) b hnext
    have hclosing : ∀ b : Bool, Steady kind marked (if b = true then [] else [c]) := by
      intro b
      split
      · exact steady_nil
      · exact steady_singleton (opensNamed_of_closes hc)
    rw [leaveOut_node ho hc]
    by_cases hseen : dropped name = true ∨ skipping = true
    · rw [if_pos hseen, nil_append]
      exact (hinside _).append ((hclosing _).append (hafter _))
    -- an element that the first reader sees, it sees to its end
    · rw [not_or, Bool.not_eq_true, Bool.not_eq_true] at hseen
      obtain ⟨hname, rfl⟩ := hseen
      rw [hname, Bool.or_false, leavingOut_tokens _ hchildren, Bool.false_and]
      simp only [Bool.false_eq_true, or_self, if_false, singleton_append]
      cases hmarked : marked name with
      | true =>
        have helement := (hinside false).element ((opensNamed_of_opens ho).trans hmarked)
          (opensNamed_of_closes hc) ((closesNamed_of_closes hc).trans hmarked)
        simpa using helement.append (hafter false)
      | false =>
        exact Steady.cons ((opensNamed_of_opens ho).trans hmarked)
          ((hinside false).append (Steady.cons (opensNamed_of_closes hc) (hafter false)))

/-! ## Where the readers end an element -/

variable (kind dropped marked) in
/-- The readers end every element of theirs where it ends: one that is dropped holds no other, and
one that is marked holds no other outside the stretches that the first reader drops. -/
def Forest.Skippable : Forest α → Prop
  | .nil => True
  | .leaf _ next => next.Skippable
  | .node o children _ next =>
    (if opensNamed kind dropped o = true then
        children.tokens.any (opensNamed kind dropped) = false
      else if opensNamed kind marked o = true then
        (leaveOut kind dropped [] false children.tokens).any (bounds kind marked) = false
      else children.Skippable) ∧ next.Skippable

instance decidableSkippable : (F : Forest α) → Decidable (F.Skippable kind dropped marked)
  | .nil => isTrue trivial
  | .leaf _ next => decidableSkippable next
  | .node o children _ next =>
    have := decidableSkippable children
    have := decidableSkippable next
    inferInstanceAs (Decidable ((if opensNamed kind dropped o = true then
        children.tokens.any (opensNamed kind dropped) = false
      else if opensNamed kind marked o = true then
        (leaveOut kind dropped [] false children.tokens).any (bounds kind marked) = false
      else children.Skippable kind dropped marked) ∧ next.Skippable kind dropped marked))

variable (kind dropped marked) in
/-- The forest without the elements of one kind, and with a mark for each of the other. -/
def Forest.leftOut (mark : α) : Forest α → Forest α
  | .nil => .nil
  | .leaf t next => .leaf t (next.leftOut mark)
  | .node o children c next =>
    if opensNamed kind dropped o = true then next.leftOut mark
    else if opensNamed kind marked o = true then .leaf mark (next.leftOut mark)
    else .node o (children.leftOut mark) c (next.leftOut mark)

theorem Forest.Matched.leftOut {mark : α} (hmark : kind mark = .single) :
    ∀ {F : Forest α}, F.Matched kind → (F.leftOut kind dropped marked mark).Matched kind
  | .nil, _ => trivial
  | .leaf _ _, h => ⟨h.1, h.2.leftOut hmark⟩
  | .node o children c next, h => by
    rw [Forest.leftOut]
    split
    · exact h.2.2.leftOut hmark
    · split
      · exact ⟨hmark, h.2.2.leftOut hmark⟩
      · exact ⟨h.1, h.2.1.leftOut hmark, h.2.2.leftOut hmark⟩

/-- Both readers stand outside every stretch behind a forest. -/
theorem leaveOutBoth_append (happart : Apart dropped marked) {F : Forest α} (hF : F.Matched kind)
    (l : List α) : leaveOutBoth kind dropped marked mark (F.tokens ++ l) =
      leaveOutBoth kind dropped marked mark F.tokens ++ leaveOutBoth kind dropped marked mark l := by
  rw [leaveOutBoth, leaveOut_append, leavingOut_tokens _ hF, Bool.false_and, leaveOut_append,
    steady_leaveOut happart false hF, Bool.false_and]
  rfl

theorem leaveOutBoth_cons {t : α} (l : List α) (hdropped : opensNamed kind dropped t = false)
    (hmarked : opensNamed kind marked t = false) :
    leaveOutBoth kind dropped marked mark (t :: l) =
      t :: leaveOutBoth kind dropped marked mark l := by
  simp [leaveOutBoth, leaveOut, hdropped, hmarked]

section Node

variable {o c : α} {name : ν} {children next : Forest α}

/-- A dropped element with another in it leaves its closing token behind. -/
theorem leaveOutBoth_dropped (happart : Apart dropped marked) (ho : kind o = .opens name)
    (hc : kind c = .closes name) (hchildren : children.Matched kind)
    (hname : dropped name = true) :
    leaveOutBoth kind dropped marked mark (Forest.node o children c next).tokens =
      leaveOut kind marked mark false (leaveOut kind dropped [] true children.tokens) ++
        ((if children.tokens.any (opensNamed kind dropped) = true then [c] else []) ++
          leaveOutBoth kind dropped marked mark next.tokens) := by
  have hmarked : opensNamed kind marked c = false := opensNamed_of_closes hc
  rw [leaveOutBoth, leaveOut_node ho hc, if_pos (.inl hname), nil_append, Bool.false_or,
    hname, leavingOut_tokens _ hchildren, leaveOut_append, steady_leaveOut happart true hchildren]
  cases children.tokens.any (opensNamed kind dropped) with
  | true => simp [leaveOut, hmarked, leaveOutBoth]
  | false => simp [leaveOutBoth]

/-- A marked element with another in it that the second reader sees leaves its closing token
behind. -/
theorem leaveOutBoth_marked (happart : Apart dropped marked) (ho : kind o = .opens name)
    (hc : kind c = .closes name) (hchildren : children.Matched kind)
    (hname : marked name = true) (hdropped : dropped name = false) :
    leaveOutBoth kind dropped marked mark (Forest.node o children c next).tokens =
      mark ++ (leaveOut kind marked mark true (leaveOut kind dropped [] false children.tokens) ++
        ((if (leaveOut kind dropped [] false children.tokens).any (bounds kind marked) = true
            then [c] else []) ++
          leaveOutBoth kind dropped marked mark next.tokens)) := by
  have hopens : opensNamed kind marked c = false := opensNamed_of_closes hc
  have hcloses : closesNamed kind marked c = true := (closesNamed_of_closes hc).trans hname
  rw [leaveOutBoth, leaveOut_node ho hc, hdropped, Bool.or_false, leavingOut_tokens _ hchildren]
  simp only [Bool.false_eq_true, or_self, if_false, Bool.false_and, singleton_append]
  rw [leaveOut, if_pos ((opensNamed_of_opens ho).trans hname), leaveOut_append,
    steady_leaveOut happart false hchildren, Bool.true_and, leaveOut, hopens,
    if_neg Bool.false_ne_true, hcloses]
  cases (leaveOut kind dropped [] false children.tokens).any (bounds kind marked) with
  | true => simp [leaveOutBoth]
  | false => simp [leaveOutBoth]

theorem leaveOutBoth_other (happart : Apart dropped marked) (ho : kind o = .opens name)
    (hc : kind c = .closes name) (hchildren : children.Matched kind)
    (hname : marked name = false) (hdropped : dropped name = false) :
    leaveOutBoth kind dropped marked mark (Forest.node o children c next).tokens =
      o :: (leaveOutBoth kind dropped marked mark children.tokens ++
        c :: leaveOutBoth kind dropped marked mark next.tokens) := by
  rw [Forest.tokens_node, leaveOutBoth_cons _ ((opensNamed_of_opens ho).trans hdropped)
    ((opensNamed_of_opens ho).trans hname), leaveOutBoth_append happart hchildren,
    leaveOutBoth_cons _ (opensNamed_of_closes hc) (opensNamed_of_closes hc)]

end Node

/-- Where the readers end every element of theirs, a forest is left. -/
theorem leaveOutBoth_tokens {mark : α} (happart : Apart dropped marked) :
    ∀ {F : Forest α}, F.Matched kind → F.Skippable kind dropped marked →
      leaveOutBoth kind dropped marked [mark] F.tokens =
        (F.leftOut kind dropped marked mark).tokens
  | .nil, _, _ => rfl
  | .leaf t next, h, hends => by
    rw [Forest.tokens_leaf, leaveOutBoth_cons _ (opensNamed_of_single h.1)
      (opensNamed_of_single h.1), leaveOutBoth_tokens happart h.2 hends, Forest.leftOut,
      Forest.tokens_leaf]
  | .node o children c next, h, hends => by
    obtain ⟨⟨name, ho, hc⟩, hchildren, hnext⟩ := h
    have hafter : leaveOutBoth kind dropped marked [mark] next.tokens =
        (next.leftOut kind dropped marked mark).tokens :=
      leaveOutBoth_tokens happart hnext hends.2
    have hinside := hends.1
    rw [Forest.leftOut]
    rw [opensNamed_of_opens ho, opensNamed_of_opens ho] at hinside ⊢
    by_cases hdropped : dropped name = true
    · rw [if_pos hdropped] at hinside ⊢
      have hquiet := any_bounds_eq_false hchildren hinside
      rw [leaveOutBoth_dropped happart ho hc hchildren hdropped, hinside,
        (leaveOut_of_quiet hquiet).1, hafter]
      rfl
    rw [if_neg hdropped] at hinside ⊢
    rw [Bool.not_eq_true] at hdropped
    by_cases hmarked : marked name = true
    · rw [if_pos hmarked] at hinside ⊢
      rw [leaveOutBoth_marked happart ho hc hchildren hmarked hdropped, hinside,
        (leaveOut_of_quiet hinside).1, hafter]
      rfl
    · rw [if_neg hmarked] at hinside ⊢
      rw [leaveOutBoth_other happart ho hc hchildren (by simpa using hmarked) hdropped, hafter,
        leaveOutBoth_tokens happart hchildren hinside, Forest.tokens_node]

/-- Otherwise a closing token is left over. -/
theorem exists_closing_of_not_skippable (happart : Apart dropped marked) :
    ∀ {F : Forest α}, F.Matched kind → ¬ F.Skippable kind dropped marked →
      ∃ t ∈ leaveOutBoth kind dropped marked mark F.tokens,
        closesNamed kind dropped t = true ∨ closesNamed kind marked t = true
  | .nil, _, hends => absurd trivial hends
  | .leaf t next, h, hends => by
    obtain ⟨s, hs, hcloses⟩ := exists_closing_of_not_skippable happart h.2 hends
    rw [Forest.tokens_leaf, leaveOutBoth_cons _ (opensNamed_of_single h.1)
      (opensNamed_of_single h.1)]
    exact ⟨s, mem_cons_of_mem _ hs, hcloses⟩
  | .node o children c next, h, hends => by
    obtain ⟨⟨name, ho, hc⟩, hchildren, hnext⟩ := h
    have hafter := exists_closing_of_not_skippable happart hnext
    rw [Forest.Skippable, not_and_or, opensNamed_of_opens ho, opensNamed_of_opens ho] at hends
    by_cases hdropped : dropped name = true
    · rw [if_pos hdropped, Bool.not_eq_false] at hends
      rw [leaveOutBoth_dropped happart ho hc hchildren hdropped]
      rcases hends with hends | hends
      · rw [hends]
        exact ⟨c, by simp, .inl ((closesNamed_of_closes hc).trans hdropped)⟩
      · obtain ⟨s, hs, hcloses⟩ := hafter hends
        exact ⟨s, by simp [hs], hcloses⟩
    rw [if_neg hdropped] at hends
    rw [Bool.not_eq_true] at hdropped
    by_cases hmarked : marked name = true
    · rw [if_pos hmarked, Bool.not_eq_false] at hends
      rw [leaveOutBoth_marked happart ho hc hchildren hmarked hdropped]
      rcases hends with hends | hends
      · rw [hends]
        exact ⟨c, by simp, .inr ((closesNamed_of_closes hc).trans hmarked)⟩
      · obtain ⟨s, hs, hcloses⟩ := hafter hends
        exact ⟨s, by simp [hs], hcloses⟩
    · rw [if_neg hmarked] at hends
      rw [leaveOutBoth_other happart ho hc hchildren (by simpa using hmarked) hdropped]
      rcases hends with hends | hends
      · obtain ⟨s, hs, hcloses⟩ := exists_closing_of_not_skippable happart hchildren hends
        exact ⟨s, by simp [hs], hcloses⟩
      · obtain ⟨s, hs, hcloses⟩ := hafter hends
        exact ⟨s, by simp [hs], hcloses⟩

/-- So what is left is a forest only where the readers end every element. -/
theorem skippable_of_matched {F G : Forest α} {mark : α} (happart : Apart dropped marked)
    (hmark : kind mark = .single) (hF : F.Matched kind) (hG : G.Matched kind)
    (htokens : G.tokens = leaveOutBoth kind dropped marked [mark] F.tokens) :
    F.Skippable kind dropped marked := by
  by_contra hends
  obtain ⟨t, ht, hcloses⟩ : ∃ t ∈ leaveOutBoth kind dropped marked [mark] F.tokens,
      closesNamed kind dropped t = true ∨ closesNamed kind marked t = true :=
    exists_closing_of_not_skippable happart hF hends
  rw [← htokens] at ht
  have hnone : ∀ s ∈ G.tokens,
      opensNamed kind dropped s = false ∧ opensNamed kind marked s = false := by
    intro s hs
    rw [htokens] at hs
    rcases mem_of_mem_leaveOut hs with hs | ⟨hs, hmarked⟩
    · obtain rfl := mem_singleton.mp hs
      exact ⟨opensNamed_of_single hmark, opensNamed_of_single hmark⟩
    · rcases mem_of_mem_leaveOut hs with hs | ⟨-, hdropped⟩
      · exact absurd hs not_mem_nil
      · exact ⟨hdropped, hmarked⟩
  rcases hcloses with hcloses | hcloses
  · obtain ⟨s, hs, hopens⟩ := exists_opens_of_closes hG ht hcloses
    exact absurd ((hnone s hs).1.symm.trans hopens) Bool.false_ne_true
  · obtain ⟨s, hs, hopens⟩ := exists_opens_of_closes hG ht hcloses
    exact absurd ((hnone s hs).2.symm.trans hopens) Bool.false_ne_true

end Library
end Docx2Typed
