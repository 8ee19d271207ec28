import Mathlib.Data.List.Basic

/-!
# Bracketed tokens and the forests they spell

A token list whose tokens open, close or stand alone is read by a stack machine (`nest`).  The
lists that bring the machine back to the empty stack are exactly the spellings of ordered
forests, and this file proves that once for every token type.

`Forest` is the first-child / next-sibling form of an ordered forest, so that one structural
recursion reaches children and siblings alike.

* `nest_append`: the machine reads a list piece by piece;
* `nest_tokens`: a forest leaves the stack as it found it;
* `exists_forest_of_nest`: a list that empties the stack is a forest.
-/

namespace Docx2Typed

open List
namespace Library

universe u v

/-- What one token does to the stack of open names. -/
inductive Bracket (ν : Type v) where
  | opens (name : ν)
  | closes (name : ν)
  | single

/-- An ordered forest of tokens, first child and next sibling. -/
inductive Forest (α : Type u) where
  | nil : Forest α
  | leaf (token : α) (next : Forest α) : Forest α
  | node (opening : α) (children : Forest α) (closing : α) (next : Forest α) : Forest α

namespace Forest

variable {α : Type u}

/-- The tokens of a forest, in reading order. -/
def tokens : Forest α → List α
  | nil => []
  | leaf t next => t :: next.tokens
  | node o children c next => o :: (children.tokens ++ c :: next.tokens)

/-- Two forests side by side. -/
def append : Forest α → Forest α → Forest α
  | nil, G => G
  | leaf t next, G => leaf t (next.append G)
  | node o children c next, G => node o children c (next.append G)

@[simp] theorem tokens_nil : (nil : Forest α).tokens = [] := rfl

@[simp] theorem tokens_leaf (t : α) (next : Forest α) :
    (leaf t next).tokens = t :: next.tokens := rfl

@[simp] theorem tokens_node (o c : α) (children next : Forest α) :
    (node o children c next).tokens = o :: (children.tokens ++ c :: next.tokens) := rfl

@[simp] theorem tokens_append (F G : Forest α) :
    (F.append G).tokens = F.tokens ++ G.tokens := by
  induction F with
  | nil => rfl
  | leaf t next ih => simp [append, ih]
  | node o children c next _ ih => simp [append, ih]

/-- The number of elements of a forest: leaves and nodes. -/
def size : Forest α → Nat
  | nil => 0
  | leaf _ next => next.size + 1
  | node _ children _ next => children.size + next.size + 1

end Forest

/-! ## The stack machine -/

variable {α : Type u} {ν : Type v} [DecidableEq ν] (kind : α → Bracket ν)

/-- One token against the stack of open names (innermost first). -/
def nestStep (stack : List ν) (t : α) : Option (List ν) :=
  match kind t with
  | .opens name => some (name :: stack)
  | .single => some stack
  | .closes name =>
    match stack with
    | [] => none
    | top :: rest => if top = name then some rest else none

/-- The machine over a token list. -/
def nest (stack : List ν) : List α → Option (List ν)
  | [] => some stack
  | t :: l => (nestStep kind stack t).bind fun stack' => nest stack' l

/-- Every bracket of the forest closes the name it opened, and its leaves stand alone. -/
def Forest.Matched : Forest α → Prop
  | .nil => True
  | .leaf t next => kind t = .single ∧ next.Matched
  | .node o children c next =>
    (∃ name, kind o = .opens name ∧ kind c = .closes name) ∧ children.Matched ∧ next.Matched

variable {kind}

@[simp] theorem nest_nil (stack : List ν) : nest kind stack [] = some stack := rfl

theorem nest_cons (stack : List ν) (t : α) (l : List α) :
    nest kind stack (t :: l) = (nestStep kind stack t).bind fun stack' => nest kind stack' l := rfl

theorem nest_append (stack : List ν) (l m : List α) :
    nest kind stack (l ++ m) = (nest kind stack l).bind fun stack' => nest kind stack' m := by
  induction l generalizing stack with
  | nil => rfl
  | cons t l ih =>
    rw [cons_append, nest_cons, nest_cons]
    cases nestStep kind stack t with
    | none => rfl
    | some stack' => exact ih stack'

variable {name : ν} {stack : List ν} {t : α}

theorem nestStep_of_opens (h : kind t = .opens name) :
    nestStep kind stack t = some (name :: stack) := by
  simp [nestStep, h]

theorem nestStep_of_single (h : kind t = .single) : nestStep kind stack t = some stack := by
  simp [nestStep, h]

theorem nestStep_of_closes (h : kind t = .closes name) :
    nestStep kind (name :: stack) t = some stack := by
  simp [nestStep, h]

/-- A close that goes through names the innermost open element. -/
theorem eq_cons_of_nestStep_closes {stack stack' : List ν} (h : kind t = .closes name)
    (hs : nestStep kind stack t = some stack') : stack = name :: stack' := by
  cases stack with
  | nil => simp [nestStep, h] at hs
  | cons top rest =>
    simp only [nestStep, h] at hs
    split at hs
    next heq =>
      rw [heq, Option.some.inj hs]
    next => simp at hs

/-! ## Forests leave the stack alone -/

theorem nest_tokens {F : Forest α} (h : F.Matched kind) (stack : List ν) :
    nest kind stack F.tokens = some stack := by
  induction F generalizing stack with
  | nil => rfl
  | leaf t next ih =>
    rw [Forest.tokens_leaf, nest_cons, nestStep_of_single h.1]
    exact ih h.2 stack
  | node o children c next ihc ihn =>
    obtain ⟨⟨name, ho, hc⟩, hchildren, hnext⟩ := h
    rw [Forest.tokens_node, nest_cons, nestStep_of_opens ho, Option.bind_some, nest_append,
      ihc hchildren, Option.bind_some, nest_cons, nestStep_of_closes hc]
    exact ihn hnext stack

omit [DecidableEq ν] in
theorem Forest.Matched.append {F G : Forest α} (hF : F.Matched kind) (hG : G.Matched kind) :
    (F.append G).Matched kind := by
  induction F with
  | nil => exact hG
  | leaf t next ih => exact ⟨hF.1, ih hF.2⟩
  | node o children c next _ ih => exact ⟨hF.1, hF.2.1, ih hF.2.2⟩

/-! ## Reading a forest back -/

/-- A token list that closes, in order, every name of a stack: a forest, the close of the
innermost name, and so on outward. -/
inductive Closes (kind : α → Bracket ν) : List ν → List α → Prop where
  | done {F : Forest α} (h : F.Matched kind) : Closes kind [] F.tokens
  | close {F : Forest α} {name : ν} {c : α} {stack : List ν} {l : List α}
      (h : F.Matched kind) (hc : kind c = .closes name) (hl : Closes kind stack l) :
      Closes kind (name :: stack) (F.tokens ++ c :: l)

omit [DecidableEq ν] in
/-- A sibling in front changes nothing. -/
theorem Closes.append_tokens {l : List α} {F : Forest α} (hF : F.Matched kind)
    (h : Closes kind stack l) : Closes kind stack (F.tokens ++ l) := by
  cases h with
  | done hG =>
    rw [← Forest.tokens_append]
    exact .done (hF.append hG)
  | close hG hc hl =>
    rw [← append_assoc, ← Forest.tokens_append]
    exact .close (hF.append hG) hc hl

omit [DecidableEq ν] in
/-- Opening an element in front: its forest and its close become one node. -/
theorem Closes.opens {stack : List ν} {l : List α} {o : α} {name : ν}
    (ho : kind o = .opens name) (h : Closes kind (name :: stack) l) :
    Closes kind stack (o :: l) := by
  cases h with
  | @close F _ c _ m hF hc hm =>
    have hnode : (Forest.node o F c .nil).Matched kind := ⟨⟨name, ho, hc⟩, hF, trivial⟩
    have hl : o :: (F.tokens ++ c :: m) = (Forest.node o F c .nil).tokens ++ m := by simp
    rw [hl]
    exact hm.append_tokens hnode

theorem closes_of_nest :
    ∀ {l : List α} {stack : List ν}, nest kind stack l = some [] → Closes kind stack l
  | [], stack, h => by
    have hs : stack = [] := Option.some.inj h
    subst hs
    exact Closes.done (F := .nil) trivial
  | t :: l, stack, h => by
    rw [nest_cons] at h
    obtain ⟨stack', hstep, hrest⟩ := Option.bind_eq_some_iff.mp h
    have ih := closes_of_nest hrest
    cases hk : kind t with
    | opens name =>
      rw [nestStep_of_opens hk] at hstep
      rw [← Option.some.inj hstep] at ih
      exact ih.opens hk
    | single =>
      rw [nestStep_of_single hk] at hstep
      rw [← Option.some.inj hstep] at ih
      exact Closes.append_tokens (F := .leaf t .nil) ⟨hk, trivial⟩ ih
    | closes name =>
      rw [eq_cons_of_nestStep_closes hk hstep]
      exact Closes.close (F := .nil) trivial hk ih

/-- A list that brings the machine back to the empty stack spells a forest. -/
theorem exists_forest_of_nest {l : List α} (h : nest kind [] l = some []) :
    ∃ F : Forest α, F.Matched kind ∧ F.tokens = l := by
  have hc := closes_of_nest h
  generalize hs : ([] : List ν) = stack at hc
  cases hc with
  | done hF => exact ⟨_, hF, rfl⟩
  | close => exact absurd hs (by simp)

/-! ## One forest for a list -/

/-- Nothing follows, or a closing token does. -/
def Ended (kind : α → Bracket ν) (l : List α) : Prop := ∀ t ∈ l.head?, ∃ name, kind t = .closes name

omit [DecidableEq ν] in
theorem Ended.ne {l : List α} {m : List α} (h : Ended kind l) (ht : ∀ name, kind t ≠ .closes name) :
    l ≠ t :: m := by
  rintro rfl
  obtain ⟨name, hname⟩ := h t rfl
  exact ht name hname

omit [DecidableEq ν] in
theorem ended_cons (h : kind t = .closes name) (l : List α) : Ended kind (t :: l) := by
  intro s hs
  obtain rfl := Option.some.inj hs
  exact ⟨name, h⟩

omit [DecidableEq ν] in
theorem Forest.Matched.tokens_inj : ∀ {F G : Forest α} {l m : List α}, F.Matched kind →
    G.Matched kind → Ended kind l → Ended kind m → F.tokens ++ l = G.tokens ++ m → F = G ∧ l = m
  | .nil, .nil, _, _, _, _, _, _, h => ⟨rfl, h⟩
  | .nil, .leaf t _, _, _, _, hG, hl, _, h =>
    absurd h (hl.ne fun name hname => by simp [hG.1] at hname)
  | .nil, .node o _ _ _, _, _, _, hG, hl, _, h =>
    absurd h (hl.ne fun name hname => by
      obtain ⟨⟨_, ho, -⟩, -⟩ := hG
      simp [ho] at hname)
  | .leaf t _, .nil, _, _, hF, _, _, hm, h =>
    absurd h.symm (hm.ne fun name hname => by simp [hF.1] at hname)
  | .node o _ _ _, .nil, _, _, hF, _, _, hm, h =>
    absurd h.symm (hm.ne fun name hname => by
      obtain ⟨⟨_, ho, -⟩, -⟩ := hF
      simp [ho] at hname)
  | .leaf t next, .leaf t' next', _, _, hF, hG, hl, hm, h => by
    obtain ⟨rfl, hnext⟩ := List.cons.inj h
    obtain ⟨rfl, hrest⟩ := hF.2.tokens_inj hG.2 hl hm hnext
    exact ⟨rfl, hrest⟩
  | .leaf t _, .node o _ _ _, _, _, hF, hG, _, _, h => by
    obtain ⟨⟨name, ho, -⟩, -⟩ := hG
    rw [← (List.cons.inj h).1, hF.1] at ho
    exact absurd ho (by simp)
  | .node o _ _ _, .leaf t _, _, _, hF, hG, _, _, h => by
    obtain ⟨⟨name, ho, -⟩, -⟩ := hF
    rw [(List.cons.inj h).1, hG.1] at ho
    exact absurd ho (by simp)
  | .node o children c next, .node o' children' c' next', l, m, hF, hG, hl, hm, h => by
    obtain ⟨⟨_, -, hc⟩, hchildren, hnext⟩ := hF
    obtain ⟨⟨_, -, hc'⟩, hchildren', hnext'⟩ := hG
    rw [Forest.tokens_node, Forest.tokens_node, cons_append, cons_append] at h
    obtain ⟨rfl, hinside⟩ := List.cons.inj h
    rw [append_assoc, append_assoc, cons_append, cons_append] at hinside
    obtain ⟨rfl, hclose⟩ :=
      hchildren.tokens_inj hchildren' (ended_cons hc _) (ended_cons hc' _) hinside
    obtain ⟨rfl, hafter⟩ := List.cons.inj hclose
    obtain ⟨rfl, hrest⟩ := hnext.tokens_inj hnext' hl hm hafter
    exact ⟨rfl, hrest⟩

omit [DecidableEq ν] in
/-- A list spells one forest at most. -/
theorem Forest.Matched.eq_of_tokens {F G : Forest α} (hF : F.Matched kind) (hG : G.Matched kind)
    (h : F.tokens = G.tokens) : F = G := by
  have hnil : Ended kind ([] : List α) := fun t ht => by simp at ht
  exact (hF.tokens_inj hG hnil hnil (congrArg (· ++ []) h)).1

end Library
end Docx2Typed
