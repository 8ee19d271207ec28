import Mathlib.Logic.Function.Basic
import Mathlib.Data.List.Basic

/-!
# Spellings that show where they end

A code spells every value by a list of characters such that two spellings at the front of one
list are the same.  Codes of parts make a code of the whole, and every code is injective.
-/

namespace Docx2Typed.Library

/-- A spelling of the values of a type in which no spelling begins another. -/
structure PrefixCode (α : Type) where
  spell : α → List Char
  unique : ∀ {a b : α} {s t : List Char}, spell a ++ s = spell b ++ t → a = b ∧ s = t

namespace PrefixCode

variable {α β : Type}

theorem spell_injective (code : PrefixCode α) : Function.Injective code.spell := fun a b h =>
  (code.unique (s := []) (t := []) (by rw [h])).1

/-- The code of the values that an injection sends to coded values. -/
def map (code : PrefixCode β) (f : α → β) (hf : Function.Injective f) : PrefixCode α where
  spell a := code.spell (f a)
  unique h := ⟨hf (code.unique h).1, (code.unique h).2⟩

def char : PrefixCode Char where
  spell c := [c]
  unique h := ⟨(List.cons.inj h).1, (List.cons.inj h).2⟩

def bool : PrefixCode Bool :=
  char.map (fun b => if b then '1' else '0') fun a b h => by
    cases a <;> cases b <;> first | rfl | exact absurd h (by decide)

def pair (first : PrefixCode α) (second : PrefixCode β) : PrefixCode (α × β) where
  spell p := first.spell p.1 ++ second.spell p.2
  unique {a b s t} h := by
    rw [List.append_assoc, List.append_assoc] at h
    obtain ⟨hfirst, h⟩ := first.unique h
    obtain ⟨hsecond, h⟩ := second.unique h
    exact ⟨Prod.ext hfirst hsecond, h⟩

def option (code : PrefixCode α) : PrefixCode (Option α) where
  spell
    | none => ['0']
    | some a => '1' :: code.spell a
  unique {a b s t} h := by
    cases a with
    | none =>
      cases b with
      | none => exact ⟨rfl, (List.cons.inj h).2⟩
      | some b => exact absurd (List.cons.inj h).1 (by decide)
    | some a =>
      cases b with
      | none => exact absurd (List.cons.inj h).1 (by decide)
      | some b =>
        obtain ⟨hab, hst⟩ := code.unique (List.cons.inj h).2
        exact ⟨congrArg some hab, hst⟩

/-- The spelling of a list: a mark before each entry and another one at the end. -/
def spellList (code : PrefixCode α) : List α → List Char
  | [] => ['0']
  | a :: as => '1' :: (code.spell a ++ spellList code as)

theorem spellList_unique (code : PrefixCode α) : ∀ {as bs : List α} {s t : List Char},
    spellList code as ++ s = spellList code bs ++ t → as = bs ∧ s = t
  | [], [], _, _, h => ⟨rfl, (List.cons.inj h).2⟩
  | [], _ :: _, _, _, h => absurd (List.cons.inj h).1 (by decide)
  | _ :: _, [], _, _, h => absurd (List.cons.inj h).1 (by decide)
  | a :: as, b :: bs, s, t, h => by
    have h : (code.spell a ++ spellList code as) ++ s = (code.spell b ++ spellList code bs) ++ t :=
      (List.cons.inj h).2
    rw [List.append_assoc, List.append_assoc] at h
    obtain ⟨hhead, hrest⟩ := code.unique h
    obtain ⟨htail, hst⟩ := spellList_unique code hrest
    exact ⟨by rw [hhead, htail], hst⟩

def list (code : PrefixCode α) : PrefixCode (List α) where
  spell := spellList code
  unique := spellList_unique code

def text : PrefixCode String :=
  (list char).map String.toList fun _ _ h => String.toList_inj.mp h

def nat : PrefixCode Nat :=
  (list bool).map (List.replicate · true) fun m n h => by
    rw [← List.length_replicate (n := m) (a := true), ← List.length_replicate (n := n) (a := true)]
    exact congrArg List.length h

def int : PrefixCode Int :=
  (pair bool nat).map (fun z => (decide (0 ≤ z), z.natAbs)) fun m n h => by
    obtain ⟨hsign, habs⟩ := Prod.mk.inj h
    rw [decide_eq_decide] at hsign
    omega

end PrefixCode

end Docx2Typed.Library
