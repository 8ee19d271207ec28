import Mathlib.Data.List.Basic

/-!
# Pieces at their places

`Placed piece i xs` says that `piece` stands in `xs` from position `i` on.  A format that fixes
where its fields stand is read through such facts: a field of a record of a file is found by
composing the place of the record in the file with that of the field in the record.
-/

namespace Docx2Typed.Library

universe u

variable {α : Type u}

def Placed (piece : List α) (i : Nat) (xs : List α) : Prop :=
  ∃ before after, xs = before ++ piece ++ after ∧ before.length = i

namespace Placed

variable {piece a b raw xs : List α} {i k : Nat}

theorem of_eq (before after : List α) (h : xs = before ++ piece ++ after)
    (hi : before.length = i) : Placed piece i xs :=
  ⟨before, after, h, hi⟩

theorem trans (h : Placed piece k raw) (h' : Placed raw i xs) : Placed piece (i + k) xs := by
  obtain ⟨before, after, rfl, rfl⟩ := h
  obtain ⟨front, back, rfl, rfl⟩ := h'
  exact ⟨front ++ before, after ++ back, by simp, by simp⟩

theorem left (h : Placed (a ++ b) i xs) : Placed a i xs := by
  obtain ⟨before, after, rfl, rfl⟩ := h
  exact ⟨before, b ++ after, by simp, rfl⟩

theorem right (h : Placed (a ++ b) i xs) : Placed b (i + a.length) xs := by
  obtain ⟨before, after, rfl, rfl⟩ := h
  exact ⟨before ++ a, after, by simp, by simp⟩

theorem le (h : Placed piece i xs) : i + piece.length ≤ xs.length := by
  obtain ⟨before, after, rfl, rfl⟩ := h
  simp

/-- What stands at a place is what is cut out there. -/
theorem drop_take (h : Placed piece i xs) : (xs.take (i + piece.length)).drop i = piece := by
  obtain ⟨before, after, rfl, rfl⟩ := h
  rw [← List.length_append, List.take_left, List.drop_left]

end Placed

end Docx2Typed.Library
