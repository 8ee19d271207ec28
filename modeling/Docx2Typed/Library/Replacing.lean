import Mathlib.Data.List.Infix
import Mathlib.Data.List.TakeDrop
import Mathlib.Tactic.ByContra

/-!
# One span replaced

Two lists that are alike in front of one span and behind it.  The front may go up to the first
difference, and the back, from the end, up to the first one that the front leaves: no other way of
telling the lists apart replaces less (`minimal_of_stops`).
-/

namespace Docx2Typed

open List
namespace Library

/-- A counter goes up as long as a condition holds, and the condition bounds it. -/
def countWhile (holds : ℕ → Prop) [DecidablePred holds] {bound : ℕ}
    (hbound : ∀ count, holds count → count < bound) (count : ℕ) : ℕ :=
  if h : holds count then countWhile holds hbound (count + 1) else count
termination_by bound - count
decreasing_by exact Nat.sub_lt_sub_left (hbound count h) count.lt_succ_self

/-- The counter stops where the condition fails, and has passed where it holds. -/
theorem countWhile_spec {holds : ℕ → Prop} [DecidablePred holds] {bound : ℕ}
    {hbound : ∀ count, holds count → count < bound} (count : ℕ) :
    ¬ holds (countWhile holds hbound count) ∧
      ∀ i, count ≤ i → i < countWhile holds hbound count → holds i := by
  induction count using countWhile.induct holds hbound with
  | case1 count h ih =>
    rw [countWhile, dif_pos h]
    refine ⟨ih.1, fun i hi hlt => ?_⟩
    rcases hi.eq_or_lt with rfl | hi
    · exact h
    · exact ih.2 i hi hlt
  | case2 count h =>
    rw [countWhile, dif_neg h]
    exact ⟨h, fun i hi hlt => absurd hi (Nat.not_le.mpr hlt)⟩

variable {α : Type*}

/-- Two lists, with what is alike in front of one span and behind it. -/
structure Replacing (old new : List α) where
  front : List α
  oldPart : List α
  newPart : List α
  back : List α
  old_eq : old = front ++ oldPart ++ back
  new_eq : new = front ++ newPart ++ back

namespace Replacing

variable {old new : List α}

/-- Nothing less can be replaced. -/
def Minimal (r : Replacing old new) : Prop :=
  ∀ other : Replacing old new,
    r.oldPart.length ≤ other.oldPart.length ∧ r.newPart.length ≤ other.newPart.length

theorem length_old (r : Replacing old new) :
    old.length = r.front.length + r.oldPart.length + r.back.length := by
  rw [congrArg List.length r.old_eq, length_append, length_append]

theorem length_new (r : Replacing old new) :
    new.length = r.front.length + r.newPart.length + r.back.length := by
  rw [congrArg List.length r.new_eq, length_append, length_append]

theorem getElem?_front (r : Replacing old new) {i : ℕ} (hi : i < r.front.length) :
    old[i]? = new[i]? := by
  rw [congrArg (·[i]?) r.old_eq, congrArg (·[i]?) r.new_eq]
  simp only [append_assoc]
  rw [getElem?_append_left hi, getElem?_append_left hi]

/-- From the end the back is the front. -/
def reverse (r : Replacing old new) : Replacing old.reverse new.reverse where
  front := r.back.reverse
  oldPart := r.oldPart.reverse
  newPart := r.newPart.reverse
  back := r.front.reverse
  old_eq := by simp [congrArg List.reverse r.old_eq]
  new_eq := by simp [congrArg List.reverse r.new_eq]

theorem front_le_of_stops (r : Replacing old new) {stop : ℕ}
    (h : ¬ (stop < old.length ∧ stop < new.length ∧ old[stop]? = new[stop]?)) :
    r.front.length ≤ stop := by
  by_contra hlt
  have hold := r.length_old
  have hnew := r.length_new
  exact h ⟨by omega, by omega, r.getElem?_front (by omega)⟩

/-- A front that stops at the first difference, and a back that stops at the first one behind it
from the end, or where it meets the front, leave the least between them. -/
theorem minimal_of_stops {r : Replacing old new}
    (hfront : ¬ (r.front.length < old.length ∧ r.front.length < new.length ∧
      old[r.front.length]? = new[r.front.length]?))
    (hback : ¬ (r.front.length + r.back.length < old.length ∧
      r.front.length + r.back.length < new.length ∧
        old.reverse[r.back.length]? = new.reverse[r.back.length]?)) : r.Minimal := by
  intro other
  have hlead := other.front_le_of_stops hfront
  have hold := r.length_old
  have hnew := r.length_new
  have hold' := other.length_old
  have hnew' := other.length_new
  by_cases hmeet : r.front.length + r.back.length < old.length ∧
      r.front.length + r.back.length < new.length
  · -- the back stops at a difference, so that no other back is longer
    have htrail := other.reverse.front_le_of_stops fun h =>
      hback ⟨hmeet.1, hmeet.2, h.2.2⟩
    have hlength : other.reverse.front.length = other.back.length := length_reverse
    omega
  · -- one of the parts is empty, and their lengths differ by as much as those of the lists
    omega

end Replacing

end Library
end Docx2Typed
