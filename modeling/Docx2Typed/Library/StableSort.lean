import Mathlib.Data.List.Sort

/-!
# Stable sorting by a key

The entries of one key keep their order, and they stand together.

* `filter_insertionSort`: the entries of a key, in the order of the list;
* `split_of_sorted`: what is below a key, what is at it, what is above it.
-/

namespace Docx2Typed.Library

open List

universe u v

variable {α : Type u} {κ : Type v} [LinearOrder κ] {key : α → κ}

theorem filter_insertionSort {r : α → α → Prop} [DecidableRel r] [Std.Total r] [IsTrans α r]
    (hr : ∀ a b, key a = key b → r a b) (k : κ) (l : List α) :
    (l.insertionSort r).filter (fun a => key a = k) = l.filter fun a => key a = k := by
  have hsame : (l.filter fun a => key a = k).Pairwise r := by
    refine pairwise_filter.mpr (pairwise_of_forall fun a b => ?_)
    intro ha hb
    exact hr a b ((of_decide_eq_true ha).trans (of_decide_eq_true hb).symm)
  have hkept := (sublist_insertionSort hsame filter_sublist).filter fun a => key a = k
  have hlength := ((perm_insertionSort r l).filter fun a => key a = k).length_eq
  rw [filter_filter] at hkept
  simp only [Bool.and_self] at hkept
  exact (hkept.eq_of_length hlength.symm).symm

theorem split_of_sorted (k : κ) : ∀ {l : List α}, l.Pairwise (fun a b => key a ≤ key b) →
    l = l.filter (fun a => key a < k) ++
      (l.filter (fun a => key a = k) ++ l.filter fun a => k < key a)
  | [], _ => rfl
  | a :: l, h => by
    obtain ⟨hhead, htail⟩ := pairwise_cons.mp h
    have ih := split_of_sorted k htail
    have hnone : k ≤ key a → l.filter (fun b => key b < k) = [] := fun hle => by
      refine filter_eq_nil_iff.mpr fun b hb => ?_
      simpa using hle.trans (hhead b hb)
    rcases lt_trichotomy (key a) k with hlt | heq | hgt
    · rw [filter_cons_of_pos (by simpa using hlt), filter_cons_of_neg (by simpa using hlt.ne),
        filter_cons_of_neg (by simpa using hlt.le), cons_append, ← ih]
    · rw [hnone heq.ge, nil_append] at ih
      rw [filter_cons_of_neg (by simp [heq]), filter_cons_of_pos (by simpa using heq),
        filter_cons_of_neg (by simp [heq]), hnone heq.ge, nil_append, cons_append,
        ← ih]
    · have hat : l.filter (fun b => key b = k) = [] := by
        refine filter_eq_nil_iff.mpr fun b hb => ?_
        simpa using (hgt.trans_le (hhead b hb)).ne'
      rw [hnone hgt.le, hat, nil_append, nil_append] at ih
      rw [filter_cons_of_neg (by simpa using hgt.le),
        filter_cons_of_neg (by simpa using hgt.ne'), filter_cons_of_pos (by simpa using hgt),
        hnone hgt.le, hat, nil_append, nil_append, ← ih]

end Docx2Typed.Library
