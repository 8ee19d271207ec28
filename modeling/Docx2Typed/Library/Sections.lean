import Mathlib.Algebra.BigOperators.Group.Finset.Basic
import Mathlib.Algebra.Ring.Nat
import Mathlib.Algebra.Order.BigOperators.Group.Finset
import Mathlib.Data.List.AList

/-!
# Sections of a list

A list is cut at the entries that carry a key: what stands before the first of them, and for each of
them the section from it to the next.  Of two sections under one key the later counts.

* `sections_parts`: sections written one after the other are cut there again.
* `sum_lookup_tableOf_le`: what counts is no more than what stands there.
-/

namespace Docx2Typed.Library

open List

variable {α β γ ι : Type}

/-! ## Cutting -/

/-- The entries before the first key, and the section of each key. -/
def sections (key : α → Option ι) : List α → List α × List (ι × List α)
  | [] => ([], [])
  | entry :: entries =>
    match key entry with
    | some name => ([], (name, entry :: (sections key entries).1) :: (sections key entries).2)
    | none => (entry :: (sections key entries).1, (sections key entries).2)

/-- A section has its key first, and no other key. -/
def IsSection (key : α → Option ι) (part : ι × List α) : Prop :=
  ∃ entry rest, part.2 = entry :: rest ∧ key entry = some part.1 ∧ ∀ other ∈ rest, key other = none

variable {key : α → Option ι}

variable {entry : α} {name : ι}

theorem sections_of_some (h : key entry = some name) (entries : List α) :
    sections key (entry :: entries) =
      ([], (name, entry :: (sections key entries).1) :: (sections key entries).2) := by
  rw [sections, h]

theorem sections_of_none (h : key entry = none) (entries : List α) :
    sections key (entry :: entries) =
      (entry :: (sections key entries).1, (sections key entries).2) := by
  rw [sections, h]

/-- The sections read the list. -/
theorem sections_flatten (key : α → Option ι) (entries : List α) :
    (sections key entries).1 ++ (sections key entries).2.flatMap Prod.snd = entries := by
  induction entries with
  | nil => rfl
  | cons entry entries ih =>
    cases h : key entry with
    | none =>
      rw [sections_of_none h]
      exact congrArg (entry :: ·) ih
    | some name =>
      rw [sections_of_some h]
      exact congrArg (entry :: ·) ih

theorem map_fst_sections (entries : List α) :
    (sections key entries).2.map Prod.fst = entries.filterMap key := by
  induction entries with
  | nil => rfl
  | cons entry entries ih =>
    cases h : key entry with
    | none => rw [sections_of_none h, filterMap_cons_none h, ih]
    | some name => rw [sections_of_some h, filterMap_cons_some h, map_cons, ih]

theorem keyless_of_mem_sections {entries : List α} (h : entry ∈ (sections key entries).1) :
    key entry = none := by
  induction entries with
  | nil => cases h
  | cons first entries ih =>
    cases hfirst : key first with
    | none =>
      rw [sections_of_none hfirst] at h
      rcases mem_cons.mp h with rfl | h
      · exact hfirst
      · exact ih h
    | some name =>
      rw [sections_of_some hfirst] at h
      cases h

theorem isSection_of_mem {entries : List α} {part : ι × List α}
    (h : part ∈ (sections key entries).2) : IsSection key part := by
  induction entries with
  | nil => cases h
  | cons first entries ih =>
    cases hfirst : key first with
    | none =>
      rw [sections_of_none hfirst] at h
      exact ih h
    | some name =>
      rw [sections_of_some hfirst] at h
      rcases mem_cons.mp h with rfl | h
      · exact ⟨first, _, rfl, hfirst, fun _ => keyless_of_mem_sections⟩
      · exact ih h

section

variable {before : List α} (hbefore : ∀ entry ∈ before, key entry = none)

include hbefore

theorem sections_append (entries : List α) : sections key (before ++ entries) =
      (before ++ (sections key entries).1, (sections key entries).2) := by
  induction before with
  | nil => rfl
  | cons entry before ih =>
    rw [cons_append, sections_of_none (hbefore entry mem_cons_self),
      ih fun other hother => hbefore other (mem_cons_of_mem _ hother)]
    rfl

/-- Sections one after the other, with entries before them that have no key. -/
theorem sections_parts {parts : List (ι × List α)} (hparts : ∀ part ∈ parts, IsSection key part) :
    sections key (before ++ parts.flatMap Prod.snd) = (before, parts) := by
  rw [sections_append hbefore]
  suffices h : sections key (parts.flatMap Prod.snd) = ([], parts) by
    rw [h, append_nil]
  clear hbefore
  induction parts with
  | nil => rfl
  | cons part parts ih =>
    obtain ⟨name, lines⟩ := part
    obtain ⟨entry, rest, hlines, hentry, hrest⟩ := hparts _ mem_cons_self
    obtain rfl : lines = entry :: rest := hlines
    have ih := ih fun part hpart => hparts part (mem_cons_of_mem _ hpart)
    show sections key (entry :: (rest ++ parts.flatMap Prod.snd)) = _
    rw [sections_of_some hentry, sections_append hrest, ih, append_nil]

end

/-! ## The section that counts -/

variable [DecidableEq ι]

/-- The last value under each key. -/
def tableOf (parts : List (ι × β)) : AList fun _ : ι => β :=
  parts.foldl (fun table part => table.insert part.1 part.2) ∅

theorem lookup_tableOf_concat (parts : List (ι × β)) (part : ι × β) (name : ι) :
    (tableOf (parts ++ [part])).lookup name =
      if name = part.1 then some part.2 else (tableOf parts).lookup name := by
  rw [tableOf, foldl_append]
  show AList.lookup name (AList.insert part.1 part.2 (tableOf parts)) = _
  split
  · rename_i h
    rw [h, AList.lookup_insert]
  · rename_i h
    exact AList.lookup_insert_ne h

variable {parts : List (ι × β)}

theorem lookup_tableOf_isSome :
    ((tableOf parts).lookup name).isSome ↔ name ∈ parts.map Prod.fst := by
  induction parts using List.reverseRecOn with
  | nil => simp [tableOf]
  | append_singleton parts part ih =>
    rw [lookup_tableOf_concat, map_append, mem_append, map_singleton,
      mem_singleton]
    split
    · rename_i h
      simp [h]
    · rename_i h
      rw [ih]
      simp [h]

/-- What counts stands there. -/
theorem mem_of_lookup_tableOf {value : β} (h : (tableOf parts).lookup name = some value) :
    (name, value) ∈ parts := by
  induction parts using List.reverseRecOn with
  | nil => simp [tableOf] at h
  | append_singleton parts part ih =>
    rw [lookup_tableOf_concat] at h
    split at h
    · rename_i hname
      obtain rfl := Option.some.inj h
      rw [hname]
      exact mem_append_right _ mem_cons_self
    · exact mem_append_left _ (ih h)

theorem lookup_tableOf_map (f : ι → β → γ) (parts : List (ι × β)) (name : ι) :
    (tableOf (parts.map fun part => (part.1, f part.1 part.2))).lookup name =
      ((tableOf parts).lookup name).map (f name) := by
  induction parts using List.reverseRecOn with
  | nil => simp [tableOf]
  | append_singleton parts part ih =>
    rw [map_append, map_singleton, lookup_tableOf_concat, lookup_tableOf_concat, ih]
    split
    · rename_i h
      rw [h]
      rfl
    · rfl

/-- Under different keys everything counts. -/
theorem lookup_tableOf_of_mem (hnodup : (parts.map Prod.fst).Nodup) {part : ι × β}
    (hpart : part ∈ parts) : (tableOf parts).lookup part.1 = some part.2 := by
  obtain ⟨value, hvalue⟩ := Option.isSome_iff_exists.mp
    (lookup_tableOf_isSome.mpr (mem_map_of_mem (f := Prod.fst) hpart))
  have hmem := mem_of_lookup_tableOf hvalue
  have hsame : (part.1, value) = part := inj_on_of_nodup_map hnodup hmem hpart rfl
  rw [hvalue, ← hsame]

theorem lookup_tableOf_entries (table : AList fun _ : ι => β) (name : ι) :
    (tableOf (table.entries.map fun entry => (entry.1, entry.2))).lookup name =
      table.lookup name := by
  have hnodup : ((table.entries.map fun entry => (entry.1, entry.2)).map Prod.fst).Nodup := by
    rw [map_map]
    exact table.nodupKeys
  ext value
  constructor
  · intro h
    obtain ⟨entry, hentry, heq⟩ := mem_map.mp (mem_of_lookup_tableOf h)
    obtain ⟨rfl, rfl⟩ := Prod.mk.inj heq
    exact AList.mem_lookup_iff.mpr hentry
  · intro h
    have hmem := mem_map_of_mem (f := fun entry : Sigma fun _ : ι => β =>
      (entry.1, entry.2)) (AList.mem_lookup_iff.mp h)
    exact lookup_tableOf_of_mem hnodup hmem

theorem lookup_tableOf_names (f : ι → β) (names : List ι) (name : ι) :
    (tableOf (names.map fun name => (name, f name))).lookup name =
      if name ∈ names then some (f name) else none := by
  induction names using List.reverseRecOn with
  | nil => rfl
  | append_singleton names last ih =>
    rw [map_append, map_singleton, lookup_tableOf_concat, ih]
    by_cases h : name = last
    · simp [h]
    · simp [h]

/-- The weight of what counts is at most the weight of all. -/
theorem sum_lookup_tableOf_le (weight : β → ℕ) (parts : List (ι × β)) :
    ∑ name ∈ (parts.map Prod.fst).toFinset, ((tableOf parts).lookup name).elim 0 weight ≤
      (parts.map fun part => weight part.2).sum := by
  induction parts using List.reverseRecOn with
  | nil => simp
  | append_singleton parts part ih =>
    rw [map_append, map_append, sum_append, toFinset_append,
      map_singleton, map_singleton, sum_singleton]
    have hsplit : (parts.map Prod.fst).toFinset ∪ [part.1].toFinset =
        insert part.1 ((parts.map Prod.fst).toFinset.erase part.1) := by
      ext name
      by_cases h : name = part.1 <;> simp [h]
    rw [hsplit, Finset.sum_insert (Finset.notMem_erase _ _), lookup_tableOf_concat, if_pos rfl]
    have hrest : ∑ name ∈ (parts.map Prod.fst).toFinset.erase part.1,
        ((tableOf (parts ++ [part])).lookup name).elim 0 weight =
          ∑ name ∈ (parts.map Prod.fst).toFinset.erase part.1,
            ((tableOf parts).lookup name).elim 0 weight :=
      Finset.sum_congr rfl fun name hname => by
        rw [lookup_tableOf_concat, if_neg (Finset.ne_of_mem_erase hname)]
    have hless : ∑ name ∈ (parts.map Prod.fst).toFinset.erase part.1,
        ((tableOf parts).lookup name).elim 0 weight ≤
          ∑ name ∈ (parts.map Prod.fst).toFinset, ((tableOf parts).lookup name).elim 0 weight :=
      Finset.sum_le_sum_of_subset (Finset.erase_subset _ _)
    rw [hrest, Option.elim_some]
    omega

end Docx2Typed.Library
