import Docx2Typed.Style.Rendered

/-!
# Overrides and the children of a fragment

What one override, and a row of them, does to the children a fragment is made of: the other
children stay in order, the children asked for are of the value asked for, and children in schema
order stay so.
-/

namespace Docx2Typed

open List

/-! ## One child put in, or out -/

section Replaced

variable {name : String}

theorem replaceChild_cons (new : Option RprChild) (x : RprChild) (kids : List RprChild) :
    replaceChild name new (x :: kids) =
      if x.name = name then replaceChild name new kids
      else
        match new with
        | some child =>
          if rprSchemaPosition name < rprSchemaPosition x.name then
            child :: x :: replaceChild name none kids
          else x :: replaceChild name (some child) kids
        | none => x :: replaceChild name none kids := by
  cases new with
  | none => rfl
  | some child => rfl

theorem filter_replaceChild {p : RprChild → Bool} (hp : ∀ x, p x = true → x.name ≠ name) :
    ∀ {kids : List RprChild} {new : Option RprChild}, (∀ x ∈ new, x.name = name) →
      (replaceChild name new kids).filter p = kids.filter p
  | [], new, hnew => by
    cases new with
    | none => rfl
    | some child =>
      have hchild : p child = false := by
        by_contra h
        exact hp child (by simpa using h) (hnew child rfl)
      rw [replaceChild, Option.toList_some, filter_cons_of_neg (by simp [hchild])]
  | x :: kids, new, hnew => by
    rw [replaceChild_cons]
    by_cases hsame : x.name = name
    · have hx : p x = false := by
        by_contra h
        exact hp x (by simpa using h) hsame
      rw [if_pos hsame, filter_replaceChild hp hnew, filter_cons_of_neg (by simp [hx])]
    rw [if_neg hsame]
    cases new with
    | none =>
      dsimp only
      rw [filter_cons, filter_cons, filter_replaceChild hp hnew]
    | some child =>
      have hchild : p child = false := by
        by_contra h
        exact hp child (by simpa using h) (hnew child rfl)
      dsimp only
      split
      · rw [filter_cons_of_neg (by simp [hchild]), filter_cons, filter_cons,
          filter_replaceChild hp (by simp)]
      · rw [filter_cons, filter_cons, filter_replaceChild hp hnew]

/-- Only the new child is of the name. -/
theorem mem_replaceChild_name : ∀ {kids : List RprChild} {new : Option RprChild} {x : RprChild},
    x ∈ replaceChild name new kids → x.name = name → new = some x
  | [], new, x, hx, _ => by
    cases new with
    | none => simp [replaceChild] at hx
    | some child => rw [mem_singleton.mp hx]
  | y :: kids, new, x, hx, hname => by
    rw [replaceChild_cons] at hx
    split at hx
    · exact mem_replaceChild_name hx hname
    next hy =>
      have hne : x ≠ y := by
        rintro rfl
        exact hy hname
      cases new with
      | none => exact mem_replaceChild_name ((mem_cons.mp hx).resolve_left hne) hname
      | some child =>
        dsimp only at hx
        split at hx
        · rcases mem_cons.mp hx with rfl | hx
          · rfl
          have hnone := mem_replaceChild_name ((mem_cons.mp hx).resolve_left hne) hname
          simp at hnone
        · exact mem_replaceChild_name ((mem_cons.mp hx).resolve_left hne) hname

/-- The element stands in front of the first child kept that comes later in the schema. -/
def InSlot (child : RprChild) (kids : List RprChild) : Prop :=
  ∃ before behind, kids = before ++ child :: behind ∧
    (∀ x ∈ before, rprSchemaPosition x.name ≤ rprSchemaPosition child.name) ∧
    ∀ x ∈ behind.head?, rprSchemaPosition child.name < rprSchemaPosition x.name

theorem inSlot_replaceChild {child : RprChild} : ∀ {kids : List RprChild},
    InSlot child (replaceChild child.name (some child) kids)
  | [] => ⟨[], [], rfl, by simp, by simp⟩
  | x :: kids => by
    rw [replaceChild]
    split
    · exact inSlot_replaceChild
    split
    next hlt => exact ⟨[], _, rfl, by simp, by simpa using hlt⟩
    next hle =>
      have hslot : InSlot child (replaceChild child.name (some child) kids) := inSlot_replaceChild
      obtain ⟨before, behind, hkids, hbefore, hbehind⟩ := hslot
      refine ⟨x :: before, behind, congrArg (List.cons x) hkids, ?_, hbehind⟩
      exact forall_mem_cons.mpr ⟨not_lt.mp hle, hbefore⟩

/-- Children in the order of the schema. -/
def InSchemaOrder (kids : List RprChild) : Prop :=
  kids.Pairwise fun x y => rprSchemaPosition x.name ≤ rprSchemaPosition y.name

theorem mem_replaceChild : ∀ {kids : List RprChild} {new : Option RprChild} {x : RprChild},
    x ∈ replaceChild name new kids → new = some x ∨ x ∈ kids
  | [], new, x, hx => by
    cases new with
    | none => simp [replaceChild] at hx
    | some child => exact .inl (by rw [mem_singleton.mp hx])
  | y :: kids, new, x, hx => by
    rw [replaceChild_cons] at hx
    split at hx
    · exact (mem_replaceChild hx).imp_right (mem_cons_of_mem y)
    cases new with
    | none =>
      rcases mem_cons.mp hx with rfl | hx
      · exact .inr mem_cons_self
      · exact (mem_replaceChild hx).imp_right (mem_cons_of_mem y)
    | some child =>
      dsimp only at hx
      split at hx
      · rcases mem_cons.mp hx with rfl | hx
        · exact .inl rfl
        rcases mem_cons.mp hx with rfl | hx
        · exact .inr mem_cons_self
        · exact .inr (mem_cons_of_mem y ((mem_replaceChild hx).resolve_left (by simp)))
      · rcases mem_cons.mp hx with rfl | hx
        · exact .inr mem_cons_self
        · exact (mem_replaceChild hx).imp_right (mem_cons_of_mem y)

theorem inSchemaOrder_replaceChild : ∀ {kids : List RprChild} {new : Option RprChild},
    (∀ x ∈ new, x.name = name) → InSchemaOrder kids → InSchemaOrder (replaceChild name new kids)
  | [], new, _, _ => by
    cases new with
    | none => exact List.Pairwise.nil
    | some child => exact pairwise_singleton _ child
  | y :: kids, new, hnew, h => by
    obtain ⟨hy, hkids⟩ := pairwise_cons.mp h
    have hnone : InSchemaOrder (y :: replaceChild name none kids) :=
      pairwise_cons.mpr ⟨fun x hx => hy x ((mem_replaceChild hx).resolve_left (by simp)),
        inSchemaOrder_replaceChild (by simp) hkids⟩
    rw [replaceChild_cons]
    split
    · exact inSchemaOrder_replaceChild hnew hkids
    cases new with
    | none => exact hnone
    | some child =>
      have hchild : child.name = name := hnew child rfl
      dsimp only
      split
      next hlt =>
        refine pairwise_cons.mpr ⟨?_, hnone⟩
        rw [hchild]
        intro x hx
        rcases mem_cons.mp hx with rfl | hx
        · exact hlt.le
        · exact hlt.le.trans (hy x ((mem_replaceChild hx).resolve_left (by simp)))
      next hle =>
        refine pairwise_cons.mpr ⟨?_, inSchemaOrder_replaceChild hnew hkids⟩
        intro x hx
        rcases mem_replaceChild hx with hx | hx
        · obtain rfl := Option.some.inj hx
          rw [hchild]
          exact not_lt.mp hle
        · exact hy x hx

end Replaced

end Docx2Typed
