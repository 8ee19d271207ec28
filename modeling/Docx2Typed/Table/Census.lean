import Docx2Typed.Prose.ParagraphIds.Document
import Docx2Typed.Table.Ranges
import Docx2Typed.XmlWalker.Tree

/-!
# The elements of a document

One pass over the tags of a well-nested document that notes every element when it ends, with the
elements around it.  What the scanners of `govern.rs` list is read off it: a table of the body is
an element, its rows and cells are the elements whose nearest table it is.
-/

namespace Docx2Typed

open List

/-- An element that has ended: itself, the elements around it (innermost first), and its end. -/
structure Element where
  own : OpenElement
  around : List OpenElement
  stop : Nat
  deriving DecidableEq, Repr

def Element.range (e : Element) : Nat × Nat := (e.own.start, e.stop)

/-- What has been met up to one point of a document. -/
structure Census where
  outline : Outline := {}
  /-- The elements that have ended, in that order. -/
  closed : List Element := []
  /-- Where the tables that paragraph ids count start, and whether they stand in the body. -/
  tables : List (Nat × Bool) := []
  /-- Where the empty-element tables start. -/
  empties : List Nat := []
  deriving Repr

/-- The next element stands directly in the body. -/
def Outline.inBody (o : Outline) : Bool := o.bodyDepth.any (o.stack.length = · + 1)

/-- The next element stands directly in a cell. -/
def Outline.inCell (o : Outline) : Bool :=
  o.bodyDepth.any (fun b => b + 1 < o.stack.length) && o.stack.head?.any (·.name == "tc")

def Census.step (c : Census) (tag : Tag) : Census where
  outline := c.outline.step tag
  closed :=
    if tag.closing then
      match c.outline.stack with
      | [] => c.closed
      | own :: around => c.closed ++ [⟨own, around, tag.stop⟩]
    else c.closed
  tables :=
    if tag.closing = false ∧ tag.name = "tbl" ∧ (c.outline.inBody || c.outline.inCell) then
      c.tables ++ [(tag.start, c.outline.inBody)]
    else c.tables
  empties :=
    if tag.closing = false ∧ tag.name = "tbl" ∧ tag.selfClosing then c.empties ++ [tag.start]
    else c.empties

def census (tags : List Tag) : Census := tags.foldl Census.step {}

/-- A table that stands directly in the body. -/
def Census.isBodyTable (c : Census) (e : Element) : Bool :=
  e.own.name == "tbl" && c.outline.bodyDepth.any (e.around.length = · + 1)

def Census.bodyTables (c : Census) : List Element := c.closed.filter c.isBodyTable

/-- The rows (or cells) of a table: the elements whose nearest table it is, as long as no
empty-element table has been met in it. -/
def Census.isPart (c : Census) (part : String) (table : Nat) (e : Element) : Bool :=
  e.own.name == part && (e.around.find? (·.name == "tbl")).any (·.start == table) &&
    c.empties.all fun empty => empty < table || e.stop ≤ empty

def Census.parts (c : Census) (part : String) (table : Nat) : List Element :=
  c.closed.filter (c.isPart part table)

/-! ## Well-nested documents -/

/-- The tags of a document up to one point, nested, in order, under one root, and with no end tag
before the body. -/
inductive Regular : List Tag → Census → Prop where
  | start : Regular [] {}
  | opens {tags : List Tag} {c : Census} {tag : Tag} : Regular tags c → tag.closing = false →
      c.outline.opens tag = !tag.selfClosing → (∀ t ∈ tags, t.stop ≤ tag.start) →
      tag.start < tag.stop → (c.outline.stack = [] → tags = []) →
      Regular (tags ++ [tag]) (c.step tag)
  | closes {tags : List Tag} {c : Census} {tag : Tag} {own : OpenElement}
      {around : List OpenElement} {b : Nat} : Regular tags c → tag.closing = true →
      c.outline.stack = own :: around → own.name = tag.name → c.outline.bodyDepth = some b →
      (∀ t ∈ tags, t.stop ≤ tag.start) → tag.start < tag.stop →
      Regular (tags ++ [tag]) (c.step tag)

section Steps

variable {c : Census} {tag : Tag}

theorem outline_step_opens (hclosing : tag.closing = false)
    (hopens : c.outline.opens tag = !tag.selfClosing) (hself : tag.selfClosing = false) :
    (c.step tag).outline.stack =
      ⟨tag.name, tag.start, c.outline.children.count tag.name, tag.name :: c.outline.children⟩ ::
        c.outline.stack := by
  simp [Census.step, Outline.step, hclosing, hopens, hself]

theorem outline_step_single (hclosing : tag.closing = false)
    (hopens : c.outline.opens tag = !tag.selfClosing) (hself : tag.selfClosing = true) :
    (c.step tag).outline.stack = c.outline.stack := by
  simp [Census.step, Outline.step, hclosing, hopens, hself]

theorem outline_step_bodyDepth (hclosing : tag.closing = false) :
    (c.step tag).outline.bodyDepth = c.outline.enterBody tag := by
  simp only [Census.step, Outline.step, hclosing, Bool.false_eq_true, if_false]
  split <;> rfl

theorem outline_step_closes {own : OpenElement} {around : List OpenElement}
    (hclosing : tag.closing = true) (hstack : c.outline.stack = own :: around) :
    (c.step tag).outline.stack = around ∧
      (c.step tag).outline.bodyDepth = c.outline.bodyDepth := by
  simp [Census.step, Outline.step, hclosing, hstack]

theorem closed_step_opens (hclosing : tag.closing = false) : (c.step tag).closed = c.closed := by
  simp [Census.step, hclosing]

theorem closed_step_closes {own : OpenElement} {around : List OpenElement}
    (hclosing : tag.closing = true) (hstack : c.outline.stack = own :: around) :
    (c.step tag).closed = c.closed ++ [⟨own, around, tag.stop⟩] := by
  simp [Census.step, hclosing, hstack]

theorem tables_step_closes (hclosing : tag.closing = true) :
    (c.step tag).tables = c.tables ∧ (c.step tag).empties = c.empties := by
  simp [Census.step, hclosing]

end Steps

/-! ## Where the elements lie -/

/-- Elements that are open start in order; one that has ended ends before the next tag, and what is
open then, or ends later, is around it or starts after it. -/
structure Lie (tags : List Tag) (c : Census) : Prop where
  open_mem : ∀ o ∈ c.outline.stack, ∃ t ∈ tags, t.start = o.start ∧ t.start < t.stop
  ordered : c.outline.stack.Pairwise fun o around => around.start < o.start
  closed_mem : ∀ e ∈ c.closed, ∃ t ∈ tags, t.stop = e.stop
  around_lt : ∀ e ∈ c.closed, ∀ o ∈ e.around, o.start < e.own.start
  start_lt : ∀ e ∈ c.closed, e.own.start < e.stop
  apart : ∀ e ∈ c.closed, ∀ o ∈ c.outline.stack, o ∈ e.around ∨ e.stop ≤ o.start
  sequel : c.closed.Pairwise fun e f =>
    e.stop < f.stop ∧ (f.own ∈ e.around ∨ e.stop ≤ f.own.start)
  unopened : c.outline.bodyDepth = none → c.closed = []

theorem Regular.lie {tags : List Tag} {c : Census} (h : Regular tags c) : Lie tags c := by
  induction h with
  | start =>
    exact ⟨by simp, by simp, by simp, by simp, by simp, by simp, by simp, fun _ => rfl⟩
  | @opens tags c tag _ hclosing hopens hafter hspan _ ih =>
    have hbelow : ∀ o ∈ c.outline.stack, o.start < tag.start := fun o ho => by
      obtain ⟨t, ht, hstart, hlt⟩ := ih.open_mem o ho
      have := hafter t ht
      omega
    have hended : ∀ e ∈ c.closed, e.stop ≤ tag.start := fun e he => by
      obtain ⟨t, ht, hstop⟩ := ih.closed_mem e he
      have := hafter t ht
      omega
    have hclosed := closed_step_opens (c := c) hclosing
    have hunopened : (c.step tag).outline.bodyDepth = none → (c.step tag).closed = [] := by
      rw [outline_step_bodyDepth hclosing, hclosed, Outline.enterBody]
      intro hnone
      split at hnone
      · exact absurd hnone (by simp)
      · exact ih.unopened hnone
    cases hself : tag.selfClosing with
    | true =>
      have hstack := outline_step_single hclosing hopens hself
      refine ⟨fun o ho => ?_, hstack ▸ ih.ordered, fun e he => ?_, hclosed ▸ ih.around_lt,
        hclosed ▸ ih.start_lt, ?_, hclosed ▸ ih.sequel, hunopened⟩
      · obtain ⟨t, ht, hstart⟩ := ih.open_mem o (hstack ▸ ho)
        exact ⟨t, mem_append_left _ ht, hstart⟩
      · obtain ⟨t, ht, hstop⟩ := ih.closed_mem e (hclosed ▸ he)
        exact ⟨t, mem_append_left _ ht, hstop⟩
      · rw [hclosed, hstack]
        exact ih.apart
    | false =>
      have hstack := outline_step_opens hclosing hopens hself
      refine ⟨fun o ho => ?_, ?_, fun e he => ?_, hclosed ▸ ih.around_lt,
        hclosed ▸ ih.start_lt, ?_, hclosed ▸ ih.sequel, hunopened⟩
      · rcases mem_cons.mp (hstack ▸ ho) with rfl | ho
        · exact ⟨tag, by simp, rfl, hspan⟩
        · obtain ⟨t, ht, hstart⟩ := ih.open_mem o ho
          exact ⟨t, mem_append_left _ ht, hstart⟩
      · rw [hstack]
        exact .cons hbelow ih.ordered
      · obtain ⟨t, ht, hstop⟩ := ih.closed_mem e (hclosed ▸ he)
        exact ⟨t, mem_append_left _ ht, hstop⟩
      · rw [hclosed, hstack]
        intro e he o ho
        rcases mem_cons.mp ho with rfl | ho
        · exact .inr (hended e he)
        · exact ih.apart e he o ho
  | @closes tags c tag own around b _ hclosing hstack hname hbody hafter hspan ih =>
    obtain ⟨haround, hdepth⟩ := outline_step_closes hclosing hstack
    have hclosed := closed_step_closes hclosing hstack
    have hordered := ih.ordered
    rw [hstack, pairwise_cons] at hordered
    have hended : ∀ e ∈ c.closed, e.stop ≤ tag.start := fun e he => by
      obtain ⟨t, ht, hstop⟩ := ih.closed_mem e he
      have := hafter t ht
      omega
    have hown : own.start < tag.start := by
      obtain ⟨t, ht, hstart, hlt⟩ := ih.open_mem own (by rw [hstack]; exact mem_cons_self)
      have := hafter t ht
      omega
    refine ⟨fun o ho => ?_, ?_, fun e he => ?_, fun e he => ?_, fun e he => ?_, ?_, ?_, ?_⟩
    · obtain ⟨t, ht, hstart⟩ :=
        ih.open_mem o (by rw [hstack]; exact mem_cons_of_mem _ (haround ▸ ho))
      exact ⟨t, mem_append_left _ ht, hstart⟩
    · rw [haround]
      exact hordered.2
    · rcases mem_append.mp (hclosed ▸ he) with he | he
      · obtain ⟨t, ht, hstop⟩ := ih.closed_mem e he
        exact ⟨t, mem_append_left _ ht, hstop⟩
      · rw [mem_singleton.mp he]
        exact ⟨tag, by simp, rfl⟩
    · rcases mem_append.mp (hclosed ▸ he) with he | he
      · exact ih.around_lt e he
      · rw [mem_singleton.mp he]
        exact hordered.1
    · rcases mem_append.mp (hclosed ▸ he) with he | he
      · exact ih.start_lt e he
      · rw [mem_singleton.mp he]
        exact hown.trans hspan
    · rw [haround, hclosed]
      intro e he o ho
      rcases mem_append.mp he with he | he
      · exact ih.apart e he o (by rw [hstack]; exact mem_cons_of_mem _ ho)
      · rw [mem_singleton.mp he]
        exact .inl ho
    · rw [hclosed, pairwise_append]
      refine ⟨ih.sequel, by simp, fun e he f hf => ?_⟩
      rw [mem_singleton.mp hf]
      refine ⟨(hended e he).trans_lt hspan, ?_⟩
      exact ih.apart e he own (by rw [hstack]; exact mem_cons_self)
    · rw [hdepth, hbody]
      simp

end Docx2Typed
