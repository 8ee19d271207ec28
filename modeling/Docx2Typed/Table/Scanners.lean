import Docx2Typed.Table.Census

/-!
# The scanners of the table operations

Over a regular document `body_table_ranges` lists the tables of the census that stand in the body,
and `table_rows_and_cells` lists the elements whose nearest table is the one given.
-/

namespace Docx2Typed

open List

/-! ## The tables of the body -/

/-- The table of the body that is open. -/
def Outline.openBodyTable (o : Outline) : Option OpenElement :=
  o.bodyDepth.bind fun b => (o.stack.reverse[b + 1]?).filter (·.name == "tbl")

/-- The scan of `body_table_ranges` at one point of a document.  Once the root has ended, its body
depth no longer matters. -/
structure BodyTables (tags : List Tag) (c : Census) (s : BodyTableScan) : Prop where
  stack : s.stack = c.outline.stack.map fun o => (o.name, o.start)
  depth : s.depth = c.outline.stack.length
  bodyDepth : (c.outline.stack = [] → tags = []) → s.bodyDepth = c.outline.bodyDepth
  openTables : s.openTables = (c.outline.openBodyTable.map (·.start)).toList
  tables : s.tables = c.bodyTables.map (·.range)

theorem getElem?_reverse_cons {α : Type} (x : α) (l : List α) (i : Nat) :
    (x :: l).reverse[i]? = if i = l.length then some x else l.reverse[i]? := by
  rw [reverse_cons, getElem?_append, length_reverse]
  by_cases hlt : i < l.length
  · rw [if_pos hlt, if_neg (by omega)]
  · rw [if_neg hlt]
    by_cases heq : i = l.length
    · rw [if_pos heq, heq, Nat.sub_self]
      rfl
    · rw [if_neg heq, getElem?_eq_none (by simp; omega),
        getElem?_eq_none (by simp; omega)]

variable {around : List OpenElement} {own : OpenElement}

section Open

variable {c : Census} {tag : Tag}

/-- The table a start tag opens in the body, or the one that was open. -/
theorem openBodyTable_opens (hclosing : tag.closing = false)
    (hopens : c.outline.opens tag = !tag.selfClosing) :
    (c.step tag).outline.openBodyTable =
      if tag.name = "tbl" ∧ tag.selfClosing = false ∧ c.outline.inBody = true then
        (c.step tag).outline.stack.head?
      else c.outline.openBodyTable := by
  unfold Outline.openBodyTable Outline.inBody
  rw [outline_step_bodyDepth hclosing, Outline.enterBody]
  cases hdepth : c.outline.bodyDepth with
  | none =>
    have hout : ¬ (tag.name = "tbl" ∧ tag.selfClosing = false ∧
        (none : Option Nat).any (c.outline.stack.length = · + 1) = true) := fun h =>
      absurd h.2.2 (by simp)
    rw [if_neg hout]
    by_cases hbody : tag.name = "body"
    · rw [if_pos ⟨hbody, rfl⟩, Option.bind_some, Option.bind_none]
      cases hself : tag.selfClosing with
      | true =>
        rw [outline_step_single hclosing hopens hself, getElem?_eq_none (by simp)]
        rfl
      | false =>
        rw [outline_step_opens hclosing hopens hself, getElem?_reverse_cons, if_neg (by omega),
          getElem?_eq_none (by simp)]
        rfl
    · have hnot : ¬ (tag.name = "body" ∧ (none : Option Nat) = none) := fun h => hbody h.1
      rw [if_neg hnot]
      rfl
  | some b =>
    have hset : ¬ (tag.name = "body" ∧ some b = none) := fun h => absurd h.2 (by simp)
    rw [if_neg hset, Option.bind_some, Option.bind_some]
    simp only [Option.any_some, decide_eq_true_eq]
    cases hself : tag.selfClosing with
    | true =>
      simp [outline_step_single hclosing hopens hself]
    | false =>
      rw [outline_step_opens hclosing hopens hself, getElem?_reverse_cons]
      by_cases hlength : c.outline.stack.length = b + 1
      · rw [if_pos hlength.symm, getElem?_eq_none (by simp; omega)]
        by_cases hname : tag.name = "tbl"
        · rw [if_pos ⟨hname, rfl, hlength⟩, hname]
          rfl
        · rw [if_neg (fun h => hname h.1), Option.filter_some, if_neg (by simpa using hname)]
          rfl
      · rw [if_neg (Ne.symm hlength), if_neg (fun h => hlength h.2.2)]

theorem openBodyTable_of_inBody (h : c.outline.inBody = true) : c.outline.openBodyTable = none := by
  unfold Outline.openBodyTable
  unfold Outline.inBody at h
  cases hdepth : c.outline.bodyDepth with
  | none => rfl
  | some b =>
    rw [hdepth, Option.any_some, decide_eq_true_eq] at h
    rw [Option.bind_some, getElem?_eq_none (by simp; omega)]
    rfl

/-- The table an end tag closes in the body is the one that was open. -/
theorem openBodyTable_closes {b : Nat} (hclosing : tag.closing = true)
    (hstack : c.outline.stack = own :: around) (hbody : c.outline.bodyDepth = some b) :
    (own.name = "tbl" ∧ around.length = b + 1 ∧ c.outline.openBodyTable = some own ∧
        (c.step tag).outline.openBodyTable = none) ∨
      ¬ (own.name = "tbl" ∧ around.length = b + 1) ∧
        (c.step tag).outline.openBodyTable = c.outline.openBodyTable ∧
        ∀ o, c.outline.openBodyTable = some o → o ∈ around := by
  obtain ⟨haround, hdepth⟩ := outline_step_closes hclosing hstack
  unfold Outline.openBodyTable
  rw [hdepth, hbody, Option.bind_some, Option.bind_some, haround, hstack, getElem?_reverse_cons]
  by_cases hlength : b + 1 = around.length
  · rw [if_pos hlength, getElem?_eq_none (by simp; omega)]
    by_cases hname : own.name = "tbl"
    · refine .inl ⟨hname, hlength.symm, ?_, rfl⟩
      rw [Option.filter_some, if_pos (by simpa using hname)]
    · refine .inr ⟨fun h => hname h.1, ?_, fun o ho => ?_⟩
      · rw [Option.filter_some, if_neg (by simpa using hname)]
        rfl
      · rw [Option.filter_some, if_neg (by simpa using hname)] at ho
        exact absurd ho (by simp)
  · rw [if_neg hlength]
    refine .inr ⟨fun h => hlength h.2.symm, rfl, fun o ho => ?_⟩
    have hget := (Option.filter_eq_some_iff.mp ho).1
    exact mem_reverse.mp (mem_of_getElem? hget)

end Open

variable {c : Census} {tag : Tag} {tags : List Tag}

theorem bodyTables_opens (hlie : Lie tags c) (hclosing : tag.closing = false) :
    (c.step tag).bodyTables = c.bodyTables := by
  rw [Census.bodyTables, Census.bodyTables, closed_step_opens hclosing]
  by_cases hnone : c.outline.bodyDepth = none
  · rw [hlie.unopened hnone]
    rfl
  · have hsame : (c.step tag).outline.bodyDepth = c.outline.bodyDepth := by
      rw [outline_step_bodyDepth hclosing, Outline.enterBody, if_neg (fun h => hnone h.2)]
    unfold Census.isBodyTable
    rw [hsame]

/-- An end tag adds the element it ends if it is a table of the body. -/
theorem bodyTables_closes (hclosing : tag.closing = true) (hstack : c.outline.stack = own :: around)
    :
    (c.step tag).bodyTables =
      c.bodyTables ++ [(⟨own, around, tag.stop⟩ : Element)].filter c.isBodyTable := by
  rw [Census.bodyTables, Census.bodyTables, closed_step_closes hclosing hstack, filter_append]
  unfold Census.isBodyTable
  rw [(outline_step_closes hclosing hstack).2]

theorem BodyTables.opens {tags : List Tag} {c : Census} {s : BodyTableScan} {tag : Tag}
    (h : BodyTables tags c s) (hlie : Lie tags c) (hclosing : tag.closing = false)
    (hopens : c.outline.opens tag = !tag.selfClosing) (hroot : c.outline.stack = [] → tags = []) :
    BodyTables (tags ++ [tag]) (c.step tag) (bodyTableStep s tag) := by
  have hbody : (bodyTableOpening s tag).bodyDepth = (c.step tag).outline.bodyDepth := by
    rw [outline_step_bodyDepth hclosing, bodyTableOpening, Outline.enterBody, h.bodyDepth hroot,
      h.depth]
  have htables : s.tables = (c.step tag).bodyTables.map (·.range) := by
    rw [h.tables, bodyTables_opens hlie hclosing]
  have hwas := h.bodyDepth hroot
  rw [bodyTableStep, if_neg (by simp [hclosing])]
  refine ⟨?_, ?_, fun _ => hbody, ?_, htables⟩
  · cases hself : tag.selfClosing with
    | true => simpa [bodyTableOpening, hself, outline_step_single hclosing hopens hself] using h.stack
    | false => simpa [bodyTableOpening, hself, outline_step_opens hclosing hopens hself] using h.stack
  · cases hself : tag.selfClosing with
    | true => simpa [bodyTableOpening, hself, outline_step_single hclosing hopens hself] using h.depth
    | false => simpa [bodyTableOpening, hself, outline_step_opens hclosing hopens hself] using h.depth
  · rw [openBodyTable_opens hclosing hopens]
    have hiff : (tag.name = "tbl" ∧
        (if tag.name = "body" ∧ s.bodyDepth = none then some s.depth else s.bodyDepth).any
          (s.depth = · + 1) = true ∧ tag.selfClosing = false) ↔
        tag.name = "tbl" ∧ tag.selfClosing = false ∧ c.outline.inBody = true := by
      rw [hwas, h.depth, Outline.inBody]
      constructor
      · rintro ⟨hname, hin, hself⟩
        rw [if_neg (fun h => absurd (hname.symm.trans h.1) (by decide))] at hin
        exact ⟨hname, hself, hin⟩
      · rintro ⟨hname, hself, hin⟩
        rw [if_neg (fun h => absurd (hname.symm.trans h.1) (by decide))]
        exact ⟨hname, hin, hself⟩
    unfold bodyTableOpening
    dsimp only
    by_cases hopened : tag.name = "tbl" ∧ tag.selfClosing = false ∧ c.outline.inBody = true
    · rw [if_pos hopened, if_pos (hiff.mpr hopened), h.openTables,
        openBodyTable_of_inBody hopened.2.2, outline_step_opens hclosing hopens hopened.2.1]
      rfl
    · rw [if_neg hopened, if_neg (fun h => hopened (hiff.mp h)), h.openTables]

theorem BodyTables.closes {tags : List Tag} {c : Census} {s : BodyTableScan} {tag : Tag}
    {own : OpenElement} {around : List OpenElement} {b : Nat} (h : BodyTables tags c s)
    (hlie : Lie tags c) (hclosing : tag.closing = true) (hstack : c.outline.stack = own :: around)
    (hname : own.name = tag.name) (hbody : c.outline.bodyDepth = some b) :
    BodyTables (tags ++ [tag]) (c.step tag) (bodyTableStep s tag) := by
  obtain ⟨haround, hdepth⟩ := outline_step_closes hclosing hstack
  have hs : s.stack = (own.name, own.start) :: around.map fun o => (o.name, o.start) := by
    rw [h.stack, hstack]
    rfl
  have hlength : s.depth = around.length + 1 := by
    rw [h.depth, hstack, length_cons]
  have hlt : ∀ o ∈ around, o.start < own.start := by
    have hordered := hlie.ordered
    rw [hstack, pairwise_cons] at hordered
    exact hordered.1
  have hwas := h.bodyDepth fun hnil => absurd (hstack.symm.trans hnil) (by simp)
  have hended : c.isBodyTable ⟨own, around, tag.stop⟩ = true ↔
      own.name = "tbl" ∧ around.length = b + 1 := by
    simp [Census.isBodyTable, hbody]
  have htables := bodyTables_closes hclosing hstack
  rw [bodyTableStep, if_pos hclosing, bodyTableClosing, hs]
  dsimp only
  rw [if_pos hname]
  -- the open table of the body ends, or an element that is none
  rcases openBodyTable_closes hclosing hstack hbody with
    ⟨htbl, hlevel, hopen, hafter⟩ | ⟨hother, hafter, hmem⟩
  · have hcloses : own.name = "tbl" ∧ s.openTables.head? = some own.start := by
      rw [h.openTables, hopen]
      exact ⟨htbl, rfl⟩
    refine ⟨by rw [haround], ?_, fun hroot => ?_, ?_, ?_⟩
    · rw [haround, hlength, Nat.add_sub_cancel]
    · show (if own.name = "body" ∧ s.depth = 1 then none else s.bodyDepth) = _
      rw [if_neg (fun h => absurd (htbl.symm.trans h.1) (by decide)), hwas, hdepth]
    · show (if own.name = "tbl" ∧ s.openTables.head? = some own.start then s.openTables.tail
        else s.openTables) = _
      rw [if_pos hcloses, hafter, h.openTables, hopen]
      rfl
    · show (if own.name = "tbl" ∧ s.openTables.head? = some own.start then
        s.tables ++ [(own.start, tag.stop)] else s.tables) = _
      rw [if_pos hcloses, htables, filter_cons_of_pos (hended.mpr ⟨htbl, hlevel⟩), filter_nil,
        h.tables, map_append]
      rfl
  · have hcloses : ¬ (own.name = "tbl" ∧ s.openTables.head? = some own.start) := by
      rintro ⟨-, hhead⟩
      rw [h.openTables] at hhead
      cases hopen : c.outline.openBodyTable with
      | none => rw [hopen] at hhead; simp at hhead
      | some o =>
        rw [hopen] at hhead
        have := hlt o (hmem o hopen)
        have hsame : o.start = own.start := by simpa using hhead
        omega
    refine ⟨by rw [haround], ?_, fun hroot => ?_, ?_, ?_⟩
    · rw [haround, hlength, Nat.add_sub_cancel]
    · rw [haround] at hroot
      have hne : around ≠ [] := fun hnil => absurd (hroot hnil) (by simp)
      show (if own.name = "body" ∧ s.depth = 1 then none else s.bodyDepth) = _
      rw [if_neg, hwas, hdepth]
      rintro ⟨-, hone⟩
      rw [hlength] at hone
      exact hne (length_eq_zero_iff.mp (by omega))
    · show (if own.name = "tbl" ∧ s.openTables.head? = some own.start then s.openTables.tail
        else s.openTables) = _
      rw [if_neg hcloses, hafter, h.openTables]
    · show (if own.name = "tbl" ∧ s.openTables.head? = some own.start then
        s.tables ++ [(own.start, tag.stop)] else s.tables) = _
      rw [if_neg hcloses, htables, filter_cons_of_neg (fun h => hother (hended.mp h)),
        filter_nil, h.tables, append_nil]

theorem Regular.bodyTables (h : Regular tags c) :
    BodyTables tags c (tags.foldl bodyTableStep {}) := by
  induction h with
  | start => exact ⟨rfl, rfl, fun _ => rfl, rfl, rfl⟩
  | opens h hclosing hopens _ _ hroot ih =>
    rw [foldl_append]
    exact ih.opens h.lie hclosing hopens hroot
  | closes h hclosing hstack hname hbody _ _ ih =>
    rw [foldl_append]
    exact ih.closes h.lie hclosing hstack hname hbody

/-- `body_table_ranges` lists the tables of the body. -/
theorem bodyTableRanges_eq {xml : Bytes} (h : Regular (scanTags xml) c) :
    bodyTableRanges xml = c.bodyTables.map (·.range) := h.bodyTables.tables

/-! ## The rows and cells of a table -/

theorem rowStep_closes (tableStart : Nat) {openStart : Nat} {s : RowScan} {name : String}
    {rest : List (String × Nat)} (hclosing : tag.closing = true)
    (hstack : s.stack = (name, openStart) :: rest) (hname : name = tag.name) :
    rowStep tableStart s tag = .ok
      { rows := s.rows ++
          if name = "tr" ∧ s.nestedTbls = 0 then [(openStart, tag.stop)] else []
        cells := s.cells ++
          if name = "tc" ∧ s.nestedTbls = 0 then [(openStart, tag.stop)] else []
        stack := rest
        nestedTbls := if name = "tbl" then s.nestedTbls - 1 else s.nestedTbls } := by
  rw [rowStep, if_pos hclosing, hstack]
  simp only [hname, ne_eq, not_true_eq_false, if_false]
  rfl

theorem rowStep_opens (tableStart : Nat) {s : RowScan} (hclosing : tag.closing = false) :
    rowStep tableStart s tag = .ok
      { rows := s.rows
        cells := s.cells
        stack := if tag.selfClosing then s.stack else (tag.name, tag.start) :: s.stack
        nestedTbls := if tag.name = "tbl" ∧ tag.start ≠ tableStart then s.nestedTbls + 1
          else s.nestedTbls } := by
  rw [rowStep, if_neg (by simp [hclosing])]
  rfl

/-- The scan of the rows of an open table, with what is open in it. -/
structure RowsOf (c : Census) (table : OpenElement) (above : List OpenElement) (s : RowScan) :
    Prop where
  stack : s.stack = (above ++ [table]).map fun o => (o.name, o.start)
  nested : s.nestedTbls = above.countP (·.name == "tbl") +
    (c.empties.filter (table.start ≤ ·)).length
  rows : s.rows = (c.parts "tr" table.start).map (·.range)
  cells : s.cells = (c.parts "tc" table.start).map (·.range)

/-- The tags of a table, by where they start. -/
def tagsFromStart (start : Nat) (tags : List Tag) : List Tag := tags.filter (start ≤ ·.start)

def tagsWithin (start stop : Nat) (tags : List Tag) : List Tag :=
  tags.filter fun tag => start ≤ tag.start && tag.start < stop

/-- The scans of all tables of the body at one point of a document. -/
structure TableRows (tags : List Tag) (c : Census) : Prop where
  empties_mem : ∀ empty ∈ c.empties, ∃ t ∈ tags, t.start = empty ∧ t.start < t.stop
  opened : ∀ table, c.outline.openBodyTable = some table →
    table.name = "tbl" ∧ ∃ above outer s, c.outline.stack = above ++ table :: outer ∧
      (tagsFromStart table.start tags).foldlM (rowStep table.start) {} = .ok s ∧ RowsOf c table above s
  ended : ∀ e ∈ c.bodyTables, ∃ s,
    (tagsWithin e.own.start e.stop tags).foldlM (rowStep e.own.start) {} = .ok s ∧
      s.rows = (c.parts "tr" e.own.start).map (·.range) ∧
      s.cells = (c.parts "tc" e.own.start).map (·.range)

section Rows

variable {tags : List Tag} {c : Census} {tag : Tag}

/-- A start tag adds no part to a table. -/
theorem parts_opens (hlie : Lie tags c) (hclosing : tag.closing = false)
    (hafter : ∀ t ∈ tags, t.stop ≤ tag.start) (part : String) (table : Nat) :
    (c.step tag).parts part table = c.parts part table := by
  rw [Census.parts, Census.parts, closed_step_opens hclosing]
  refine filter_congr fun e he => ?_
  obtain ⟨t, ht, hstop⟩ := hlie.closed_mem e he
  have hended : e.stop ≤ tag.start := hstop ▸ hafter t ht
  unfold Census.isPart
  congr 1
  rw [Census.step]
  dsimp only
  split
  · simp [all_append, hended]
  · rfl

theorem parts_closes (hclosing : tag.closing = true) (hstack : c.outline.stack = own :: around)
    (part : String) (table : Nat) :
    (c.step tag).parts part table = c.parts part table ++
      if c.isPart part table ⟨own, around, tag.stop⟩ then [⟨own, around, tag.stop⟩] else [] := by
  rw [Census.parts, Census.parts, closed_step_closes hclosing hstack, filter_append]
  have hsame : (c.step tag).isPart part table = c.isPart part table := by
    unfold Census.isPart
    rw [(tables_step_closes hclosing).2]
  rw [hsame]
  congr 1
  split
  · next h => rw [filter_cons_of_pos h, filter_nil]
  · next h => rw [filter_cons_of_neg h, filter_nil]

/-- A tag after a table is none of its tags. -/
theorem tagsWithin_after {start stop : Nat} (h : stop ≤ tag.start) :
    tagsWithin start stop (tags ++ [tag]) = tagsWithin start stop tags := by
  rw [tagsWithin, filter_append, filter_cons_of_neg (by simp; omega), filter_nil,
    append_nil]
  rfl

theorem tagsFromStart_concat {start : Nat} (h : start ≤ tag.start) :
    tagsFromStart start (tags ++ [tag]) = tagsFromStart start tags ++ [tag] := by
  rw [tagsFromStart, filter_append, filter_cons_of_pos (by simpa using h), filter_nil]
  rfl

/-- The rows of a table, scanned one tag further. -/
theorem foldlM_rowStep_concat {start : Nat} {s : RowScan} (h : start ≤ tag.start)
    (hrun : (tagsFromStart start tags).foldlM (rowStep start) {} = .ok s) :
    (tagsFromStart start (tags ++ [tag])).foldlM (rowStep start) {} = rowStep start s tag := by
  rw [tagsFromStart_concat h, foldlM_append, hrun]
  show ([tag].foldlM (rowStep start) s) = _
  rw [foldlM_cons]
  cases rowStep start s tag <;> rfl

/-- What is open was opened by an earlier tag. -/
theorem start_lt_of_open (hlie : Lie tags c) (hafter : ∀ t ∈ tags, t.stop ≤ tag.start)
    {o : OpenElement} (ho : o ∈ c.outline.stack) : o.start < tag.start := by
  obtain ⟨t, ht, hstart, hlt⟩ := hlie.open_mem o ho
  have := hafter t ht
  omega

/-- Nothing that has ended is a part of a table that is only now opened. -/
theorem parts_eq_nil (hlie : Lie tags c) {start : Nat} (hafter : ∀ t ∈ tags, t.stop ≤ start)
    (part : String) : c.parts part start = [] := by
  rw [Census.parts, filter_eq_nil_iff]
  intro e he hpart
  unfold Census.isPart at hpart
  simp only [Bool.and_eq_true] at hpart
  obtain ⟨table, hfind, htable⟩ := (Option.any_eq_true _ _).mp hpart.1.2
  obtain ⟨t, ht, hstop⟩ := hlie.closed_mem e he
  have hlt := hlie.around_lt e he table (mem_of_find?_eq_some hfind)
  have hspan := hlie.start_lt e he
  have hended := hafter t ht
  have hsame : table.start = start := by simpa using htable
  omega

theorem Regular.span (h : Regular tags c) : ∀ t ∈ tags, t.start < t.stop := by
  induction h with
  | start => simp
  | opens _ _ _ _ hspan _ ih =>
    intro t ht
    rcases mem_append.mp ht with ht | ht
    · exact ih t ht
    · rwa [mem_singleton.mp ht]
  | closes _ _ _ _ _ _ hspan ih =>
    intro t ht
    rcases mem_append.mp ht with ht | ht
    · exact ih t ht
    · rwa [mem_singleton.mp ht]

theorem empties_step_opens (hclosing : tag.closing = false) :
    (c.step tag).empties =
      if tag.name = "tbl" ∧ tag.selfClosing = true then c.empties ++ [tag.start] else c.empties := by
  simp [Census.step, hclosing]

/-- The scan of an open table, past an element that is closed at once. -/
theorem RowsOf.single {table : OpenElement} {above : List OpenElement} {s : RowScan}
    (hrows : RowsOf c table above s) (hlie : Lie tags c) (hclosing : tag.closing = false)
    (hafter : ∀ t ∈ tags, t.stop ≤ tag.start) (hbelow : table.start < tag.start)
    (hself : tag.selfClosing = true) :
    ∃ s', rowStep table.start s tag = .ok s' ∧ RowsOf (c.step tag) table above s' := by
  refine ⟨_, rowStep_opens table.start hclosing, ?_, ?_, ?_, ?_⟩
  · rw [hself, if_pos rfl]
    exact hrows.stack
  · dsimp only
    rw [empties_step_opens hclosing, hrows.nested]
    by_cases hname : tag.name = "tbl"
    · rw [if_pos ⟨hname, by omega⟩, if_pos ⟨hname, hself⟩, filter_append,
        filter_cons_of_pos (by simpa using hbelow.le), filter_nil]
      simp
      omega
    · rw [if_neg (fun h => hname h.1), if_neg (fun h => hname h.1)]
  · rw [parts_opens hlie hclosing hafter]
    exact hrows.rows
  · rw [parts_opens hlie hclosing hafter]
    exact hrows.cells

/-- The scan of an open table, past the start of an element in it. -/
theorem RowsOf.pushed {table inner : OpenElement} {above : List OpenElement} {s : RowScan}
    (hrows : RowsOf c table above s) (hlie : Lie tags c) (hclosing : tag.closing = false)
    (hafter : ∀ t ∈ tags, t.stop ≤ tag.start) (hbelow : table.start < tag.start)
    (hself : tag.selfClosing = false) (hname : inner.name = tag.name)
    (hstart : inner.start = tag.start) :
    ∃ s', rowStep table.start s tag = .ok s' ∧ RowsOf (c.step tag) table (inner :: above) s' := by
  refine ⟨_, rowStep_opens table.start hclosing, ?_, ?_, ?_, ?_⟩
  · rw [hself, if_neg (by decide), hrows.stack, cons_append, map_cons, hname, hstart]
  · dsimp only
    have hsame : (c.step tag).empties = c.empties := by
      rw [empties_step_opens hclosing, if_neg (by simp [hself])]
    rw [hsame, hrows.nested, countP_cons, hname]
    by_cases hname : tag.name = "tbl"
    · rw [if_pos ⟨hname, by omega⟩, if_pos (by simpa using hname)]
      omega
    · rw [if_neg (fun h => hname h.1), if_neg (by simpa using hname)]
      omega
  · rw [parts_opens hlie hclosing hafter]
    exact hrows.rows
  · rw [parts_opens hlie hclosing hafter]
    exact hrows.cells

theorem TableRows.opens (h : TableRows tags c) (hlie : Lie tags c)
    (hwide : ∀ t ∈ tags, t.start < t.stop) (hclosing : tag.closing = false)
    (hopens : c.outline.opens tag = !tag.selfClosing) (hafter : ∀ t ∈ tags, t.stop ≤ tag.start)
    (hspan : tag.start < tag.stop) : TableRows (tags ++ [tag]) (c.step tag) := by
  have hempty := empties_step_opens (c := c) hclosing
  refine ⟨fun empty hmem => ?_, fun table hopen => ?_, fun e he => ?_⟩
  · have hmem : empty ∈ c.empties ∨ empty = tag.start := by
      rw [hempty] at hmem
      split at hmem
      · simpa using hmem
      · exact .inl hmem
    rcases hmem with hmem | rfl
    · obtain ⟨t, ht, hstart⟩ := h.empties_mem empty hmem
      exact ⟨t, mem_append_left _ ht, hstart⟩
    · exact ⟨tag, by simp, rfl, hspan⟩
  · rw [openBodyTable_opens hclosing hopens] at hopen
    split at hopen
    · next hnew =>
      -- the tag itself opens the table: there is nothing in it yet
      obtain ⟨hname, hself, -⟩ := hnew
      have hstack := outline_step_opens hclosing hopens hself
      rw [hstack, head?_cons] at hopen
      obtain rfl := Option.some.inj hopen
      refine ⟨hname, [], c.outline.stack, { stack := [(tag.name, tag.start)] }, hstack, ?_, rfl,
        ?_, ?_, ?_⟩
      · have hnone : tagsFromStart tag.start tags = [] := by
          rw [tagsFromStart, filter_eq_nil_iff]
          intro t ht
          have := hafter t ht
          have := hwide t ht
          simp
          omega
        show (tagsFromStart tag.start (tags ++ [tag])).foldlM (rowStep tag.start) {} = _
        rw [tagsFromStart_concat le_rfl, hnone, nil_append, foldlM_cons,
          rowStep_opens _ hclosing, hself]
        simp
      · show 0 = 0 + ((c.step tag).empties.filter (tag.start ≤ ·)).length
        have hnone : c.empties.filter (tag.start ≤ ·) = [] := by
          rw [filter_eq_nil_iff]
          intro empty hmem
          obtain ⟨t, ht, rfl, hlt⟩ := h.empties_mem empty hmem
          have := hafter t ht
          simp
          omega
        rw [hempty, if_neg (by simp [hself]), hnone]
        rfl
      · show [] = ((c.step tag).parts "tr" tag.start).map (·.range)
        rw [parts_opens hlie hclosing hafter, parts_eq_nil hlie hafter]
        rfl
      · show [] = ((c.step tag).parts "tc" tag.start).map (·.range)
        rw [parts_opens hlie hclosing hafter, parts_eq_nil hlie hafter]
        rfl
    · obtain ⟨htbl, above, outer, s, hstack, hrun, hrows⟩ := h.opened table hopen
      have hbelow : table.start < tag.start :=
        start_lt_of_open hlie hafter (by rw [hstack]; simp)
      have hscan := foldlM_rowStep_concat hbelow.le hrun
      cases hself : tag.selfClosing with
      | true =>
        obtain ⟨s', hstep, hrows'⟩ := hrows.single hlie hclosing hafter hbelow hself
        refine ⟨htbl, above, outer, s', ?_, hscan.trans hstep, hrows'⟩
        rw [outline_step_single hclosing hopens hself, hstack]
      | false =>
        obtain ⟨s', hstep, hrows'⟩ := @RowsOf.pushed _ _ _ _ ⟨tag.name, tag.start,
          c.outline.children.count tag.name, tag.name :: c.outline.children⟩ _ _ hrows hlie hclosing
            hafter hbelow hself rfl rfl
        refine ⟨htbl, _, outer, s', ?_, hscan.trans hstep, hrows'⟩
        rw [outline_step_opens hclosing hopens hself, hstack, cons_append]
  · rw [bodyTables_opens hlie hclosing] at he
    obtain ⟨t, ht, hstop⟩ := hlie.closed_mem e (mem_filter.mp he).1
    have hended : e.stop ≤ tag.start := hstop ▸ hafter t ht
    rw [tagsWithin_after hended, parts_opens hlie hclosing hafter,
      parts_opens hlie hclosing hafter]
    exact h.ended e he

/-- Where a table is open, what is open inside it and what the element that ends leaves of it. -/
theorem above_of_closes {table own : OpenElement} {above outer around : List OpenElement}
    (hstack : c.outline.stack = own :: around)
    (hopen : c.outline.stack = above ++ table :: outer) :
    (above = [] ∧ own = table ∧ around = outer) ∨
      ∃ inner, above = own :: inner ∧ around = inner ++ table :: outer := by
  rw [hstack] at hopen
  cases above with
  | nil =>
    rw [nil_append, List.cons.injEq] at hopen
    exact .inl ⟨rfl, hopen.1, hopen.2⟩
  | cons first inner =>
    rw [cons_append, List.cons.injEq] at hopen
    exact .inr ⟨inner, by rw [hopen.1], hopen.2⟩

/-- An element that ends is a row (or a cell) of the open table as the scan of that table says. -/
theorem isPart_closes {table own : OpenElement} {inner outer : List OpenElement} {part : String}
    (h : TableRows tags c) (hlie : Lie tags c) (hafter : ∀ t ∈ tags, t.stop ≤ tag.start)
    (hspan : tag.start < tag.stop) (htbl : table.name = "tbl") (hpart : part ≠ "tbl")
    (hstack : c.outline.stack = own :: (inner ++ table :: outer)) :
    c.isPart part table.start ⟨own, inner ++ table :: outer, tag.stop⟩ = true ↔
      own.name = part ∧ (own :: inner).countP (·.name == "tbl") +
        (c.empties.filter (table.start ≤ ·)).length = 0 := by
  have hordered := hlie.ordered
  rw [hstack, pairwise_cons, pairwise_append] at hordered
  have hempties : (c.empties.all fun empty => empty < table.start || tag.stop ≤ empty) = true ↔
      c.empties.filter (table.start ≤ ·) = [] := by
    rw [all_eq_true, filter_eq_nil_iff]
    refine forall₂_congr fun empty hmem => ?_
    obtain ⟨t, ht, rfl, hlt⟩ := h.empties_mem empty hmem
    have := hafter t ht
    simp
    omega
  have hfind : ((inner ++ table :: outer).find? (·.name == "tbl")).any (·.start == table.start) =
      true ↔ inner.countP (·.name == "tbl") = 0 := by
    rw [countP_eq_zero, find?_append, find?_cons_of_pos (by simpa using htbl)]
    cases hinner : inner.find? (·.name == "tbl") with
    | none => simpa using hinner
    | some o =>
      have hmem := mem_of_find?_eq_some hinner
      have hlt := hordered.2.2.2 o hmem table mem_cons_self
      have hname := find?_some hinner
      simp only [Option.some_or, Option.any_some, beq_iff_eq]
      refine ⟨fun hsame => by omega, fun hall => absurd hname ?_⟩
      simpa using hall o hmem
  unfold Census.isPart
  simp only [Bool.and_eq_true]
  rw [hempties, hfind, beq_iff_eq, Nat.add_eq_zero_iff, length_eq_zero_iff, and_assoc]
  refine and_congr_right fun hname => and_congr_left fun _ => ?_
  have hother : ¬ own.name = "tbl" := fun htable => hpart (hname.symm.trans htable)
  rw [countP_cons_of_neg (by simpa using hother)]

/-- What ends after a table is no part of it. -/
theorem not_isPart_of_ended {e : Element} {part : String} {stop : Nat} (hlie : Lie tags c)
    (hstack : c.outline.stack = own :: around) (he : e ∈ c.closed) :
    ¬ c.isPart part e.own.start ⟨own, around, stop⟩ = true := by
  intro hpart
  unfold Census.isPart at hpart
  simp only [Bool.and_eq_true] at hpart
  obtain ⟨table, hfind, htable⟩ := (Option.any_eq_true _ _).mp hpart.1.2
  have hsame : table.start = e.own.start := by simpa using htable
  have hmem : table ∈ c.outline.stack := by
    rw [hstack]
    exact mem_cons_of_mem _ (mem_of_find?_eq_some hfind)
  have hspan := hlie.start_lt e he
  rcases hlie.apart e he table hmem with haround | hlater
  · have := hlie.around_lt e he table haround
    omega
  · omega

/-- The scan of an open table, past the end of an element in it. -/
theorem RowsOf.popped {table own : OpenElement} {inner outer : List OpenElement} {s : RowScan}
    (hrows : RowsOf c table (own :: inner) s) (h : TableRows tags c) (hlie : Lie tags c)
    (hclosing : tag.closing = true) (hstack : c.outline.stack = own :: (inner ++ table :: outer))
    (hname : own.name = tag.name) (htbl : table.name = "tbl")
    (hafter : ∀ t ∈ tags, t.stop ≤ tag.start) (hspan : tag.start < tag.stop) :
    ∃ s', rowStep table.start s tag = .ok s' ∧ RowsOf (c.step tag) table inner s' := by
  have htop : s.stack = (own.name, own.start) ::
      (inner ++ [table]).map fun o => (o.name, o.start) := by
    rw [hrows.stack]
    rfl
  have hnew : ∀ part, part ≠ "tbl" →
      ((c.step tag).parts part table.start).map (·.range) =
        (c.parts part table.start).map (·.range) ++
          if own.name = part ∧ s.nestedTbls = 0 then [(own.start, tag.stop)] else [] := by
    intro part hpart
    have hiff := isPart_closes h hlie hafter hspan htbl hpart hstack
    rw [← hrows.nested] at hiff
    rw [parts_closes hclosing hstack, map_append]
    congr 1
    by_cases hcounted : own.name = part ∧ s.nestedTbls = 0
    · rw [if_pos hcounted, if_pos (hiff.mpr hcounted)]
      rfl
    · rw [if_neg hcounted, if_neg (fun h => hcounted (hiff.mp h))]
      rfl
  refine ⟨_, rowStep_closes table.start hclosing htop hname, rfl, ?_, ?_, ?_⟩
  · dsimp only
    rw [(tables_step_closes (c := c) hclosing).2, hrows.nested, countP_cons]
    by_cases htable : own.name = "tbl"
    · rw [if_pos htable, if_pos (by simpa using htable)]
      omega
    · rw [if_neg htable, if_neg (by simpa using htable)]
      omega
  · rw [hnew "tr" (by decide), ← hrows.rows]
  · rw [hnew "tc" (by decide), ← hrows.cells]

/-- The scan of a table that ends: it is the scan of the table's own tags. -/
theorem RowsOf.finished {own : OpenElement} {around : List OpenElement} {s : RowScan}
    (hrows : RowsOf c own [] s) (hlie : Lie tags c) (hwide : ∀ t ∈ tags, t.start < t.stop)
    (hclosing : tag.closing = true) (hstack : c.outline.stack = own :: around)
    (hname : own.name = tag.name) (htbl : own.name = "tbl")
    (hafter : ∀ t ∈ tags, t.stop ≤ tag.start) (hspan : tag.start < tag.stop)
    (hrun : (tagsFromStart own.start tags).foldlM (rowStep own.start) {} = .ok s) :
    ∃ s', (tagsWithin own.start tag.stop (tags ++ [tag])).foldlM (rowStep own.start) {} = .ok s' ∧
      s'.rows = ((c.step tag).parts "tr" own.start).map (·.range) ∧
      s'.cells = ((c.step tag).parts "tc" own.start).map (·.range) := by
  have hbelow : own.start < tag.start := start_lt_of_open hlie hafter (by rw [hstack]; simp)
  have hwithin : tagsWithin own.start tag.stop (tags ++ [tag]) =
      tagsFromStart own.start (tags ++ [tag]) := by
    refine filter_congr fun t ht => ?_
    rcases mem_append.mp ht with ht | ht
    · have := hafter t ht
      have := hwide t ht
      simp
      omega
    · rw [mem_singleton.mp ht]
      simpa using fun _ => hspan
  have hstep := rowStep_closes own.start hclosing (by rw [hrows.stack]; rfl) hname
  have hnone : ∀ part, part ≠ "tbl" →
      ¬ c.isPart part own.start ⟨own, around, tag.stop⟩ = true := by
    intro part hpart hcounted
    unfold Census.isPart at hcounted
    simp only [Bool.and_eq_true, beq_iff_eq] at hcounted
    exact hpart (hcounted.1.1.symm.trans htbl)
  refine ⟨⟨s.rows, s.cells, [], s.nestedTbls - 1⟩, ?_, ?_, ?_⟩
  · rw [hwithin, foldlM_rowStep_concat hbelow.le hrun, hstep]
    simp [htbl]
  · rw [parts_closes hclosing hstack, if_neg (hnone "tr" (by decide)), append_nil]
    exact hrows.rows
  · rw [parts_closes hclosing hstack, if_neg (hnone "tc" (by decide)), append_nil]
    exact hrows.cells

theorem TableRows.closes {own : OpenElement} {around : List OpenElement} {b : Nat}
    (h : TableRows tags c) (hlie : Lie tags c) (hwide : ∀ t ∈ tags, t.start < t.stop)
    (hclosing : tag.closing = true) (hstack : c.outline.stack = own :: around)
    (hname : own.name = tag.name) (hbody : c.outline.bodyDepth = some b)
    (hafter : ∀ t ∈ tags, t.stop ≤ tag.start) (hspan : tag.start < tag.stop) :
    TableRows (tags ++ [tag]) (c.step tag) := by
  have hempties := (tables_step_closes (c := c) hclosing).2
  refine ⟨fun empty hmem => ?_, fun table hopen => ?_, fun e he => ?_⟩
  · obtain ⟨t, ht, hstart⟩ := h.empties_mem empty (hempties ▸ hmem)
    exact ⟨t, mem_append_left _ ht, hstart⟩
  · rcases openBodyTable_closes hclosing hstack hbody with
      ⟨-, -, -, hnone⟩ | ⟨-, hsame, hmem⟩
    · rw [hnone] at hopen
      exact absurd hopen (by simp)
    rw [hsame] at hopen
    obtain ⟨htbl, above, outer, s, htable, hrun, hrows⟩ := h.opened table hopen
    have hlower : table.start < own.start := by
      have hordered := hlie.ordered
      rw [hstack, pairwise_cons] at hordered
      exact hordered.1 table (hmem table hopen)
    rcases above_of_closes hstack htable with ⟨-, rfl, -⟩ | ⟨inner, rfl, rfl⟩
    · omega
    have hbelow : own.start < tag.start := start_lt_of_open hlie hafter (by rw [hstack]; simp)
    have hscan := foldlM_rowStep_concat (hlower.trans hbelow).le hrun
    obtain ⟨s', hstep, hrows'⟩ :=
      hrows.popped h hlie hclosing hstack hname htbl hafter hspan
    exact ⟨htbl, inner, outer, s', (outline_step_closes hclosing hstack).1, hscan.trans hstep,
      hrows'⟩
  · rw [bodyTables_closes hclosing hstack] at he
    rcases mem_append.mp he with he | he
    · have hclosed := (mem_filter.mp he).1
      obtain ⟨t, ht, hstop⟩ := hlie.closed_mem e hclosed
      have hended : e.stop ≤ tag.start := hstop ▸ hafter t ht
      rw [tagsWithin_after hended, parts_closes hclosing hstack, parts_closes hclosing hstack,
        if_neg (not_isPart_of_ended hlie hstack hclosed),
        if_neg (not_isPart_of_ended hlie hstack hclosed), append_nil, append_nil]
      exact h.ended e he
    · -- the table that ends is the open one
      obtain ⟨rfl, hended⟩ : e = ⟨own, around, tag.stop⟩ ∧
          c.isBodyTable ⟨own, around, tag.stop⟩ = true := by
        have hmem := mem_filter.mp he
        have hsame := mem_singleton.mp hmem.1
        exact ⟨hsame, hsame ▸ hmem.2⟩
      have hlevel : own.name = "tbl" ∧ around.length = b + 1 := by
        simpa [Census.isBodyTable, hbody] using hended
      rcases openBodyTable_closes hclosing hstack hbody with
        ⟨-, -, hopen, -⟩ | ⟨hother, -, -⟩
      · obtain ⟨htbl, above, outer, s, htable, hrun, hrows⟩ := h.opened own hopen
        have hordered := hlie.ordered
        rw [hstack, pairwise_cons] at hordered
        rcases above_of_closes hstack htable with ⟨rfl, -, -⟩ | ⟨inner, rfl, rfl⟩
        · exact hrows.finished hlie hwide hclosing hstack hname htbl hafter hspan hrun
        · have := hordered.1 own (by simp)
          omega
      · exact absurd hlevel hother

theorem Regular.tableRows (h : Regular tags c) : TableRows tags c := by
  induction h with
  | start =>
    exact ⟨by simp, fun table htable => by simp [Outline.openBodyTable] at htable,
      by simp [Census.bodyTables]⟩
  | opens h hclosing hopens hafter hspan _ ih =>
    exact ih.opens h.lie h.span hclosing hopens hafter hspan
  | closes h hclosing hstack hname hbody hafter hspan ih =>
    exact ih.closes h.lie h.span hclosing hstack hname hbody hafter hspan

/-- `table_rows_and_cells` lists the rows and cells of a table of the body. -/
theorem tableRowsAndCells_eq {xml : Bytes} (h : Regular (scanTags xml) c) {e : Element}
    (he : e ∈ c.bodyTables) :
    tableRowsAndCells xml e.own.start e.stop =
      .ok ((c.parts "tr" e.own.start).map (·.range), (c.parts "tc" e.own.start).map (·.range)) := by
  obtain ⟨s, hrun, hrows, hcells⟩ := h.tableRows.ended e he
  show (do
    let s ← (tagsWithin e.own.start e.stop (scanTags xml)).foldlM (rowStep e.own.start) {}
    pure (s.rows, s.cells) : Outcome _) = _
  rw [hrun, ← hrows, ← hcells]
  rfl

end Rows

end Docx2Typed
