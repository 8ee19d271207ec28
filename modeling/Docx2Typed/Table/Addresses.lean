import Docx2Typed.Table.Scanners
import Docx2Typed.Table.Located

/-!
# Does a cell address name one cell?

`scan_document` and the table operations number tables, rows and cells on their own.  A paragraph
that the first puts in table `k`, row `r`, cell `c` lies in the bytes that the second take for that
cell exactly when nothing has shifted one of the three numbers: its table stands in the body, and
what one of the scans counts and the other does not has not been met before it.
-/

namespace Docx2Typed

open List

/-! ## Positions in a list -/

/-- Where an entry stands in a part of a list without repetitions. -/
theorem getElem?_filter_iff {α : Type} {l before after : List α} {x : α} (hnodup : l.Nodup)
    (hl : l = before ++ x :: after) (p : α → Bool) (i : Nat) :
    (l.filter p)[i]? = some x ↔ p x = true ∧ before.countP p = i := by
  by_cases hx : p x = true
  · have hsplit : l.filter p = before.filter p ++ x :: after.filter p := by
      rw [hl, filter_append, filter_cons_of_pos hx]
    have hlength : before.countP p = (before.filter p).length := countP_eq_length_filter
    have hget : (l.filter p)[before.countP p]? = some x := by
      rw [hsplit, hlength, getElem?_append_right (Nat.le_refl _), Nat.sub_self]
      rfl
    refine ⟨fun h => ⟨hx, ?_⟩, fun h => h.2 ▸ hget⟩
    obtain ⟨hi, -⟩ := List.getElem?_eq_some_iff.mp h
    exact ((getElem?_inj hi (hnodup.filter p)).mp (h.trans hget.symm)).symm
  · refine ⟨fun h => absurd (of_mem_filter (mem_of_getElem? h)) hx, fun h => absurd h.1 hx⟩

/-- Two entries of a list are related one way round. -/
theorem pairwise_cases {α : Type} {R : α → α → Prop} :
    ∀ {l : List α}, l.Pairwise R → ∀ {x y : α}, x ∈ l → y ∈ l → x = y ∨ R x y ∨ R y x
  | [], _, _, _, hx, _ => by simp at hx
  | z :: l, h, x, y, hx, hy => by
    obtain ⟨hz, hl⟩ := pairwise_cons.mp h
    rcases mem_cons.mp hx with rfl | hx' <;> rcases mem_cons.mp hy with rfl | hy'
    · exact .inl rfl
    · exact .inr (.inl (hz y hy'))
    · exact .inr (.inr (hz x hx'))
    · exact pairwise_cases hl hx' hy'

theorem takeWhile_ne_of_split {α β : Type} [DecidableEq β] {f : α → β} {l before after : List α}
    {x : α} (hl : l = before ++ x :: after) (hbefore : ∀ y ∈ before, f y ≠ f x) :
    l.takeWhile (fun y => f y != f x) = before := by
  rw [hl, takeWhile_append_of_pos (fun y hy => by simpa using hbefore y hy),
    takeWhile_cons_of_neg (by simp), append_nil]

/-! ## Elements around elements -/

variable {e : Element}

section Elements

variable {tags : List Tag} {c : Census}

section

variable (h : Regular tags c)

include h

/-- What stands around an element that has ended is an element that ends later, or is open. -/
theorem Regular.enclosed : ∀ e ∈ c.closed, ∀ inner o outer,
    e.around = inner ++ o :: outer →
      (∃ f ∈ c.closed, f.own = o ∧ f.around = outer ∧ e.stop < f.stop) ∨
        o :: outer <:+ c.outline.stack := by
  induction h with
  | start => simp
  | @opens tags c tag h hclosing hopens _ _ _ ih =>
    intro e he inner o outer haround
    rw [closed_step_opens hclosing] at he ⊢
    refine (ih e he inner o outer haround).imp_right fun hsuffix => ?_
    cases hself : tag.selfClosing with
    | true => rwa [outline_step_single hclosing hopens hself]
    | false =>
      rw [outline_step_opens hclosing hopens hself]
      exact hsuffix.trans (suffix_cons _ _)
  | @closes tags c tag own around b h hclosing hstack _ _ hafter hspan ih =>
    intro e he inner o outer haround
    rw [closed_step_closes hclosing hstack] at he ⊢
    rw [(outline_step_closes hclosing hstack).1]
    rcases mem_append.mp he with hold | he
    · rcases ih e hold inner o outer haround with ⟨f, hf, hfo⟩ | hsuffix
      · exact .inl ⟨f, mem_append_left _ hf, hfo⟩
      · rw [hstack] at hsuffix
        rcases suffix_cons_iff.mp hsuffix with heq | hsuffix
        · obtain ⟨rfl, rfl⟩ := List.cons.inj heq
          obtain ⟨t, ht, hstop⟩ := h.lie.closed_mem e hold
          have := hafter t ht
          exact .inl ⟨⟨o, outer, tag.stop⟩, by simp, rfl, rfl, by simp only; omega⟩
        · exact .inr hsuffix
    · rw [mem_singleton.mp he] at haround
      exact .inr ⟨inner, haround.symm⟩

/-- At the end of a document, what stands around an element has ended after it. -/
theorem Regular.element_around (hend : c.outline.stack = []) (he : e ∈ c.closed)
    (inner : List OpenElement) {outer : List OpenElement} {o : OpenElement}
    (haround : e.around = inner ++ o :: outer) :
    ∃ f ∈ c.closed, f.own = o ∧ f.around = outer ∧ e.stop < f.stop := by
  rcases h.enclosed e he inner o outer haround with hf | hsuffix
  · exact hf
  · rw [hend] at hsuffix
    exact absurd (suffix_nil.mp hsuffix) (by simp)

theorem Regular.starts_ne : c.closed.Pairwise fun e f => e.own.start ≠ f.own.start := by
  have hlie := h.lie
  refine hlie.sequel.imp_of_mem fun {e f} he hf hsequel heq => ?_
  rcases hsequel.2 with haround | hlater
  · have := hlie.around_lt e he f.own haround
    omega
  · have := hlie.start_lt e he
    omega

theorem Regular.eq_of_start {e f : Element} (he : e ∈ c.closed) (hf : f ∈ c.closed)
    (hstart : e.own.start = f.own.start) : e = f := by
  rcases pairwise_cases h.starts_ne he hf with heq | hne | hne
  · exact heq
  · exact absurd hstart hne
  · exact absurd hstart.symm hne

theorem Regular.closed_nodup : c.closed.Nodup := by
  refine h.starts_ne.imp fun {e f} hne heq => hne ?_
  rw [heq]

/-- An element that holds another's bytes stands around it. -/
theorem Regular.around_of_range {e f : Element} (he : e ∈ c.closed) (hf : f ∈ c.closed)
    (hstart : f.own.start ≤ e.own.start) (hstop : e.stop ≤ f.stop) (hne : e ≠ f) :
    f.own ∈ e.around := by
  have hspan := h.lie.start_lt e he
  rcases pairwise_cases h.lie.sequel he hf with heq | ⟨-, haround | hlater⟩ | ⟨hlt, -⟩
  · exact absurd heq hne
  · exact haround
  · omega
  · omega

/-- An element that has ended, and what ended before it. -/
theorem Regular.split (he : e ∈ c.closed) :
    ∃ before after, c.closed = before ++ e :: after ∧
      c.closed.takeWhile (fun f => f.own != e.own) = before ∧ ∀ f ∈ before, f.stop < e.stop := by
  obtain ⟨before, after, hl⟩ := append_of_mem he
  have hne := h.starts_ne
  have hsequel := h.lie.sequel
  rw [hl, pairwise_append] at hne hsequel
  refine ⟨before, after, hl, takeWhile_ne_of_split (f := (·.own)) hl fun f hf hsame => ?_,
    fun f hf => (hsequel.2.2 f hf e mem_cons_self).1⟩
  exact hne.2.2 f hf e mem_cons_self (by rw [hsame])

end

end Elements

/-! ## The tables that are counted -/

/-- The tables that paragraph ids count, those of the body among them. -/
structure CountedTables (tags : List Tag) (c : Census) : Prop where
  start_mem : ∀ table ∈ c.tables, ∃ t ∈ tags, t.start = table.1 ∧ t.start < t.stop
  ordered : c.tables.Pairwise fun a b => a.1 < b.1
  body : (c.tables.filter (·.2)).map (·.1) =
    c.bodyTables.map (·.own.start) ++ (c.outline.openBodyTable.map (·.start)).toList

section Counted

variable {tags : List Tag} {c : Census} {tag : Tag}

theorem CountedTables.opens (h : CountedTables tags c) (hlie : Lie tags c)
    (hclosing : tag.closing = false) (hopens : c.outline.opens tag = !tag.selfClosing)
    (hafter : ∀ t ∈ tags, t.stop ≤ tag.start) (hspan : tag.start < tag.stop) :
    CountedTables (tags ++ [tag]) (c.step tag) := by
  have htables := tables_step_opens (c := c) hclosing
  have hlater : ∀ table ∈ c.tables, table.1 < tag.start := fun table ht => by
    obtain ⟨t, ht, hstart, hlt⟩ := h.start_mem table ht
    have := hafter t ht
    omega
  -- a table of the body is no empty element
  have hself : tag.name = "tbl" → c.outline.inBody = true → tag.selfClosing = false := by
    intro hname hin
    have hopen : c.outline.opens tag = true := by
      unfold Outline.inBody at hin
      cases hdepth : c.outline.bodyDepth with
      | none => rw [hdepth] at hin; simp at hin
      | some b =>
        rw [hdepth, Option.any_some, decide_eq_true_eq] at hin
        simp [Outline.opens, Outline.enterBody, hname, hdepth, hin]
    rw [hopens] at hopen
    simpa using hopen
  refine ⟨fun table hmem => ?_, ?_, ?_⟩
  · have hold : table ∈ c.tables ∨ table = (tag.start, c.outline.inBody) := by
      rw [htables] at hmem
      split at hmem
      · simpa using hmem
      · exact .inl hmem
    rcases hold with hmem | rfl
    · obtain ⟨t, ht, hstart⟩ := h.start_mem table hmem
      exact ⟨t, mem_append_left _ ht, hstart⟩
    · exact ⟨tag, by simp, rfl, hspan⟩
  · rw [htables]
    split
    · refine pairwise_append.mpr ⟨h.ordered, by simp, fun table ht new hnew => ?_⟩
      rw [mem_singleton.mp hnew]
      exact hlater table ht
    · exact h.ordered
  · rw [bodyTables_opens hlie hclosing, openBodyTable_opens hclosing hopens, htables]
    by_cases hnew : tag.name = "tbl" ∧ c.outline.inBody = true
    · have hopened := hself hnew.1 hnew.2
      have hcounted : tag.name = "tbl" ∧ (c.outline.inBody || c.outline.inCell) = true :=
        ⟨hnew.1, by rw [hnew.2, Bool.true_or]⟩
      have hone : [(tag.start, c.outline.inBody)].filter (·.2) = [(tag.start, true)] := by
        simp [hnew.2]
      rw [if_pos hcounted, if_pos ⟨hnew.1, hopened, hnew.2⟩, filter_append, hone,
        map_append, h.body, openBodyTable_of_inBody hnew.2,
        outline_step_opens hclosing hopens hopened]
      simp
    · rw [if_neg fun hopened : tag.name = "tbl" ∧ tag.selfClosing = false ∧ c.outline.inBody = true =>
        hnew ⟨hopened.1, hopened.2.2⟩, ← h.body]
      by_cases hcounted : tag.name = "tbl" ∧ (c.outline.inBody || c.outline.inCell) = true
      · have hout : ¬ c.outline.inBody = true := fun hin => hnew ⟨hcounted.1, hin⟩
        have hnone : [(tag.start, c.outline.inBody)].filter (·.2) = [] := by
          simp [hout]
        rw [if_pos hcounted, filter_append, hnone, append_nil]
      · rw [if_neg hcounted]

theorem CountedTables.closes {own : OpenElement} {around : List OpenElement} {b : Nat}
    (h : CountedTables tags c) (hclosing : tag.closing = true)
    (hstack : c.outline.stack = own :: around) (hbody : c.outline.bodyDepth = some b) :
    CountedTables (tags ++ [tag]) (c.step tag) := by
  have htables := (tables_step_closes (c := c) hclosing).1
  have hended : c.isBodyTable ⟨own, around, tag.stop⟩ = true ↔
      own.name = "tbl" ∧ around.length = b + 1 := by
    simp [Census.isBodyTable, hbody]
  refine ⟨fun table hmem => ?_, ?_, ?_⟩
  · obtain ⟨t, ht, hstart⟩ := h.start_mem table (htables ▸ hmem)
    exact ⟨t, mem_append_left _ ht, hstart⟩
  · rw [htables]
    exact h.ordered
  · rw [htables, h.body, bodyTables_closes hclosing hstack]
    rcases openBodyTable_closes hclosing hstack hbody with
      ⟨htbl, hlevel, hopen, hafter⟩ | ⟨hother, hafter, -⟩
    · rw [hopen, hafter, filter_cons_of_pos (hended.mpr ⟨htbl, hlevel⟩)]
      simp
    · rw [hafter, filter_cons_of_neg (fun hin => hother (hended.mp hin))]
      simp

theorem Regular.countedTables {tags : List Tag} {c : Census} (h : Regular tags c) :
    CountedTables tags c := by
  induction h with
  | start => exact ⟨by simp, by simp, rfl⟩
  | opens h hclosing hopens hafter hspan _ ih => exact ih.opens h.lie hclosing hopens hafter hspan
  | closes h hclosing hstack _ hbody _ _ ih => exact ih.closes hclosing hstack hbody

/-- At the end of a document the counted tables of the body are its tables. -/
theorem CountedTables.body_of_end (h : CountedTables tags c) (hend : c.outline.stack = []) :
    (c.tables.filter (·.2)).map (·.1) = c.bodyTables.map (·.own.start) := by
  have hnone : c.outline.openBodyTable = none := by
    unfold Outline.openBodyTable
    rw [hend]
    cases c.outline.bodyDepth <;> rfl
  have hbody := h.body
  rwa [hnone, Option.map_none, Option.toList_none, append_nil] at hbody

/-- A table of the body is counted once. -/
theorem CountedTables.split (h : CountedTables tags c) (hend : c.outline.stack = [])
    {table : Element} (ht : table ∈ c.bodyTables) :
    ∃ before after, c.tables = before ++ (table.own.start, true) :: after ∧
      c.tableIndex table.own.start = before.length ∧
      (∀ t ∈ c.tables, t.1 < table.own.start ↔ t ∈ before) := by
  have hbody := h.body_of_end hend
  have hstart : table.own.start ∈ (c.tables.filter (·.2)).map (·.1) := by
    rw [hbody]
    exact mem_map.mpr ⟨table, ht, rfl⟩
  obtain ⟨⟨start, inBody⟩, hcounted, hsame⟩ := mem_map.mp hstart
  obtain ⟨hmem, hin⟩ := mem_filter.mp hcounted
  simp only at hsame hin
  rw [hsame, hin] at hmem
  obtain ⟨before, after, hsplit⟩ := append_of_mem hmem
  have hordered := h.ordered
  rw [hsplit, pairwise_append, pairwise_cons] at hordered
  have hbefore : ∀ t ∈ before, t.1 < table.own.start := fun t ht =>
    hordered.2.2 t ht _ mem_cons_self
  have hafter : ∀ t ∈ after, table.own.start < t.1 := hordered.2.1.1
  refine ⟨before, after, hsplit, ?_, fun t ht => ⟨fun hlt => ?_, hbefore t⟩⟩
  · rw [Census.tableIndex, hsplit, countP_append, countP_cons_of_neg (by simp),
      countP_eq_length.mpr (fun t ht => by simpa using hbefore t ht),
      countP_eq_zero.mpr (fun t ht => by simpa using (hafter t ht).le)]
    rfl
  · rw [hsplit] at ht
    rcases mem_append.mp ht with ht | ht
    · exact ht
    · rcases mem_cons.mp ht with rfl | ht
      · exact absurd hlt (Nat.lt_irrefl _)
      · exact absurd hlt (hafter t ht).le.not_gt

end Counted

/-! ## The cell an address names -/

/-- A row (or cell) whose nearest table starts at `table`. -/
def Element.liesIn (e : Element) (part : String) (table : Nat) : Bool :=
  e.own.name == part && (e.around.find? (·.name == "tbl")).any (·.start == table)

def Census.endedBefore (c : Census) (own : OpenElement) : List Element :=
  c.closed.takeWhile (·.own != own)

/-- Nothing has shifted the numbers of a paragraph in a cell: its table stands directly in the body,
no table nested in a cell starts before that one, no empty-element table stands in it before the row
ends, and as many rows of the table (cells of the row) end before its own as there are earlier
siblings. -/
def Census.undisturbed (c : Census) (e : Element) : Bool :=
  match e.around with
  | cell :: row :: table :: below =>
    c.outline.bodyDepth.any (below.length = · + 1) &&
      (c.tables.all fun t => t.2 || table.start ≤ t.1) &&
      (c.closed.all fun r => r.own != row ||
        c.empties.all fun empty => empty < table.start || r.stop ≤ empty) &&
      (c.endedBefore row).countP (·.liesIn "tr" table.start) == row.ordinal &&
      (c.endedBefore cell).countP (fun f => f.liesIn "tc" table.start && f.around.contains row) ==
        cell.ordinal
  | _ => false

/-- The bytes that the table operations take for the cell of a located paragraph hold it. -/
def CellParagraph.Covered (xml : Bytes) (q : CellParagraph) : Prop :=
  ∃ (table : Nat) (range : Nat × Nat), q.table = table ∧
    cellAt xml table q.row q.cell = some range ∧ range.1 ≤ q.range.1 ∧ q.range.2 ≤ range.2

variable {below : List OpenElement} {cell row table : OpenElement}

section Address

variable {tags : List Tag} {c : Census}

theorem cellAt_eq_some_iff {xml : Bytes} (h : Regular (scanTags xml) c) {table row cell : Nat}
    {range : Nat × Nat} :
    cellAt xml table row cell = some range ↔ ∃ tableEl rowEl cellEl,
      c.bodyTables[table]? = some tableEl ∧
      (c.parts "tr" tableEl.own.start)[row]? = some rowEl ∧
      ((c.parts "tc" tableEl.own.start).filter fun f =>
        rowEl.own.start ≤ f.own.start && f.stop ≤ rowEl.stop)[cell]? = some cellEl ∧
      cellEl.range = range := by
  rw [cellAt, bodyTableRanges_eq h, getElem?_map]
  cases htable : c.bodyTables[table]? with
  | none => simp
  | some tableEl =>
    have hmem := mem_of_getElem? htable
    simp only [Option.map_some, Option.bind_eq_bind, Option.bind_some, Element.range,
      tableRowsAndCells_eq h hmem, Except.toOption, getElem?_map, Option.some.injEq]
    cases hrow : (c.parts "tr" tableEl.own.start)[row]? with
    | none =>
      simp only [Option.map_none, Option.bind_none]
      refine ⟨fun hnone => absurd hnone (by simp), ?_⟩
      rintro ⟨_, rowEl, _, rfl, hsome, -⟩
      exact absurd (hrow.symm.trans hsome) (by simp)
    | some rowEl =>
      simp only [Option.map_some, Option.bind_some, cellsOfRow, filter_map,
        getElem?_map, Option.map_eq_some_iff]
      constructor
      · rintro ⟨cellEl, hcell, hrange⟩
        exact ⟨tableEl, rowEl, cellEl, rfl, hrow, hcell, hrange⟩
      · rintro ⟨_, rowEl', cellEl, rfl, hrow', hcell, hrange⟩
        obtain rfl := Option.some.inj (hrow.symm.trans hrow')
        exact ⟨cellEl, hcell, hrange⟩

/-- The place of a table among those of the body. -/
theorem bodyTables_getElem?_iff (h : Regular tags c) (hend : c.outline.stack = []) {table : Element}
    (ht : table ∈ c.bodyTables) (i : Nat) :
    c.bodyTables[i]? = some table ↔
      ∃ before after, c.tables = before ++ (table.own.start, true) :: after ∧
        c.tableIndex table.own.start = before.length ∧
        (∀ t ∈ c.tables, t.1 < table.own.start ↔ t ∈ before) ∧ before.countP (·.2) = i := by
  have hcounted := h.countedTables
  have hbody := hcounted.body_of_end hend
  have hiff : c.bodyTables[i]? = some table ↔
      (c.tables.filter (·.2))[i]? = some (table.own.start, true) := by
    have hmap := congrArg (·[i]?) hbody
    simp only [getElem?_map] at hmap
    constructor
    · intro hget
      rw [hget, Option.map_some, Option.map_eq_some_iff] at hmap
      obtain ⟨⟨start, inBody⟩, hcount, hstart⟩ := hmap
      have hin : inBody = true := of_mem_filter (mem_of_getElem? hcount)
      simp only at hstart
      rw [hcount, hstart, hin]
    · intro hget
      rw [hget, Option.map_some] at hmap
      obtain ⟨other, hother, hstart⟩ := Option.map_eq_some_iff.mp hmap.symm
      have hmem := mem_of_getElem? hother
      rw [hother, h.eq_of_start (mem_filter.mp hmem).1 (mem_filter.mp ht).1 hstart]
  have hnodup : c.tables.Nodup := hcounted.ordered.imp fun {a b} hlt heq => by
    rw [heq] at hlt
    exact Nat.lt_irrefl _ hlt
  obtain ⟨before, after, hsplit, hindex, hearlier⟩ := hcounted.split hend ht
  rw [hiff, getElem?_filter_iff hnodup hsplit]
  refine ⟨fun hcount => ⟨before, after, hsplit, hindex, hearlier, hcount.2⟩, ?_⟩
  rintro ⟨before', after', hsplit', hindex', -, hcount⟩
  have hsame : before' = before := by
    have htake := congrArg (List.take before.length) (hsplit'.symm.trans hsplit)
    rwa [take_left, ← hindex, hindex', take_left] at htake
  exact ⟨rfl, hsame ▸ hcount⟩

/-- The place of a row among the rows of its table. -/
theorem rows_getElem?_iff (h : Regular tags c) {row : Element} {table : OpenElement}
    (hrow : row ∈ c.closed) (hname : row.own.name = "tr") (haround : row.around = table :: below)
    (htable : table.name = "tbl") (i : Nat) :
    (c.parts "tr" table.start)[i]? = some row ↔
      (∀ empty ∈ c.empties, empty < table.start ∨ row.stop ≤ empty) ∧
        (c.endedBefore row.own).countP (·.liesIn "tr" table.start) = i := by
  obtain ⟨before, after, hsplit, hbefore, hstop⟩ := h.split hrow
  have hpart : c.isPart "tr" table.start row = true ↔
      ∀ empty ∈ c.empties, empty < table.start ∨ row.stop ≤ empty := by
    unfold Census.isPart
    rw [haround, find?_cons_of_pos (by simpa using htable), hname]
    simp
  rw [Census.parts, getElem?_filter_iff h.closed_nodup hsplit, hpart, Census.endedBefore, hbefore]
  refine and_congr_right fun hempties => ?_
  have hcount : before.countP (c.isPart "tr" table.start) =
      before.countP (·.liesIn "tr" table.start) := by
    refine countP_congr fun f hf => ?_
    have hlater : (c.empties.all fun empty => empty < table.start || f.stop ≤ empty) = true := by
      rw [all_eq_true]
      intro empty hmem
      have := hempties empty hmem
      have := hstop f hf
      simp
      omega
    unfold Census.isPart
    rw [hlater, Bool.and_true]
    rfl
  rw [hcount]

/-- The place of a cell among the cells of its row. -/
theorem cells_getElem?_iff (h : Regular tags c) {row cell : Element} {table : OpenElement}
    (hrow : row ∈ c.closed) (hname : row.own.name = "tr") (haround : row.around = table :: below)
    (htable : table.name = "tbl") (hcell : cell ∈ c.closed) (hcellName : cell.own.name = "tc")
    (hcellAround : cell.around = row.own :: row.around) (hstop : cell.stop < row.stop)
    (hempties : ∀ empty ∈ c.empties, empty < table.start ∨ row.stop ≤ empty) (i : Nat) :
    ((c.parts "tc" table.start).filter fun f =>
        row.own.start ≤ f.own.start && f.stop ≤ row.stop)[i]? = some cell ↔
      (c.endedBefore cell.own).countP
        (fun f => f.liesIn "tc" table.start && f.around.contains row.own) = i := by
  obtain ⟨before, after, hsplit, hbefore, hearlier⟩ := h.split hcell
  have hlie := h.lie
  have hall : ∀ f : Element, f.stop ≤ row.stop →
      (c.empties.all fun empty => empty < table.start || f.stop ≤ empty) = true := by
    intro f hf
    rw [all_eq_true]
    intro empty hmem
    have := hempties empty hmem
    simp
    omega
  have hin : (decide (row.own.start ≤ cell.own.start) && decide (cell.stop ≤ row.stop) &&
      c.isPart "tc" table.start cell) = true := by
    have hlt := hlie.around_lt cell hcell row.own (by rw [hcellAround]; exact mem_cons_self)
    unfold Census.isPart
    rw [hall cell hstop.le, hcellAround, haround, find?_cons_of_neg (by simp [hname]),
      find?_cons_of_pos (by simpa using htable), hcellName]
    simp
    omega
  rw [Census.parts, filter_filter, getElem?_filter_iff h.closed_nodup hsplit,
    Census.endedBefore, hbefore]
  have hcount : before.countP (fun f => decide (row.own.start ≤ f.own.start) &&
      decide (f.stop ≤ row.stop) && c.isPart "tc" table.start f) =
      before.countP (fun f => f.liesIn "tc" table.start && f.around.contains row.own) := by
    refine countP_congr fun f hf => ?_
    have hfmem : f ∈ c.closed := by
      rw [hsplit]
      exact mem_append_left _ hf
    have hf := hearlier f hf
    unfold Census.isPart
    rw [hall f (by omega), Bool.and_true]
    have hwithin : f.own.name = "tc" →
        (row.own.start ≤ f.own.start ↔ row.own ∈ f.around) := by
      intro hfname
      constructor
      · intro hstart
        refine h.around_of_range hfmem hrow hstart (by omega) fun heq => ?_
        rw [heq, hname] at hfname
        exact absurd hfname (by decide)
      · intro hmem
        exact (hlie.around_lt f hfmem row.own hmem).le
    unfold Element.liesIn
    simp only [Bool.and_eq_true, decide_eq_true_eq, beq_iff_eq, contains_iff_mem]
    constructor
    · rintro ⟨⟨hstart, -⟩, hfname, hnearest⟩
      exact ⟨⟨hfname, hnearest⟩, (hwithin hfname).mp hstart⟩
    · rintro ⟨⟨hfname, hnearest⟩, hmem⟩
      exact ⟨⟨(hwithin hfname).mpr hmem, by omega⟩, hfname, hnearest⟩
  rw [hcount]
  exact ⟨fun hboth => hboth.2, fun hone => ⟨hin, hone⟩⟩

/-- The elements around a cell paragraph. -/
theorem around_of_isCellParagraph (h : c.isCellParagraph e = true) :
    ∃ b cell row table below, c.outline.bodyDepth = some b ∧
      e.around = cell :: row :: table :: below ∧ e.own.name = "p" ∧ cell.name = "tc" ∧
      row.name = "tr" ∧ table.name = "tbl" := by
  unfold Census.isCellParagraph at h
  obtain ⟨b, hb, hcell⟩ := (Option.any_eq_true _ _).mp h
  -- the frames of the scan would be these
  let frame := fun o : OpenElement => (⟨o.name, o.start, o.ordinal⟩ : Frame)
  let s : ScanState := { stack := (e.own :: e.around).map frame }
  have hchain : s.chain b = ((e.own :: e.around).reverse.drop (b + 1)).map (·.name) := by
    show (((e.own :: e.around).map frame).reverse.drop (b + 1)).map (·.name) = _
    rw [← map_reverse, ← map_drop, map_map]
    rfl
  rw [← hchain] at hcell
  obtain ⟨tc, tr, tbl, below, hrest, htc, htr, htbl, -⟩ := cell_stack (s := s) rfl hcell
  obtain ⟨hlength, hlast, -⟩ := levels_of_isCellParagraphStack hcell
  obtain ⟨cell, rest₁, haround, rfl, hrows⟩ := map_eq_cons_iff.mp hrest
  obtain ⟨row, rest₂, rfl, rfl, htbls⟩ := map_eq_cons_iff.mp hrows
  obtain ⟨table, rest₃, rfl, rfl, -⟩ := map_eq_cons_iff.mp htbls
  refine ⟨b, cell, row, table, rest₃, hb, haround, ?_, htc, htr, htbl⟩
  have hne : s.chain b ≠ [] := fun hnil => by
    rw [hnil] at hlength
    simp at hlength
  rw [chain_getLast (s := s) rfl hne] at hlast
  exact Option.some.inj hlast

/-- The cell that holds a paragraph by its bytes, in a table of the body, is the paragraph's own. -/
theorem own_of_covered (h : Regular tags c) (hend : c.outline.stack = [])
    {e tableEl rowEl cellEl : Element} (he : e ∈ c.closed)
    (haround : e.around = cell :: row :: table :: below)
    (hnames : e.own.name = "p" ∧ cell.name = "tc" ∧ row.name = "tr" ∧ table.name = "tbl")
    (htable : tableEl ∈ c.bodyTables) (hrow : rowEl ∈ c.parts "tr" tableEl.own.start)
    (hcell : cellEl ∈ c.parts "tc" tableEl.own.start)
    (hwithin : rowEl.own.start ≤ cellEl.own.start ∧ cellEl.stop ≤ rowEl.stop)
    (hcover : cellEl.own.start ≤ e.own.start ∧ e.stop ≤ cellEl.stop) :
    tableEl.own ∈ table :: below ∧
      (tableEl.own = table → rowEl.own = row ∧ cellEl.own = cell) := by
  have hlie := h.lie
  obtain ⟨hp, htc, htr, htbl⟩ := hnames
  obtain ⟨htableMem, htableIs⟩ := mem_filter.mp htable
  obtain ⟨hrowMem, hrowIs⟩ := mem_filter.mp hrow
  obtain ⟨hcellMem, hcellIs⟩ := mem_filter.mp hcell
  unfold Census.isPart at hrowIs hcellIs
  simp only [Bool.and_eq_true, beq_iff_eq] at hrowIs hcellIs
  obtain ⟨⟨hrowName, hrowNear⟩, -⟩ := hrowIs
  obtain ⟨⟨hcellName, hcellNear⟩, -⟩ := hcellIs
  have htableName : tableEl.own.name = "tbl" := by
    unfold Census.isBodyTable at htableIs
    simp only [Bool.and_eq_true, beq_iff_eq] at htableIs
    exact htableIs.1
  -- the table around the cell is the given one
  have hnear : ∀ f ∈ c.closed, ((f.around.find? (·.name == "tbl")).any
      (·.start == tableEl.own.start)) = true → tableEl.own ∈ f.around := by
    intro f hf hany
    obtain ⟨o, hfind, hstart⟩ := (Option.any_eq_true _ _).mp hany
    have hmem := mem_of_find?_eq_some hfind
    obtain ⟨inner, outer, hsplit⟩ := append_of_mem hmem
    obtain ⟨g, hg, hgo, -⟩ := h.element_around hend hf _ hsplit
    have hsame : g = tableEl := h.eq_of_start hg htableMem (by rw [hgo]; simpa using hstart)
    rw [← hsame, hgo]
    exact hmem
  have hcellAround : cellEl.own ∈ e.around := by
    refine h.around_of_range he hcellMem hcover.1 hcover.2 fun heq => ?_
    rw [heq, hcellName] at hp
    exact absurd hp (by decide)
  have hcellTable := hnear cellEl hcellMem hcellNear
  have hcellLt := hlie.around_lt cellEl hcellMem _ hcellTable
  obtain ⟨inner, outer, hsplit⟩ := append_of_mem hcellAround
  obtain ⟨g, hg, hgo, hgaround, -⟩ := h.element_around hend he _ hsplit
  have hgcell : g = cellEl := h.eq_of_start hg hcellMem (by rw [hgo])
  rw [hgcell] at hgaround
  have htableIn : tableEl.own ∈ e.around := by
    rw [hsplit, ← hgaround]
    exact mem_append_right _ (mem_cons_of_mem _ hcellTable)
  have hlow : ∀ o ∈ below, o.start < table.start := by
    obtain ⟨f, hf, hfo, hfaround, -⟩ :=
      h.element_around hend he [cell, row] (o := table) haround
    intro o ho
    have := hlie.around_lt f hf o (by rw [hfaround]; exact ho)
    rwa [hfo] at this
  have hnames : ∀ o ∈ e.around, o = cell ∨ o = row ∨ o ∈ table :: below := by
    intro o ho
    rw [haround] at ho
    simpa using ho
  refine ⟨?_, fun hsame => ?_⟩
  · rcases hnames _ htableIn with heq | heq | hmem
    · rw [heq, htc] at htableName
      exact absurd htableName (by decide)
    · rw [heq, htr] at htableName
      exact absurd htableName (by decide)
    · exact hmem
  · -- what starts in the table is not around it
    have hinside : ∀ o ∈ e.around, table.start < o.start → o = cell ∨ o = row := by
      intro o ho hlt
      rcases hnames o ho with heq | heq | hmem
      · exact .inl heq
      · exact .inr heq
      · rcases mem_cons.mp hmem with rfl | hmem
        · exact absurd hlt (Nat.lt_irrefl _)
        · exact absurd hlt (hlow o hmem).le.not_gt
    have hcellIs : cellEl.own = cell := by
      rcases hinside _ hcellAround (hsame ▸ hcellLt) with heq | heq
      · exact heq
      · rw [heq, htr] at hcellName
        exact absurd hcellName (by decide)
    refine ⟨?_, hcellIs⟩
    have hrowAround : rowEl.own ∈ cellEl.around := by
      refine h.around_of_range hcellMem hrowMem hwithin.1 hwithin.2 fun heq => ?_
      rw [heq, hrowName] at hcellName
      exact absurd hcellName (by decide)
    have hrowLt := hlie.around_lt rowEl hrowMem _ (hnear rowEl hrowMem hrowNear)
    have hrowIn : rowEl.own ∈ e.around := by
      rw [hsplit, ← hgaround]
      exact mem_append_right _ (mem_cons_of_mem _ hrowAround)
    rcases hinside _ hrowIn (hsame ▸ hrowLt) with heq | heq
    · rw [heq, htc] at hrowName
      exact absurd hrowName (by decide)
    · exact heq

theorem undisturbed_iff (haround : e.around = cell :: row :: table :: below) :
    c.undisturbed e = true ↔
      c.outline.bodyDepth.any (below.length = · + 1) = true ∧
      (∀ t ∈ c.tables, t.1 < table.start → t.2 = true) ∧
      (∀ r ∈ c.closed, r.own = row → ∀ empty ∈ c.empties, empty < table.start ∨ r.stop ≤ empty) ∧
      (c.endedBefore row).countP (·.liesIn "tr" table.start) = row.ordinal ∧
      (c.endedBefore cell).countP
        (fun f => f.liesIn "tc" table.start && f.around.contains row) = cell.ordinal := by
  unfold Census.undisturbed
  rw [haround]
  simp only [Bool.and_eq_true, all_eq_true, Bool.or_eq_true, decide_eq_true_eq, beq_iff_eq,
    bne_iff_ne, and_assoc]
  refine and_congr_right fun _ => and_congr ?_ (and_congr ?_ Iff.rfl)
  · refine forall₂_congr fun t _ => ?_
    rw [← not_lt, or_comm, imp_iff_not_or]
  · refine forall₂_congr fun r _ => ?_
    rw [ne_eq, imp_iff_not_or]

/-- The bytes taken for a paragraph's cell hold it exactly when its numbers are undisturbed. -/
theorem covered_iff {xml : Bytes} (h : Regular (scanTags xml) c) (hend : c.outline.stack = [])
    (he : e ∈ c.closed) (hin : c.isCellParagraph e = true) :
    ∃ q, c.cellParagraph e = some q ∧ (q.Covered xml ↔ c.undisturbed e = true) := by
  obtain ⟨b, cell, row, table, below, hb, haround, hp, htc, htr, htbl⟩ :=
    around_of_isCellParagraph hin
  have hq : c.cellParagraph e =
      some ⟨c.tableIndex table.start, row.ordinal, cell.ordinal, e.range⟩ := by
    unfold Census.cellParagraph
    rw [haround, hin]
    rfl
  refine ⟨_, hq, ?_⟩
  obtain ⟨cellEl, hcellMem, rfl, hcellAround, hcellStop⟩ :=
    h.element_around hend he [] haround
  obtain ⟨rowEl, hrowMem, rfl, hrowAround, hrowStop⟩ :=
    h.element_around hend hcellMem [] hcellAround
  obtain ⟨tableEl, htableMem, rfl, htableAround, -⟩ :=
    h.element_around hend hrowMem [] hrowAround
  have hcellStart := h.lie.around_lt e he cellEl.own (by rw [haround]; simp)
  rw [undisturbed_iff haround]
  constructor
  · rintro ⟨t, range, ht, hat, hstart, hstop⟩
    have ht : c.tableIndex tableEl.own.start = t := by simpa using ht
    obtain ⟨tableEl', rowEl', cellEl', hget, hrow, hcell, rfl⟩ := (cellAt_eq_some_iff h).mp hat
    have htable := mem_of_getElem? hget
    have htableIn := mem_filter.mp htable
    have hcellPart := mem_filter.mp (mem_of_getElem? hcell)
    have hwithin : rowEl'.own.start ≤ cellEl'.own.start ∧ cellEl'.stop ≤ rowEl'.stop := by
      simpa using hcellPart.2
    obtain ⟨hmem, hown⟩ := own_of_covered h hend he haround ⟨hp, htc, htr, htbl⟩ htable
      (mem_of_getElem? hrow) hcellPart.1 hwithin ⟨hstart, hstop⟩
    obtain ⟨before, after, hsplit, hindex, hearlier, hcount⟩ :=
      (bodyTables_getElem?_iff h hend htable t).mp hget
    have hle : before.countP (·.2) ≤ before.length := countP_le_length
    -- a table around the paragraph's own is counted before it
    have hsame : tableEl'.own = tableEl.own := by
      rcases mem_cons.mp hmem with heq | hbelow
      · exact heq
      · have hlow := h.lie.around_lt tableEl htableMem _ (by rw [htableAround]; exact hbelow)
        have hall : ∀ t ∈ before, decide (t.1 < tableEl.own.start) = true := fun t ht => by
          have := (hearlier t (by rw [hsplit]; exact mem_append_left _ ht)).mpr ht
          simp
          omega
        rw [Census.tableIndex, hsplit, countP_append, countP_cons_of_pos (by simpa using hlow),
          countP_eq_length.mpr hall] at ht
        omega
    obtain rfl : tableEl' = tableEl := h.eq_of_start htableIn.1 htableMem (by rw [hsame])
    obtain ⟨hrowOwn, hcellOwn⟩ := hown rfl
    have hrowPart := (mem_filter.mp (mem_of_getElem? hrow)).1
    obtain rfl : rowEl' = rowEl := h.eq_of_start hrowPart hrowMem (by rw [hrowOwn])
    obtain rfl : cellEl' = cellEl :=
      h.eq_of_start (mem_filter.mp hcellPart.1).1 hcellMem (by rw [hcellOwn])
    obtain ⟨hempties, hrows⟩ :=
      (rows_getElem?_iff h hrowMem htr hrowAround htbl _).mp hrow
    have hcells := (cells_getElem?_iff h hrowMem htr hrowAround htbl hcellMem htc
      (by rw [hcellAround, hrowAround]) hrowStop hempties _).mp hcell
    refine ⟨?_, fun t' ht' hlt => ?_, fun r hr hro => ?_, hrows, hcells⟩
    · have hbody := htableIn.2
      unfold Census.isBodyTable at hbody
      rw [htableAround, Bool.and_eq_true] at hbody
      exact hbody.2
    · have hall : before.countP (·.2) = before.length := by omega
      exact countP_eq_length.mp hall t' ((hearlier t' ht').mp hlt)
    · rw [h.eq_of_start hr hrowMem (by rw [hro])]
      exact hempties
  · rintro ⟨hlevel, hnested, hempties, hrows, hcells⟩
    have hempties := hempties rowEl hrowMem rfl
    have htable : tableEl ∈ c.bodyTables := by
      refine mem_filter.mpr ⟨htableMem, ?_⟩
      unfold Census.isBodyTable
      rw [htableAround, hlevel, htbl]
      rfl
    obtain ⟨before, after, hsplit, hindex, hearlier⟩ := h.countedTables.split hend htable
    have hget : c.bodyTables[c.tableIndex tableEl.own.start]? = some tableEl := by
      refine (bodyTables_getElem?_iff h hend htable _).mpr
        ⟨before, after, hsplit, hindex, hearlier, ?_⟩
      rw [hindex, countP_eq_length]
      intro t ht
      have hmem : t ∈ c.tables := by
        rw [hsplit]
        exact mem_append_left _ ht
      exact hnested t hmem ((hearlier t hmem).mpr ht)
    have hrow := (rows_getElem?_iff h hrowMem htr hrowAround htbl _).mpr ⟨hempties, hrows⟩
    have hcell := (cells_getElem?_iff h hrowMem htr hrowAround htbl hcellMem htc
      (by rw [hcellAround, hrowAround]) hrowStop hempties _).mpr hcells
    exact ⟨_, _, rfl, (cellAt_eq_some_iff h).mpr ⟨tableEl, rowEl, cellEl, hget, hrow, hcell, rfl⟩,
      hcellStart.le, hcellStop.le⟩

end Address

/-! ## The addresses of a document -/

/-- Every paragraph that `scan_document` puts in a table cell lies in the bytes of the cell that the
table operations find under the same numbers, exactly when no numbers are disturbed. -/
theorem cellParagraphs_covered_iff {xml : Bytes} {s : ScanState} (hwell : WellFormed (scanTags xml))
    (hscan : scanDocumentTags (scanTags xml) = .ok s) :
    (∀ entry ∈ s.paragraphStarts, ∀ q, locatedInCell entry = some q → q.Covered xml) ↔
      ∀ e ∈ (census (scanTags xml)).closed, (census (scanTags xml)).isCellParagraph e = true →
        (census (scanTags xml)).undisturbed e = true := by
  obtain ⟨hregular, hend, hlocated⟩ := surveyed_of_scanDocumentTags hwell hscan
  have hlist : (∀ entry ∈ s.paragraphStarts, ∀ q, locatedInCell entry = some q → q.Covered xml) ↔
      ∀ q ∈ s.paragraphStarts.filterMap locatedInCell, q.Covered xml := by
    simp only [List.mem_filterMap]
    exact ⟨fun h q ⟨entry, hmem, hq⟩ => h entry hmem q hq, fun h entry hmem q hq => h q ⟨entry, hmem, hq⟩⟩
  rw [hlist, hlocated]
  constructor
  · intro h e he hin
    obtain ⟨q, hq, hiff⟩ := covered_iff hregular hend he hin
    exact hiff.mp (h q (List.mem_filterMap.mpr ⟨e, he, hq⟩))
  · intro h q hmem
    obtain ⟨e, he, hq⟩ := List.mem_filterMap.mp hmem
    have hin : (census (scanTags xml)).isCellParagraph e = true := by
      unfold Census.cellParagraph at hq
      split at hq
      · by_contra hout
        rw [if_neg hout] at hq
        exact absurd hq (by simp)
      · exact absurd hq (by simp)
    obtain ⟨q', hq', hiff⟩ := covered_iff hregular hend he hin
    obtain rfl := Option.some.inj (hq.symm.trans hq')
    exact hiff.mpr (h e he hin)

/-- Two tables, the first with two cells. -/
def twoTables : Bytes :=
  bytes "<w:document><w:body><w:tbl><w:tr><w:tc><w:p></w:p></w:tc><w:tc><w:p></w:p></w:tc></w:tr></w:tbl><w:tbl><w:tr><w:tc><w:p></w:p></w:tc></w:tr></w:tbl></w:body></w:document>"

theorem twoTables_covered :
    ∃ s, scanDocumentTags (scanTags twoTables) = .ok s ∧
      (s.paragraphStarts.filterMap locatedInCell).length = 3 ∧
      ∀ entry ∈ s.paragraphStarts, ∀ q, locatedInCell entry = some q → q.Covered twoTables := by
  have hruns : WellFormed (scanTags twoTables) ∧
      (scanDocumentTags (scanTags twoTables)).toOption.map
        (fun s => (s.paragraphStarts.filterMap locatedInCell).length) = some 3 ∧
      ∀ e ∈ (census (scanTags twoTables)).closed,
        (census (scanTags twoTables)).isCellParagraph e = true →
          (census (scanTags twoTables)).undisturbed e = true := by
    rw [twoTables, bytes_ofList]
    decide +kernel
  obtain ⟨hwell, hscan, hundisturbed⟩ := hruns
  obtain ⟨s, hs, hlength⟩ := exists_ok_of_map hscan
  exact ⟨s, hs, hlength, (cellParagraphs_covered_iff hwell hs).mpr hundisturbed⟩

/-- A table nested in a cell of the first table: every table after it is counted one too far. -/
def nestedTable : Bytes :=
  bytes "<w:document><w:body><w:tbl><w:tr><w:tc><w:tbl><w:tr><w:tc><w:p></w:p></w:tc></w:tr></w:tbl><w:p></w:p></w:tc></w:tr></w:tbl><w:tbl><w:tr><w:tc><w:p></w:p></w:tc></w:tr></w:tbl></w:body></w:document>"

theorem nestedTable_not_covered :
    ¬ ∀ xml s, WellFormed (scanTags xml) → scanDocumentTags (scanTags xml) = .ok s →
      ∀ entry ∈ s.paragraphStarts, ∀ q, locatedInCell entry = some q → q.Covered xml := by
  intro h
  -- the body has two tables, so there is no table 2
  have hruns : WellFormed (scanTags nestedTable) ∧
      (scanDocumentTags (scanTags nestedTable)).toOption.map
        (fun s => (s.paragraphStarts.filterMap locatedInCell).contains ⟨2, 0, 0, (143, 154)⟩) =
          some true ∧
      cellAt nestedTable 2 0 0 = none := by
    rw [nestedTable, bytes_ofList]
    decide +kernel
  obtain ⟨hwell, hscan, hnone⟩ := hruns
  obtain ⟨s, hs, hcontains⟩ := exists_ok_of_map hscan
  obtain ⟨entry, hmem, hq⟩ := List.mem_filterMap.mp (List.contains_iff_mem.mp hcontains)
  obtain ⟨table, range, htable, hat, -⟩ := h nestedTable s hwell hs entry hmem _ hq
  have htwo : table = 2 := by
    simp only at htable
    omega
  rw [htwo, hnone] at hat
  exact absurd hat (by simp)

end Docx2Typed
