import Docx2Typed.Table.Census

/-!
# The cell paragraphs of a document

What `scan_document` says of the paragraphs in table cells, read off the census: over a well-formed
document that it accepts, the two passes meet the same elements, and a paragraph is located in a
cell exactly where rows, cells and tables alternate from the body down to it.
-/

namespace Docx2Typed

open Library List

/-- The tags of a document nest, and its root holds them all. -/
structure WellFormed (tags : List Tag) : Prop where
  nested : nest Tag.bracket [] tags = some []
  root : ∀ n < tags.length, 0 < n → nest Tag.bracket [] (tags.take n) ≠ some []

instance (tags : List Tag) : Decidable (WellFormed tags) :=
  decidable_of_iff (nest Tag.bracket [] tags = some [] ∧
      ∀ n < tags.length, 0 < n → nest Tag.bracket [] (tags.take n) ≠ some [])
    ⟨fun h => ⟨h.1, h.2⟩, fun h => ⟨h.1, h.2⟩⟩

/-! ## Paragraphs in cells -/

/-- Where a paragraph is said to lie, and its own bytes. -/
structure CellParagraph where
  table : Int
  row : Nat
  cell : Nat
  range : Nat × Nat
  deriving DecidableEq, Repr

/-- What `scan_document` notes of a paragraph in a cell. -/
def locatedInCell : Nat × Nat × ParagraphPath → Option CellParagraph
  | (start, stop, .cell table chain) =>
    some ⟨table, chainValue "tr" chain, chainValue "tc" chain, (start, stop)⟩
  | _ => none

/-- The number of counted tables that start before a table. -/
def Census.tableIndex (c : Census) (start : Nat) : Nat := c.tables.countP (·.1 < start)

/-- Below the body, tables, rows and cells alternate down to the paragraph. -/
def Census.isCellParagraph (c : Census) (e : Element) : Bool :=
  c.outline.bodyDepth.any fun b =>
    isCellParagraphStack (((e.own :: e.around).reverse.drop (b + 1)).map (·.name))

def Census.cellParagraph (c : Census) (e : Element) : Option CellParagraph :=
  match e.around with
  | cell :: row :: table :: _ =>
    if c.isCellParagraph e then
      some ⟨c.tableIndex table.start, row.ordinal, cell.ordinal, e.range⟩
    else none
  | _ => none

/-! ## What closes a cell paragraph -/

/-- The names around a cell paragraph: it is not in a text box or a content control. -/
theorem levels_of_isCellParagraphStack {chain : List String} (h : isCellParagraphStack chain = true) :
    4 ≤ chain.length ∧ chain.getLast? = some "p" ∧ "tc" ∈ chain ∧
      isBoxParagraphStack chain = false ∧ isSdtParagraphStack chain = false := by
  simp only [isCellParagraphStack, Bool.and_eq_true, beq_iff_eq, decide_eq_true_eq] at h
  obtain ⟨⟨hlast, hlength⟩, hlevels⟩ := h
  have htc : "tc" ∈ chain := by
    cases hinner : chain.dropLast.reverse with
    | nil =>
      have := congrArg List.length hinner
      simp at this
      omega
    | cons name rest =>
      rw [hinner] at hlevels
      simp only [zipIdx_cons, all_cons, Bool.and_eq_true, beq_iff_eq] at hlevels
      have hname : name = "tc" := hlevels.1
      have hmem : name ∈ chain.dropLast := by
        rw [← mem_reverse, hinner]
        exact mem_cons_self
      exact hname ▸ mem_of_mem_dropLast hmem
  refine ⟨hlength, hlast, htc, ?_, ?_⟩
  · have hany : (chain.any fun name => name == "tbl" || name == "tr" || name == "tc") = true :=
      any_eq_true.mpr ⟨"tc", htc, by decide⟩
    rw [isBoxParagraphStack, hany]
    simp
  · have hthree : (chain.length == 3) = false := by
      rw [beq_eq_false_iff_ne]
      omega
    rw [isSdtParagraphStack, hthree]
    simp

section Closing

variable {s : ScanState} {b : Nat} {top : Frame} {rest : List Frame} {tag : Tag}

theorem chain_getLast (hstack : s.stack = top :: rest) (hdeep : s.chain b ≠ []) :
    (s.chain b).getLast? = some top.name := by
  have hrev := reverse_namesBelow b s.stack
  rw [← ScanState.chain_eq] at hrev
  have hlength : (s.chain b).length = s.stack.length - (b + 1) := by
    simp [ScanState.chain, ScanState.below]
  have hpos : 0 < (s.chain b).length := length_pos_of_ne_nil hdeep
  obtain ⟨n, hn⟩ : ∃ n, s.stack.length - (b + 1) = n + 1 := ⟨s.stack.length - (b + 1) - 1, by omega⟩
  rw [← head?_reverse, hrev, hn, hstack]
  rfl

/-- A paragraph whose tables, rows and cells alternate is located in the innermost open table. -/
theorem closingPath_cell {table : Int × Nat} (hstack : s.stack = top :: rest)
    (hname : top.name = tag.name) (hcell : isCellParagraphStack (s.chain b) = true)
    (hopen : s.openTables.head? = some table) :
    closingPath s b top tag =
      .ok (some (.cell table.1 ((s.below b).map fun frame => (frame.name, frame.ordinal)))) := by
  obtain ⟨hlength, hlast, -, hbox, hsdt⟩ := levels_of_isCellParagraphStack hcell
  have hne : s.chain b ≠ [] := by
    intro hnil
    rw [hnil] at hlength
    simp at hlength
  have hp : tag.name = "p" := by
    rw [chain_getLast hstack hne, hname] at hlast
    exact Option.some.inj hlast
  have hdepth : (s.chain b).length = s.stack.length - (b + 1) := by
    simp [ScanState.chain, ScanState.below]
  have htables : s.openTables ≠ [] := by
    intro hnil
    rw [hnil] at hopen
    simp at hopen
  simp only [closingPath]
  rw [if_neg (by omega), if_pos ⟨hp, by omega, .inl htables⟩, hbox, hsdt, hcell, hopen]
  rfl

/-- The table a cell paragraph lies in is the innermost open one. -/
theorem openTable_of_cell {o : Outline} {chronicle : Chronicle} {bound : Nat}
    (h : ScanInv s o chronicle bound) (hsettled : Settled s) (hstack : s.stack = top :: rest)
    (hbody : s.bodyDepth = some b) (hcell : isCellParagraphStack (s.chain b) = true) :
    ∃ tc tr tbl below i, rest = tc :: tr :: tbl :: below ∧
      s.openTables.head? = some (i, tbl.start) ∧
      chainValue "tc" ((s.below b).map fun f => (f.name, f.ordinal)) = tc.ordinal ∧
      chainValue "tr" ((s.below b).map fun f => (f.name, f.ordinal)) = tr.ordinal := by
  obtain ⟨tc, tr, tbl, below, hrest, htc, htr, htbl, hq, -, hvtc, hvtr⟩ := cell_stack hstack hcell
  obtain ⟨hlength, hlast, -⟩ := levels_of_isCellParagraphStack hcell
  have htop : top.name = "p" := by
    rw [chain_getLast hstack (fun hnil => by rw [hnil] at hlength; simp at hlength)] at hlast
    exact Option.some.inj hlast
  have htables := h.tables
  have hfresh := hsettled.tables
  have hord := h.log.ordered
  have hsplit : top :: tc :: tr :: tbl :: below = [top, tc, tr] ++ tbl :: below := rfl
  rw [hstack, hrest, hsplit] at htables hfresh hord
  obtain ⟨i, hi, -⟩ := htables.head_eq hord hfresh htbl (hbody ▸ hq) (by
    intro g hg
    simp only [mem_cons, not_mem_nil, or_false] at hg
    rcases hg with rfl | rfl | rfl
    · rw [htop]
      decide
    · rw [htc]
      decide
    · rw [htr]
      decide)
  exact ⟨tc, tr, tbl, below, i, hrest, hi, hvtc, hvtr⟩

end Closing

/-! ## The two passes together -/

/-- The scan at one point of a document beside the census. -/
structure Surveyed (tags : List Tag) (c : Census) (s : ScanState) (bound : Nat) : Prop where
  regular : Regular tags c
  names : nest Tag.bracket [] tags = some (c.outline.stack.map (·.name))
  scan : ∃ chronicle, ScanInv s c.outline chronicle bound
  tables_lt : ∀ table ∈ c.tables, table.1 < bound
  ordinal : s.tableOrdinal = c.tables.length - 1
  openTables : ∀ x ∈ s.openTables, x.1 = c.tableIndex x.2 ∧ x.2 < bound
  located : s.paragraphStarts.filterMap locatedInCell = c.closed.filterMap c.cellParagraph

theorem surveyed_empty : Surveyed [] {} {} 0 :=
  ⟨.start, rfl, ⟨{}, scanInv_empty⟩, by simp, rfl, by simp, rfl⟩

section Steps

variable {tags : List Tag} {c : Census} {s s' : ScanState} {bound : Nat} {tag : Tag}

theorem Regular.stack_lt (h : Regular tags c) (hafter : ∀ t ∈ tags, t.stop ≤ tag.start) :
    ∀ e ∈ c.closed, ∀ o ∈ e.around, o.start < tag.start := by
  intro e he o ho
  obtain ⟨t, ht, hstop⟩ := h.lie.closed_mem e he
  have := hafter t ht
  have := h.lie.around_lt e he o ho
  have := h.lie.start_lt e he
  omega

theorem tables_step_opens (hclosing : tag.closing = false) :
    (c.step tag).tables =
      if tag.name = "tbl" ∧ (c.outline.inBody || c.outline.inCell) then
        c.tables ++ [(tag.start, c.outline.inBody)]
      else c.tables := by
  simp [Census.step, hclosing]

/-- A table that starts later is not counted before an earlier one. -/
theorem tableIndex_opens (hclosing : tag.closing = false) {start : Nat} (h : start ≤ tag.start) :
    (c.step tag).tableIndex start = c.tableIndex start := by
  rw [Census.tableIndex, tables_step_opens hclosing]
  split
  · rw [countP_append, countP_singleton, if_neg (by simpa using h)]
    rfl
  · rfl

theorem isCellParagraph_opens (h : Regular tags c) (hclosing : tag.closing = false) {e : Element}
    (he : e ∈ c.closed) : (c.step tag).isCellParagraph e = c.isCellParagraph e := by
  have hset : c.outline.bodyDepth ≠ none := fun hnone => by
    rw [h.lie.unopened hnone] at he
    exact absurd he (by simp)
  unfold Census.isCellParagraph
  rw [outline_step_bodyDepth hclosing, Outline.enterBody, if_neg (fun hbody => hset hbody.2)]

theorem cellParagraph_opens (h : Regular tags c) (hclosing : tag.closing = false)
    (hafter : ∀ t ∈ tags, t.stop ≤ tag.start) {e : Element} (he : e ∈ c.closed) :
    (c.step tag).cellParagraph e = c.cellParagraph e := by
  unfold Census.cellParagraph
  rw [isCellParagraph_opens h hclosing he]
  have hbelow := h.stack_lt hafter e he
  split
  · next cell row table rest hstack =>
    rw [tableIndex_opens hclosing (hbelow table (by rw [hstack]; simp)).le]
  · rfl

theorem cellParagraph_closes {own : OpenElement} {around : List OpenElement}
    (hclosing : tag.closing = true) (hstack : c.outline.stack = own :: around) (e : Element) :
    (c.step tag).cellParagraph e = c.cellParagraph e := by
  unfold Census.cellParagraph Census.isCellParagraph Census.tableIndex
  rw [(outline_step_closes hclosing hstack).2, (tables_step_closes hclosing).1]

/-- A table counts in the scan where it counts in the census. -/
theorem tableQualifies_iff {chronicle : Chronicle} (h : ScanInv s c.outline chronicle bound)
    (hname : tag.name = "tbl") :
    TableQualifies (scanOpening s tag).bodyDepth s.stack ↔
      (c.outline.inBody || c.outline.inCell) = true := by
  have hbody : (scanOpening s tag).bodyDepth = c.outline.bodyDepth := by
    rw [(openingEffect s tag).bodyDepth, ScanState.count,
      if_neg (fun hset => absurd (hname.symm.trans hset.1) (by decide))]
    exact h.outlined.bodyDepth
  have hhead : s.stack.head?.any (·.name == "tc") = c.outline.stack.head?.any (·.name == "tc") := by
    rw [h.outlined.stack, head?_map]
    cases c.outline.stack.head? <;> rfl
  rw [hbody, TableQualifies, h.outlined.length, hhead, Outline.inBody, Outline.inCell]
  cases c.outline.bodyDepth with
  | none => simp
  | some b => simp

theorem Surveyed.opens (h : Surveyed tags c s bound) (hclosing : tag.closing = false)
    (hopens : c.outline.opens tag = !tag.selfClosing) (hafter : ∀ t ∈ tags, t.stop ≤ tag.start)
    (hspan : tag.start < tag.stop) (hroot : c.outline.stack = [] → tags = [])
    (hbound : bound ≤ tag.start) :
    Surveyed (tags ++ [tag]) (c.step tag) (scanOpening s tag) (tag.start + 1) := by
  obtain ⟨chronicle, hscan⟩ := h.scan
  have hlater : ∀ table ∈ c.tables, table.1 < tag.start := fun table ht =>
    (h.tables_lt table ht).trans_le hbound
  have htables := tables_step_opens (c := c) hclosing
  have heffect := openingEffect s tag
  refine ⟨h.regular.opens hclosing hopens hafter hspan hroot, ?_, ?_, ?_, ?_, ?_, ?_⟩
  · rw [nest_append, h.names, Option.bind_some, nest_cons]
    cases hself : tag.selfClosing with
    | true =>
      rw [nestStep_of_single (by simp [Tag.bracket, hclosing, hself]),
        outline_step_single hclosing hopens hself]
      rfl
    | false =>
      rw [nestStep_of_opens (tag.bracket_eq_opens hclosing hself),
        outline_step_opens hclosing hopens hself]
      rfl
  · obtain ⟨chronicle', -, hscan'⟩ := hscan.open hclosing hbound
    exact ⟨chronicle', hscan'⟩
  · intro table hmem
    rw [htables] at hmem
    split at hmem
    · rcases mem_append.mp hmem with hmem | hmem
      · have := hlater table hmem
        omega
      · rw [mem_singleton.mp hmem]
        exact Nat.lt_succ_self _
    · have := hlater table hmem
      omega
  · rw [htables]
    rcases heffect.tables with ⟨-, hordinal, hno⟩ | ⟨-, hordinal, hname, hq⟩
    · rw [hordinal, h.ordinal, if_neg]
      rintro ⟨hname, hcounted⟩
      exact hno ⟨hname, (tableQualifies_iff hscan hname).mpr hcounted⟩
    · rw [hordinal, h.ordinal, if_pos ⟨hname, (tableQualifies_iff hscan hname).mp hq⟩]
      simp
  · intro x hx
    have hold : x ∈ s.openTables →
        x.1 = (c.step tag).tableIndex x.2 ∧ x.2 < tag.start + 1 := fun hx => by
      obtain ⟨hindex, hlt⟩ := h.openTables x hx
      rw [tableIndex_opens hclosing (by omega)]
      exact ⟨hindex, by omega⟩
    rcases heffect.tables with ⟨hsame, -⟩ | ⟨hnew, -, hname, -⟩
    · exact hold (hsame ▸ hx)
    · rw [hnew] at hx
      rcases mem_cons.mp hx with rfl | hx
      · refine ⟨?_, Nat.lt_succ_self _⟩
        rw [tableIndex_opens hclosing le_rfl, Census.tableIndex,
          countP_eq_length.mpr (fun table ht => by simpa using hlater table ht), h.ordinal]
        omega
      · exact hold hx
  · have hstarts : (scanOpening s tag).paragraphStarts.filterMap locatedInCell =
        s.paragraphStarts.filterMap locatedInCell := by
      rcases heffect.starts with hsame | ⟨hnew, -⟩
      · rw [hsame]
      · rw [hnew, filterMap_append]
        simp [locatedInCell]
    rw [hstarts, h.located, closed_step_opens hclosing]
    exact filterMap_congr fun e he =>
      (cellParagraph_opens h.regular hclosing hafter he).symm

/-- The paragraph an end tag locates in a cell is the cell paragraph of the census. -/
theorem Surveyed.locates {own : OpenElement} {around : List OpenElement} {b : Nat} {top : Frame}
    {rest : List Frame} {path : Option ParagraphPath} (h : Surveyed tags c s bound)
    (hsettled : Settled s) (hstack : s.stack = top :: rest)
    (hopen : c.outline.stack = own :: around) (hname : top.name = tag.name)
    (hbody : s.bodyDepth = some b) (hpath : closingPath s b top tag = .ok path) :
    (path.map fun path => (top.start, tag.stop, path)).toList.filterMap locatedInCell =
      [(⟨own, around, tag.stop⟩ : Element)].filterMap c.cellParagraph := by
  obtain ⟨chronicle, hscan⟩ := h.scan
  have hframes := hscan.outlined.stack
  rw [hstack, hopen, map_cons, List.cons.injEq] at hframes
  obtain ⟨rfl, hrest⟩ := hframes
  have hcell : c.isCellParagraph ⟨own, around, tag.stop⟩ = isCellParagraphStack (s.chain b) := by
    unfold Census.isCellParagraph
    rw [← hscan.outlined.bodyDepth, hbody, Option.any_some, hscan.outlined.chain, Outline.chain,
      hopen]
  by_cases hin : isCellParagraphStack (s.chain b) = true
  · obtain ⟨tc, tr, tbl, below, i, hsplit, hhead, htc, htr⟩ :=
      openTable_of_cell hscan hsettled hstack hbody hin
    rw [closingPath_cell hstack hname hin hhead] at hpath
    obtain rfl := Except.ok.inj hpath
    have hindex : i = c.tableIndex tbl.start := (h.openTables _ (mem_of_mem_head? hhead)).1
    rw [hrest] at hsplit
    obtain ⟨cell, rest₁, rfl, rfl, hrows⟩ := map_eq_cons_iff.mp hsplit
    obtain ⟨row, rest₂, rfl, rfl, htbls⟩ := map_eq_cons_iff.mp hrows
    obtain ⟨table, rest₃, rfl, rfl, -⟩ := map_eq_cons_iff.mp htbls
    simp only [Option.map_some, Option.toList_some, filterMap_cons, filterMap_nil,
      locatedInCell, Census.cellParagraph, hcell, hin, if_true, htc, htr]
    rw [hindex]
    rfl
  · have hnone : c.cellParagraph ⟨own, around, tag.stop⟩ = none := by
      unfold Census.cellParagraph
      rw [hcell]
      split
      · rw [if_neg hin]
      · rfl
    rw [filterMap_cons, hnone, filterMap_nil]
    rcases closingPath_cases hpath with ⟨hpath, -⟩ | ⟨box, -, rfl, -⟩ | ⟨sdt, -, rfl, -⟩ |
      ⟨table, -, -, -, -, hcell, -⟩
    · rcases hpath with rfl | rfl
      · rfl
      · rfl
    · rfl
    · rfl
    · exact absurd hcell hin

theorem Surveyed.closes (h : Surveyed tags c s bound) (hsettled : Settled s)
    (hclosing : tag.closing = true) (hstep : scanClosing s tag = .ok s')
    (hafter : ∀ t ∈ tags, t.stop ≤ tag.start) (hspan : tag.start < tag.stop) :
    Surveyed (tags ++ [tag]) (c.step tag) s' bound := by
  obtain ⟨chronicle, hscan⟩ := h.scan
  obtain ⟨top, rest, b, path, hstack, hname, hbody, hpath, rfl⟩ := scanClosing_eq_ok hstep
  have hframes := hscan.outlined.stack
  rw [hstack] at hframes
  obtain ⟨own, around, hopen, hown, -⟩ := map_eq_cons_iff.mp hframes.symm
  have hsame : own.name = tag.name := by
    rw [← hname, ← hown]
  have hdepth : c.outline.bodyDepth = some b := hscan.outlined.bodyDepth.symm.trans hbody
  have htables := (tables_step_closes (c := c) hclosing).1
  refine ⟨h.regular.closes hclosing hopen hsame hdepth hafter hspan, ?_,
    ⟨_, hscan.close hsettled hclosing hstep⟩, ?_, ?_, ?_, ?_⟩
  · rw [nest_append, h.names, Option.bind_some, nest_cons, hopen, map_cons,
      nestStep_of_closes (by simp [Tag.bracket, hclosing, hsame]),
      (outline_step_closes hclosing hopen).1]
    rfl
  · rw [htables]
    exact h.tables_lt
  · rw [htables]
    exact h.ordinal
  · intro x hx
    unfold Census.tableIndex
    rw [htables]
    exact h.openTables x (mem_of_mem_popOpen hx)
  · rw [closed_step_closes hclosing hopen, filterMap_append, filterMap_append, h.located,
      h.locates hsettled hstack hopen hname hbody hpath]
    congr 1
    · exact filterMap_congr fun e _ => (cellParagraph_closes hclosing hopen e).symm
    · exact filterMap_congr fun e _ => (cellParagraph_closes hclosing hopen e).symm

end Steps

/-! ## Accepted documents -/

/-- A scan that is once deeper than the nesting of the names stays so. -/
theorem deeper_of_run : ∀ {tags : List Tag} {s final : ScanState} {names names' : List String},
    tags.foldlM scanDocumentStep s = .ok final → nest Tag.bracket names tags = some names' →
      names.length < s.stack.length → names'.length < final.stack.length
  | [], s, final, names, names', hrun, hnest, hdeep => by
    obtain rfl := Except.ok.inj hrun
    obtain rfl := Option.some.inj hnest
    exact hdeep
  | tag :: tags, s, final, names, names', hrun, hnest, hdeep => by
    rw [foldlM_cons] at hrun
    obtain ⟨s₁, hs₁, hrun⟩ := bind_eq_ok hrun
    rw [nest_cons] at hnest
    obtain ⟨names₁, hnames₁, hnest⟩ := Option.bind_eq_some_iff.mp hnest
    refine deeper_of_run hrun hnest ?_
    rw [scanDocumentStep] at hs₁
    split at hs₁
    next hclosing =>
      obtain ⟨top, rest, b, path, hstack, -, -, -, rfl⟩ := scanClosing_eq_ok hs₁
      have hnames := eq_cons_of_nestStep_closes (tag.bracket_eq_closes hclosing) hnames₁
      rw [hstack, hnames, length_cons, length_cons] at hdeep
      exact Nat.lt_of_succ_lt_succ hdeep
    next hclosing =>
      obtain rfl := Except.ok.inj hs₁
      have hclosing : tag.closing = false := by simpa using hclosing
      rw [scanOpening_stack]
      cases hself : tag.selfClosing with
      | true =>
        rw [nestStep_of_single (by simp [Tag.bracket, hclosing, hself])] at hnames₁
        obtain rfl := Option.some.inj hnames₁
        split
        · exact hdeep
        · rw [length_cons]
          omega
      | false =>
        rw [nestStep_of_opens (tag.bracket_eq_opens hclosing hself)] at hnames₁
        obtain rfl := Option.some.inj hnames₁
        rw [if_neg (by simp), length_cons, length_cons]
        omega

/-- In an accepted well-formed document, exactly the tags that stay open open an element. -/
theorem Surveyed.opens_eq {tags rest : List Tag} {c : Census} {s final : ScanState} {bound : Nat}
    {tag : Tag} (h : Surveyed tags c s bound) (hclosing : tag.closing = false)
    (hbound : bound ≤ tag.start)
    (hrun : rest.foldlM scanDocumentStep (scanOpening s tag) = .ok final)
    (hfinal : final.stack = []) (hnest : nest Tag.bracket [] (tags ++ tag :: rest) = some []) :
    c.outline.opens tag = !tag.selfClosing := by
  obtain ⟨chronicle, hscan⟩ := h.scan
  cases hself : tag.selfClosing with
  | false => simp [Outline.opens, hself]
  | true =>
    rw [Bool.not_true]
    by_contra hopens
    have hopens : c.outline.opens tag = true := by simpa using hopens
    have hlength : (scanOpening s tag).stack.length = c.outline.stack.length + 1 := by
      rw [(hscan.outlined.open hclosing hbound).length, Outline.step, if_neg (by simp [hclosing]),
        if_pos hopens, length_cons]
    rw [nest_append, h.names, Option.bind_some, nest_cons,
      nestStep_of_single (by simp [Tag.bracket, hclosing, hself]), Option.bind_some] at hnest
    have hdeep := deeper_of_run hrun hnest (by rw [hlength, length_map]; omega)
    rw [hfinal] at hdeep
    exact absurd hdeep (by simp)

theorem Surveyed.run : ∀ {rest tags : List Tag} {c : Census} {s final : ScanState}
    {bound lo hi : Nat}, Surveyed tags c s bound → rest.foldlM scanDocumentStep s = .ok final →
      Finished final → final.stack = [] → WellFormed (tags ++ rest) → Ordered lo hi (tags ++ rest) →
      (∀ tag ∈ rest, bound ≤ tag.start) →
      ∃ bound', Surveyed (tags ++ rest) (rest.foldl Census.step c) final bound'
  | [], tags, c, s, final, bound, _, _, h, hrun, _, _, _, _, _ => by
    obtain rfl := Except.ok.inj hrun
    rw [append_nil]
    exact ⟨bound, h⟩
  | tag :: rest, tags, c, s, final, bound, _, _, h, hrun, hfinished, hfinal, hwell, hord, hbound => by
    obtain ⟨chronicle, hscan⟩ := h.scan
    have hsettled := settled_of_run hscan hrun hfinished hbound
    rw [foldlM_cons] at hrun
    obtain ⟨s₁, hs₁, hrun⟩ := bind_eq_ok hrun
    obtain ⟨-, hlater, hafter⟩ := pairwise_append.mp hord.apart
    have hafter : ∀ t ∈ tags, t.stop ≤ tag.start := fun t ht => hafter t ht tag mem_cons_self
    have hspan := (hord.inside tag (by simp)).2.1
    have hnext : ∀ t ∈ rest, tag.stop ≤ t.start := (pairwise_cons.mp hlater).1
    have hsplit : tags ++ tag :: rest = tags ++ [tag] ++ rest := by simp
    rw [scanDocumentStep] at hs₁
    split at hs₁
    next hclosing =>
      have hstep := h.closes hsettled hclosing hs₁ hafter hspan
      rw [hsplit] at hwell hord ⊢
      exact hstep.run hrun hfinished hfinal hwell hord
        fun t ht => hbound t (mem_cons_of_mem _ ht)
    next hclosing =>
      obtain rfl := Except.ok.inj hs₁
      have hclosing : tag.closing = false := by simpa using hclosing
      have hstart := hbound tag mem_cons_self
      have hopens := h.opens_eq hclosing hstart hrun hfinal hwell.nested
      -- a document has one root
      have hroot : c.outline.stack = [] → tags = [] := by
        intro hnil
        by_contra hne
        refine hwell.root tags.length (by simp) (length_pos_of_ne_nil hne) ?_
        rw [take_left, h.names, hnil]
        rfl
      have hstep := h.opens hclosing hopens hafter hspan hroot hstart
      rw [hsplit] at hwell hord ⊢
      refine hstep.run hrun hfinished hfinal hwell hord fun t ht => ?_
      have := hnext t ht
      omega

/-- The census of an accepted well-formed document, and the paragraphs located in its cells. -/
theorem surveyed_of_scanDocumentTags {xml : Bytes} {s : ScanState} (hwell : WellFormed (scanTags xml))
    (h : scanDocumentTags (scanTags xml) = .ok s) :
    Regular (scanTags xml) (census (scanTags xml)) ∧ (census (scanTags xml)).outline.stack = [] ∧
      s.paragraphStarts.filterMap locatedInCell =
        (census (scanTags xml)).closed.filterMap (census (scanTags xml)).cellParagraph := by
  obtain ⟨s', hrun, h⟩ := bind_eq_ok h
  split at h
  next => exact (refuse_ne_ok h).elim
  next hstack =>
    split at h
    next => exact (refuse_ne_ok h).elim
    next hopen =>
      split at h
      next => exact (refuse_ne_ok h).elim
      next =>
        obtain rfl := Except.ok.inj h
        simp only [not_or, not_not] at hopen hstack
        obtain ⟨bound, hend⟩ := surveyed_empty.run hrun ⟨hopen.1, hopen.2.2, hopen.2.1⟩ hstack hwell
          (ordered_scanTags xml) fun tag _ => Nat.zero_le _
        obtain ⟨chronicle, hscan⟩ := hend.scan
        refine ⟨hend.regular, ?_, hend.located⟩
        have hframes := hscan.outlined.stack
        rw [hstack] at hframes
        exact map_eq_nil_iff.mp hframes.symm

end Docx2Typed
