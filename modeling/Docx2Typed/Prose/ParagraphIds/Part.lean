import Docx2Typed.Prose.ParagraphIds.Names
import Docx2Typed.Prose.ParagraphIds.Containers

/-!
# The paragraph ids of a header, footer or note part

`scan_part` numbers the tables directly under the root of a header or footer, and inside the
innermost open one counts rows, cells and cell paragraphs.  Within one table these three grow
lexicographically, so its paragraphs have distinct ids.

A table directly under the root that closes itself (`<w:tbl/>`) is opened and never closed.  From
then on a cell paragraph outside every such table (in a table under a content control, say) is
counted to it, with whatever the three counters hold; a later table resets them.
`scanPart_nodup_iff`: ids clash exactly when two of these stray paragraphs meet the same counters.
-/

namespace Docx2Typed

open List

/-- Where a cell paragraph is counted: the number of its table among those directly under the
root, and the rows, cells and paragraphs counted before it. -/
structure CellPlace where
  table : Nat
  rows : Nat
  cells : Nat
  paragraphs : Nat
  deriving DecidableEq, Repr

def CellPlace.id (partKey : String) (place : CellPlace) : String :=
  cellParagraphId partKey place.table place.rows place.cells place.paragraphs

/-! ## The outline of a part -/

/-- The tables of a header or footer as its markup shows them. -/
structure PartOutline where
  /-- The names of the open elements, innermost first. -/
  stack : List String := []
  /-- How many tables directly under the root have been met. -/
  tables : Nat := 0
  /-- The last of them that closed itself. -/
  closedTable : Option Nat := none
  rows : Nat := 0
  cells : Nat := 0
  paragraphs : Nat := 0

/-- Whether the open child of the root is a table. -/
def PartOutline.inTable (o : PartOutline) : Bool := o.stack.reverse[1]? == some "tbl"

/-- Whether the innermost element is a paragraph of a table cell. -/
def PartOutline.inCell (o : PartOutline) : Bool :=
  decide (5 ≤ o.stack.length) && ((o.stack.drop 1).take 3) == ["tc", "tr", "tbl"]

/-- Rows and cells are counted once a table has been met that is open, or closed itself. -/
def PartOutline.counting (o : PartOutline) : Bool := o.inTable || o.closedTable.isSome

def PartOutline.place (o : PartOutline) (table : Nat) : CellPlace :=
  ⟨table, o.rows, o.cells, o.paragraphs⟩

def PartOutline.enter (o : PartOutline) (tag : Tag) : PartOutline :=
  if tag.name = "tbl" ∧ o.stack.length = 1 then
    { o with
      tables := o.tables + 1
      closedTable := if tag.selfClosing then some o.tables else o.closedTable
      rows := 0
      cells := 0 }
  else if tag.name = "tr" ∧ o.stack.length = 2 ∧ o.counting then
    { o with rows := o.rows + 1, cells := 0 }
  else if tag.name = "tc" ∧ o.stack.length = 3 ∧ o.counting then
    { o with cells := o.cells + 1, paragraphs := 0 }
  else o

def PartOutline.step (o : PartOutline) (tag : Tag) : PartOutline :=
  if tag.closing then
    { o with
      stack := o.stack.tail
      paragraphs :=
        if tag.name = "p" ∧ o.inCell ∧ o.counting then o.paragraphs + 1 else o.paragraphs }
  else if tag.selfClosing then o.enter tag
  else { o.enter tag with stack := tag.name :: o.stack }

/-- The place of the cell paragraph `tag` closes outside every table under the root. -/
def PartOutline.strayCell (o : PartOutline) (tag : Tag) : Option CellPlace :=
  if tag.closing ∧ tag.name = "p" ∧ o.inCell ∧ o.inTable = false then o.closedTable.map o.place
  else none

def strayCellsFrom (o : PartOutline) : List Tag → List CellPlace
  | [] => []
  | tag :: tags => (o.strayCell tag).toList ++ strayCellsFrom (o.step tag) tags

/-- The cell paragraphs of a header or footer that are counted to a table that closed itself. -/
def strayCells (xml : Bytes) (partKey : String) : List CellPlace :=
  match partRootName (partBase partKey) with
  | none => []
  | some rootName => if isHeaderRoot rootName then strayCellsFrom {} (scanTags xml) else []

def StrayCellsApart (xml : Bytes) (partKey : String) : Prop := (strayCells xml partKey).Nodup

instance (xml : Bytes) (partKey : String) : Decidable (StrayCellsApart xml partKey) :=
  inferInstanceAs (Decidable (List.Nodup _))

/-! ## The ids -/

theorem cellParagraphId_toList (partKey : String) (place : CellPlace) :
    (place.id partKey).toList = partKey.toList ++ '.' :: 'T' :: ((place.table : Int).repr.toList ++
      '.' :: 'R' :: (((place.rows : Int) - 1).repr.toList ++
        '.' :: 'C' :: (((place.cells : Int) - 1).repr.toList ++
          '.' :: 'P' :: (place.paragraphs : Int).repr.toList))) := by
  simp [CellPlace.id, cellParagraphId, String.toList_append]

theorem CellPlace.id_injective (partKey : String) : Function.Injective (CellPlace.id partKey) := by
  intro p q h
  have h := congrArg String.toList h
  rw [cellParagraphId_toList, cellParagraphId_toList] at h
  have h := append_cancel_left h
  obtain ⟨ht, h⟩ := dotted_inj (dot_notMem_repr _) (dot_notMem_repr _)
    (List.cons.inj (List.cons.inj h).2).2
  obtain ⟨hr, h⟩ := dotted_inj (dot_notMem_repr _) (dot_notMem_repr _) (List.cons.inj h).2
  obtain ⟨hc, h⟩ := dotted_inj (dot_notMem_repr _) (dot_notMem_repr _) (List.cons.inj h).2
  have hp := repr_int_inj (List.cons.inj h).2
  have ht := repr_int_inj ht
  have hr := repr_int_inj hr
  have hc := repr_int_inj hc
  cases p
  cases q
  simp only [CellPlace.mk.injEq]
  simp only at ht hr hc hp
  omega

/-- The id of the `n`-th direct paragraph of a part. -/
def directParagraphId (partKey : String) (n : Nat) : String := partKey ++ ".P" ++ toString n

theorem directParagraphId_injective (partKey : String) :
    Function.Injective (directParagraphId partKey) := by
  intro m n h
  exact repr_nat_inj (congrArg String.toList ((String.append_right_inj _).mp h))

theorem directParagraphId_ne (partKey : String) (n : Nat) (place : CellPlace) :
    directParagraphId partKey n ≠ place.id partKey := by
  intro h
  have h := congrArg String.toList h
  rw [cellParagraphId_toList] at h
  simp [directParagraphId, String.toList_append] at h

/-! ## The scan follows the outline -/

/-- The open table directly under the root, as the scan lists it. -/
def PartState.currentTables (s : PartState) : List (Int × Nat) :=
  match s.stack.reverse[1]? with
  | some frame => if frame.1 = "tbl" then [(s.tableOrdinal, frame.2)] else []
  | none => []

/-- The places of the cell paragraphs recorded so far, and the tables that closed themselves. -/
structure PartRecord where
  recorded : List CellPlace := []
  selfClosed : List Nat := []
  strays : List CellPlace := []

/-- A place the counters have passed. -/
def CellPlace.Before (place : CellPlace) (o : PartOutline) : Prop :=
  place.rows < o.rows ∨ place.rows = o.rows ∧
    (place.cells < o.cells ∨ place.cells = o.cells ∧ place.paragraphs < o.paragraphs)

structure PartInv (partKey : String) (s : PartState) (o : PartOutline) (r : PartRecord)
    (bound : Nat) : Prop where
  names : s.stack.map (·.1) = o.stack
  ordered : s.stack.Pairwise fun f g => g.2 < f.2
  bounded : ∀ f ∈ s.stack, f.2 < bound
  tables : s.tableOrdinal = (o.tables : Int) - 1
  rows : s.trOrdinal = o.rows
  cells : s.tcOrdinal = o.cells
  paragraphs : s.cellPOrdinal = o.paragraphs
  opens : ∃ stale, s.openTables = s.currentTables ++ stale ∧
    stale.head?.map (·.1) = o.closedTable.map Nat.cast ∧
    ∀ x ∈ stale, x.2 < bound ∧ ∀ f ∈ s.stack, f.2 ≠ x.2
  current : s.currentTables ≠ [] → 0 < o.tables ∧ o.tables - 1 ∉ r.selfClosed
  closedTable : ∀ t ∈ o.closedTable, t ∈ r.selfClosed
  selfClosed : ∀ t ∈ r.selfClosed, t < o.tables
  ids : s.cellParagraphs.map (·.1) = r.recorded.map (CellPlace.id partKey)
  strays : r.recorded.filter (·.table ∈ r.selfClosed) = r.strays
  tablesLt : ∀ place ∈ r.recorded, place.table < o.tables
  regular : (r.recorded.filter (·.table ∉ r.selfClosed)).Nodup
  before : ∀ place ∈ r.recorded, place.table ∉ r.selfClosed → place.table + 1 = o.tables →
    place.Before o

theorem partInv_empty (partKey : String) : PartInv partKey {} {} {} 0 where
  names := rfl
  ordered := .nil
  bounded := by simp
  tables := rfl
  rows := rfl
  cells := rfl
  paragraphs := rfl
  opens := ⟨[], rfl, rfl, by simp⟩
  current := by simp [PartState.currentTables]
  closedTable := by simp
  selfClosed := by simp
  ids := rfl
  strays := rfl
  tablesLt := by simp
  regular := by simp
  before := by simp

section PartInv

variable {partKey rootName : String} {s s' : PartState} {o : PartOutline} {r : PartRecord}
  {bound : Nat} {tag : Tag}

section

variable (h : PartInv partKey s o r bound)

include h

theorem PartInv.inTable_eq : o.inTable = !s.currentTables.isEmpty := by
  rw [PartOutline.inTable, ← h.names, ← map_reverse, getElem?_map,
    PartState.currentTables]
  cases s.stack.reverse[1]? with
  | none => rfl
  | some frame =>
    simp only [Option.map_some]
    by_cases hname : frame.1 = "tbl"
    · simp [hname]
    · simp [hname]

/-- The innermost open table: the one under the root, else the last that closed itself. -/
theorem PartInv.head_openTables :
    s.openTables.head?.map (·.1) =
      if o.inTable then some ((o.tables : Int) - 1) else o.closedTable.map Nat.cast := by
  obtain ⟨stale, hopens, hhead, -⟩ := h.opens
  rw [hopens, h.inTable_eq, PartState.currentTables, ← h.tables]
  cases s.stack.reverse[1]? with
  | none => simpa using hhead
  | some frame =>
    by_cases hname : frame.1 = "tbl"
    · simp [hname]
    · simpa [hname] using hhead

theorem PartInv.counting_iff : s.openTables ≠ [] ↔ o.counting = true := by
  have hhead := h.head_openTables
  rw [PartOutline.counting]
  cases hopens : s.openTables with
  | nil =>
    rw [hopens] at hhead
    by_cases hin : o.inTable
    · simp [hin] at hhead
    · cases hc : o.closedTable with
      | none => simp [hin]
      | some t => simp [hin, hc] at hhead
  | cons x xs =>
    rw [hopens] at hhead
    by_cases hin : o.inTable
    · simp [hin]
    · cases hc : o.closedTable with
      | none => simp [hin, hc] at hhead
      | some t => simp

theorem PartInv.inCell_eq : o.inCell = (decide (5 ≤ s.stack.length) && inTableCell s.stack) := by
  rw [PartOutline.inCell, inTableCell, ← h.names, length_map, ← map_drop,
    ← map_take]

/-- The table under the root is closed by its own closing tag, a stale one by none. -/
theorem PartInv.popOpen_eq {top : String × Nat} {rest : List (String × Nat)}
    (hstack : s.stack = top :: rest) {stale : List (Int × Nat)}
    (hopens : s.openTables = s.currentTables ++ stale)
    (hstale : ∀ x ∈ stale, x.2 < bound ∧ ∀ f ∈ s.stack, f.2 ≠ x.2) :
    popOpen (top.1 == "tbl") top.2 s.openTables =
      { s with stack := rest }.currentTables ++ stale := by
  have hkeep : popOpen (top.1 == "tbl") top.2 stale = stale := by
    cases stale with
    | nil => rfl
    | cons x xs =>
      rw [popOpen, if_neg]
      rintro ⟨-, heq⟩
      exact (hstale x (mem_cons_self ..)).2 top (by rw [hstack]; exact mem_cons_self ..)
        heq.symm
  rw [hopens, PartState.currentTables, PartState.currentTables, hstack]
  simp only [reverse_cons]
  rcases rest with _ | ⟨f, _ | ⟨g, fs⟩⟩
  · simpa using hkeep
  · by_cases hname : top.1 = "tbl"
    · simp [hname, popOpen]
    · simpa [hname] using hkeep
  · obtain ⟨x, hx⟩ : ∃ x, (f :: g :: fs).reverse[1]? = some x :=
      ⟨_, getElem?_eq_getElem (by simp)⟩
    have hmem : x ∈ f :: g :: fs := mem_reverse.mp (mem_of_getElem? hx)
    rw [getElem?_append_left (by simp), hx]
    simp only
    split
    · have hord := h.ordered
      rw [hstack] at hord
      have := rel_of_pairwise_cons hord hmem
      rw [singleton_append, popOpen, if_neg]
      rintro ⟨-, heq⟩
      simp only at heq
      omega
    · exact hkeep

theorem PartInv.mono {bound' : Nat} (hb : bound ≤ bound') : PartInv partKey s o r bound' :=
  { h with
    bounded := fun f hf => (h.bounded f hf).trans_le hb
    opens := by
      obtain ⟨stale, hopens, hhead, hstale⟩ := h.opens
      exact ⟨stale, hopens, hhead, fun x hx => ⟨(hstale x hx).1.trans_le hb, (hstale x hx).2⟩⟩ }

end

/-- Pushing an element that is no table under the root. -/
theorem currentTables_push {frame : String × Nat} (hframe : ¬ (frame.1 = "tbl" ∧ s.stack.length = 1)) :
    { s with stack := frame :: s.stack }.currentTables = s.currentTables := by
  rw [PartState.currentTables, PartState.currentTables]
  simp only [reverse_cons]
  match hstack : s.stack with
  | [] => simp
  | [f] =>
    have : frame.1 ≠ "tbl" := fun hname => hframe ⟨hname, by rw [hstack]; rfl⟩
    simp [this]
  | f :: g :: fs => rw [getElem?_append_left (by simp)]

section

variable (h : PartInv partKey s o r bound)

include h

theorem PartInv.push (htag : bound ≤ tag.start) (hname : ¬ (tag.name = "tbl" ∧ s.stack.length = 1))
    :
    PartInv partKey { s with stack := (tag.name, tag.start) :: s.stack }
      { o with stack := tag.name :: o.stack } r (tag.start + 1) :=
  { h.mono (Nat.le_succ_of_le htag) with
    names := by rw [map_cons, h.names]
    ordered := pairwise_cons.mpr
      ⟨fun f hf => (h.bounded f hf).trans_le htag, h.ordered⟩
    bounded := fun f hf => by
      rcases mem_cons.mp hf with rfl | hf
      · exact Nat.lt_succ_self _
      · have := h.bounded f hf
        omega
    opens := by
      obtain ⟨stale, hopens, hhead, hstale⟩ := h.opens
      refine ⟨stale, by rw [currentTables_push hname]; exact hopens, hhead, fun x hx => ?_⟩
      have := (hstale x hx).1
      refine ⟨by omega, fun f hf => ?_⟩
      rcases mem_cons.mp hf with rfl | hf
      · simp only
        omega
      · exact (hstale x hx).2 f hf
    current := by
      rw [currentTables_push hname]
      exact h.current
    before := h.before }

/-- Counting a row, a cell or a paragraph moves the counters on. -/
theorem PartInv.advance {rows cells paragraphs : Nat} {trOrdinal tcOrdinal cellPOrdinal : Int}
    (htr : trOrdinal = rows) (htc : tcOrdinal = cells) (hp : cellPOrdinal = paragraphs)
    (hnext : ∀ place : CellPlace, place.Before o →
      place.Before { o with rows := rows, cells := cells, paragraphs := paragraphs }) :
    PartInv partKey
      { s with trOrdinal := trOrdinal, tcOrdinal := tcOrdinal, cellPOrdinal := cellPOrdinal }
      { o with rows := rows, cells := cells, paragraphs := paragraphs } r bound :=
  { h with
    rows := htr
    cells := htc
    paragraphs := hp
    before := fun place hmem hno ht => hnext place (h.before place hmem hno ht) }

theorem PartInv.enterRoot : PartInv partKey (s.enterRoot rootName tag) o r bound := by
  rw [PartState.enterRoot]
  split
  · exact { h with }
  · exact h

/-- A new table directly under the root starts all counters again. -/
theorem PartInv.openTable (htag : bound ≤ tag.start) (hlen : s.stack.length = 1) :
    PartInv partKey
      { s with
        tableOrdinal := s.tableOrdinal + 1
        trOrdinal := 0
        tcOrdinal := 0
        openTables := (s.tableOrdinal + 1, tag.start) :: s.openTables
        stack := ("tbl", tag.start) :: s.stack }
      { o with tables := o.tables + 1, rows := 0, cells := 0, stack := "tbl" :: o.stack } r
      (tag.start + 1) := by
  obtain ⟨root, hroot⟩ := length_eq_one_iff.mp hlen
  obtain ⟨stale, hopens, hhead, hstale⟩ := h.opens
  have hcurrent : s.currentTables = [] := by simp [PartState.currentTables, hroot]
  exact
    { names := by rw [map_cons, h.names]
      ordered := pairwise_cons.mpr ⟨fun f hf => (h.bounded f hf).trans_le htag, h.ordered⟩
      bounded := fun f hf => by
        rcases mem_cons.mp hf with rfl | hf
        · exact Nat.lt_succ_self _
        · have := h.bounded f hf
          omega
      tables := by
        have := h.tables
        simp only
        omega
      rows := rfl
      cells := rfl
      paragraphs := h.paragraphs
      opens := by
        refine ⟨stale, ?_, hhead, fun x hx => ?_⟩
        · rw [hopens, hcurrent, PartState.currentTables, hroot]
          rfl
        · have := (hstale x hx).1
          refine ⟨by omega, fun f hf => ?_⟩
          rcases mem_cons.mp hf with rfl | hf
          · simp only
            omega
          · exact (hstale x hx).2 f hf
      current := fun _ => ⟨Nat.succ_pos _, fun hmem => by
        have := h.selfClosed _ hmem
        simp at this⟩
      closedTable := h.closedTable
      selfClosed := fun t ht => Nat.lt_succ_of_lt (h.selfClosed t ht)
      ids := h.ids
      strays := h.strays
      tablesLt := fun place hp => Nat.lt_succ_of_lt (h.tablesLt place hp)
      regular := h.regular
      before := fun place hp _ ht => by
        have := h.tablesLt place hp
        simp only at ht
        omega }

/-- A table directly under the root that closes itself takes over the stray paragraphs. -/
theorem PartInv.openSelfClosing (htag : bound ≤ tag.start) (hlen : s.stack.length = 1) :
    PartInv partKey
      { s with
        tableOrdinal := s.tableOrdinal + 1
        trOrdinal := 0
        tcOrdinal := 0
        openTables := (s.tableOrdinal + 1, tag.start) :: s.openTables }
      { o with tables := o.tables + 1, closedTable := some o.tables, rows := 0, cells := 0 }
      { r with selfClosed := o.tables :: r.selfClosed } (tag.start + 1) := by
  obtain ⟨root, hroot⟩ := length_eq_one_iff.mp hlen
  obtain ⟨stale, hopens, hhead, hstale⟩ := h.opens
  have hcurrent : ∀ s' : PartState, s'.stack = s.stack → s'.currentTables = [] := by
    intro s' hs'
    simp [PartState.currentTables, hs', hroot]
  have hcurrent' := hcurrent { s with
    tableOrdinal := s.tableOrdinal + 1
    trOrdinal := 0
    tcOrdinal := 0
    openTables := (s.tableOrdinal + 1, tag.start) :: s.openTables } rfl
  have hmem : ∀ place ∈ r.recorded,
      (place.table ∈ o.tables :: r.selfClosed ↔ place.table ∈ r.selfClosed) := by
    intro place hp
    have := h.tablesLt place hp
    rw [mem_cons, or_iff_right (by omega)]
  exact
    { names := h.names
      ordered := h.ordered
      bounded := fun f hf => by
        have := h.bounded f hf
        omega
      tables := by
        have := h.tables
        simp only
        omega
      rows := rfl
      cells := rfl
      paragraphs := h.paragraphs
      opens := by
        refine ⟨(s.tableOrdinal + 1, tag.start) :: stale, ?_, ?_, fun x hx => ?_⟩
        · rw [hcurrent', hopens, hcurrent s rfl]
          rfl
        · have := h.tables
          simp only [head?_cons, Option.map_some, Option.some.injEq]
          omega
        · rcases mem_cons.mp hx with rfl | hx
          · refine ⟨Nat.lt_succ_self _, fun f hf => ?_⟩
            have := h.bounded f hf
            simp only
            omega
          · have := (hstale x hx).1
            exact ⟨by omega, (hstale x hx).2⟩
      current := fun hne => absurd hcurrent' hne
      closedTable := fun t ht => by
        obtain rfl := Option.some.inj ht
        exact mem_cons_self ..
      selfClosed := fun t ht => by
        rcases mem_cons.mp ht with rfl | ht
        · exact Nat.lt_succ_self _
        · exact Nat.lt_succ_of_lt (h.selfClosed t ht)
      ids := h.ids
      strays := by
        rw [← h.strays]
        exact filter_congr fun place hp => by simpa using hmem place hp
      tablesLt := fun place hp => Nat.lt_succ_of_lt (h.tablesLt place hp)
      regular := by
        have hfilter : r.recorded.filter (·.table ∉ o.tables :: r.selfClosed) =
            r.recorded.filter (·.table ∉ r.selfClosed) :=
          filter_congr fun place hp => by simpa using not_congr (hmem place hp)
        simp only
        rw [hfilter]
        exact h.regular
      before := fun place hp _ ht => by
        have := h.tablesLt place hp
        simp only at ht
        omega }

end

@[simp] theorem PartOutline.enter_stack (o : PartOutline) (tag : Tag) :
    (o.enter tag).stack = o.stack := by
  rw [enter]
  split
  · rfl
  · split
    · rfl
    · split <;> rfl

@[simp] theorem PartState.enterRoot_stack (s : PartState) (rootName : String) (tag : Tag) :
    (s.enterRoot rootName tag).stack = s.stack := by
  rw [enterRoot]
  split <;> rfl

@[simp] theorem PartState.enterRow_stack (s : PartState) (tag : Tag) :
    (s.enterRow tag).stack = s.stack := by
  rw [enterRow]
  split <;> rfl

@[simp] theorem PartState.enterCell_stack (s : PartState) (tag : Tag) :
    (s.enterCell tag).stack = s.stack := by
  rw [enterCell]
  split <;> rfl

/-- A tag that opens no table under the root counts a row, a cell or nothing. -/
theorem PartInv.enterRowCell (h : PartInv partKey s o r bound)
    (htable : ¬ (tag.name = "tbl" ∧ s.stack.length = 1)) :
    PartInv partKey ((s.enterRow tag).enterCell tag) (o.enter tag) r bound := by
  have hlen : o.stack.length = s.stack.length := by rw [← h.names, length_map]
  have hcounting := h.counting_iff
  rw [PartOutline.enter, hlen, if_neg htable, PartState.enterRow]
  by_cases hrow : tag.name = "tr" ∧ s.stack.length = 2 ∧ s.openTables ≠ []
  · rw [if_pos hrow, if_pos ⟨hrow.1, hrow.2.1, hcounting.mp hrow.2.2⟩, PartState.enterCell,
      if_neg (by rw [hrow.1]; simp)]
    refine h.advance (by rw [h.rows]; rfl) rfl h.paragraphs fun place hp => .inl ?_
    rcases hp with hlt | ⟨heq, -⟩
    · exact Nat.lt_succ_of_lt hlt
    · exact Nat.lt_succ_of_le heq.le
  · rw [if_neg hrow, if_neg (fun hc => hrow ⟨hc.1, hc.2.1, hcounting.mpr hc.2.2⟩),
      PartState.enterCell]
    by_cases hcell : tag.name = "tc" ∧ s.stack.length = 3 ∧ s.openTables ≠ []
    · rw [if_pos hcell, if_pos ⟨hcell.1, hcell.2.1, hcounting.mp hcell.2.2⟩]
      refine h.advance h.rows (by rw [h.cells]; rfl) rfl fun place hp => ?_
      rcases hp with hlt | ⟨heq, hlt | ⟨heq', -⟩⟩
      · exact .inl hlt
      · exact .inr ⟨heq, .inl (Nat.lt_succ_of_lt hlt)⟩
      · exact .inr ⟨heq, .inl (Nat.lt_succ_of_le heq'.le)⟩
    · rw [if_neg hcell, if_neg (fun hc => hcell ⟨hc.1, hc.2.1, hcounting.mpr hc.2.2⟩)]
      exact h

theorem PartInv.open (h : PartInv partKey s o r bound) (hroot : isHeaderRoot rootName = true)
    (hclosing : tag.closing = false) (htag : bound ≤ tag.start) :
    ∃ r', r'.strays = r.strays ∧
      PartInv partKey (partOpening rootName s tag) (o.step tag) r' (tag.start + 1) := by
  have h₀ : PartInv partKey (s.enterRoot rootName tag) o r bound := h.enterRoot
  have hlen : o.stack.length = s.stack.length := by rw [← h.names, length_map]
  have hstep : o.step tag = if tag.selfClosing then o.enter tag
      else { o.enter tag with stack := tag.name :: o.stack } := by
    rw [PartOutline.step, if_neg (by simp [hclosing])]
  rw [partOpening, hstep]
  by_cases htable : tag.name = "tbl" ∧ s.stack.length = 1
  · have hstate : (((s.enterRoot rootName tag).enterTable rootName tag).enterRow tag).enterCell tag =
        { s.enterRoot rootName tag with
          tableOrdinal := (s.enterRoot rootName tag).tableOrdinal + 1
          trOrdinal := 0
          tcOrdinal := 0
          openTables := ((s.enterRoot rootName tag).tableOrdinal + 1, tag.start) ::
            (s.enterRoot rootName tag).openTables } := by
      rw [PartState.enterTable, if_pos ⟨htable.1, by simpa using htable.2, hroot⟩,
        PartState.enterRow, if_neg (by rw [htable.1]; simp), PartState.enterCell,
        if_neg (by rw [htable.1]; simp)]
    have hlen₀ : (s.enterRoot rootName tag).stack.length = 1 := by simpa using htable.2
    have hout : o.enter tag = { o with
        tables := o.tables + 1
        closedTable := if tag.selfClosing then some o.tables else o.closedTable
        rows := 0
        cells := 0 } := by
      rw [PartOutline.enter, if_pos ⟨htable.1, by rw [hlen]; exact htable.2⟩]
    rw [hstate, hout]
    simp only
    by_cases hself : tag.selfClosing
    · simp only [hself, if_true]
      exact ⟨{ r with selfClosed := o.tables :: r.selfClosed }, rfl, h₀.openSelfClosing htag hlen₀⟩
    · simp only [hself, Bool.false_eq_true, if_false]
      refine ⟨r, rfl, ?_⟩
      have := h₀.openTable htag hlen₀
      rw [PartState.enterRoot_stack] at this
      rw [htable.1]
      exact this
  · have henter : (s.enterRoot rootName tag).enterTable rootName tag = s.enterRoot rootName tag := by
      rw [PartState.enterTable, if_neg]
      rintro ⟨hname, hl, -⟩
      exact htable ⟨hname, by simpa using hl⟩
    have h₁ := h₀.enterRowCell (by simpa using htable)
    rw [henter]
    refine ⟨r, ?_⟩
    by_cases hself : tag.selfClosing
    · simp only [hself, if_true]
      exact ⟨trivial, h₁.mono (Nat.le_succ_of_le htag)⟩
    · simp only [hself, Bool.false_eq_true, if_false]
      have := h₁.push htag (by simpa using htable)
      rw [PartOutline.enter_stack, PartState.enterCell_stack, PartState.enterRow_stack,
        PartState.enterRoot_stack] at this
      exact ⟨trivial, this⟩

theorem PartOutline.head_lt_counters {place : CellPlace} {table : Nat} (h : place.Before o) :
    place ≠ o.place table := by
  rintro rfl
  simp only [CellPlace.Before, PartOutline.place] at h
  omega

/-- Recording a cell paragraph of the table with number `table`. -/
theorem PartInv.record (h : PartInv partKey s o r bound) {table : Nat} {entry : String × Nat × Nat}
    (hid : entry.1 = (o.place table).id partKey)
    (htable : (table ∉ r.selfClosed ∧ table + 1 = o.tables) ∨
      (table ∈ r.selfClosed ∧ table < o.tables)) :
    PartInv partKey
      { s with
        cellParagraphs := s.cellParagraphs ++ [entry]
        cellPOrdinal := s.cellPOrdinal + 1 }
      { o with paragraphs := o.paragraphs + 1 }
      { r with
        recorded := r.recorded ++ [o.place table]
        strays := r.strays ++ if table ∈ r.selfClosed then [o.place table] else [] } bound :=
  { h with
    paragraphs := by
      rw [h.paragraphs]
      rfl
    ids := by
      simp only
      rw [map_append, map_append, h.ids, map_singleton, map_singleton, hid]
    strays := by
      simp only
      rw [filter_append, h.strays]
      congr 1
      by_cases hmem : table ∈ r.selfClosed
      · simp [PartOutline.place, hmem]
      · simp [PartOutline.place, hmem]
    tablesLt := fun place hp => by
      rcases mem_append.mp hp with hp | hp
      · exact h.tablesLt place hp
      · rw [mem_singleton.mp hp]
        simp only [PartOutline.place]
        omega
    regular := by
      simp only
      rw [filter_append]
      refine nodup_append.mpr ⟨h.regular, (nodup_singleton _).filter _, ?_⟩
      intro place hp place' hp' heq
      obtain ⟨hmem, hno⟩ := mem_filter.mp hp
      rw [mem_singleton.mp (mem_of_mem_filter hp')] at heq
      have hno : place.table ∉ r.selfClosed := by simpa using hno
      -- the counters have passed every earlier paragraph of the open table
      refine PartOutline.head_lt_counters (h.before place hmem hno ?_) heq
      rw [heq] at hno ⊢
      rcases htable with ht | ht
      · exact ht.2
      · exact absurd ht.1 hno
    before := fun place hp hno ht => by
      rcases mem_append.mp hp with hp | hp
      · rcases h.before place hp hno ht with hlt | ⟨heq, hlt | ⟨heq', hlt⟩⟩
        · exact .inl hlt
        · exact .inr ⟨heq, .inl hlt⟩
        · exact .inr ⟨heq, .inr ⟨heq', Nat.lt_succ_of_lt hlt⟩⟩
      · rw [mem_singleton.mp hp]
        exact .inr ⟨rfl, .inr ⟨rfl, Nat.lt_succ_self _⟩⟩ }

/-- Leaving the innermost element. -/
theorem PartInv.pop (h : PartInv partKey s o r bound) {top : String × Nat}
    {rest : List (String × Nat)} (hstack : s.stack = top :: rest) :
    PartInv partKey
      { s with openTables := popOpen (top.1 == "tbl") top.2 s.openTables, stack := rest }
      { o with stack := o.stack.tail } r bound := by
  obtain ⟨stale, hopens, hhead, hstale⟩ := h.opens
  have hpop := h.popOpen_eq hstack hopens hstale
  have hord := h.ordered
  rw [hstack] at hord
  exact
    { h with
      names := by
        rw [← h.names, hstack]
        rfl
      ordered := hord.of_cons
      bounded := fun f hf => h.bounded f (by rw [hstack]; exact mem_cons_of_mem _ hf)
      opens := ⟨stale, hpop, hhead, fun x hx => ⟨(hstale x hx).1, fun f hf =>
        (hstale x hx).2 f (by rw [hstack]; exact mem_cons_of_mem _ hf)⟩⟩
      current := fun hne => by
        refine h.current fun hnil => hne ?_
        -- a table under the root that is open now was open before
        rw [PartState.currentTables] at hnil ⊢
        rw [hstack, reverse_cons] at hnil
        simp only
        cases hget : rest.reverse[1]? with
        | none => rfl
        | some frame =>
          rw [getElem?_append_left (List.getElem?_eq_some_iff.mp hget).1, hget] at hnil
          exact hnil
      before := h.before }

theorem partClosing_eq_ok (h : partClosing partKey rootName s tag = .ok s') :
    ∃ top rest rootEnd paragraphs s₁, s.stack = top :: rest ∧ top.1 = tag.name ∧
      { s with rootEnd := rootEnd, paragraphs := paragraphs }.closeCellParagraph partKey rootName
        top.2 tag = .ok s₁ ∧
      s' = { s₁ with openTables := popOpen (tag.name == "tbl") top.2 s₁.openTables, stack := rest } := by
  rw [partClosing] at h
  cases hstack : s.stack with
  | nil =>
    rw [hstack] at h
    exact (refuse_ne_ok h).elim
  | cons top rest =>
    rw [hstack] at h
    simp only at h
    split at h
    next => exact (refuse_ne_ok h).elim
    next hname =>
      obtain ⟨s₁, hs₁, hs'⟩ := bind_eq_ok h
      exact ⟨top, rest, _, _, s₁, rfl, not_not.mp hname, hs₁, (Except.ok.inj hs').symm⟩

theorem PartInv.cellParagraph (h : PartInv partKey s o r bound)
    (hroot : isHeaderRoot rootName = true) (hclosing : tag.closing = true) {topStart : Nat}
    (hstep : s.closeCellParagraph partKey rootName topStart tag = .ok s') :
    s'.stack = s.stack ∧ ∃ r', r'.strays = r.strays ++ (o.strayCell tag).toList ∧
      PartInv partKey s' { o with
        paragraphs := if tag.name = "p" ∧ o.inCell ∧ o.counting then o.paragraphs + 1
          else o.paragraphs } r' bound := by
  rw [PartState.closeCellParagraph] at hstep
  have hcounting := h.counting_iff
  by_cases hcell : tag.name = "p" ∧ o.inCell = true ∧ o.counting = true
  · have hcond := hcell.2.1
    rw [h.inCell_eq, Bool.and_eq_true, decide_eq_true_eq] at hcond
    rw [if_pos ⟨hcell.1, hcond.1, hroot, hcounting.mpr hcell.2.2, hcond.2⟩] at hstep
    obtain ⟨table, htable, hs'⟩ := bind_eq_ok hstep
    obtain rfl := Except.ok.inj hs'
    have hhead := h.head_openTables
    rw [expect_eq_ok_iff.mp htable, Option.map_some] at hhead
    rw [if_pos hcell]
    refine ⟨rfl, ?_⟩
    have hid : ∀ n : Nat, table.1 = n →
        cellParagraphId partKey table.1 s.trOrdinal s.tcOrdinal s.cellPOrdinal =
          (o.place n).id partKey := by
      intro n hn
      rw [hn, h.rows, h.cells, h.paragraphs]
      rfl
    by_cases hin : o.inTable = true
    · rw [if_pos hin] at hhead
      have hcurrent : s.currentTables ≠ [] := by
        have := h.inTable_eq
        rw [hin] at this
        simpa using this
      obtain ⟨hpos, hno⟩ := h.current hcurrent
      have htable : table.1 = ((o.tables - 1 : Nat) : Int) := by
        have := Option.some.inj hhead
        omega
      refine ⟨_, ?_, h.record (hid _ htable) (.inl ⟨hno, by omega⟩)⟩
      simp [hno, PartOutline.strayCell, hin]
    · rw [if_neg hin] at hhead
      obtain ⟨t, hclosed⟩ : ∃ t, o.closedTable = some t := by
        refine Option.ne_none_iff_exists'.mp fun hnone => ?_
        rw [hnone] at hhead
        simp at hhead
      rw [hclosed, Option.map_some] at hhead
      have hmem := h.closedTable t (by rw [hclosed]; rfl)
      refine ⟨_, ?_, h.record (hid t (Option.some.inj hhead)) (.inr ⟨hmem, h.selfClosed t hmem⟩)⟩
      simp [hmem, PartOutline.strayCell, hin, hclosed, hcell, hclosing]
  · rw [if_neg] at hstep
    · obtain rfl := Except.ok.inj hstep
      rw [if_neg hcell]
      refine ⟨rfl, r, ?_, h⟩
      rw [PartOutline.strayCell]
      split
      next hstray =>
        cases hclosed : o.closedTable with
        | none => simp
        | some t =>
          refine absurd ⟨hstray.2.1, hstray.2.2.1, ?_⟩ hcell
          simp [PartOutline.counting, hclosed]
      next => simp
    · rintro ⟨hname, hlen, -, hopens, hin⟩
      exact hcell ⟨hname, by rw [h.inCell_eq]; simp [hlen, hin], hcounting.mp hopens⟩

theorem PartInv.close (h : PartInv partKey s o r bound) (hroot : isHeaderRoot rootName = true)
    (hclosing : tag.closing = true) (hstep : partClosing partKey rootName s tag = .ok s') :
    ∃ r', r'.strays = r.strays ++ (o.strayCell tag).toList ∧
      PartInv partKey s' (o.step tag) r' bound := by
  obtain ⟨top, rest, rootEnd, paragraphs, s₁, hstack, hname, hs₁, rfl⟩ := partClosing_eq_ok hstep
  have h₀ : PartInv partKey { s with rootEnd := rootEnd, paragraphs := paragraphs } o r bound :=
    { h with }
  obtain ⟨hstack₁, r', hstrays, h₁⟩ := h₀.cellParagraph hroot hclosing hs₁
  refine ⟨r', hstrays, ?_⟩
  have hpop := h₁.pop (hstack₁.trans hstack)
  rw [hname] at hpop
  rw [PartOutline.step, if_pos hclosing]
  exact hpop

/-- The invariant holds at the end of a pass over a header or footer. -/
theorem PartInv.run (hroot : isHeaderRoot rootName = true) : ∀ {tags : List Tag}
    {s final : PartState} {o : PartOutline} {r : PartRecord} {bound : Nat},
    PartInv partKey s o r bound → tags.foldlM (scanPartStep partKey rootName) s = .ok final →
      (∀ tag ∈ tags, bound ≤ tag.start) → tags.Pairwise (fun t u => t.start < u.start) →
      ∃ o' r' bound', PartInv partKey final o' r' bound' ∧
        r'.strays = r.strays ++ strayCellsFrom o tags
  | [], s, final, o, r, bound, h, hrun, _, _ => by
    obtain rfl := Except.ok.inj hrun
    exact ⟨o, r, bound, h, by rw [strayCellsFrom, append_nil]⟩
  | tag :: tags, s, final, o, r, bound, h, hrun, htags, hord => by
    rw [foldlM_cons] at hrun
    obtain ⟨s', hs', hrun⟩ := bind_eq_ok hrun
    rw [scanPartStep] at hs'
    rw [strayCellsFrom]
    split at hs'
    next hclosing =>
      obtain ⟨r₁, hr₁, h₁⟩ := h.close hroot hclosing hs'
      obtain ⟨o', r', bound', hinv, hstrays⟩ := h₁.run hroot hrun
        (fun tag' htag' => htags tag' (mem_cons_of_mem _ htag')) hord.of_cons
      exact ⟨o', r', bound', hinv, by rw [hstrays, hr₁, append_assoc]⟩
    next hclosing =>
      obtain rfl := Except.ok.inj hs'
      have hclosing : tag.closing = false := by simpa using hclosing
      obtain ⟨r₁, hr₁, h₁⟩ := h.open hroot hclosing (htags tag (mem_cons_self ..))
      obtain ⟨o', r', bound', hinv, hstrays⟩ := h₁.run hroot hrun
        (fun tag' htag' => rel_of_pairwise_cons hord htag') hord.of_cons
      refine ⟨o', r', bound', hinv, ?_⟩
      rw [hstrays, hr₁, PartOutline.strayCell, if_neg (by simp [hclosing])]
      rfl

end PartInv

/-! ## Distinct ids -/

theorem PartInv.nodup_iff {partKey : String} {s : PartState} {o : PartOutline} {r : PartRecord}
    {bound : Nat} (h : PartInv partKey s o r bound) (n : Nat) :
    ((List.range n).map (directParagraphId partKey) ++ s.cellParagraphs.map (·.1)).Nodup ↔
      r.strays.Nodup := by
  have hdirect : ((List.range n).map (directParagraphId partKey)).Nodup :=
    nodup_range.map (directParagraphId_injective partKey)
  rw [h.ids, nodup_append', nodup_map_iff (CellPlace.id_injective partKey), ← h.strays]
  constructor
  · rintro ⟨-, hnodup, -⟩
    exact hnodup.filter _
  · intro hstrays
    refine ⟨hdirect, ?_, ?_⟩
    · -- a stray paragraph and one of an open table differ by the table
      have hperm : (r.recorded.filter (·.table ∈ r.selfClosed) ++
          r.recorded.filter (·.table ∉ r.selfClosed)).Perm r.recorded := by
        have := filter_append_perm (fun p : CellPlace => decide (p.table ∈ r.selfClosed))
          r.recorded
        simpa using this
      refine hperm.nodup_iff.mp (nodup_append.mpr ⟨hstrays, h.regular, ?_⟩)
      rintro p hp q hq rfl
      have hin := (mem_filter.mp hp).2
      have hno := (mem_filter.mp hq).2
      simp only [decide_eq_true_eq] at hin hno
      exact hno hin
    · intro id hid hcell
      obtain ⟨k, -, rfl⟩ := mem_map.mp hid
      obtain ⟨place, -, hplace⟩ := mem_map.mp hcell
      exact directParagraphId_ne partKey k place hplace.symm

section Opening

variable {rootName : String} {s : PartState} {tag : Tag}

theorem partOpening_stack : (partOpening rootName s tag).stack =
    if tag.selfClosing then s.stack else (tag.name, tag.start) :: s.stack := by
  simp only [partOpening, PartState.enterCell, PartState.enterRow, PartState.enterTable,
    PartState.enterRoot, apply_ite PartState.stack, ite_self]

theorem partOpening_paragraphs : (partOpening rootName s tag).paragraphs = s.paragraphs := by
  simp only [partOpening, PartState.enterCell, PartState.enterRow, PartState.enterTable,
    PartState.enterRoot, apply_ite PartState.paragraphs, ite_self]

theorem partOpening_cells : (partOpening rootName s tag).cellParagraphs = s.cellParagraphs := by
  simp only [partOpening, PartState.enterCell, PartState.enterRow, PartState.enterTable,
    PartState.enterRoot, apply_ite PartState.cellParagraphs, ite_self]

/-- Only the part of a header or a footer has tables. -/
theorem partOpening_tables (hroot : isHeaderRoot rootName = false) :
    (partOpening rootName s tag).openTables = s.openTables := by
  simp only [partOpening, PartState.enterCell, PartState.enterRow, PartState.enterTable,
    PartState.enterRoot, apply_ite PartState.openTables, ite_self, hroot, Bool.false_eq_true,
    and_false, if_false]

end Opening

/-- Outside headers and footers no table is opened, and no cell paragraph recorded. -/
theorem scanPart_no_cells {partKey rootName : String} (hroot : isHeaderRoot rootName = false) :
    ∀ {tags : List Tag} {s final : PartState},
      tags.foldlM (scanPartStep partKey rootName) s = .ok final →
      s.openTables = [] → s.cellParagraphs = [] → final.cellParagraphs = []
  | [], s, final, hrun, _, hcells => by
    obtain rfl := Except.ok.inj hrun
    exact hcells
  | tag :: tags, s, final, hrun, hopens, hcells => by
    rw [foldlM_cons] at hrun
    obtain ⟨s', hs', hrun⟩ := bind_eq_ok hrun
    suffices h : s'.openTables = [] ∧ s'.cellParagraphs = [] from
      scanPart_no_cells hroot hrun h.1 h.2
    rw [scanPartStep] at hs'
    split at hs'
    · obtain ⟨top, rest, rootEnd, paragraphs, s₁, -, -, hs₁, rfl⟩ := partClosing_eq_ok hs'
      rw [PartState.closeCellParagraph, if_neg (by simp [hopens])] at hs₁
      obtain rfl := Except.ok.inj hs₁
      exact ⟨by simp [hopens, popOpen], hcells⟩
    · obtain rfl := Except.ok.inj hs'
      exact ⟨(partOpening_tables hroot).trans hopens, partOpening_cells.trans hcells⟩

/-- The ids of a part are distinct exactly when its stray cell paragraphs are counted apart. -/
theorem scanPart_nodup_iff {xml : Bytes} {partKey : String} {located : List (String × Nat × Nat)}
    (h : scanPart xml partKey = .ok located) :
    (located.map (·.1)).Nodup ↔ StrayCellsApart xml partKey := by
  rw [scanPart] at h
  split at h
  next => exact (refuse_ne_ok h).elim
  next rootName hname =>
    have hstray : strayCells xml partKey =
        if isHeaderRoot rootName then strayCellsFrom {} (scanTags xml) else [] := by
      rw [strayCells, hname]
    obtain ⟨s, hrun, h⟩ := bind_eq_ok h
    split at h
    next => exact (refuse_ne_ok h).elim
    next =>
      split at h
      next => exact (refuse_ne_ok h).elim
      next =>
        obtain rfl := Except.ok.inj h
        have hids : ((s.paragraphs.zipIdx.map fun entry =>
            (partKey ++ ".P" ++ toString entry.2, entry.1.1, entry.1.2)) ++
              s.cellParagraphs).map (·.1) =
            (List.range s.paragraphs.length).map (directParagraphId partKey) ++
              s.cellParagraphs.map (·.1) := by
          rw [map_append, map_map, range_eq_range', ← zipIdx_map_snd,
            map_map]
          rfl
        rw [StrayCellsApart, hids, hstray]
        by_cases hroot : isHeaderRoot rootName = true
        · rw [if_pos hroot]
          have hord := scanAt_ordered 0 xml
          obtain ⟨o', r', bound', hinv, hstrays⟩ := (partInv_empty partKey).run hroot hrun
            (fun tag _ => Nat.zero_le _)
            (hord.1.imp_of_mem fun {t u} ht _ htu => (hord.2 t ht).2.1.trans_le htu)
          rw [hinv.nodup_iff, hstrays]
          rfl
        · rw [if_neg hroot, scanPart_no_cells (by simpa using hroot) hrun rfl rfl]
          simpa using nodup_range.map (directParagraphId_injective partKey)

end Docx2Typed
