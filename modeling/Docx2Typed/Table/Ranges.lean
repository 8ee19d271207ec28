import Docx2Typed.Prose.Locate

/-!
# Addressing tables by byte ranges

The table operations of `govern.rs` find their table with a scanner of their own.
`body_table_ranges` lists the tables that stand directly in the body, `table_rows_and_cells` the
rows and cells of one of them; an operation then takes the table, row and cell by index.
-/

namespace Docx2Typed

/-! ## The tables of a body -/

/-- The open elements and open tables are kept innermost first. -/
structure BodyTableScan where
  tables : List (Nat × Nat) := []
  openTables : List Nat := []
  bodyDepth : Option Nat := none
  depth : Nat := 0
  stack : List (String × Nat) := []
  deriving DecidableEq, Repr

/-- A closing tag that does not match the innermost open element is passed over. -/
def bodyTableClosing (s : BodyTableScan) (tag : Tag) : BodyTableScan :=
  match s.stack with
  | [] => s
  | (name, openStart) :: rest =>
    if name = tag.name then
      let closesTable := name = "tbl" ∧ s.openTables.head? = some openStart
      { tables := if closesTable then s.tables ++ [(openStart, tag.stop)] else s.tables
        openTables := if closesTable then s.openTables.tail else s.openTables
        bodyDepth := if name = "body" ∧ s.depth = 1 then none else s.bodyDepth
        depth := s.depth - 1
        stack := rest }
    else s

def bodyTableOpening (s : BodyTableScan) (tag : Tag) : BodyTableScan :=
  let bodyDepth := if tag.name = "body" ∧ s.bodyDepth = none then some s.depth else s.bodyDepth
  let opensTable := tag.name = "tbl" ∧ bodyDepth.any (s.depth = · + 1) ∧ tag.selfClosing = false
  { tables := s.tables
    openTables := if opensTable then tag.start :: s.openTables else s.openTables
    bodyDepth
    depth := if tag.selfClosing then s.depth else s.depth + 1
    stack := if tag.selfClosing then s.stack else (tag.name, tag.start) :: s.stack }

def bodyTableStep (s : BodyTableScan) (tag : Tag) : BodyTableScan :=
  if tag.closing then bodyTableClosing s tag else bodyTableOpening s tag

/-- `body_table_ranges`. -/
def bodyTableRanges (xml : Bytes) : List (Nat × Nat) :=
  ((scanTags xml).foldl bodyTableStep {}).tables

/-! ## The rows and cells of a table -/

structure RowScan where
  rows : List (Nat × Nat) := []
  cells : List (Nat × Nat) := []
  /-- Open elements, innermost first. -/
  stack : List (String × Nat) := []
  nestedTbls : Nat := 0
  deriving DecidableEq, Repr

def rowStep (tableStart : Nat) (s : RowScan) (tag : Tag) : Outcome RowScan :=
  if tag.closing then
    match s.stack with
    | [] => refuse s!"malformed table XML nesting near {tag.rawName}"
    | (name, openStart) :: rest =>
      if name ≠ tag.name then refuse s!"malformed table XML nesting near {tag.rawName}"
      else
        let own (part : String) := if name = part ∧ s.nestedTbls = 0 then [(openStart, tag.stop)] else []
        pure
          { rows := s.rows ++ own "tr"
            cells := s.cells ++ own "tc"
            stack := rest
            nestedTbls := if name = "tbl" then s.nestedTbls - 1 else s.nestedTbls }
  else
    pure { s with
      stack := if tag.selfClosing then s.stack else (tag.name, tag.start) :: s.stack
      nestedTbls :=
        if tag.name = "tbl" ∧ tag.start ≠ tableStart then s.nestedTbls + 1 else s.nestedTbls }

/-- `table_rows_and_cells`. -/
def tableRowsAndCells (xml : Bytes) (tableStart tableEnd : Nat) :
    Outcome (List (Nat × Nat) × List (Nat × Nat)) := do
  let tags := (scanTags xml).filter fun tag => tableStart ≤ tag.start && tag.start < tableEnd
  let s ← tags.foldlM (rowStep tableStart) {}
  pure (s.rows, s.cells)

/-- The cells of one row. -/
def cellsOfRow (cells : List (Nat × Nat)) (row : Nat × Nat) : List (Nat × Nat) :=
  cells.filter fun cell => row.1 ≤ cell.1 && cell.2 ≤ row.2

/-- The bytes `apply_table_operation` takes for a cell of a table. -/
def cellAt (xml : Bytes) (table row cell : Nat) : Option (Nat × Nat) := do
  let range ← (bodyTableRanges xml)[table]?
  let (rows, cells) ← (tableRowsAndCells xml range.1 range.2).toOption
  let rowRange ← rows[row]?
  (cellsOfRow cells rowRange)[cell]?

end Docx2Typed
