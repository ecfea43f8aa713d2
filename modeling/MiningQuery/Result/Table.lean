/-
  File:      MiningQuery/Result/Table.lean
  Subject:   A table of values with named columns.

  A row or a column is added only if it has the right length, so every row keeps one value for
  every column. Whoever asks for a cell outside, or adds a list of the wrong length, gets
  nothing.
-/
import MiningQuery.Query.Value

namespace MiningQuery

/-- A table. -/
structure Table where
  columns : List Text := []
  rows : List (List Value) := []
  deriving DecidableEq, Repr

namespace Table

/-- The table without rows that has some columns. -/
def ofColumns (columns : List Text) : Table := ⟨columns, []⟩

/-- The number of rows. -/
def rowCount (t : Table) : Nat := t.rows.length

/-- The number of columns. -/
def columnCount (t : Table) : Nat := t.columns.length

/-- The place of the first column of a name. -/
def columnIndex? (t : Table) (name : Text) : Option Nat := t.columns.findIdx? (· == name)

/-- A row. -/
def row? (t : Table) (row : Nat) : Option (List Value) := t.rows[row]?

/-- A cell. -/
def cell? (t : Table) (row column : Nat) : Option Value :=
  if column < t.columnCount then (t.row? row).bind (·[column]?) else none

/-- Adds a row at the end. -/
def addRow? (t : Table) (row : List Value) : Option Table :=
  if row.length = t.columnCount then some { t with rows := t.rows ++ [row] } else none

/-- Adds a column at the end, one value for every row. -/
def addColumn? (t : Table) (name : Text) (values : List Value) : Option Table :=
  if values.length = t.rowCount then
    some { columns := t.columns ++ [name]
           rows := t.rows.zipWith (fun row v => row ++ [v]) values }
  else none

/-- One line of the printed table. -/
def line (delimiter : Text) (cells : List Text) : Text := Text.join delimiter cells ++ ascii "\n"

/-- The table printed: a line with the names of the columns, then a line for every row. -/
def text (delimiter : Text) (t : Table) : Text :=
  line delimiter t.columns ++ (t.rows.map fun row => line delimiter (row.map Value.cell)).flatten

end Table

end MiningQuery
