/-
  File:      MiningQuery/Result/Materialize.lean
  Subject:   From the cells of a result to a table of values.

  A cell becomes a value by the type that the engine gives it. The text of an integer or of a
  floating point number has to convert; every other text is taken as it is.
-/
import MiningQuery.Result.Table
import MiningQuery.Storage.Connection

namespace MiningQuery

/-- The value of a cell. -/
def Cell.toValue (c : Cell) : Except Fault Value :=
  match c.type with
  | .null => .ok .null
  | .integer =>
    match Text.int64? c.text with
    | some i => .ok (.integer i)
    | none => .error .conversion
  | .float =>
    match Binary64.read? c.text with
    | some x => .ok (.float x)
    | none => .error .conversion
  | .text => .ok (.string c.text)
  | .blob => .ok (.string c.text)

namespace Table

/-- The values of a row, which has to have one cell for every column. -/
def materializeRow (columns : List Text) (row : List Cell) : Except Fault (List Value) := do
  let values ← row.mapM Cell.toValue
  if values.length = columns.length then .ok values else .error .contract

/-- The table of a result. -/
def ofResult (r : ResultSet) : Except Fault Table := do
  let rows ← r.rows.mapM (materializeRow r.columns)
  return ⟨r.columns, rows⟩

end Table

/-- The table of the last result. -/
def Access.table {σ : Type} : Access σ Table := do
  match Table.ofResult (← Access.result) with
  | .ok t => return t
  | .error fault => throw fault

end MiningQuery
