/-
  File:      MiningQuery/Storage/Engine.lean
  Subject:   What a storage engine of SQL has to offer, and what is said to it.

  An engine is any four functions on a state of its own: it opens a database, prepares a
  statement, takes the values for its placeholders and executes it. Nothing is assumed about
  their answers, so a fact about all engines covers every failure at every point.

  A text that an engine is given ends at its first zero byte, and so do the names and errors that
  it gives. Cells and the values for placeholders keep all their bytes.
-/
import MiningQuery.Text.Layout

namespace MiningQuery

/-! ## 1. Cells -/

/-- The types of the cells that an engine delivers. -/
inductive CellType
  | integer | float | text | blob | null
  deriving DecidableEq, Repr

/-- The number of a type. -/
def CellType.code : CellType → Nat
  | integer => 1
  | float => 2
  | text => 3
  | blob => 4
  | null => 5

/-- A cell: its type, and its content as text. -/
structure Cell where
  type : CellType
  text : Text
  deriving DecidableEq, Repr

namespace Cell

/-- The empty cell. -/
def null : Cell := ⟨.null, []⟩

/-- Is the cell empty? -/
def isNull (c : Cell) : Bool := c.type = .null

/-- The first `count` cells of a row, filled up with empty ones. -/
def fit (count : Nat) (row : List Cell) : List Cell :=
  row.take count ++ List.replicate (count - row.length) null

theorem length_fit (count : Nat) (row : List Cell) : (fit count row).length = count := by
  simp only [fit, List.length_append, List.length_take, List.length_replicate]
  omega

end Cell

/-! ## 2. Engines -/

/-- A statement that is ready to be executed. -/
structure Prepared where
  sql : Text
  columns : List Text
  /-- How many values the statement takes. -/
  parameters : Nat
  deriving DecidableEq, Repr

/-- The names of the columns. -/
def Prepared.columnNames (p : Prepared) : List Text := p.columns.map Text.untilZero

/-- Values for the placeholders of a statement; those that get none are left open. -/
def Prepared.fill (p : Prepared) (values : List Text) : List (Option Text) :=
  values.map some ++ List.replicate (p.parameters - values.length) none

/-- What executing a statement gives: rows, and then perhaps a failure. -/
structure Execution where
  rows : List (List Cell)
  failure : Option Text
  deriving DecidableEq, Repr

/-- An engine with states of type `σ`. Errors are given as the text of the engine. -/
structure Engine (σ : Type) where
  openDatabase : Text → σ → Except Text Unit × σ
  /-- Prepares a statement; a text that holds none is no error. -/
  prepare : Text → σ → Except Text (Option Prepared) × σ
  /-- Takes values for the first placeholders of a statement. -/
  bind : Prepared → List Text → σ → Except Text Unit × σ
  execute : Prepared → List (Option Text) → σ → Execution × σ
  /-- Gives up the open transaction. -/
  rollback : σ → σ

/-! ## 3. What is said to an engine -/

/-- Where a statement failed before it was executed. -/
inductive RefusedAt
  | prepare | bind
  deriving DecidableEq, Repr

/-- One thing that was said to an engine. -/
inductive Event
  | opened (path : Text)
  | refused (sql : Text) (stage : RefusedAt)
  | executed (sql : Text) (parameters : List (Option Text)) (failure : Option Text)
  | rolledBack
  deriving DecidableEq, Repr

end MiningQuery
