/-
  File:      MiningQuery/Runner/Result.lean
  Subject:   The outcome of running a statement.

  A stage that fails leaves its message in the outcome; what earlier stages have found stays in
  it.
-/
import MiningQuery.Result.Table

namespace MiningQuery

/-- The outcome of running a statement. -/
structure ExecutionResult where
  success : Bool := false
  table : Table := {}
  /-- The SQL that was sent, if the statement came that far. -/
  sql : Text := []
  rowCount : Nat := 0
  /-- The message of the stage that failed. -/
  error : Text := []
  database : Text := []
  tables : List Text := []
  columns : List Text := []
  /-- What the miner has to say, if it was asked. -/
  miningResult : Option Text := none
  /-- What the renderer has made, if it was asked. -/
  visualization : Option Text := none
  deriving DecidableEq, Repr

namespace ExecutionResult

/-- The outcome of a statement that fails before anything is sent. -/
def failure (message : Text) : ExecutionResult := { error := message }

/-- The outcome after one more stage has failed. -/
def failed (r : ExecutionResult) (message : Text) : ExecutionResult :=
  { r with success := false, error := message }

/-- The outcome with another table. -/
def withTable (r : ExecutionResult) (t : Table) : ExecutionResult :=
  { r with table := t, rowCount := t.rowCount, columns := t.columns }

end ExecutionResult

end MiningQuery
