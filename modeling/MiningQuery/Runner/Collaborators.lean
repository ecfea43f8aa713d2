/-
  File:      MiningQuery/Runner/Collaborators.lean
  Subject:   Miners and renderers, and the stages of a statement that need them.

  The program itself mines nothing and draws nothing. Whoever can do so is registered, and a
  statement that needs somebody who is not registered fails. Both stages work on the outcome of
  the statement so far and tell whom they called.
-/
import MiningQuery.Log.Record
import MiningQuery.Query.Basic
import MiningQuery.Runner.Result

namespace MiningQuery

/-! ## 1. Collaborators -/

/-- What a miner gives back: a table, and its findings as text. -/
structure MiningOutcome where
  table : Table
  result : Text
  deriving DecidableEq, Repr

/-- A miner works on a table; it may refuse with a message. -/
abbrev Miner := Table → MiningOperation → Except Text MiningOutcome

/-- A renderer draws a table in a display type; it may refuse with a message. -/
abbrev Renderer := Table → Text → Except Text Text

/-- Those who are registered. -/
structure Collaborators where
  miner : Option Miner := none
  renderer : Option Renderer := none

/-- A call of a collaborator. -/
inductive CollaboratorCall
  | mined (table : Table) (operation : MiningOperation)
  | rendered (table : Table) (displayType : Text)
  deriving DecidableEq, Repr

/-- An outcome with the calls and the log records that led to it. -/
structure StageOutcome where
  result : ExecutionResult
  calls : List CollaboratorCall := []
  records : List LogRecord := []
  deriving DecidableEq, Repr

/-! ## 2. Stages -/

namespace ExecutionResult

/-- The record of a collaborator that refused. -/
def refusal (what : Text) (message : Text) : LogRecord :=
  .error (what ++ ascii " failed: " ++ message)

/-- Mines the table of an outcome. The message of a refusal ends at its first zero byte. -/
def mine (c : Collaborators) (operation : MiningOperation) (r : ExecutionResult) : StageOutcome :=
  if r.table.rowCount = 0 then { result := r.failed (ascii "No data returned from query") }
  else match c.miner with
    | none =>
      { result := r.failed (ascii "No mining collaborator registered for " ++
          operation.kind.name) }
    | some miner =>
      let calls := [.mined r.table operation]
      match miner r.table operation with
      | .ok outcome =>
        { result := { r.withTable outcome.table with miningResult := some outcome.result }
          calls }
      | .error message =>
        let message := Text.untilZero message
        { result := r.failed message, calls
          records := [refusal (ascii "Mining " ++ operation.kind.name) message] }

/-- Renders the table of an outcome, unless its display type needs no renderer. -/
def display (c : Collaborators) (displayType : Text) (r : ExecutionResult) : StageOutcome :=
  if displayType = Query.plainDisplay then { result := r }
  else match c.renderer with
    | none =>
      { result := r.failed (ascii "No visualization collaborator registered for display type " ++
          Text.quoted displayType) }
    | some renderer =>
      let calls := [.rendered r.table displayType]
      match renderer r.table displayType with
      | .ok picture => { result := { r with visualization := some picture }, calls }
      | .error message =>
        let message := Text.untilZero message
        { result := r.failed message, calls
          records := [refusal (ascii "Visualization " ++ displayType) message] }

end ExecutionResult

namespace StageOutcome

/-- Goes on with a stage if the outcome is a success. -/
def andThen (o : StageOutcome) (stage : ExecutionResult → StageOutcome) : StageOutcome :=
  if o.result.success then
    let next := stage o.result
    ⟨next.result, o.calls ++ next.calls, o.records ++ next.records⟩
  else o

end StageOutcome

/-- The stages behind the SELECT statement of a query. -/
def Query.finish (c : Collaborators) (q : Query) (r : ExecutionResult) : StageOutcome :=
  let selected : StageOutcome := { result := r }
  let mined := match q.mining with
    | some operation => selected.andThen (ExecutionResult.mine c operation)
    | none => selected
  mined.andThen (ExecutionResult.display c q.displayType)

end MiningQuery
