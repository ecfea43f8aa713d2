/-
  File:      MiningQuery/Runner/Basic.lean
  Subject:   Running statements: reading, translating, sending, mining, rendering.

  A failure of the engine or of a collaborator becomes part of the outcome. A statement with a
  syntax error is not sent at all.

  * `Runner.run` takes a text through all stages;
  * `Runner.execute`, `Runner.executeSql` and `Runner.executeSelect` send one SELECT statement;
  * `Runner.running` is the runner that is shared by everybody, once it is started.
-/
import MiningQuery.Query.Reduction
import MiningQuery.Result.Materialize
import MiningQuery.Runner.Collaborators
import MiningQuery.Settings.Basic
import MiningQuery.Sql.Select
import MiningQuery.Storage.Catalog

namespace MiningQuery

/-- A runner: its settings, and those who help it. -/
structure Runner where
  settings : Settings := {}
  collaborators : Collaborators := {}

/-- An outcome, and the calls of collaborators that led to it. -/
structure RunOutcome where
  result : ExecutionResult
  calls : List CollaboratorCall := []
  deriving DecidableEq, Repr

namespace Runner

variable {σ : Type} (e : Engine σ)

/-! ## 1. Starting -/

/-- Opens the database of the settings and makes a runner for it. -/
def start (settings : Settings) : Access σ Runner := do
  e.connect settings.database (ascii ".")
  modify fun c => { c with result := .empty, separator := settings.separator }
  return { settings }

/-- The shared runner, which has to be started. -/
def running (shared : Option Runner) : Access σ Runner :=
  match shared with
  | some r => return r
  | none => throw .notStarted

/-! ## 2. SELECT statements -/

/-- Sends SQL and makes a table of the result. -/
def fetch (sql : Text) : Access σ Table := do
  e.query sql
  Access.table

/-- Sends SQL. A fault that is reported ends up in the outcome. -/
def executeSql (sql : Text) : Access σ ExecutionResult :=
  tryCatch
    (do let table ← fetch e sql
        return ({ success := true, sql } : ExecutionResult).withTable table)
    fun fault => do
      match fault.message? with
      | none => throw fault
      | some message =>
        Access.note (.error (ascii "Query failed: " ++ message))
        return { sql, error := message }

/-- The SQL of a query. -/
def translate (r : Runner) (q : Query) : Access σ Text :=
  q.translate e.resolver r.settings.separator

/-- Sends the SELECT statement of a query; what the query says of mining and display does not
    count here. -/
def execute (r : Runner) (q : Query) : Access σ ExecutionResult := do
  let translated ← tryCatch (Except.ok <$> r.translate e q) fun fault => do
    match fault.message? with
    | none => throw fault
    | some message => return .error message
  match translated with
  | .error message => return .failure message
  | .ok sql => return { ← executeSql e sql with database := q.database, tables := q.tables }

/-- Sends a SELECT statement that is put together from its parts; an empty condition counts as
    none. -/
def executeSelect (table : Text) (columns : List Text) (condition : Text) (grouping : List Text)
    (ordering : List QueryOrder) (limit : Option Nat) : Access σ ExecutionResult := do
  let parts : SelectParts :=
    { columns, tables := [table], grouping, ordering, limit
      condition := if condition.isEmpty then none else some condition }
  return { ← executeSql e parts.sql with tables := [table] }

/-! ## 3. Statements -/

/-- Reads a text and makes a query of it. -/
def read (r : Runner) (text : Text) : Access σ Query := do
  Access.noteAll (Query.records r.settings.reading text)
  match Query.ofText r.settings.reading text with
  | .ok q => return q
  | .error _ => throw .contract

/-- Takes a text through all stages. -/
def run (r : Runner) (text : Text) : Access σ RunOutcome := do
  let q ← r.read text
  if q.hasErrors then return { result := .failure (Text.join (ascii "\n") q.errors) }
  else
    let outcome := q.finish r.collaborators (← r.execute e q)
    Access.noteAll outcome.records
    return ⟨outcome.result, outcome.calls⟩

end Runner

end MiningQuery
