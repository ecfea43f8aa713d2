/-
  File:      MiningQuery/Storage/Connection.lean
  Subject:   A connection to an engine: sending statements and keeping the last result.

  * `Connection` holds the state of the engine, the result of the last statement, everything
    that was said to the engine and the log records;
  * `Access` is a computation on a connection. One that fails keeps what it has done so far;
  * `Engine.query` and `Engine.queryWith` send one statement, `Engine.insertRows` sends many in
    one transaction.
-/
import MiningQuery.Log.Record
import MiningQuery.Number.Integer
import MiningQuery.Storage.Engine

namespace MiningQuery

/-! ## 1. Faults -/

/-- Why a computation ends early. -/
inductive Fault
  /-- A condition that the caller has to see to does not hold; the program stops at once. -/
  | contract
  /-- The text of a cell is not of the type that is asked for. -/
  | conversion
  | engine (message : Text)
  | raggedRow (values columns : Nat) (table : Text)
  | notStarted
  deriving DecidableEq, Repr

namespace Fault

/-- The message of a fault that is reported to the user; the other faults are not caught. A
    message ends at its first zero byte. -/
def message? : Fault → Option Text
  | contract => none
  | conversion => none
  | engine m => some (ascii "Sqlite3 Error: " ++ m)
  | raggedRow values columns table =>
    some (ascii "Row with " ++ Text.ofNat values ++ ascii " values does not match the " ++
      Text.ofNat columns ++ ascii " columns of table " ++ Text.untilZero table)
  | notStarted => some (ascii "QueryRunner must be initialized before calling get().")

end Fault

/-! ## 2. Connections -/

/-- The result of a statement. -/
structure ResultSet where
  columns : List Text := []
  rows : List (List Cell) := []
  deriving DecidableEq, Repr

namespace ResultSet

/-- No columns and no rows. -/
def empty : ResultSet := {}

/-- A cell. -/
def cell? (r : ResultSet) (row column : Nat) : Option Cell :=
  if column < r.columns.length then r.rows[row]?.bind (·[column]?) else none

end ResultSet

/-- A connection. -/
structure Connection (σ : Type) where
  engine : σ
  result : ResultSet := .empty
  /-- What stands between the name of a database and the name of a table. -/
  separator : Text := ascii "__"
  trace : List Event := []
  records : List LogRecord := []
  deriving Repr

/-- A computation on a connection. -/
abbrev Access (σ α : Type) := ExceptT Fault (StateM (Connection σ)) α

namespace Access

variable {σ : Type}

/-- Makes a log record. -/
def note (r : LogRecord) : Access σ Unit :=
  modify fun c => { c with records := c.records ++ [r] }

/-- Makes log records. -/
def noteAll (rs : List LogRecord) : Access σ Unit :=
  modify fun c => { c with records := c.records ++ rs }

/-- Remembers what was said to the engine. -/
def remember (e : Event) : Access σ Unit :=
  modify fun c => { c with trace := c.trace ++ [e] }

/-- Says something to the engine. -/
def tell {α : Type} (f : σ → α × σ) : Access σ α :=
  modifyGet fun c => let (a, s) := f c.engine; (a, { c with engine := s })

/-- Keeps a result. -/
def keep (r : ResultSet) : Access σ Unit := modify fun c => { c with result := r }

/-- The result of the last statement. -/
def result : Access σ ResultSet := return (← get).result

/-- Ends with an error of the engine. Its text ends at the first zero byte. -/
def failWith {α : Type} (message : Text) : Access σ α := do
  let fault := Fault.engine (Text.untilZero message)
  note (.sql (fault.message?.getD []))
  throw fault

/-- What holds of a value, or the end of the program. -/
def require {α : Type} (value : Option α) : Access σ α :=
  match value with
  | some a => return a
  | none => throw .contract

/-- The value that a text stands for. -/
def convert {α : Type} (value : Option α) : Access σ α :=
  match value with
  | some a => return a
  | none => throw .conversion

/-- A cell of the last result. -/
def cell (row column : Nat) : Access σ Cell := do
  require ((← result).cell? row column)

/-- Does `attempt`, and `cleanUp` before a fault that is reported goes on. -/
def onFailure {α : Type} (attempt : Access σ α) (cleanUp : Access σ Unit) : Access σ α :=
  tryCatch attempt fun fault => do
    if fault.message?.isSome then cleanUp
    throw fault

end Access

/-! ## 3. Statements -/

namespace Engine

variable {σ : Type} (e : Engine σ)

/-- Prepares a statement. -/
def prepareText (sql : Text) : Access σ (Option Prepared) := do
  let sql := Text.untilZero sql
  match ← Access.tell (e.prepare sql) with
  | .ok prepared => return prepared
  | .error message =>
    Access.remember (.refused sql .prepare)
    Access.failWith message

/-- Gives values to the first placeholders of a statement. -/
def bindValues (p : Prepared) (values : List Text) : Access σ Unit := do
  unless values.isEmpty do
    match ← Access.tell (e.bind p values) with
    | .ok () => return ()
    | .error message =>
      Access.remember (.refused p.sql .bind)
      Access.failWith message

/-- Executes a statement with values for its first placeholders. -/
def executeFilled (p : Prepared) (values : List Text) : Access σ Execution := do
  let parameters := p.fill values
  let execution ← Access.tell (e.execute p parameters)
  Access.remember (.executed p.sql parameters execution.failure)
  return execution

/-- Sends a statement with values for its first placeholders and keeps its result. If it fails,
    what has come before the failure is kept. -/
def queryWith (sql : Text) (values : List Text) : Access σ Unit := do
  Access.note (.sql sql)
  Access.keep .empty
  if let some p ← e.prepareText sql then
    Access.keep ⟨p.columnNames, []⟩
    e.bindValues p values
    let execution ← e.executeFilled p values
    Access.keep ⟨p.columnNames, execution.rows.map (Cell.fit p.columnNames.length)⟩
    if let some message := execution.failure then Access.failWith message

/-- Sends a statement and keeps its result. -/
def query (sql : Text) : Access σ Unit := e.queryWith sql []

/-- The statement that inserts a row of some width. -/
def insertSql (table : Text) (width : Nat) : Text :=
  ascii "INSERT INTO " ++ table ++ ascii " VALUES(" ++
    Text.join (ascii ", ") (List.replicate width (ascii "?")) ++ ascii ")"

/-- Executes a prepared insertion for one row. One that delivers rows has not come to its end. -/
def insertRow (p : Prepared) (row : List Text) : Access σ Unit := do
  e.bindValues p row
  let execution ← e.executeFilled p row
  unless execution.rows.isEmpty do Access.failWith (ascii "another row available")
  if let some message := execution.failure then Access.failWith message

/-- Executes an insertion for every row. -/
def insertPrepared (sql : Text) (rows : List (List Text)) : Access σ Unit := do
  match ← e.prepareText sql with
  | some p => rows.forM (e.insertRow p)
  | none => Access.failWith (ascii "bad parameter or other API misuse")

/-- Gives up the transaction. -/
def rollbackTransaction : Access σ Unit := do
  Access.tell fun s => ((), e.rollback s)
  Access.remember .rolledBack

/-- Inserts rows in one transaction, which is given up if one of them fails. The first row says
    how many placeholders there are. -/
def insertRows (table : Text) (rows : List (List Text)) : Access σ Unit := do
  let width := (rows.headD []).length
  unless width = 0 do
    let sql := insertSql table width
    Access.note (.sql sql)
    e.query (ascii "BEGIN TRANSACTION")
    Access.onFailure (e.insertPrepared sql rows) e.rollbackTransaction
    e.query (ascii "END TRANSACTION")

/-! ## 4. Opening -/

/-- The name of a database that is kept in memory only. -/
def inMemory : Text := ascii ":memory:"

/-- Where a database lies: in its directory, unless it is kept in memory. -/
def databasePath (database directory : Text) : Text :=
  if database = inMemory ∨ directory = [] then database
  else if directory.getLast? = some 47 then directory ++ database
  else directory ++ ascii "/" ++ database

/-- Opens a database. -/
def connect (database directory : Text) : Access σ Unit := do
  let path := databasePath database directory
  let answer ← Access.tell (e.openDatabase (Text.untilZero path))
  Access.remember (.opened (Text.untilZero path))
  match answer with
  | .ok () => Access.note (.info (ascii "Opened SQLite database " ++ path))
  | .error message => throw (.engine (Text.untilZero message))

end Engine

end MiningQuery
