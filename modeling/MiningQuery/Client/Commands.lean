/-
  File:      MiningQuery/Client/Commands.lean
  Subject:   The statements and backslash commands of the client.

  The first letter behind the backslash says which command it is, and the second word, which
  ends at a blank or a tab, is its argument.
-/
import MiningQuery.Client.Assembly
import MiningQuery.Client.Screen
import MiningQuery.Runner.Basic

namespace MiningQuery

namespace Client

variable {σ : Type} (e : Engine σ)

/-! ## 1. Statements -/

/-- Writes the outcome of a statement. -/
def showResult (settings : Settings) (r : ExecutionResult) : Showing σ Unit := do
  if settings.echoSql && !r.sql.isEmpty then Showing.writeLine (ascii "SQL: " ++ r.sql)
  if !r.success then Showing.complain (ascii "Error: " ++ r.error)
  else if r.rowCount = 0 then Showing.writeLine (ascii "No rows returned.")
  else
    Showing.write (r.table.text (ascii "|"))
    Showing.writeLine (Text.ofNat r.rowCount ++ ascii " rows returned.")
    r.miningResult.forM Showing.writeLine
    r.visualization.forM Showing.writeLine

/-- Runs a statement, if there is anything in it, and tells whether it succeeded. -/
def runStatement (r : Runner) (text : Text) : Showing σ Bool := do
  let text := withoutTerminators text
  if text.isEmpty then return true
  else
    if r.settings.printQuery then
      let q ← Showing.access (r.read text)
      Showing.writeLine q.text
    let outcome ← Showing.access (r.run e text)
    showResult r.settings outcome.result
    return outcome.result.success

/-! ## 2. Commands -/

/-- What the help command writes. -/
def helpText : Text :=
  (([ascii "\\t [database] List all tables, or the tables of a database.",
    ascii "\\d <table> List all columns of table.",
    ascii "\\s <table> Show the first rows of table.",
    ascii "\\h Show this help.",
    ascii "\\q Quit."] : List Text).map (· ++ ascii "\n")).flatten

/-- A column as it stands in the statement that creates its table. -/
def columnText (c : ColumnInfo) : Text :=
  ascii "  " ++ c.name ++ ascii " " ++ c.type ++
    (if c.notNull then ascii " NOT NULL" else []) ++
    ((c.defaultValue.map fun v => ascii " DEFAULT " ++ v).getD []) ++
    (if c.primaryKey then ascii " PRIMARY KEY" else [])

/-- The columns of a table, up to the closing parenthesis; nothing where there are none. -/
def columnsText (columns : List ColumnInfo) : Text :=
  if columns.isEmpty then []
  else Text.join (ascii ",\n") (columns.map columnText) ++ ascii ")\n"

/-- Lists the tables of a database. -/
def listTables (database : Text) : Showing σ Unit :=
  Showing.reporting do
    (← Showing.access (e.listTables database)).forM Showing.writeLine

/-- Describes a table. -/
def describeTable (table : Text) : Showing σ Unit :=
  Showing.reporting do
    if ← Showing.access (e.tableExists table) then
      let columns ← Showing.access (e.tableInfo table)
      Showing.write (ascii "CREATE TABLE " ++ table ++ ascii " (\n")
      Showing.write (columnsText columns)
      let rows ← Showing.access (e.countRows table)
      Showing.writeLine (Text.ofNat rows ++ ascii " rows.")
    else Showing.complain (ascii "Table " ++ table ++ ascii " does not exist.")

/-- Shows the first rows of a table. -/
def sampleTable (settings : Settings) (table : Text) : Showing σ Unit :=
  Showing.reporting do
    Showing.access (e.sample table settings.sampleRows)
    Showing.write ((← Showing.access Access.table).text (ascii "|"))

/-- What is said where a table is missing behind a command. -/
def tableMissing (letter : String) : Text :=
  ascii "Invalid \\" ++ ascii letter ++ ascii " command usage.  Do \\" ++ ascii letter ++
    ascii " <table name>"

/-- The argument of a command; empty if there is none. -/
def argument (command : Text) : Text :=
  (Text.words (fun b => b == 32 || b == 9) command).tail.headD []

/-- Does a backslash command. -/
def runCommand (settings : Settings) (command : Text) : Showing σ Unit :=
  let table := argument command
  match command.tail.head? with
  | some 104 => Showing.write helpText
  | some 116 => listTables e table
  | some 100 =>
    if table.isEmpty then Showing.complain (tableMissing "d") else describeTable e table
  | some 115 =>
    if table.isEmpty then Showing.complain (tableMissing "s")
    else sampleTable e settings table
  | _ => Showing.complain (ascii "Invalid backslash command: " ++ command)

/-! ## 3. Lines -/

/-- Asks for a line: the first one of a statement, or one more. -/
def prompt (interactive : Bool) (pending : Text) : Showing σ Unit := do
  if interactive then
    Showing.write (if pending.isEmpty then ascii "dmql> " else ascii "...> ")

/-- Does what an event asks for and tells how many statements failed. -/
def handle (r : Runner) : LineEvent → Showing σ Nat
  | .taken _ => return 0
  | .quit => return 0
  | .command line => do
    runCommand e r.settings line
    return 0
  | .statement text => return if ← runStatement e r text then 0 else 1

/-- Does what the events ask for, in order, and asks for the next line after each. -/
def handleAll (r : Runner) (interactive : Bool) : List LineEvent → Showing σ Nat
  | [] => return 0
  | event :: rest => do
    let failed ← handle e r event
    unless event = .quit do prompt interactive event.pending
    return failed + (← handleAll r interactive rest)

/-- Runs all statements and commands of a text and tells how many statements failed. -/
def runText (r : Runner) (interactive : Bool) (text : Text) : Showing σ Nat := do
  let assembled := assemble (Text.lines text)
  prompt interactive []
  let failed ← handleAll e r interactive assembled.events
  match assembled.leftOpen with
  | some text => return failed + (if ← runStatement e r text then 0 else 1)
  | none => return failed

end Client

end MiningQuery
