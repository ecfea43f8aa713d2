/-
  File:      MiningQuery/Storage/Catalog.lean
  Subject:   Tables in storage: whether they exist, loading, listing, columns, size, samples.

  * `Engine.loadTable` replaces a table by rows, all of which are checked before the first
    statement is sent;
  * `Engine.listTables` lists the tables of one logical database by the names that they have in
    it, which are the names after the database and the separator;
  * `Engine.resolver` is what looks up the tables of a query.
-/
import MiningQuery.Sql.Tables
import MiningQuery.Storage.Connection

namespace MiningQuery

/-! ## 1. Columns -/

/-- A column to be created: its name and its type, which may be empty. -/
structure ColumnSpec where
  name : Text
  type : Text
  deriving DecidableEq, Repr

/-- The column in a statement. -/
def ColumnSpec.sql (c : ColumnSpec) : Text := Text.strip (c.name ++ ascii " " ++ c.type)

/-- What the engine says of a column. -/
structure ColumnInfo where
  name : Text
  type : Text
  notNull : Bool
  defaultValue : Option Text
  primaryKey : Bool
  deriving DecidableEq, Repr

/-! ## 2. Tables -/

namespace Engine

variable {σ : Type} (e : Engine σ)

/-- The statement that asks for one table. -/
def existsSql : Text := ascii "SELECT name FROM sqlite_master WHERE type='table' AND name = ?"

/-- The statement that lists all tables. -/
def listSql : Text := ascii "SELECT name FROM sqlite_master WHERE type='table' ORDER BY name"

/-- Does a table exist? -/
def tableExists (table : Text) : Access σ Bool := do
  e.queryWith existsSql [table]
  return !(← Access.result).rows.isEmpty

/-- Creates a table, which has to have a column. -/
def createTable (table : Text) (columns : List ColumnSpec) : Access σ Unit := do
  if columns.isEmpty then throw .contract
  e.query (ascii "CREATE TABLE " ++ table ++ ascii " (" ++
    Text.join (ascii ", ") (columns.map ColumnSpec.sql) ++ ascii ")")

/-- The name under which a table is stored; an empty name stands for no database. -/
def storedName (database separator table : Text) : Text :=
  if database.isEmpty then table else qualifiedName database separator table

/-- Replaces a table by rows and gives the name under which it is stored. -/
def loadTable (table : Text) (columns : List ColumnSpec) (rows : List (List Text))
    (database : Text) : Access σ Text := do
  let name := storedName database (← get).separator table
  if let some row := rows.find? fun row => row.length != columns.length then
    throw (.raggedRow row.length columns.length name)
  e.query (ascii "DROP TABLE IF EXISTS " ++ name)
  e.createTable name columns
  e.insertRows name rows
  Access.note (.info (ascii "Loaded " ++ Text.ofNat rows.length ++ ascii " rows into " ++ name))
  return name

/-- The name of a stored table in a database, if it belongs to it. -/
def nameIn? (database separator name : Text) : Option Text :=
  let start := database ++ separator
  if database.isEmpty then some name
  else if start.length < name.length && name.take start.length == start then
    some (name.drop start.length)
  else none

/-- The tables of a database, or all tables where the name of the database is empty. -/
def listTables (database : Text) : Access σ (List Text) := do
  e.query listSql
  let rows := (← Access.result).rows
  let cells ← (List.range rows.length).mapM fun row => Access.cell row 0
  let separator := (← get).separator
  return cells.filterMap fun c => nameIn? database separator c.text

/-- What the engine says of the column in a row of its answer. -/
def columnInfo (row : Nat) : Access σ ColumnInfo := do
  let defaultCell ← Access.cell row 4
  let name ← Access.cell row 1
  let type ← Access.cell row 2
  let notNull ← Access.convert (Text.int32? (← Access.cell row 3).text)
  let primaryKey ← Access.convert (Text.int32? (← Access.cell row 5).text)
  return {
    name := name.text
    type := type.text
    notNull := notNull != 0
    defaultValue := if defaultCell.isNull then none else some defaultCell.text
    primaryKey := primaryKey != 0 }

/-- The columns of a table. -/
def tableInfo (table : Text) : Access σ (List ColumnInfo) := do
  e.query (ascii "PRAGMA table_info(" ++ table ++ ascii ")")
  (List.range (← Access.result).rows.length).mapM columnInfo

/-- The number of rows of a table; the engine has to answer with exactly one row. -/
def countRows (table : Text) : Access σ Nat := do
  e.query (ascii "SELECT COUNT(*) FROM " ++ table)
  if (← Access.result).rows.length = 1 then
    Access.convert (Text.word64? (← Access.cell 0 0).text)
  else throw .contract

/-- Makes the first rows of a table the last result. -/
def sample (table : Text) (count : Nat) : Access σ Unit :=
  e.query (ascii "SELECT * FROM " ++ table ++ ascii " LIMIT " ++ Text.ofNat count)

/-- Looks up tables in storage. -/
def resolver : TableResolver (Access σ) := ⟨e.tableExists, Access.note⟩

end Engine

end MiningQuery
