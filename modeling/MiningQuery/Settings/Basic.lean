/-
  File:      MiningQuery/Settings/Basic.lean
  Subject:   The settings of the program, with their defaults.

  Settings are grouped by who reads them: reading statements, looking up tables, storage, the
  command line client.
-/
import MiningQuery.Grammar.Reading

namespace MiningQuery

/-- The settings of the program. -/
structure Settings where
  reading : ReadSettings := {}
  /-- What stands between the name of a database and the name of a table. -/
  separator : Text := ascii "__"
  /-- The database to open. -/
  database : Text := ascii ":memory:"
  /-- How many rows a sample shows. -/
  sampleRows : Nat := 5
  /-- Whether the client prints the SQL of a statement. -/
  echoSql : Bool := true
  /-- Whether the client prints the query of a statement. -/
  printQuery : Bool := false
  /-- A statement to run instead of reading statements; empty if there is none. -/
  query : Text := []
  /-- A file to read statements from; empty if there is none. -/
  file : Text := []
  deriving DecidableEq, Repr

end MiningQuery
