/-
  File:      MiningQuery/Sql/Tables.lean
  Subject:   Finding the stored table that a query means.

  Several logical databases share one store: the table of a database is stored under the names
  of both with a separator between. A name is looked up with its database first and then alone,
  and one that is not found at all is passed on as it is.

  The lookup may have effects of its own, which run in the order of the names.
-/
import MiningQuery.Log.Record

namespace MiningQuery

/-- The name under which a table of a database is stored. -/
def qualifiedName (database separator table : Text) : Text := database ++ separator ++ table

/-- Who can tell whether a table exists. -/
structure TableResolver (m : Type → Type) where
  tableExists : Text → m Bool
  /-- Takes a log record. -/
  note : LogRecord → m Unit

namespace TableResolver

variable {m : Type → Type} [Monad m]

/-- Looks up a name alone. -/
def resolveBare (r : TableResolver m) (table : Text) : m Text := do
  if !(← r.tableExists table) then
    r.note (.debug (ascii "Table " ++ table ++ ascii " not found, passing it through unresolved"))
  return table

/-- Looks up a table of a database; an empty name stands for no database. -/
def resolve (r : TableResolver m) (separator database table : Text) : m Text := do
  if database.isEmpty then r.resolveBare table
  else if ← r.tableExists (qualifiedName database separator table) then
    return qualifiedName database separator table
  else r.resolveBare table

/-- Looks up tables in order. -/
def resolveAll (r : TableResolver m) (separator database : Text) (tables : List Text) :
    m (List Text) :=
  tables.mapM (r.resolve separator database)

/-- A resolver that knows the tables of a list. It keeps the names that are looked up and the log
    records. -/
def known (tables : List Text) : TableResolver (StateM (List Text × List LogRecord)) where
  tableExists name := modifyGet fun s => (tables.contains name, (s.1 ++ [name], s.2))
  note r := modify fun s => (s.1, s.2 ++ [r])

end TableResolver

end MiningQuery
