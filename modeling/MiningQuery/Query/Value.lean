/-
  File:      MiningQuery/Query/Value.lean
  Subject:   Typed values: the constants of a query, the parameters of a mining operation and
             the cells of a table.

  A value has one of four kinds and keeps it: the text `5` and the number 5 are different
  values. It is written in two ways, as SQL with quotes around text and as a cell without them.
  Quotes inside a text are not doubled.
-/
import MiningQuery.Number.Shortest
import MiningQuery.Text.Layout

namespace MiningQuery

/-- A value. -/
inductive Value
  | integer (i : Int)
  | float (x : Binary64)
  | string (t : Text)
  | null
  deriving DecidableEq, Repr

namespace Value

/-- The name of the kind. -/
def kind : Value → Text
  | integer _ => ascii "Integer"
  | float _ => ascii "Float"
  | string _ => ascii "String"
  | null => ascii "Null"

/-- The value in SQL. -/
def sql : Value → Text
  | integer i => Text.ofInt i
  | float x => x.text
  | string t => Text.quoted t
  | null => ascii "NULL"

/-- The value in a printed table. -/
def cell : Value → Text
  | string t => t
  | v => v.sql

/-- The value with its kind. -/
def text (v : Value) : Text := ascii "(Literal " ++ v.kind ++ ascii " " ++ v.sql ++ ascii ")"

/-- Values are equal if they have the same kind and are equal as what they are; so what is not a
    number differs from itself. -/
def equals : Value → Value → Bool
  | integer i, integer j => i == j
  | float x, float y => x.equals y
  | string s, string t => s == t
  | null, null => true
  | _, _ => false

/-- Two lists of equal length whose values are equal in pairs. -/
def allEqual : List Value → List Value → Bool
  | [], [] => true
  | v :: vs, w :: ws => v.equals w && allEqual vs ws
  | _, _ => false

/-- The integer, if the value is one. -/
def integer? : Value → Option Int
  | integer i => some i
  | _ => none

/-- The floating point number, if the value is one. -/
def float? : Value → Option Binary64
  | float x => some x
  | _ => none

/-- The text, if the value is one. -/
def string? : Value → Option Text
  | string t => some t
  | _ => none

end Value

end MiningQuery
