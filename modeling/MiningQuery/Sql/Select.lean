/-
  File:      MiningQuery/Sql/Select.lean
  Subject:   The SELECT statement of a query.

      SELECT columns or * FROM tables [WHERE condition] [GROUP BY columns]
        [ORDER BY column direction, ...] [LIMIT count]

  * `SelectParts.sql` writes the parts one after the other and leaves out those that are absent;
  * `Query.translate` resolves the tables of a query first.
-/
import MiningQuery.Query.Basic
import MiningQuery.Sql.Condition
import MiningQuery.Sql.Tables

namespace MiningQuery

/-- The parts of a SELECT statement. -/
structure SelectParts where
  columns : List Text
  tables : List Text
  condition : Option Text
  grouping : List Text
  ordering : List QueryOrder
  limit : Option Nat
  deriving DecidableEq, Repr

namespace SelectParts

/-- A part behind its words; nothing where it is absent. -/
def part (words : String) (content : Option Text) : Text :=
  match content with
  | some t => ascii words ++ t
  | none => []

/-- A list with commas, unless it is empty. -/
def listPart? (items : List Text) : Option Text :=
  if items.isEmpty then none else some (Text.join (ascii ", ") items)

/-- The statement. -/
def sql (p : SelectParts) : Text :=
  ascii "SELECT " ++ (listPart? p.columns).getD (ascii "*") ++
    ascii " FROM " ++ Text.join (ascii ", ") p.tables ++
    part " WHERE " p.condition ++
    part " GROUP BY " (listPart? p.grouping) ++
    part " ORDER BY " (listPart? (p.ordering.map QueryOrder.text)) ++
    part " LIMIT " (p.limit.map Text.ofNat)

end SelectParts

namespace Query

/-- The parts of the statement for a query, with the tables that its tables stand for. -/
def selectParts (q : Query) (tables : List Text) : SelectParts :=
  { columns := q.columns, tables
    condition := q.condition.map Condition.sql
    grouping := q.grouping
    ordering := q.ordering
    limit := none }

/-- The SQL of a query, its tables being looked up by a resolver. -/
def translate {m : Type → Type} [Monad m] (r : TableResolver m) (separator : Text) (q : Query) :
    m Text := do
  let tables ← r.resolveAll separator q.database q.tables
  let sql := (q.selectParts tables).sql
  r.note (.sql (ascii "Translated: " ++ sql))
  return sql

end Query

end MiningQuery
