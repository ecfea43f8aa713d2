/-
  File:      MiningQuery/Query/Basic.lean
  Subject:   A query: what a statement asks for, free of how it is written.

  A query without columns asks for every column, and one without a condition for every row. It
  carries the text that it comes from and the syntax errors of that text.
-/
import MiningQuery.Query.Condition
import MiningQuery.Query.Mining
import MiningQuery.Tree.Statement

namespace MiningQuery

/-- A column to sort by, as text, with its direction. -/
structure QueryOrder where
  column : Text
  direction : SortDirection
  deriving DecidableEq, Repr

/-- Column and direction. -/
def QueryOrder.text (o : QueryOrder) : Text := o.column ++ ascii " " ++ o.direction.spelling

/-- A query. -/
structure Query where
  database : Text := []
  tables : List Text := []
  columns : List Text := []
  condition : Option Condition := none
  grouping : List Text := []
  ordering : List QueryOrder := []
  mining : Option MiningOperation := none
  measures : Option InterestMeasures := none
  displayType : Text := ascii "table"
  rawText : Text := []
  errors : List Text := []
  deriving DecidableEq, Repr

namespace Query

/-- The display type that needs no renderer. -/
def plainDisplay : Text := ascii "table"

/-- Does the query come from a text with syntax errors? -/
def hasErrors (q : Query) : Bool := !q.errors.isEmpty

/-- A list in square brackets. -/
def bracketed (items : List Text) : Text :=
  ascii "[" ++ Text.join (ascii ", ") items ++ ascii "]"

/-- A labelled part of the text; nothing where there is nothing to say. -/
def part (label : String) (content : Option Text) : Text :=
  match content with
  | some t => ascii ", " ++ ascii label ++ ascii "=" ++ t
  | none => []

/-- A list in brackets, unless it is empty. -/
def listPart? (items : List Text) : Option Text :=
  if items.isEmpty then none else some (bracketed items)

/-- The query in one line. -/
def text (q : Query) : Text :=
  ascii "Query\x7bdatabase=" ++ q.database ++
    part "tables" (some (bracketed q.tables)) ++
    part "columns" (some (bracketed q.columns)) ++
    part "conditions" (q.condition.map Condition.text) ++
    part "group_by" (listPart? q.grouping) ++
    part "order_by" (listPart? (q.ordering.map QueryOrder.text)) ++
    part "mining_operation" (q.mining.map MiningOperation.text) ++
    part "interest_measures" (q.measures.map InterestMeasures.text) ++
    part "display_type" (some q.displayType) ++
    part "errors" (if q.errors.isEmpty then none else some (Text.ofNat q.errors.length)) ++
    ascii "\x7d"

end Query

end MiningQuery
