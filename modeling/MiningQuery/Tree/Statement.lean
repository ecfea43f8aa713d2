/-
  File:      MiningQuery/Tree/Statement.lean
  Subject:   A statement as a tree of its nine clauses.

  * `Clause.all` lists the clauses in the order in which they may stand;
  * `Statement` holds what each clause says; a clause that is absent, or that could not be
    read, leaves its field empty;
  * `Statement.text` sums the statement up in one line.
-/
import MiningQuery.Token.Basic
import MiningQuery.Tree.Predicate

namespace MiningQuery

/-! ## 1. Clauses -/

/-- The clauses of a statement. -/
inductive Clause
  | database | relevance | tables | condition | grouping | ordering | mining | measures | display
  deriving DecidableEq, Repr

namespace Clause

/-- The clauses in the order in which they may stand. -/
def all : List Clause :=
  [database, relevance, tables, condition, grouping, ordering, mining, measures, display]

/-- The word that opens the clause. -/
def keyword : Clause → Keyword
  | database => .USE
  | relevance => .RELEVANCE
  | tables => .FROM
  | condition => .WHERE
  | grouping => .GROUP
  | ordering => .ORDER
  | mining => .MINE
  | measures => .WITH
  | display => .DISPLAY

end Clause

/-! ## 2. Parts of clauses -/

/-- What a list of attributes may hold: everything, or one column. -/
inductive Attribute
  | all
  | column (c : ColumnRef)
  deriving DecidableEq, Repr

/-- The star, or the column. -/
def Attribute.text : Attribute → Text
  | all => ascii "*"
  | column c => c.text

/-- A table, with the second name that the statement gives it. -/
structure TableRef where
  name : Text
  secondName : Option Text
  deriving DecidableEq, Repr

/-- The two ways to sort. -/
inductive SortDirection
  | ascending | descending
  deriving DecidableEq, Repr

/-- The word of a direction. -/
def SortDirection.spelling : SortDirection → Text
  | ascending => ascii "ASC"
  | descending => ascii "DESC"

/-- A column to sort by. -/
structure OrderItem where
  column : ColumnRef
  direction : SortDirection
  deriving DecidableEq, Repr

/-- A mining directive: the kind of the token that names the operation, the number of clusters
    and the target column. -/
structure MineDirective where
  operation : TokenKind
  clusters : Option Literal
  target : Text
  deriving DecidableEq, Repr

/-- A number given to an interest measure. -/
structure MeasureSetting where
  name : Text
  value : Literal
  deriving DecidableEq, Repr

/-! ## 3. Statements -/

/-- A whole statement. -/
structure Statement where
  database : Option Text := none
  relevance : Option (List Attribute) := none
  tables : List TableRef := []
  condition : Option Predicate := none
  grouping : List Attribute := []
  ordering : List OrderItem := []
  mining : Option MineDirective := none
  measures : List MeasureSetting := []
  display : Option Text := none
  deriving DecidableEq, Repr

namespace Statement

/-- The statement in which every clause is absent. -/
def empty : Statement := {}

/-- A labelled part of the summary; nothing where there is nothing to say. -/
def part (label : String) (content : Option Text) : Text :=
  match content with
  | some t => ascii label ++ t
  | none => []

/-- How many items a list has, unless it is empty. -/
def count? {α : Type} (items : List α) : Option Text :=
  if items.isEmpty then none else some (Text.ofNat items.length)

/-- A list in square brackets. -/
def bracketed (items : List Text) : Text :=
  ascii "[" ++ Text.join (ascii ",") items ++ ascii "]"

/-- One line that says what the statement holds; of four clauses it tells the size or the
    operation only. -/
def text (s : Statement) : Text :=
  ascii "QueryNode(" ++
    part "use=" (s.database.map (· ++ ascii " ")) ++
    part "relevance=" (s.relevance.map fun cs => bracketed (cs.map Attribute.text) ++ ascii " ") ++
    part "from=" (some (bracketed (s.tables.map (·.name)))) ++
    part " where=" (s.condition.map Predicate.text) ++
    part " group_by=" (count? s.grouping) ++
    part " order_by=" (count? s.ordering) ++
    part " mine=" (s.mining.map (·.operation.name)) ++
    part " with=" (count? s.measures) ++
    part " display=" s.display ++
    ascii ")"

end Statement

end MiningQuery
