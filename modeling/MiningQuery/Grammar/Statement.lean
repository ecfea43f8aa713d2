/-
  File:      MiningQuery/Grammar/Statement.lean
  Subject:   Reading statements clause by clause.

      statement : USE DATABASE name | RELEVANCE TO attributes | FROM tables | WHERE condition
                | GROUP BY attributes | ORDER BY columns | MINE directive | WITH measures
                | DISPLAY AS name            -- each at most once and in this order

  The tokens fall into segments: one before the first keyword of a clause, and one from each
  such keyword to the next. A keyword counts only if its clause comes after those before it. A
  segment is read on its own, and gives at most one failure: that of its clause, or of the first
  token that its clause leaves over.
-/
import MiningQuery.Grammar.Condition
import MiningQuery.Tree.Statement

namespace MiningQuery

namespace Parse

/-! ## 1. Clauses other than the condition -/

/-- Reads a star or a column. -/
def attributeRef : Parse Attribute := fun ts =>
  match kindOf ts with
  | .symbol .star => .ok (.all, ts.tail)
  | .identifier => (Attribute.column <$> columnRef) ts
  | _ => mismatch [.identifier, .symbol .star] ts

/-- Reads a table and its second name, which may follow with or without `AS`. -/
def tableRef : Parse TableRef := do
  let table ← name
  if ← accept (.keyword .AS) then
    return ⟨table, some (← name)⟩
  else fun ts =>
    match ts with
    | t :: rest => .ok (if t.kind = .identifier then (⟨table, some t.text⟩, rest)
                        else (⟨table, none⟩, ts))
    | [] => .ok (⟨table, none⟩, ts)

/-- Reads a column and a direction; without one the order is ascending. -/
def orderItem : Parse OrderItem := do
  let column ← columnRef
  if ← accept (.keyword .DESC) then
    return ⟨column, .descending⟩
  else
    let _ ← accept (.keyword .ASC)
    return ⟨column, .ascending⟩

/-- Passes over a word, in any letter case, and an equals sign, if both are there. -/
def skipLabel (label : Text) : Parse Unit := fun ts =>
  match ts with
  | t :: rest =>
    if t.kind = .identifier ∧ Text.upper t.text = label ∧ kindOf rest = .symbol .eq then
      .ok ((), rest.tail)
    else .ok ((), ts)
  | [] => .ok ((), ts)

/-- Reads the number of clusters, which has to be an integer. -/
def clusters : Parse Literal := fun ts => do
  let (l, rest) ← number false ts
  match l with
  | .int .. => .ok (l, rest)
  | _ => mismatch [.int] ts

/-- The operations that need nothing more. -/
def plainOperations : List Keyword := [.STATISTICS, .ANOMALIES, .ASSOCIATION_RULES]

/-- The operations that need a target column. -/
def targetOperations : List Keyword := [.CLASSIFICATION, .REGRESSION]

/-- All mining operations, as an error message lists them. -/
def operations : List TokenKind :=
  (.CLUSTER :: plainOperations ++ targetOperations).map TokenKind.keyword

/-- Reads a mining directive. -/
def mineDirective : Parse MineDirective := fun ts =>
  match kindOf ts with
  | .keyword k =>
    if k = .CLUSTER then
      (do skipLabel (ascii "K")
          let l ← clusters
          return ⟨.keyword k, some l, []⟩ : Parse MineDirective) ts.tail
    else if k ∈ plainOperations then .ok (⟨.keyword k, none, []⟩, ts.tail)
    else if k ∈ targetOperations then
      (do skipLabel (ascii "TARGET")
          let target ← name
          return ⟨.keyword k, none, target⟩ : Parse MineDirective) ts.tail
    else mismatch operations ts
  | _ => mismatch operations ts

/-- The names of the interest measures. -/
def measureNames : List Text :=
  [ascii "confidence", ascii "support", ascii "lift", ascii "threshold",
    ascii "confidence_level"]

/-- Reads the name of a measure in any letter case and gives it in small letters. -/
def measureName : Parse Text := fun ts =>
  match ts with
  | t :: rest =>
    if t.kind = .identifier ∧ measureNames.contains (Text.lower t.text) then
      .ok (Text.lower t.text, rest)
    else .error ⟨ts, .mismatched measureNames⟩
  | [] => .error ⟨ts, .mismatched measureNames⟩

/-- Reads a measure and its number. -/
def measureSetting : Parse MeasureSetting := do
  let measure ← measureName
  let _ ← sign .eq
  return ⟨measure, ← number false⟩

end Parse

/-! ## 2. A clause -/

/-- What a clause says. -/
inductive ClauseContent
  | database (name : Text)
  | relevance (attributes : List Attribute)
  | tables (tables : List TableRef)
  | condition (p : Predicate)
  | grouping (attributes : List Attribute)
  | ordering (items : List OrderItem)
  | mining (directive : MineDirective)
  | measures (settings : List MeasureSetting)
  | display (name : Text)
  deriving DecidableEq, Repr

/-- Puts what a clause says into its field. -/
def Statement.set (s : Statement) : ClauseContent → Statement
  | .database t => { s with database := some t }
  | .relevance as => { s with relevance := some as }
  | .tables ts => { s with tables := ts }
  | .condition p => { s with condition := some p }
  | .grouping as => { s with grouping := as }
  | .ordering os => { s with ordering := os }
  | .mining d => { s with mining := some d }
  | .measures ms => { s with measures := ms }
  | .display t => { s with display := some t }

namespace Clause

/-- Reads a clause behind its keyword, under a limit of nesting. -/
def content (limit : Nat) : Clause → Parse ClauseContent
  | database => do
    let _ ← Parse.word .DATABASE
    return .database (← Parse.name)
  | relevance => do
    let _ ← Parse.word .TO
    return .relevance (← Parse.commaList Parse.attributeRef)
  | tables => return .tables (← Parse.commaList Parse.tableRef)
  | condition => return .condition (← Parse.condition limit)
  | grouping => do
    let _ ← Parse.word .BY
    return .grouping (← Parse.commaList Parse.attributeRef)
  | ordering => do
    let _ ← Parse.word .BY
    return .ordering (← Parse.commaList Parse.orderItem)
  | mining => return .mining (← Parse.mineDirective)
  | measures => return .measures (← Parse.commaList Parse.measureSetting)
  | display => do
    let _ ← Parse.word .AS
    return .display (Text.lower (← Parse.name))

/-- Does a token open one of some clauses? -/
def opensOne (allowed : List Clause) (t : Token) : Bool :=
  allowed.any fun c => t.kind = .keyword c.keyword

/-- Does a token end a segment: the end of the input, or the keyword of an allowed clause? -/
def endsSegment (allowed : List Clause) (t : Token) : Bool :=
  t.kind = .endOfInput || opensOne allowed t

/-- The tokens from the end of the segment on. -/
def nextSegment (allowed : List Clause) (ts : List Token) : List Token :=
  ts.dropWhile fun t => !endsSegment allowed t

/-- The failure at the first token that is left over, if one is. -/
def leftover (allowed : List Clause) (ts : List Token) : Option Failure :=
  match ts with
  | [] => none
  | t :: _ =>
    if endsSegment allowed t then none
    else some ⟨ts, .extraneous (allowed.map (·.keyword.spelling) ++ [TokenKind.name .endOfInput])⟩

end Clause

/-! ## 3. A statement -/

/-- What the segment of one clause gives. -/
structure ClauseReading where
  content : Option ClauseContent
  failure : Option Failure
  deriving DecidableEq, Repr

namespace ClauseReading

/-- Reads the segment of a clause; `later` are the clauses that may follow it. -/
def ofSegment (limit : Nat) (clause : Clause) (later : List Clause) (ts : List Token) :
    ClauseReading :=
  match clause.content limit ts with
  | .ok (content, rest) => ⟨some content, Clause.leftover later rest⟩
  | .error f => ⟨none, some f⟩

/-- Reads the segments of the clauses that may stand here, from the keyword of one on. -/
def all (limit : Nat) : List Clause → List Token → List ClauseReading
  | [], _ => []
  | clause :: later, ts =>
    if Parse.kindOf ts = .keyword clause.keyword then
      ofSegment limit clause later ts.tail :: all limit later (Clause.nextSegment later ts.tail)
    else all limit later ts

end ClauseReading

/-- A statement as far as it could be read, and the failures in the order of the tokens. -/
structure StatementReading where
  statement : Statement
  failures : List Failure
  deriving DecidableEq, Repr

/-- Reads a statement. -/
def readStatement (limit : Nat) (ts : List Token) : StatementReading :=
  let readings := ClauseReading.all limit Clause.all (Clause.nextSegment Clause.all ts)
  { statement := (readings.filterMap (·.content)).foldl Statement.set .empty
    failures := (Clause.leftover Clause.all ts).toList ++ readings.filterMap (·.failure) }

end MiningQuery
