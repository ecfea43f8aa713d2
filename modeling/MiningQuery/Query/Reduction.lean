/-
  File:      MiningQuery/Query/Reduction.lean
  Subject:   From a statement to a query.

  * `Predicate.reduce` drops the parentheses of a condition, keeps the left side of a test as
    text and turns the right side into a value;
  * `Statement.reduce` does so for every clause. It refuses only statements that reading never
    gives: a clustering without a number of clusters, a measure that is no number, an unknown
    measure;
  * `Query.ofText` reads a text and reduces it, and `Query.records` are the log records of both.
-/
import MiningQuery.Grammar.Reading
import MiningQuery.Query.Basic

namespace MiningQuery

/-! ## 1. Conditions -/

namespace Expr

/-- What an expression stands for where a value is wanted: a constant is its value, anything
    else is kept as text. -/
def toValue : Expr → Value
  | literal (.int _ i) => .integer i
  | literal (.float _ x) => .float x
  | literal (.string t) => .string (Text.unquoted t)
  | literal (.null _) => .null
  | e => .string e.text

end Expr

namespace Predicate

/-- The condition that a predicate states. A bare value equals its own text. -/
def reduce : Predicate → Condition
  | logical op l r => .logical op l.reduce r.reduce
  | not p => .not p.reduce
  | paren p => p.reduce
  | compare op l r => .compare l.text (.compare op) r.toValue
  | between n x low high => .between n x.text low.toValue high.toValue
  | like n x pattern => .like n x.text (Text.unquoted pattern)
  | isNull n x => .isNull n x.text
  | inList n x values => .inList n x.text (values.map Expr.toValue)
  | value e => .compare e.text (.compare .eq) (.string e.text)

/-- The bare values of a predicate, the last one first. -/
def bareValues : Predicate → List Expr
  | logical _ l r => r.bareValues ++ l.bareValues
  | not p => p.bareValues
  | paren p => p.bareValues
  | value e => [e]
  | _ => []

/-- The log records of reducing a predicate: one for every bare value. -/
def records (p : Predicate) : List LogRecord :=
  p.bareValues.map fun e =>
    .debug (ascii "Unrecognized condition shape, keeping it as text: " ++ e.text)

end Predicate

/-! ## 2. Mining and measures -/

/-- What a statement cannot be reduced for. -/
inductive ReductionError
  | clustersMissing
  | measureNotANumber (value : Text)
  | unknownMeasure (name : Text)
  deriving DecidableEq, Repr

namespace MineDirective

/-- The operation of a directive. A token that names no operation gives the unknown one. -/
def reduce (d : MineDirective) : Except ReductionError MiningOperation :=
  let target := [(ascii "target", Value.string d.target)]
  match d.operation with
  | .keyword .CLUSTER =>
    match d.clusters with
    | some (.int _ k) => .ok ⟨.cluster, [(ascii "k", .integer k)]⟩
    | _ => .error .clustersMissing
  | .keyword .STATISTICS => .ok ⟨.statistics, []⟩
  | .keyword .ANOMALIES => .ok ⟨.anomalies, []⟩
  | .keyword .ASSOCIATION_RULES => .ok ⟨.associationRules, []⟩
  | .keyword .CLASSIFICATION => .ok ⟨.classification, target⟩
  | .keyword .REGRESSION => .ok ⟨.regression, target⟩
  | _ => .ok ⟨.unknown, []⟩

/-- Does the directive name an operation? -/
def isKnown (d : MineDirective) : Bool := d.operation ∈ Parse.operations

/-- The log record of a directive that names no operation. -/
def records (d : MineDirective) : List LogRecord :=
  if d.isKnown then [] else [.warning (ascii "Unknown mining operation " ++ d.operation.name)]

end MineDirective

namespace MeasureSetting

/-- The number given to a measure; an integer counts as the nearest floating point number. -/
def number (s : MeasureSetting) : Except ReductionError Binary64 :=
  match s.value with
  | .int _ i => .ok (.ofInt i)
  | .float _ x => .ok x
  | l => .error (.measureNotANumber l.text)

/-- Sets the measure of a setting. -/
def apply (ms : InterestMeasures) (s : MeasureSetting) :
    Except ReductionError InterestMeasures := do
  let x ← s.number
  match Measure.ofName? s.name with
  | some m => .ok (ms.set m x)
  | none => .error (.unknownMeasure s.name)

/-- The measures of a list of settings, of which a later one of the same measure counts. -/
def reduceAll (settings : List MeasureSetting) :
    Except ReductionError (Option InterestMeasures) :=
  if settings.isEmpty then .ok none else some <$> settings.foldlM apply .empty

end MeasureSetting

/-! ## 3. Statements -/

/-- Column and direction of an item, as text. -/
def OrderItem.reduce (o : OrderItem) : QueryOrder := ⟨o.column.text, o.direction⟩

namespace Statement

/-- The query of a statement; `displayType` is used where the statement does not choose one.
    The second names of tables are not carried further. -/
def reduce (displayType rawText : Text) (errors : List Text) (s : Statement) :
    Except ReductionError Query := do
  let mining ← s.mining.mapM MineDirective.reduce
  let measures ← MeasureSetting.reduceAll s.measures
  return {
    database := s.database.getD []
    tables := s.tables.map (·.name)
    columns := (s.relevance.getD []).map Attribute.text
    condition := s.condition.map Predicate.reduce
    grouping := s.grouping.map Attribute.text
    ordering := s.ordering.map OrderItem.reduce
    mining, measures
    displayType := s.display.getD displayType
    rawText, errors }

/-- The log records of reducing a statement. -/
def reductionRecords (s : Statement) : List LogRecord :=
  (s.condition.map Predicate.records).getD [] ++ (s.mining.map MineDirective.records).getD []

end Statement

/-! ## 4. From text to query -/

namespace Reading

/-- The query of what has been read. -/
def reduce (settings : ReadSettings) (r : Reading) : Except ReductionError Query :=
  r.statement.reduce settings.displayType r.text r.errors

end Reading

namespace Query

/-- The query of a text. -/
def ofText (settings : ReadSettings) (text : Text) : Except ReductionError Query :=
  (Reading.ofText settings text).reduce settings

/-- The log records of making a query from a text. -/
def records (settings : ReadSettings) (text : Text) : List LogRecord :=
  let reading := Reading.ofText settings text
  reading.records ++ reading.statement.reductionRecords ++
    match reading.reduce settings with
    | .ok q => [.debug q.text]
    | .error _ => []

end Query

end MiningQuery
