/-
  File:      MiningQuery/Query/Mining.lean
  Subject:   What a query asks of a miner: an operation with parameters, and interest measures.

  * `MiningParameters.insert` keeps the parameters in the order of their names, one value per
    name;
  * `InterestMeasures.set` sets one measure and leaves the others.
-/
import MiningQuery.Query.Value
import MiningQuery.Token.Basic

namespace MiningQuery

/-! ## 1. Operations -/

/-- What kind of model or summary is asked for. -/
inductive MiningKind
  | cluster | statistics | anomalies | associationRules | classification | regression
  | unknown
  deriving DecidableEq, Repr

namespace MiningKind

/-- The name of a kind. -/
def name : MiningKind → Text
  | cluster => ascii "CLUSTER"
  | statistics => ascii "STATISTICS"
  | anomalies => ascii "ANOMALIES"
  | associationRules => ascii "ASSOCIATION_RULES"
  | classification => ascii "CLASSIFICATION"
  | regression => ascii "REGRESSION"
  | unknown => ascii "UNKNOWN"

/-- All kinds. -/
def all : List MiningKind :=
  [cluster, statistics, anomalies, associationRules, classification, regression, unknown]

/-- The kind with a name. -/
def ofName? (t : Text) : Option MiningKind := all.find? fun k => k.name == t

end MiningKind

/-- Named values, in the order of the bytes of their names. -/
abbrev MiningParameters := List (Text × Value)

namespace MiningParameters

/-- Adds a parameter, or gives it a new value if it is there. -/
def insert (name : Text) (value : Value) : MiningParameters → MiningParameters
  | [] => [(name, value)]
  | (n, v) :: rest =>
    if name = n then (name, value) :: rest
    else if name < n then (name, value) :: (n, v) :: rest
    else (n, v) :: insert name value rest

/-- The parameters of a list, of which a later one of the same name counts. -/
def ofList (items : List (Text × Value)) : MiningParameters :=
  items.foldl (fun ps item => insert item.1 item.2 ps) []

/-- The value of a parameter. -/
def find? (ps : MiningParameters) (name : Text) : Option Value := ps.lookup name

/-- Equality of parameters: the same names with equal values. -/
def equals (ps qs : MiningParameters) : Bool :=
  ps.map (·.1) == qs.map (·.1) && Value.allEqual (ps.map (·.2)) (qs.map (·.2))

end MiningParameters

/-- A mining operation. -/
structure MiningOperation where
  kind : MiningKind
  parameters : MiningParameters := []
  deriving DecidableEq, Repr

namespace MiningOperation

/-- The operation with its parameters. -/
def text (m : MiningOperation) : Text :=
  ascii "(MiningOperation " ++ m.kind.name ++ ascii " \x7b" ++
    Text.join (ascii ", ") (m.parameters.map fun p => p.1 ++ ascii "=" ++ p.2.sql) ++
    ascii "\x7d)"

/-- Equality of operations. -/
def equals (m n : MiningOperation) : Bool :=
  m.kind == n.kind && m.parameters.equals n.parameters

end MiningOperation

/-! ## 2. Interest measures -/

/-- The measures that tell which findings are of interest. -/
inductive Measure
  | confidence | support | lift | threshold | confidenceLevel
  deriving DecidableEq, Repr

namespace Measure

/-- The name of a measure. -/
def name : Measure → Text
  | confidence => ascii "confidence"
  | support => ascii "support"
  | lift => ascii "lift"
  | threshold => ascii "threshold"
  | confidenceLevel => ascii "confidence_level"

/-- The measure with a name, which has to be in small letters. -/
def ofName? (t : Text) : Option Measure :=
  [confidence, support, lift, threshold, confidenceLevel].find? fun m => m.name == t

end Measure

/-- The measures of a query, each set or not. -/
structure InterestMeasures where
  confidence : Option Binary64 := none
  support : Option Binary64 := none
  lift : Option Binary64 := none
  threshold : Option Binary64 := none
  confidenceLevel : Option Binary64 := none
  deriving DecidableEq, Repr

namespace InterestMeasures

/-- No measure is set. -/
def empty : InterestMeasures := {}

/-- Sets one measure. -/
def set (ms : InterestMeasures) (m : Measure) (x : Binary64) : InterestMeasures :=
  match m with
  | .confidence => { ms with confidence := some x }
  | .support => { ms with support := some x }
  | .lift => { ms with lift := some x }
  | .threshold => { ms with threshold := some x }
  | .confidenceLevel => { ms with confidenceLevel := some x }

/-- A measure in the text; nothing if it is not set. -/
def part (m : Measure) (value : Option Binary64) : Text :=
  match value with
  | some x => ascii " " ++ m.name ++ ascii "=" ++ x.text
  | none => []

/-- The measures that are set, in their fixed order. -/
def text (ms : InterestMeasures) : Text :=
  ascii "(InterestMeasure" ++ part .confidence ms.confidence ++ part .support ms.support ++
    part .lift ms.lift ++ part .threshold ms.threshold ++
    part .confidenceLevel ms.confidenceLevel ++ ascii ")"

end InterestMeasures

end MiningQuery
