/-
  File:      MiningQuery/Proofs/Tree/Renaming.lean
  Subject:   Statements with other names and strings.

  A map of texts is applied to the names and the strings of a statement, and to nothing else: its
  shape, its operators, its numbers, the names of its measures and its display type stay.

  * `Expr.rename`, `Predicate.rename`, `Statement.rename` -- on trees;
  * `ClauseContent.rename` -- on what one clause says;
  * **`Statement.rename_foldl`** -- clause by clause, or all at once.
-/
import MiningQuery.Grammar.Statement

namespace MiningQuery

section Rename

variable (φ : Text → Text)

/-! ## 1. Expressions and conditions -/

/-- The constant with another text; a number keeps its own. -/
def Literal.rename : Literal → Literal
  | null t => null (φ t)
  | string t => string (φ t)
  | int t i => int t i
  | float t x => float t x

/-- The column with other names. -/
def ColumnRef.rename (c : ColumnRef) : ColumnRef := ⟨c.qualifier.map φ, φ c.name⟩

/-- The expression with other names and strings. -/
def Expr.rename : Expr → Expr
  | literal l => literal (l.rename φ)
  | column c => column (c.rename φ)
  | aggregateAll name => aggregateAll (φ name)
  | aggregate name arg => aggregate (φ name) arg.rename
  | arith op l r => arith op l.rename r.rename
  | paren e => paren e.rename

/-- The condition with other names, strings and patterns. -/
def Predicate.rename : Predicate → Predicate
  | logical op l r => logical op l.rename r.rename
  | not p => not p.rename
  | paren p => paren p.rename
  | compare op l r => compare op (l.rename φ) (r.rename φ)
  | between n x low high => between n (x.rename φ) (low.rename φ) (high.rename φ)
  | like n x pattern => like n (x.rename φ) (φ pattern)
  | isNull n x => isNull n (x.rename φ)
  | inList n x values => inList n (x.rename φ) (values.map (Expr.rename φ))
  | value e => value (e.rename φ)

/-! ## 2. Parts of clauses -/

def Attribute.rename : Attribute → Attribute
  | all => all
  | column c => column (c.rename φ)

def TableRef.rename (t : TableRef) : TableRef := ⟨φ t.name, t.secondName.map φ⟩

def OrderItem.rename (o : OrderItem) : OrderItem := { o with column := o.column.rename φ }

/-- The directive with another target column, for the same operation. -/
def MineDirective.rename (d : MineDirective) : MineDirective :=
  { d with clusters := d.clusters.map (Literal.rename φ), target := φ d.target }

/-- The setting with its number renamed; a measure is known by its name, which stays. -/
def MeasureSetting.rename (m : MeasureSetting) : MeasureSetting :=
  { m with value := m.value.rename φ }

/-! ## 3. Clauses and statements -/

/-- What a clause says, with other names and strings. The display type is no name of the data. -/
def ClauseContent.rename : ClauseContent → ClauseContent
  | database t => database (φ t)
  | relevance as => relevance (as.map (Attribute.rename φ))
  | tables ts => tables (ts.map (TableRef.rename φ))
  | condition p => condition (p.rename φ)
  | grouping as => grouping (as.map (Attribute.rename φ))
  | ordering os => ordering (os.map (OrderItem.rename φ))
  | mining d => mining (d.rename φ)
  | measures ms => measures (ms.map (MeasureSetting.rename φ))
  | display t => display t

/-- The statement with other names and strings. -/
def Statement.rename (s : Statement) : Statement where
  database := s.database.map φ
  relevance := s.relevance.map (List.map (Attribute.rename φ))
  tables := s.tables.map (TableRef.rename φ)
  condition := s.condition.map (Predicate.rename φ)
  grouping := s.grouping.map (Attribute.rename φ)
  ordering := s.ordering.map (OrderItem.rename φ)
  mining := s.mining.map (MineDirective.rename φ)
  measures := s.measures.map (MeasureSetting.rename φ)
  display := s.display

theorem Statement.rename_set (s : Statement) (c : ClauseContent) :
    (s.set c).rename φ = (s.rename φ).set (c.rename φ) := by
  cases c <;> rfl

/-- **Renaming a statement is renaming what its clauses say.** -/
theorem Statement.rename_foldl (s : Statement) (cs : List ClauseContent) :
    (cs.foldl Statement.set s).rename φ =
      (cs.map (ClauseContent.rename φ)).foldl Statement.set (s.rename φ) := by
  induction cs generalizing s with
  | nil => rfl
  | cons c cs ih => rw [List.foldl_cons, ih, rename_set, List.map_cons, List.foldl_cons]

end Rename

end MiningQuery
