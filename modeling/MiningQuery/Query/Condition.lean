/-
  File:      MiningQuery/Query/Condition.lean
  Subject:   The condition of a query: a tree of tests on expressions.

  The expression on the left of a test is kept as text and what stands on the right as a value.
  Parentheses are gone, since the tree shows the grouping, and AND and OR have two children
  each.
-/
import MiningQuery.Query.Value
import MiningQuery.Tree.Predicate

namespace MiningQuery

/-! ## 1. Operators -/

/-- The operators of SQL that a condition may name. -/
inductive SqlOp
  | compare (op : CompareOp)
  | logic (op : LogicOp)
  | not | between | like | isNull | inList
  | invalid
  deriving DecidableEq, Repr

namespace SqlOp

/-- The spelling of an operator. -/
def spelling : SqlOp → Text
  | compare op => op.spelling
  | logic op => op.spelling
  | not => ascii "NOT"
  | between => ascii "BETWEEN"
  | like => ascii "LIKE"
  | isNull => ascii "IS NULL"
  | inList => ascii "IN"
  | invalid => ascii "INVALID"

/-- All operators. -/
def all : List SqlOp :=
  [.compare .eq, .compare .ne, .compare .lt, .compare .gt, .compare .le, .compare .ge,
    .logic .and, .logic .or, not, between, like, isNull, inList, invalid]

/-- The operator with a spelling. -/
def ofText? (t : Text) : Option SqlOp := all.find? fun op => op.spelling == t

end SqlOp

/-! ## 2. Conditions -/

/-- A condition. The pattern of `like` has no quotes. -/
inductive Condition
  | compare (left : Text) (op : SqlOp) (right : Value)
  | logical (op : LogicOp) (left right : Condition)
  | not (inner : Condition)
  | between (negated : Bool) (subject : Text) (low high : Value)
  | like (negated : Bool) (subject pattern : Text)
  | isNull (negated : Bool) (subject : Text)
  | inList (negated : Bool) (subject : Text) (values : List Value)
  deriving DecidableEq, Repr

namespace Condition

/-- Connects two conditions by an operator, which has to be a connective. -/
def connect? (op : SqlOp) (left right : Condition) : Option Condition :=
  match op with
  | .logic op => some (logical op left right)
  | _ => none

/-- The mark of a negated test. -/
def notMark (negated : Bool) : Text := if negated then ascii " NOT" else []

/-- The condition as a nested term. -/
def text : Condition → Text
  | compare l op r =>
    ascii "(Comparison " ++ l ++ ascii " " ++ op.spelling ++ ascii " " ++ r.text ++ ascii ")"
  | logical op l r =>
    ascii "(Logical " ++ op.spelling ++ ascii " " ++ l.text ++ ascii " " ++ r.text ++ ascii ")"
  | not c => ascii "(Not " ++ c.text ++ ascii ")"
  | between n x low high =>
    ascii "(Between " ++ x ++ notMark n ++ ascii " " ++ low.text ++ ascii " " ++ high.text ++
      ascii ")"
  | like n x pattern => ascii "(Like " ++ x ++ notMark n ++ ascii " '" ++ pattern ++ ascii "')"
  | isNull n x => ascii "(IsNull " ++ x ++ notMark n ++ ascii ")"
  | inList n x values =>
    ascii "(InValues " ++ x ++ notMark n ++ ascii " [" ++
      Text.join (ascii ", ") (values.map Value.text) ++ ascii "])"

/-- Equality of conditions: of the trees, and of their values as values. -/
def equals : Condition → Condition → Bool
  | compare l op r, compare l' op' r' => l == l' && op == op' && r.equals r'
  | logical op l r, logical op' l' r' => op == op' && l.equals l' && r.equals r'
  | not c, not c' => c.equals c'
  | between n x low high, between n' x' low' high' =>
    x == x' && low.equals low' && high.equals high' && n == n'
  | like n x pattern, like n' x' pattern' => x == x' && pattern == pattern' && n == n'
  | isNull n x, isNull n' x' => x == x' && n == n'
  | inList n x vs, inList n' x' vs' => x == x' && Value.allEqual vs vs' && n == n'
  | _, _ => false

/-- The last test of a condition, in the order in which it is written. -/
def lastTest : Condition → Condition
  | logical _ _ r => r.lastTest
  | not c => c.lastTest
  | c => c

end Condition

end MiningQuery
