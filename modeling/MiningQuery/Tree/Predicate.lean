/-
  File:      MiningQuery/Tree/Predicate.lean
  Subject:   Conditions as they are written in a statement.

  * `Predicate.text` is the text of a condition with no blanks between its tokens; it is meant
    for reading, not for parsing;
  * `Predicate.bare` looks through the parentheses around a condition.
-/
import MiningQuery.Tree.Expr

namespace MiningQuery

/-! ## 1. Operators -/

/-- The six comparisons. -/
inductive CompareOp
  | eq | ne | lt | gt | le | ge
  deriving DecidableEq, Repr

/-- The sign of a comparison. -/
def CompareOp.spelling : CompareOp → Text
  | eq => ascii "="
  | ne => ascii "!="
  | lt => ascii "<"
  | gt => ascii ">"
  | le => ascii "<="
  | ge => ascii ">="

/-- The two connectives. -/
inductive LogicOp
  | and | or
  deriving DecidableEq, Repr

/-- The word of a connective. -/
def LogicOp.spelling : LogicOp → Text
  | and => ascii "AND"
  | or => ascii "OR"

/-! ## 2. Conditions -/

/-- A condition. The pattern of `like` keeps its quotes, and `value` is a bare value used as a
    condition. -/
inductive Predicate
  | logical (op : LogicOp) (left right : Predicate)
  | not (inner : Predicate)
  | paren (inner : Predicate)
  | compare (op : CompareOp) (left right : Expr)
  | between (negated : Bool) (subject low high : Expr)
  | like (negated : Bool) (subject : Expr) (pattern : Text)
  | isNull (negated : Bool) (subject : Expr)
  | inList (negated : Bool) (subject : Expr) (values : List Expr)
  | value (e : Expr)
  deriving DecidableEq, Repr

namespace Predicate

/-- The word that negates a condition, where it is negated. -/
def notWord (negated : Bool) : Text := if negated then ascii "NOT" else []

/-- The text of a condition. -/
def text : Predicate → Text
  | logical op l r => l.text ++ op.spelling ++ r.text
  | not p => ascii "NOT" ++ p.text
  | paren p => ascii "(" ++ p.text ++ ascii ")"
  | compare op l r => l.text ++ op.spelling ++ r.text
  | between n x low high =>
    x.text ++ notWord n ++ ascii "BETWEEN" ++ low.text ++ ascii "AND" ++ high.text
  | like n x pattern => x.text ++ notWord n ++ ascii "LIKE" ++ pattern
  | isNull n x => x.text ++ ascii "IS" ++ notWord n ++ ascii "NULL"
  | inList n x values =>
    x.text ++ notWord n ++ ascii "IN(" ++ Text.join (ascii ",") (values.map Expr.text) ++
      ascii ")"
  | value e => e.text

/-- The condition inside all parentheses around it. -/
def bare : Predicate → Predicate
  | paren p => p.bare
  | p => p

end Predicate

end MiningQuery
