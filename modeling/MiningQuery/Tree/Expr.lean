/-
  File:      MiningQuery/Tree/Expr.lean
  Subject:   Value expressions as they are written in a statement.

  * `Literal` keeps the bytes of its token beside its value;
  * `Expr.text` is the text of an expression without blanks and comments, except that a binary
    operator stands between blanks, so that a minus sign before a negative number never begins
    a comment.
-/
import MiningQuery.Number.Binary64
import MiningQuery.Text.Layout

namespace MiningQuery

/-! ## 1. Parts of an expression -/

/-- A constant with its text; a number also with its value. -/
inductive Literal
  | null (text : Text)
  | string (text : Text)
  | int (text : Text) (value : Int)
  | float (text : Text) (value : Binary64)
  deriving DecidableEq, Repr

/-- The text of a constant, with the quotes of a string and the minus sign of a number. -/
def Literal.text : Literal → Text
  | null t | string t | int t _ | float t _ => t

/-- A column, with the table that it belongs to if the statement names it. -/
structure ColumnRef where
  qualifier : Option Text
  name : Text
  deriving DecidableEq, Repr

/-- Table and column with a point between, or the column alone. -/
def ColumnRef.text (c : ColumnRef) : Text :=
  match c.qualifier with
  | some table => table ++ ascii "." ++ c.name
  | none => c.name

/-- The four operations of arithmetic. -/
inductive ArithOp
  | add | sub | mul | div
  deriving DecidableEq, Repr

/-- The sign of an operation. -/
def ArithOp.spelling : ArithOp → Text
  | add => ascii "+"
  | sub => ascii "-"
  | mul => ascii "*"
  | div => ascii "/"

/-! ## 2. Expressions -/

/-- A value expression. The name of an aggregate is kept in the letter case in which it is
    written. -/
inductive Expr
  | literal (l : Literal)
  | column (c : ColumnRef)
  | aggregateAll (name : Text)
  | aggregate (name : Text) (arg : Expr)
  | arith (op : ArithOp) (left right : Expr)
  | paren (inner : Expr)
  deriving DecidableEq, Repr

/-- The text of an expression, fit for a statement of SQL. -/
def Expr.text : Expr → Text
  | literal l => l.text
  | column c => c.text
  | aggregateAll name => name ++ ascii "(*)"
  | aggregate name arg => name ++ ascii "(" ++ arg.text ++ ascii ")"
  | arith op l r => l.text ++ ascii " " ++ op.spelling ++ ascii " " ++ r.text
  | paren e => ascii "(" ++ e.text ++ ascii ")"

end MiningQuery
