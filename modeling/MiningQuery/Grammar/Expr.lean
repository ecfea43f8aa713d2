/-
  File:      MiningQuery/Grammar/Expr.lean
  Subject:   Reading value expressions.

      expr   : term (('+' | '-') term)*
      term   : factor (('*' | '/') factor)*
      factor : number | '-' number | string | NULL | column | '(' expr ')'
             | aggregate '(' ('*' | expr) ')'

  A parenthesis and an aggregate call open one level of nesting each. `factorStep` is the rule
  of one level, given the reader of the next level inside, if there is one; `factor` ties the
  levels together by recursion on the number of levels that may still be opened.
-/
import MiningQuery.Grammar.Parse
import MiningQuery.Tree.Expr

namespace MiningQuery.Parse

/-! ## 1. Numbers and columns -/

/-- The value of a number token, with its sign, as a literal. -/
def numberLiteral (negative : Bool) (t : Token) : Except Cause Literal :=
  let text := (if negative then ascii "-" else []) ++ t.text
  if t.kind = .int then
    match Text.int64? text with
    | some i => .ok (.int text i)
    | none => .error (.integerOutOfRange negative)
  else
    match Binary64.read? text with
    | some x => .ok (.float text x)
    | none => .error (.invalidNumber negative)

/-- Reads a number without a sign; `negative` tells that a minus sign stood before it. -/
def number (negative : Bool) : Parse Literal := fun ts =>
  match ts with
  | t :: rest =>
    if t.kind = .int ∨ t.kind = .float then
      match numberLiteral negative t with
      | .ok l => .ok (l, rest)
      | .error cause => .error ⟨ts, cause⟩
    else mismatch [.int, .float] ts
  | [] => mismatch [.int, .float] ts

/-- Reads a column, with its table if a point follows. -/
def columnRef : Parse ColumnRef := do
  let first ← name
  if ← accept (.symbol .dot) then
    return ⟨some first, ← name⟩
  else
    return ⟨none, first⟩

/-! ## 2. Operators -/

/-- The names that a parenthesis turns into an aggregate call, in capitals. -/
def aggregates : List Text := [ascii "COUNT", ascii "SUM", ascii "AVG", ascii "MIN", ascii "MAX"]

/-- Does a word name an aggregate, in any letter case? -/
def isAggregate (t : Text) : Bool := aggregates.contains (Text.upper t)

/-- The operator of a sum. -/
def additive? : TokenKind → Option ArithOp
  | .symbol .plus => some .add
  | .symbol .minus => some .sub
  | _ => none

/-- The operator of a product. -/
def multiplicative? : TokenKind → Option ArithOp
  | .symbol .star => some .mul
  | .symbol .slash => some .div
  | _ => none

/-- Is it the kind of a number token? -/
def isNumber (k : TokenKind) : Bool := k = .int || k = .float

/-! ## 3. Expressions -/

/-- Sums of products of what `factor` reads. -/
def exprOf (factor : Parse Expr) : Parse Expr :=
  chain additive? .arith (chain multiplicative? .arith factor)

/-- The rest of an expression in parentheses, behind the opening one. -/
def parenthesized (inner : Parse Expr) : Parse Expr := do
  let e ← exprOf inner
  let _ ← sign .closeParen
  return .paren e

/-- The rest of an aggregate call, behind its opening parenthesis. -/
def aggregateCall (function : Text) (inner : Parse Expr) : Parse Expr := do
  if ← accept (.symbol .star) then
    let _ ← sign .closeParen
    return .aggregateAll function
  else
    let e ← exprOf inner
    let _ ← sign .closeParen
    return .aggregate function e

/-- What an expression may start with, as an error message lists it. -/
def factorStart : List TokenKind :=
  [.identifier, .int, .float, .string, .keyword .NULL, .symbol .openParen]

/-- Reads a factor; `inner` reads the factors one level further inside. -/
def factorStep (inner : Option (Parse Expr)) : Parse Expr := fun ts =>
  match ts with
  | [] => mismatch factorStart ts
  | t :: rest =>
    match t.kind with
    | .int | .float => (Expr.literal <$> number false) ts
    | .string => .ok (.literal (.string t.text), rest)
    | .keyword .NULL => .ok (.literal (.null t.text), rest)
    | .symbol .minus =>
      if isNumber (kindOf rest) then (Expr.literal <$> number true) rest
      else mismatch factorStart ts
    | .symbol .openParen =>
      match inner with
      | some factor => parenthesized factor rest
      | none => tooDeep ts
    | .identifier =>
      if isAggregate t.text && kindOf rest = .symbol .openParen then
        match inner with
        | some factor => aggregateCall t.text factor rest.tail
        | none => tooDeep ts
      else (Expr.column <$> columnRef) ts
    | _ => mismatch factorStart ts

/-- Reads a factor that may open so many levels of nesting. -/
def factor : Nat → Parse Expr
  | 0, ts => factorStep none ts
  | n + 1, ts => factorStep (some (factor n)) ts

/-- Reads an expression that may open so many levels of nesting. -/
def expr (levels : Nat) : Parse Expr := exprOf (factor levels)

end MiningQuery.Parse
