/-
  File:      MiningQuery/Proofs/Guard/Rules.lean
  Subject:   The rules of conditions and expressions, read with guards.

  The rules are those of the readers with a cursor. Levels are held open by guards, and attempts are
  counted by hand: once on the way in, and back on each of the two ways out, before a condition that
  was read is judged and before a throw is passed on or dropped.

  * `Guarded.factor`, `Guarded.negation` -- the rules that call themselves one level further inside,
    which count down how often they may still do so;
  * `Guarded.primaryRule` -- a condition in parentheses is tried, and read again as a value;
  * `Rule`, `Rule.run` -- the eight rules and how each of them runs.
-/
import MiningQuery.Proofs.Guard.Basic
import MiningQuery.Proofs.Scan.Rules

namespace MiningQuery

namespace Guarded

/-! ## 1. Expressions -/

/-- Sums of products. -/
def exprOf (factor : Guarded Expr) : Guarded Expr :=
  chain Parse.additive? .arith (chain Parse.multiplicative? .arith factor)

/-- An expression in parentheses. -/
def parenthesized (expr : Guarded Expr) : Guarded Expr := guarded do
  let _ ← Scan.advance
  let e ← expr
  let _ ← Scan.expect (.symbol .closeParen)
  return .paren e

/-- The arguments of an aggregate, behind the parenthesis that opens them. -/
def aggregateArguments (function : Text) (expr : Guarded Expr) : Guarded Expr := do
  if ← Scan.accept (.symbol .star) then
    let _ ← Scan.expect (.symbol .closeParen)
    return .aggregateAll function
  else
    let e ← expr
    let _ ← Scan.expect (.symbol .closeParen)
    return .aggregate function e

/-- A call of an aggregate. -/
def aggregateCall (function : Text) (expr : Guarded Expr) : Guarded Expr := guarded do
  let _ ← Scan.advance
  let _ ← Scan.advance
  aggregateArguments function expr

/-- Reads a factor; `expr` reads expressions one level further inside. -/
def factorRule (expr : Guarded Expr) : Guarded Expr := do
  let t ← Scan.cur
  match t.kind with
  | .int | .float => return .literal (← Scan.number false)
  | .string =>
    let _ ← Scan.advance
    return .literal (.string t.text)
  | .keyword .NULL =>
    let _ ← Scan.advance
    return .literal (.null t.text)
  | .symbol .minus =>
    if Parse.isNumber (← Scan.peek).kind then
      let _ ← Scan.advance
      return .literal (← Scan.number true)
    else Scan.mismatch Parse.factorStart
  | .symbol .openParen => parenthesized expr
  | .identifier =>
    if Parse.isAggregate t.text && (← Scan.peek).kind = .symbol .openParen then
      aggregateCall t.text expr
    else return .column (← Scan.columnRef)
  | _ => Scan.mismatch Parse.factorStart

/-- Reads a factor; it may call itself so many times inside itself. -/
def factor : Nat → Guarded Expr
  | 0 => Scan.stop .endless
  | n + 1 => factorRule (exprOf (factor n))

/-! ## 2. Simple conditions -/

/-- What a condition says of its subject, behind the `NOT` if one is pending. -/
def negatableTail (expr : Guarded Expr) (negated : Bool) (subject : Expr) : Guarded Predicate := do
  if ← Scan.accept (.keyword .BETWEEN) then
    let low ← expr
    let _ ← Scan.expect (.keyword .AND)
    let high ← expr
    return .between negated subject low high
  else if ← Scan.accept (.keyword .LIKE) then
    let pattern ← Scan.expect .string
    return .like negated subject pattern.text
  else if ← Scan.accept (.keyword .IN) then
    let _ ← Scan.expect (.symbol .openParen)
    let values ← commaList expr
    let _ ← Scan.expect (.symbol .closeParen)
    return .inList negated subject values
  else if negated then Scan.stop .failedCheck
  else return .value subject

/-- What a condition says of its subject. -/
def simpleTail (expr : Guarded Expr) (subject : Expr) : Guarded Predicate := do
  match Parse.comparison? (← Scan.cur).kind with
  | some op =>
    let _ ← Scan.advance
    return .compare op subject (← expr)
  | none =>
    if ← Scan.accept (.keyword .IS) then
      let negated ← Scan.accept (.keyword .NOT)
      let _ ← Scan.expect (.keyword .NULL)
      return .isNull negated subject
    else
      let negated ← Scan.pendingNot
      negatableTail expr negated subject

/-- Reads a simple condition. -/
def simple (expr : Guarded Expr) : Guarded Predicate := do simpleTail expr (← expr)

/-! ## 3. Conditions -/

/-- Disjunctions of conjunctions. -/
def conditionOf (negation : Guarded Predicate) : Guarded Predicate :=
  chain Parse.disjunctive? .logical (chain Parse.conjunctive? .logical negation)

/-- A condition and the parenthesis that closes it. -/
def grouped (negation : Guarded Predicate) : Guarded Predicate := do
  let p ← conditionOf negation
  let _ ← Scan.expect (.symbol .closeParen)
  return p

/-- The attempt has come to its end: what was read is a condition unless a value goes on. -/
def settle (p : Predicate) : Scan (Option Predicate) := do
  Scan.update Cursor.tried
  if ← Scan.continuesValue then return none else return some p

/-- Tries to read a condition in parentheses; nothing if the parentheses are those of a value. -/
def attempt (negation : Guarded Predicate) : Guarded (Option Predicate) :=
  guarded do
    let _ ← Scan.advance
    let p ← grouped negation
    settle p

/-- What an attempt leads to: a condition that was read stands, and after nothing the cursor goes back
    to where it was for a simple condition. -/
def fallBack (mark : Nat) (simple : Guarded Predicate) : Option Predicate → Guarded Predicate
  | some p => return .paren p
  | none => do
    Scan.update fun c => c.moved mark
    simple

/-- Reads a condition in parentheses or a simple condition. -/
def primaryRule (negation simple : Guarded Predicate) : Guarded Predicate := do
  if ← Scan.atKind (.symbol .openParen) then
    let mark := (← Scan.cursor).position
    Scan.update Cursor.trying
    let read ← rescue (attempt negation) fun fatal => Scan.abandon fatal
    fallBack mark simple read
  else simple

/-- Reads a negation, or what `primary` reads; `negation` reads the negations one level further
    inside. -/
def negationRule (negation primary : Guarded Predicate) : Guarded Predicate := do
  if ← Scan.accept (.keyword .NOT) then
    guarded do return .not (← negation)
  else primary

/-- Reads a negation; it may call itself so many times inside itself. -/
def negation : Nat → Guarded Predicate
  | 0 => Scan.stop .endless
  | n + 1 =>
    negationRule (negation n) (primaryRule (negation n) (simple (exprOf (factor (n + 1)))))

/-- Reads a condition in parentheses or a simple condition; rules may call themselves so many
    times inside themselves. -/
def primary : Nat → Guarded Predicate
  | 0 => Scan.stop .endless
  | n + 1 => primaryRule (negation n) (simple (exprOf (factor (n + 1))))

end Guarded

/-! ## 4. The eight rules -/

/-- The rules of conditions and expressions. -/
inductive Rule
  | condition | conjunction | negation | primary | simple | expr | term | factor
  deriving DecidableEq, Repr

namespace Rule

/-- What a rule reads. -/
def Value : Rule → Type
  | expr | term | factor => Expr
  | _ => Predicate

/-- How a rule runs, if rules may call themselves so many times inside themselves. -/
def run (calls : Nat) : (rule : Rule) → Guarded rule.Value
  | condition => Guarded.conditionOf (Guarded.negation calls)
  | conjunction => Guarded.chain Parse.conjunctive? .logical (Guarded.negation calls)
  | negation => Guarded.negation calls
  | primary => Guarded.primary calls
  | simple => Guarded.simple (Guarded.exprOf (Guarded.factor calls))
  | expr => Guarded.exprOf (Guarded.factor calls)
  | term => Guarded.chain Parse.multiplicative? .arith (Guarded.factor calls)
  | factor => Guarded.factor calls

end Rule

end MiningQuery
