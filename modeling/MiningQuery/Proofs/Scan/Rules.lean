/-
  File:      MiningQuery/Proofs/Scan/Rules.lean
  Subject:   The grammar of statements for a reader with a cursor.

  The rules are those of the readers of token lists. What they add is how a clause that is not read
  to its end is left: `synchronize` passes over tokens up to a keyword that may come next.

  Rules that call themselves count down how often they may still do so, and a run that counts down
  to the end is without an end.
-/
import MiningQuery.Grammar.Statement
import MiningQuery.Proofs.Scan.Basic

namespace MiningQuery.Scan

/-! ## 1. Expressions -/

/-- Reads a number without a sign. -/
def number (negative : Bool) : Scan Literal := do
  let t ← cur
  if t.kind = .int ∨ t.kind = .float then
    let p := (← cursor).position
    let _ ← advance
    match Parse.numberLiteral negative t with
    | .ok l => return l
    | .error cause => failAt p cause
  else mismatch [.int, .float]

/-- Reads a column. -/
def columnRef : Scan ColumnRef := do
  let first ← expect .identifier
  if ← accept (.symbol .dot) then
    let second ← expect .identifier
    return ⟨some first.text, second.text⟩
  else return ⟨none, first.text⟩

/-- Sums of products. -/
def exprOf (factor : Scan Expr) : Scan Expr :=
  chain Parse.additive? .arith (chain Parse.multiplicative? .arith factor)

/-- An expression in parentheses. -/
def parenthesized (expr : Scan Expr) : Scan Expr := nested do
  let _ ← advance
  let e ← expr
  let _ ← expect (.symbol .closeParen)
  return .paren e

/-- A call of an aggregate. -/
def aggregateCall (function : Text) (expr : Scan Expr) : Scan Expr := nested do
  let _ ← advance
  let _ ← advance
  if ← accept (.symbol .star) then
    let _ ← expect (.symbol .closeParen)
    return .aggregateAll function
  else
    let e ← expr
    let _ ← expect (.symbol .closeParen)
    return .aggregate function e

/-- Reads a factor; `expr` reads expressions one level further inside. -/
def factorRule (expr : Scan Expr) : Scan Expr := do
  let t ← cur
  match t.kind with
  | .int | .float => return .literal (← number false)
  | .string =>
    let _ ← advance
    return .literal (.string t.text)
  | .keyword .NULL =>
    let _ ← advance
    return .literal (.null t.text)
  | .symbol .minus =>
    if Parse.isNumber (← peek).kind then
      let _ ← advance
      return .literal (← number true)
    else mismatch Parse.factorStart
  | .symbol .openParen => parenthesized expr
  | .identifier =>
    if Parse.isAggregate t.text && (← peek).kind = .symbol .openParen then
      aggregateCall t.text expr
    else return .column (← columnRef)
  | _ => mismatch Parse.factorStart

/-- Reads a factor; it may call itself so many times inside itself. -/
def factor : Nat → Scan Expr
  | 0 => stop .endless
  | n + 1 => factorRule (exprOf (factor n))

/-! ## 2. Conditions -/

/-- The `NOT` of a test that can be negated; only behind such a `NOT` one is pending. -/
def pendingNot : Scan Bool := do
  if ← atKind (.keyword .NOT) then
    if Parse.negatable.contains (← peek).kind then
      let _ ← advance
      return true
    else
      let _ ← advance
      mismatch Parse.negatable
  else return false

/-- What a condition says of its subject, behind the `NOT` if one is pending. -/
def negatableTail (expr : Scan Expr) (negated : Bool) (subject : Expr) : Scan Predicate := do
  if ← accept (.keyword .BETWEEN) then
    let low ← expr
    let _ ← expect (.keyword .AND)
    let high ← expr
    return .between negated subject low high
  else if ← accept (.keyword .LIKE) then
    let pattern ← expect .string
    return .like negated subject pattern.text
  else if ← accept (.keyword .IN) then
    let _ ← expect (.symbol .openParen)
    let values ← commaList expr
    let _ ← expect (.symbol .closeParen)
    return .inList negated subject values
  else if negated then stop .failedCheck
  else return .value subject

/-- What a condition says of its subject. -/
def simpleTail (expr : Scan Expr) (subject : Expr) : Scan Predicate := do
  match Parse.comparison? (← cur).kind with
  | some op =>
    let _ ← advance
    return .compare op subject (← expr)
  | none =>
    if ← accept (.keyword .IS) then
      let negated ← accept (.keyword .NOT)
      let _ ← expect (.keyword .NULL)
      return .isNull negated subject
    else
      let negated ← pendingNot
      negatableTail expr negated subject

/-- Reads a simple condition. -/
def simple (expr : Scan Expr) : Scan Predicate := do simpleTail expr (← expr)

/-- Disjunctions of conjunctions. -/
def conditionOf (negation : Scan Predicate) : Scan Predicate :=
  chain Parse.disjunctive? .logical (chain Parse.conjunctive? .logical negation)

/-- A condition and the parenthesis that closes it. -/
def grouped (negation : Scan Predicate) : Scan Predicate := do
  let p ← conditionOf negation
  let _ ← expect (.symbol .closeParen)
  return p

/-- Does what comes next show that a closed parenthesis closed a value? -/
def continuesValue : Scan Bool := return Parse.continuesValue [← cur, ← peek]

/-- Tries to read a condition in parentheses; nothing if the parentheses are those of a value. -/
def attempt (negation : Scan Predicate) : Scan (Option Predicate) :=
  nested do
    let _ ← advance
    let p ← grouped negation
    update Cursor.tried
    if ← continuesValue then return none else return some p

/-- After a failed attempt the outermost one reads on. -/
def abandon (fatal : Bool) : Scan (Option Predicate) := do
  update Cursor.tried
  if fatal || 0 < (← cursor).attempts then raise fatal else return none

/-- Reads a negation, a condition in parentheses or a simple condition; `negation` reads the
    negations one level further inside. -/
def negationRule (negation simple : Scan Predicate) : Scan Predicate := do
  if ← accept (.keyword .NOT) then
    nested do return .not (← negation)
  else if ← atKind (.symbol .openParen) then
    let mark := (← cursor).position
    update Cursor.trying
    match ← recover (attempt negation) abandon with
    | some p => return .paren p
    | none =>
      update fun c => c.moved mark
      simple
  else simple

/-- Reads a negation; it may call itself so many times inside itself. -/
def negation : Nat → Scan Predicate
  | 0 => stop .endless
  | n + 1 => negationRule (negation n) (simple (exprOf (factor (n + 1))))

/-- Reads a condition. -/
def condition (calls : Nat) : Scan Predicate := conditionOf (negation calls)

/-! ## 3. Clauses -/

/-- Reads a star or a column. -/
def attributeRef : Scan Attribute := do
  if ← accept (.symbol .star) then return .all
  else if ← atKind .identifier then return .column (← columnRef)
  else mismatch [.identifier, .symbol .star]

/-- Reads a table and its second name. -/
def tableRef : Scan TableRef := do
  let table ← expect .identifier
  if ← accept (.keyword .AS) then
    let second ← expect .identifier
    return ⟨table.text, some second.text⟩
  else if ← atKind .identifier then
    let second ← advance
    return ⟨table.text, some second.text⟩
  else return ⟨table.text, none⟩

/-- Reads a column and a direction. -/
def orderItem : Scan OrderItem := do
  if ← atKind .identifier then
    let column ← columnRef
    if ← accept (.keyword .DESC) then return ⟨column, .descending⟩
    else
      let _ ← accept (.keyword .ASC)
      return ⟨column, .ascending⟩
  else mismatch [.identifier]

/-- Passes over a word and an equals sign, if both are there. -/
def skipLabel (label : Text) : Scan Unit := do
  let t ← cur
  if t.kind = .identifier ∧ Text.upper t.text = label ∧ (← peek).kind = .symbol .eq then
    let _ ← advance
    let _ ← advance
    return ()
  else return ()

/-- Reads the number of clusters. A number that is no integer is reported where it stands, which is
    one token back. -/
def clusters : Scan Literal := do
  let l ← number false
  match l with
  | .int .. => return l
  | _ =>
    match (← cursor).position with
    | 0 => stop .outOfRange
    | p + 1 => failAt p (.mismatched [TokenKind.name .int])

/-- Reads a mining directive. -/
def mineDirective : Scan MineDirective := do
  let t ← cur
  match t.kind with
  | .keyword k =>
    if k = .CLUSTER then
      let _ ← advance
      skipLabel (ascii "K")
      let l ← clusters
      return ⟨.keyword k, some l, []⟩
    else if k ∈ Parse.plainOperations then
      let _ ← advance
      return ⟨.keyword k, none, []⟩
    else if k ∈ Parse.targetOperations then
      let _ ← advance
      skipLabel (ascii "TARGET")
      let target ← expect .identifier
      return ⟨.keyword k, none, target.text⟩
    else mismatch Parse.operations
  | _ => mismatch Parse.operations

/-- Reads a measure and its number. -/
def measureSetting : Scan MeasureSetting := do
  let t ← cur
  if t.kind = .identifier ∧ Parse.measureNames.contains (Text.lower t.text) then
    let _ ← advance
    let _ ← expect (.symbol .eq)
    return ⟨Text.lower t.text, ← number false⟩
  else failAt (← cursor).position (.mismatched Parse.measureNames)

/-- Reads a clause behind its keyword. -/
def content (calls : Nat) : Clause → Scan ClauseContent
  | .database => do
    let _ ← expect (.keyword .DATABASE)
    let name ← expect .identifier
    return .database name.text
  | .relevance => do
    let _ ← expect (.keyword .TO)
    return .relevance (← commaList attributeRef)
  | .tables => return .tables (← commaList tableRef)
  | .condition => return .condition (← condition calls)
  | .grouping => do
    let _ ← expect (.keyword .BY)
    return .grouping (← commaList attributeRef)
  | .ordering => do
    let _ ← expect (.keyword .BY)
    return .ordering (← commaList orderItem)
  | .mining => return .mining (← mineDirective)
  | .measures => return .measures (← commaList measureSetting)
  | .display => do
    let _ ← expect (.keyword .AS)
    let name ← expect .identifier
    return .display (Text.lower name.text)

/-! ## 4. Statements -/

/-- The place of the clause that a keyword opens. -/
def clauseIndex (kind : TokenKind) : Option Nat :=
  Clause.all.findIdx? fun c => kind = .keyword c.keyword

/-- The place of the clause that a token opens, if the clause may still come. -/
def opened (next : Nat) (kind : TokenKind) : Option Nat :=
  (clauseIndex kind).filter fun k => next ≤ k

/-- Passes over tokens up to the end of the input or a clause that may still come, for at most so
    many rounds. -/
def synchronize (next : Nat) : Nat → Scan Unit
  | 0 => stop .endless
  | n + 1 => do
    let t ← cur
    if t.kind = .endOfInput ∨ (opened next t.kind).isSome then return ()
    else
      let _ ← advance
      synchronize next n

/-- Reads the clause with a place, its keyword included. -/
def clauseAt (calls k : Nat) : Scan ClauseContent :=
  match Clause.all[k]? with
  | some clause => do
    let _ ← expect (.keyword clause.keyword)
    content calls clause
  | none => stop .failedCheck

/-- Reads the clause with a place; behind an error in it the next clause is sought. -/
def clauseOrError (calls k : Nat) : Scan (Option ClauseContent) :=
  recover (do return some (← clauseAt calls k)) fun _ => do
    synchronize (k + 1) (← input).tokens.length
    return none

/-- Reports a token that opens no clause, and seeks the next clause behind it. -/
def extraneous (next : Nat) : Scan Unit := do
  report (← cursor).position (.extraneous
    ((Clause.all.drop next).map (·.keyword.spelling) ++ [TokenKind.name .endOfInput]))
  let _ ← advance
  synchronize next (← input).tokens.length

/-- Reads clauses from the one with place `next` on into a statement, for at most so many rounds. -/
def clausesFrom (calls : Nat) : Nat → Nat → Statement → Scan Statement
  | 0, _, _ => stop .endless
  | n + 1, next, s => do
    let t ← cur
    if t.kind = .endOfInput then return s
    else match opened next t.kind with
      | some k =>
        let read ← clauseOrError calls k
        clausesFrom calls n (k + 1) (read.elim s s.set)
      | none =>
        extraneous next
        clausesFrom calls n next s

/-- Reads a statement from tokens that have to end with the end of the input. -/
def statement (calls : Nat) : Scan Statement := do
  let i ← input
  if (i.tokens.getLast?.map (·.kind)) = some .endOfInput then
    clausesFrom calls i.tokens.length 0 .empty
  else stop .failedCheck

end MiningQuery.Scan
