/-
  File:      MiningQuery/Grammar/Condition.lean
  Subject:   Reading conditions.

      condition : conjunction (OR conjunction)*
      conjunction : negation (AND negation)*
      negation : NOT negation | '(' condition ')' | simple
      simple : expr comparison expr | expr IS NOT? NULL | expr NOT? BETWEEN expr AND expr
             | expr NOT? LIKE string | expr NOT? IN '(' expr (',' expr)* ')' | expr

  A parenthesis may also open a value. The condition is tried first; if it does not come to an
  end, or if what follows it continues a value, the tokens are read as a simple condition. An
  attempt inside another attempt leaves that to the outermost one.

  A parenthesis and a `NOT` open one level of nesting each. `negationStep` is the rule of one
  level, and `negation` ties the levels together.
-/
import MiningQuery.Grammar.Expr
import MiningQuery.Tree.Predicate

namespace MiningQuery.Parse

/-! ## 1. Operators -/

/-- The comparison that a token stands for. -/
def comparison? : TokenKind → Option CompareOp
  | .symbol .eq => some .eq
  | .symbol .ne => some .ne
  | .symbol .lt => some .lt
  | .symbol .gt => some .gt
  | .symbol .le => some .le
  | .symbol .ge => some .ge
  | _ => none

/-- The connective of a disjunction. -/
def disjunctive? : TokenKind → Option LogicOp
  | .keyword .OR => some .or
  | _ => none

/-- The connective of a conjunction. -/
def conjunctive? : TokenKind → Option LogicOp
  | .keyword .AND => some .and
  | _ => none

/-- The words that may follow a value and its `NOT`. -/
def negatable : List TokenKind := [.keyword .BETWEEN, .keyword .LIKE, .keyword .IN]

/-- Does what follows a closed parenthesis show that it closed a value? -/
def continuesValue (ts : List Token) : Bool :=
  let k := kindOf ts
  (comparison? k).isSome || (additive? k).isSome || (multiplicative? k).isSome ||
    k = .keyword .IS || negatable.contains k ||
    (k = .keyword .NOT && negatable.contains (kindOf ts.tail))

/-! ## 2. Simple conditions -/

/-- The rest of a range, behind `BETWEEN`. -/
def between (expr : Parse Expr) (negated : Bool) (subject : Expr) : Parse Predicate := do
  let low ← expr
  let _ ← word .AND
  let high ← expr
  return .between negated subject low high

/-- The rest of a pattern match, behind `LIKE`. -/
def like (negated : Bool) (subject : Expr) : Parse Predicate := do
  return .like negated subject (← expect .string).text

/-- The rest of a membership test, behind `IN`. Its parentheses open no level of nesting. -/
def inList (expr : Parse Expr) (negated : Bool) (subject : Expr) : Parse Predicate := do
  let _ ← sign .openParen
  let values ← commaList expr
  let _ ← sign .closeParen
  return .inList negated subject values

/-- The rest of a test for null, behind `IS`. -/
def isNull (subject : Expr) : Parse Predicate := do
  let negated ← accept (.keyword .NOT)
  let _ ← word .NULL
  return .isNull negated subject

/-- What a condition says of its subject, behind the `NOT` if there is one. -/
def negatableTail (expr : Parse Expr) (negated : Bool) (subject : Expr) : Parse Predicate :=
  fun ts =>
    match kindOf ts with
    | .keyword .BETWEEN => between expr negated subject ts.tail
    | .keyword .LIKE => like negated subject ts.tail
    | .keyword .IN => inList expr negated subject ts.tail
    | _ => .ok (.value subject, ts)

/-- What a condition says of its subject. -/
def simpleTail (expr : Parse Expr) (subject : Expr) : Parse Predicate := fun ts =>
  match comparison? (kindOf ts) with
  | some op => (Predicate.compare op subject <$> expr) ts.tail
  | none =>
    match kindOf ts with
    | .keyword .IS => isNull subject ts.tail
    | .keyword .NOT =>
      if negatable.contains (kindOf ts.tail) then negatableTail expr true subject ts.tail
      else mismatch negatable ts.tail
    | _ => negatableTail expr false subject ts

/-- Reads a simple condition. -/
def simpleOf (expr : Parse Expr) : Parse Predicate := do
  let subject ← expr
  simpleTail expr subject

/-! ## 3. Conditions -/

/-- Disjunctions of conjunctions of what `negation` reads. -/
def conditionOf (negation : Parse Predicate) : Parse Predicate :=
  chain disjunctive? .logical (chain conjunctive? .logical negation)

/-- The rest of a condition in parentheses, behind the opening one. -/
def grouped (negation : Parse Predicate) : Parse Predicate := do
  let p ← conditionOf negation
  let _ ← sign .closeParen
  return p

/-- Reads a negation, a condition in parentheses or a simple condition; `inner` reads the
    negations one level further inside, under an attempt or not. -/
def negationStep (inner : Option (Bool → Parse Predicate)) (simple : Parse Predicate)
    (attempting : Bool) : Parse Predicate := fun ts =>
  match kindOf ts, inner with
  | .keyword .NOT, some negation => (Predicate.not <$> negation attempting) ts.tail
  | .keyword .NOT, none => tooDeep ts.tail
  | .symbol .openParen, none => tooDeep ts
  | .symbol .openParen, some negation =>
    match grouped (negation true) ts.tail with
    | .ok (p, rest) => if continuesValue rest then simple ts else .ok (.paren p, rest)
    | .error f => if f.fatal || attempting then .error f else simple ts
  | _, _ => simple ts

/-- Reads a simple condition that may open so many levels of nesting. -/
def simple (levels : Nat) : Parse Predicate := simpleOf (expr levels)

/-- Reads a negation that may open so many levels of nesting, under an attempt or not. -/
def negation : Nat → Bool → Parse Predicate
  | 0, attempting, ts => negationStep none (simple 0) attempting ts
  | n + 1, attempting, ts => negationStep (some (negation n)) (simple (n + 1)) attempting ts

/-- Reads a condition that may open so many levels of nesting. -/
def condition (levels : Nat) : Parse Predicate := conditionOf (negation levels false)

end MiningQuery.Parse
