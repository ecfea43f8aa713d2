/-
  File:      MiningQuery/Proofs/Tree/Canonical.lean
  Subject:   Trees as they are printed: the tokens of a tree in order, how deep it nests, and the
             trees that group as their tokens do.

  * `Expr.lexemes`, `Predicate.lexemes` -- the tokens of a tree in order;
  * `Expr.depth`, `Predicate.depth` -- the levels of parentheses, aggregate calls and `NOT`;
  * `Expr.isLexical`, `Predicate.isLexical` -- names and constants are such as tokens can be;
  * `Expr.isCanonical`, `Predicate.isCanonical` -- no operand stands bare where the tokens would
    group in another way: `AND` binds tighter than `OR`, products tighter than sums, and all
    operators group to the left.
-/
import MiningQuery.Grammar.Condition
import MiningQuery.Tree.Statement
import MiningQuery.Proofs.Token.Spelling

namespace MiningQuery

/-! ## 1. Constants -/

/-- A number without its minus sign. -/
def unsigned : Text → Text
  | 45 :: t => t
  | t => t

namespace Literal

/-- A number token, behind a minus sign if the number is negative. -/
def signedLexemes (kind : TokenKind) : Text → List Lexeme
  | 45 :: t => [.sign .minus, .exact kind t]
  | t => [.exact kind t]

/-- The tokens of a constant. -/
def lexemes : Literal → List Lexeme
  | null t => [.exact (.keyword .NULL) t]
  | string t => [.exact .string t]
  | int t _ => signedLexemes .int t
  | float t _ => signedLexemes .float t

/-- Has the text the shape of a token, and is the value that of the text? -/
def isLexical : Literal → Bool
  | null t => (TokenKind.keyword .NULL).admits t
  | string t => isQuoted t
  | int t i => isDigits (unsigned t) && Text.int64? t == some i
  | float t x => isDecimal (unsigned t) && Binary64.read? t == some x

end Literal

/-! ## 2. Expressions -/

/-- The symbol of an operation. -/
def ArithOp.symbol : ArithOp → Symbol
  | add => .plus
  | sub => .minus
  | mul => .star
  | div => .slash

/-- The symbol of a comparison. -/
def CompareOp.symbol : CompareOp → Symbol
  | eq => .eq
  | ne => .ne
  | lt => .lt
  | gt => .gt
  | le => .le
  | ge => .ge

/-- The keyword of a connective. -/
def LogicOp.keyword : LogicOp → Keyword
  | and => .AND
  | or => .OR

/-- Is it a name as a token can be? -/
def isName (t : Text) : Bool := TokenKind.identifier.admits t

namespace ColumnRef

/-- The tokens of a column. -/
def lexemes (c : ColumnRef) : List Lexeme :=
  match c.qualifier with
  | some table => [.exact .identifier table, .sign .dot, .exact .identifier c.name]
  | none => [.exact .identifier c.name]

/-- Are table and column names? -/
def isLexical (c : ColumnRef) : Bool := c.qualifier.all isName && isName c.name

end ColumnRef

/-- Is the attribute a star or a column as tokens can write it? -/
def Attribute.isLexical : Attribute → Bool
  | all => true
  | column c => c.isLexical

namespace Expr

/-- The tokens of an expression in order. -/
def lexemes : Expr → List Lexeme
  | literal l => l.lexemes
  | column c => c.lexemes
  | aggregateAll f =>
    [.exact .identifier f, .sign .openParen, .sign .star, .sign .closeParen]
  | aggregate f e =>
    .exact .identifier f :: .sign .openParen :: (e.lexemes ++ [.sign .closeParen])
  | arith op l r => l.lexemes ++ .sign op.symbol :: r.lexemes
  | paren e => .sign .openParen :: (e.lexemes ++ [.sign .closeParen])

/-- How many parentheses and aggregate calls stand inside each other. -/
def depth : Expr → Nat
  | literal _ | column _ => 0
  | aggregateAll _ => 1
  | aggregate _ e | paren e => e.depth + 1
  | arith _ l r => max l.depth r.depth

/-- Are names and constants such as tokens can be? -/
def isLexical : Expr → Bool
  | literal l => l.isLexical
  | column c => c.isLexical
  | aggregateAll f => isName f && Parse.isAggregate f
  | aggregate f e => isName f && Parse.isAggregate f && e.isLexical
  | arith _ l r => l.isLexical && r.isLexical
  | paren e => e.isLexical

/-- A bare sum or difference. -/
def isSum : Expr → Bool
  | arith .add _ _ | arith .sub _ _ => true
  | _ => false

/-- A bare operation. -/
def isArith : Expr → Bool
  | arith _ _ _ => true
  | _ => false

/-- An expression in parentheses. -/
def isParen : Expr → Bool
  | paren _ => true
  | _ => false

/-- Does the expression group as its tokens do? -/
def isCanonical : Expr → Bool
  | arith .add l r | arith .sub l r => l.isCanonical && r.isCanonical && !r.isSum
  | arith .mul l r | arith .div l r =>
    l.isCanonical && r.isCanonical && !l.isSum && !r.isArith
  | aggregate _ e | paren e => e.isCanonical
  | literal _ | column _ | aggregateAll _ => true

end Expr

/-! ## 3. Conditions -/

namespace Predicate

/-- The `NOT` of a negated test. -/
def notLexemes (negated : Bool) : List Lexeme := if negated then [.word .NOT] else []

/-- Values with commas between them. -/
def valueLexemes : List Expr → List Lexeme
  | [] => []
  | [e] => e.lexemes
  | e :: es => e.lexemes ++ .sign .comma :: valueLexemes es

/-- The tokens of a condition in order. -/
def lexemes : Predicate → List Lexeme
  | logical op l r => l.lexemes ++ .word op.keyword :: r.lexemes
  | not p => .word .NOT :: p.lexemes
  | paren p => .sign .openParen :: (p.lexemes ++ [.sign .closeParen])
  | compare op l r => l.lexemes ++ .sign op.symbol :: r.lexemes
  | between n x low high =>
    x.lexemes ++ (notLexemes n ++ .word .BETWEEN :: (low.lexemes ++ .word .AND :: high.lexemes))
  | like n x pattern => x.lexemes ++ (notLexemes n ++ [.word .LIKE, .exact .string pattern])
  | isNull n x => x.lexemes ++ .word .IS :: (notLexemes n ++ [.word .NULL])
  | inList n x values =>
    x.lexemes ++ (notLexemes n ++ .word .IN :: .sign .openParen ::
      (valueLexemes values ++ [.sign .closeParen]))
  | value e => e.lexemes

/-- How many parentheses, aggregate calls and `NOT`s stand inside each other; the parentheses of
    a membership test do not count. -/
def depth : Predicate → Nat
  | logical _ l r => max l.depth r.depth
  | not p | paren p => p.depth + 1
  | compare _ l r => max l.depth r.depth
  | between _ x low high => max x.depth (max low.depth high.depth)
  | like _ x _ | isNull _ x | value x => x.depth
  | inList _ x values => (values.map Expr.depth).foldr max x.depth

/-- Are names and constants such as tokens can be, and is no list of values empty? -/
def isLexical : Predicate → Bool
  | logical _ l r => l.isLexical && r.isLexical
  | not p | paren p => p.isLexical
  | compare _ l r => l.isLexical && r.isLexical
  | between _ x low high => x.isLexical && low.isLexical && high.isLexical
  | like _ x pattern => x.isLexical && isQuoted pattern
  | isNull _ x | value x => x.isLexical
  | inList _ x values => x.isLexical && !values.isEmpty && values.all Expr.isLexical

/-- A bare disjunction. -/
def isDisjunction : Predicate → Bool
  | logical .or _ _ => true
  | _ => false

/-- A bare conjunction or disjunction. -/
def isLogical : Predicate → Bool
  | logical _ _ _ => true
  | _ => false

/-- A condition with a connective, a `NOT` or parentheses around it. -/
def isCompound : Predicate → Bool
  | logical _ _ _ | not _ | paren _ => true
  | _ => false

/-- Does the condition group as its tokens do? A bare value in parentheses is a condition in
    parentheses. -/
def isCanonical : Predicate → Bool
  | logical .and l r => l.isCanonical && r.isCanonical && !l.isDisjunction && !r.isLogical
  | logical .or l r => l.isCanonical && r.isCanonical && !r.isDisjunction
  | not p => p.isCanonical && !p.isLogical
  | paren p => p.isCanonical
  | compare _ l r => l.isCanonical && r.isCanonical
  | between _ x low high => x.isCanonical && low.isCanonical && high.isCanonical
  | like _ x _ | isNull _ x => x.isCanonical
  | inList _ x values => x.isCanonical && values.all Expr.isCanonical
  | value e => e.isCanonical && !e.isParen

end Predicate

end MiningQuery
