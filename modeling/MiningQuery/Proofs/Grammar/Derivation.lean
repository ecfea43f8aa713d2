/-
  File:      MiningQuery/Proofs/Grammar/Derivation.lean
  Subject:   The grammar of statements as a set of token lists, with no trees and no precedence.

  The grammar of conditions is ambiguous: any two conditions may be connected, any condition may
  be negated, and a parenthesis may belong to a value or to a condition. A number counts the
  parentheses, aggregate calls and `NOT`s that stand inside each other.

  * `ExprDerives`, `ConditionDerives` -- values and conditions;
  * `Clause.Derives` -- what may stand behind the keyword of a clause;
  * `StatementDerives` -- statements.
-/
import MiningQuery.Grammar.Statement

namespace MiningQuery

open Parse

/-! ## 1. Small parts -/

/-- The kinds of some tokens in order. -/
def kinds (ts : List Token) : List TokenKind := ts.map (·.kind)

/-- Items with commas between them, at least one. -/
inductive Separated (Item : List Token → Prop) : List Token → Prop
  | one {ts : List Token} : Item ts → Separated Item ts
  | more {ts us : List Token} {c : Token} : Item ts → c.kind = .symbol .comma →
      Separated Item us → Separated Item (ts ++ c :: us)

/-- The number that an integer token stands for, behind a minus sign or not. -/
def signedValue (negative : Bool) (t : Token) : Int :=
  if negative then -(Text.digitsValue t.text : Int) else Text.digitsValue t.text

/-- The text of a number token, behind a minus sign or not. -/
def signedText (negative : Bool) (t : Token) : Text :=
  (if negative then ascii "-" else []) ++ t.text

/-- A number token: an integer has to be in the signed 64-bit range with its sign, and a text with
    a point has to be one of the `decimals`. -/
inductive NumberDerives (decimals : Text → Bool) (negative : Bool) (t : Token) : Prop
  | int : t.kind = .int → inInt64 (signedValue negative t) = true →
      NumberDerives decimals negative t
  | decimal : t.kind = .float → decimals (signedText negative t) = true →
      NumberDerives decimals negative t

/-- A column, with its table or without. -/
def ColumnDerives (ts : List Token) : Prop :=
  kinds ts = [.identifier] ∨ kinds ts = [.identifier, .symbol .dot, .identifier]

/-! ## 2. Values and conditions -/

/-- A value expression that nests at most so many levels. -/
inductive ExprDerives (decimals : Text → Bool) : Nat → List Token → Prop
  | number {n : Nat} {t : Token} : NumberDerives decimals false t → ExprDerives decimals n [t]
  | negative {n : Nat} {m t : Token} : m.kind = .symbol .minus → NumberDerives decimals true t →
      ExprDerives decimals n [m, t]
  | constant {n : Nat} {t : Token} : t.kind = .string ∨ t.kind = .keyword .NULL →
      ExprDerives decimals n [t]
  | column {n : Nat} {ts : List Token} : ColumnDerives ts → ExprDerives decimals n ts
  | aggregateAll {n : Nat} {t o s c : Token} : t.kind = .identifier → isAggregate t.text = true →
      o.kind = .symbol .openParen → s.kind = .symbol .star → c.kind = .symbol .closeParen →
      ExprDerives decimals (n + 1) [t, o, s, c]
  | aggregate {n : Nat} {t o c : Token} {ts : List Token} : t.kind = .identifier →
      isAggregate t.text = true → o.kind = .symbol .openParen → ExprDerives decimals n ts →
      c.kind = .symbol .closeParen → ExprDerives decimals (n + 1) (t :: o :: (ts ++ [c]))
  | paren {n : Nat} {o c : Token} {ts : List Token} : o.kind = .symbol .openParen →
      ExprDerives decimals n ts → c.kind = .symbol .closeParen →
      ExprDerives decimals (n + 1) (o :: (ts ++ [c]))
  | operation {n : Nat} {o : Token} {ts us : List Token} : ExprDerives decimals n ts →
      o.kind ∈ [.plus, .minus, .star, .slash].map TokenKind.symbol →
      ExprDerives decimals n us → ExprDerives decimals n (ts ++ o :: us)

/-- Nothing or a `NOT`. -/
def OptionalNot (ts : List Token) : Prop := kinds ts = [] ∨ kinds ts = [.keyword .NOT]

/-- A condition that nests at most so many levels. -/
inductive ConditionDerives (decimals : Text → Bool) : Nat → List Token → Prop
  | connected {n : Nat} {o : Token} {ts us : List Token} : ConditionDerives decimals n ts →
      o.kind = .keyword .AND ∨ o.kind = .keyword .OR → ConditionDerives decimals n us →
      ConditionDerives decimals n (ts ++ o :: us)
  | not {n : Nat} {t : Token} {ts : List Token} : t.kind = .keyword .NOT →
      ConditionDerives decimals n ts → ConditionDerives decimals (n + 1) (t :: ts)
  | paren {n : Nat} {o c : Token} {ts : List Token} : o.kind = .symbol .openParen →
      ConditionDerives decimals n ts → c.kind = .symbol .closeParen →
      ConditionDerives decimals (n + 1) (o :: (ts ++ [c]))
  | comparison {n : Nat} {o : Token} {ts us : List Token} : ExprDerives decimals n ts →
      o.kind ∈ [.eq, .ne, .lt, .gt, .le, .ge].map TokenKind.symbol → ExprDerives decimals n us →
      ConditionDerives decimals n (ts ++ o :: us)
  | isNull {n : Nat} {i w : Token} {ts ns : List Token} : ExprDerives decimals n ts →
      i.kind = .keyword .IS → OptionalNot ns → w.kind = .keyword .NULL →
      ConditionDerives decimals n (ts ++ i :: (ns ++ [w]))
  | between {n : Nat} {b a : Token} {ts ns us vs : List Token} : ExprDerives decimals n ts →
      OptionalNot ns → b.kind = .keyword .BETWEEN → ExprDerives decimals n us →
      a.kind = .keyword .AND → ExprDerives decimals n vs →
      ConditionDerives decimals n (ts ++ (ns ++ b :: (us ++ a :: vs)))
  | like {n : Nat} {l s : Token} {ts ns : List Token} : ExprDerives decimals n ts →
      OptionalNot ns → l.kind = .keyword .LIKE → s.kind = .string →
      ConditionDerives decimals n (ts ++ (ns ++ [l, s]))
  | inList {n : Nat} {i o c : Token} {ts ns us : List Token} : ExprDerives decimals n ts →
      OptionalNot ns → i.kind = .keyword .IN → o.kind = .symbol .openParen →
      Separated (ExprDerives decimals n) us → c.kind = .symbol .closeParen →
      ConditionDerives decimals n (ts ++ (ns ++ i :: o :: (us ++ [c])))
  | value {n : Nat} {ts : List Token} : ExprDerives decimals n ts → ConditionDerives decimals n ts

/-! ## 3. Clauses -/

/-- A star or a column. -/
def AttributeDerives (ts : List Token) : Prop := kinds ts = [.symbol .star] ∨ ColumnDerives ts

/-- A table, and a second name for it with or without `AS`. -/
def TableDerives (ts : List Token) : Prop :=
  kinds ts = [.identifier] ∨ kinds ts = [.identifier, .identifier] ∨
    kinds ts = [.identifier, .keyword .AS, .identifier]

/-- A column and a direction, if one is given. -/
def OrderDerives (ts : List Token) : Prop :=
  ∃ us ds, ts = us ++ ds ∧ ColumnDerives us ∧
    (kinds ds = [] ∨ kinds ds = [.keyword .ASC] ∨ kinds ds = [.keyword .DESC])

/-- Nothing, or a word in any letter case and an equals sign. -/
def LabelDerives (label : Text) (ts : List Token) : Prop :=
  ts = [] ∨ ∃ t e, ts = [t, e] ∧ t.kind = .identifier ∧ Text.upper t.text = label ∧
    e.kind = .symbol .eq

/-- A mining directive: the number of clusters or the target column may have a label. -/
def MineDerives (ts : List Token) : Prop :=
  (∃ w ls t, ts = w :: (ls ++ [t]) ∧ w.kind = .keyword .CLUSTER ∧ LabelDerives (ascii "K") ls ∧
      t.kind = .int ∧ inInt64 (signedValue false t) = true) ∨
    (∃ w, ts = [w] ∧ w.kind ∈
      [.STATISTICS, .ANOMALIES, .ASSOCIATION_RULES].map TokenKind.keyword) ∨
    ∃ w ls t, ts = w :: (ls ++ [t]) ∧
      w.kind ∈ [.CLASSIFICATION, .REGRESSION].map TokenKind.keyword ∧
      LabelDerives (ascii "TARGET") ls ∧ t.kind = .identifier

/-- A measure, in any letter case, and its number. -/
def MeasureDerives (decimals : Text → Bool) (ts : List Token) : Prop :=
  ∃ m e v, ts = [m, e, v] ∧ m.kind = .identifier ∧
    Text.lower m.text ∈ [ascii "confidence", ascii "support", ascii "lift", ascii "threshold",
      ascii "confidence_level"] ∧
    e.kind = .symbol .eq ∧ NumberDerives decimals false v

/-- The same behind a keyword. -/
def BehindWord (k : Keyword) (Rest : List Token → Prop) (ts : List Token) : Prop :=
  ∃ w us, ts = w :: us ∧ w.kind = .keyword k ∧ Rest us

/-- What may stand behind the keyword of a clause, under a limit of nesting. -/
def Clause.Derives (decimals : Text → Bool) (limit : Nat) : Clause → List Token → Prop
  | database => BehindWord .DATABASE fun ts => kinds ts = [.identifier]
  | relevance => BehindWord .TO (Separated AttributeDerives)
  | tables => Separated TableDerives
  | condition => ConditionDerives decimals limit
  | grouping => BehindWord .BY (Separated AttributeDerives)
  | ordering => BehindWord .BY (Separated OrderDerives)
  | mining => MineDerives
  | measures => Separated (MeasureDerives decimals)
  | display => BehindWord .AS fun ts => kinds ts = [.identifier]

/-! ## 4. Statements -/

/-- Some of the clauses in their order, each at most once, and the end of the input. -/
inductive StatementDerives (decimals : Text → Bool) (limit : Nat) :
    List Clause → List Token → Prop
  | done {last : Token} : last.kind = .endOfInput → StatementDerives decimals limit [] [last]
  | absent {clause : Clause} {later : List Clause} {ts : List Token} :
      StatementDerives decimals limit later ts →
      StatementDerives decimals limit (clause :: later) ts
  | present {clause : Clause} {later : List Clause} {w : Token} {body ts : List Token} :
      w.kind = .keyword clause.keyword → clause.Derives decimals limit body →
      StatementDerives decimals limit later ts →
      StatementDerives decimals limit (clause :: later) (w :: (body ++ ts))

end MiningQuery
