/-
  File:      MiningQuery/Grammar/Parse.lean
  Subject:   Readers of token lists: results, failures, lists with commas, chains of operators.

  A reader takes the tokens that are left and gives a value and the tokens that are then left,
  or a failure. A failure holds the tokens from the offending one on, so where an error is
  reported is a fact about the list and not about a counter.

  The repeating readers `chain` and `commaList` count down from the number of tokens left. Each
  round uses up an operator or a comma, so the count is never what ends them.
-/
import MiningQuery.Token.Basic

namespace MiningQuery

/-! ## 1. Failures -/

/-- Why the tokens cannot be read on. -/
inductive Cause
  | mismatched (expected : List Text)
  | extraneous (expected : List Text)
  | nestedTooDeeply
  | integerOutOfRange (negative : Bool)
  | invalidNumber (negative : Bool)
  deriving DecidableEq, Repr

/-- A failure: the tokens from the offending one on, and the cause. -/
structure Failure where
  rest : List Token
  cause : Cause
  deriving DecidableEq, Repr

namespace Failure

/-- Nesting too deeply ends the clause; no other way to read the tokens is tried. -/
def fatal (f : Failure) : Bool := f.cause = .nestedTooDeeply

/-- The offending token. -/
def token (f : Failure) : Token := f.rest.headD ⟨.endOfInput, [], .start⟩

/-- One name alone, or all names in braces. -/
def expectedSet (names : List Text) : Text :=
  match names with
  | [name] => name
  | _ => ascii "\x7b" ++ Text.join (ascii ", ") names ++ ascii "\x7d"

/-- A number as it is quoted: its minus sign is a token of its own. -/
def quotedNumber (negative : Bool) (t : Token) : Text :=
  Text.quoted ((if negative then ascii "-" else []) ++ t.text)

/-- What the error says, under a limit of nesting. -/
def message (limit : Nat) (f : Failure) : Text :=
  match f.cause with
  | .mismatched expected =>
    ascii "mismatched input '" ++ f.token.display ++ ascii "' expecting " ++ expectedSet expected
  | .extraneous expected =>
    ascii "extraneous input '" ++ f.token.display ++ ascii "' expecting " ++ expectedSet expected
  | .nestedTooDeeply =>
    ascii "condition nested too deeply, at most " ++ Text.ofNat limit ++
      ascii " levels of parentheses and NOT are allowed"
  | .integerOutOfRange negative =>
    ascii "integer literal out of range " ++ quotedNumber negative f.token
  | .invalidNumber negative => ascii "invalid numeric literal " ++ quotedNumber negative f.token

/-- The error as it is reported, with the place of the offending token. -/
def text (limit : Nat) (f : Failure) : Text := f.token.location.report (f.message limit)

end Failure

/-! ## 2. Readers -/

/-- A reader of tokens. -/
abbrev Parse (α : Type) := StateT (List Token) (Except Failure) α

namespace Parse

/-- The kind of the token that comes next. -/
def kindOf (ts : List Token) : TokenKind :=
  match ts with
  | t :: _ => t.kind
  | [] => .endOfInput

/-- Fails at the next token, where one of some kinds was expected. -/
def mismatch {α : Type} (expected : List TokenKind) : Parse α :=
  fun ts => .error ⟨ts, .mismatched (expected.map TokenKind.name)⟩

/-- Fails at the next token, which would open one level of nesting too many. -/
def tooDeep {α : Type} : Parse α := fun ts => .error ⟨ts, .nestedTooDeeply⟩

/-- Takes the next token if it is of a kind. -/
def expect (kind : TokenKind) : Parse Token := fun ts =>
  match ts with
  | t :: rest => if t.kind = kind then .ok (t, rest) else mismatch [kind] ts
  | [] => mismatch [kind] ts

/-- Takes the next token if it is of a kind, and tells whether it was. -/
def accept (kind : TokenKind) : Parse Bool := fun ts =>
  match ts with
  | t :: rest => if t.kind = kind then .ok (true, rest) else .ok (false, ts)
  | [] => .ok (false, ts)

/-- Takes a keyword. -/
def word (k : Keyword) : Parse Token := expect (.keyword k)

/-- Takes a symbol. -/
def sign (s : Symbol) : Parse Token := expect (.symbol s)

/-- Takes a name. -/
def name : Parse Text := return (← expect .identifier).text

/-! ## 3. Repetition -/

/-- Goes on with operators and items, folding them to the left, for at most `n` rounds. -/
def chainFrom {α ω : Type} (operator : TokenKind → Option ω) (combine : ω → α → α → α)
    (item : Parse α) : Nat → α → Parse α
  | 0, left, ts => .ok (left, ts)
  | n + 1, left, ts =>
    match operator (kindOf ts) with
    | none => .ok (left, ts)
    | some op => do
      let (right, rest) ← item ts.tail
      chainFrom operator combine item n (combine op left right) rest

/-- Items with operators between them, which associate to the left. -/
def chain {α ω : Type} (operator : TokenKind → Option ω) (combine : ω → α → α → α)
    (item : Parse α) : Parse α := fun ts => do
  let (left, rest) ← item ts
  chainFrom operator combine item rest.length left rest

/-- Goes on with commas and items for at most `n` rounds. -/
def commaListFrom {α : Type} (item : Parse α) : Nat → Parse (List α)
  | 0, ts => .ok ([], ts)
  | n + 1, ts =>
    if kindOf ts = .symbol .comma then do
      let (x, rest) ← item ts.tail
      let (xs, rest') ← commaListFrom item n rest
      .ok (x :: xs, rest')
    else .ok ([], ts)

/-- One item or more, with commas between them. -/
def commaList {α : Type} (item : Parse α) : Parse (List α) := fun ts => do
  let (x, rest) ← item ts
  let (xs, rest') ← commaListFrom item rest.length rest
  .ok (x :: xs, rest')

end Parse

end MiningQuery
