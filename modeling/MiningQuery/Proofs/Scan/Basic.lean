/-
  File:      MiningQuery/Proofs/Scan/Basic.lean
  Subject:   Reading with a cursor: one token list, and a position in it that moves on and back.

  The readers of token lists hand on the tokens that are left, so they cannot look at a token that
  is not there. A reader with a cursor can, and it keeps count of what it has opened. Here
  everything that must not happen is an outcome of its own:

  * `ScanFault` -- a token outside the list, the end of the input passed over, an assertion that
    does not hold, a run without an end;
  * `Cursor` -- the position, the open levels and attempts, and the errors so far;
  * `Scan` -- readers with a cursor, and what they are made of.
-/
import MiningQuery.Grammar.Parse

namespace MiningQuery

/-! ## 1. Outcomes -/

/-- What must not happen. -/
inductive ScanFault
  | outOfRange
  | endConsumed
  | failedCheck
  | endless
  deriving DecidableEq, Repr

/-- What does not change while reading: the tokens, and the limit of nesting. -/
structure ScanInput where
  tokens : List Token
  limit : Nat
  deriving DecidableEq, Repr

/-- What changes: the position of the next token, how many levels and how many attempts are open,
    and the errors that are recorded. -/
structure Cursor where
  position : Nat := 0
  depth : Nat := 0
  attempts : Nat := 0
  errors : List Failure := []
  deriving DecidableEq, Repr

namespace Cursor

/-- The cursor at another position. -/
def moved (c : Cursor) (p : Nat) : Cursor := { c with position := p }

/-- The cursor one level further inside. -/
def deeper (c : Cursor) : Cursor := { c with depth := c.depth + 1 }

/-- The cursor one level further outside. -/
def shallower (c : Cursor) : Cursor := { c with depth := c.depth - 1 }

/-- The cursor in one more attempt. -/
def trying (c : Cursor) : Cursor := { c with attempts := c.attempts + 1 }

/-- The cursor behind an attempt. -/
def tried (c : Cursor) : Cursor := { c with attempts := c.attempts - 1 }

/-- The cursor with one more error. -/
def withError (c : Cursor) (f : Failure) : Cursor := { c with errors := c.errors ++ [f] }

end Cursor

/-- A result, a syntax error on its way out, or a fault, which nothing recovers from. -/
inductive Outcome (α : Type)
  | ok (x : α) (c : Cursor)
  | failed (fatal : Bool) (c : Cursor)
  | fault (f : ScanFault)
  deriving DecidableEq, Repr

/-- A reader with a cursor. -/
def Scan (α : Type) : Type := ScanInput → Cursor → Outcome α

namespace Scan

/-- Goes on with the result. -/
def andThen {α β : Type} (m : Scan α) (f : α → Scan β) : Scan β := fun i c =>
  match m i c with
  | .ok x c' => f x i c'
  | .failed fatal c' => .failed fatal c'
  | .fault e => .fault e

instance : Monad Scan where
  pure x := fun _ c => .ok x c
  bind := andThen

/-! ## 2. The cursor -/

variable {α : Type}

/-- Stops with a fault. -/
def stop (e : ScanFault) : Scan α := fun _ _ => .fault e

/-- Leaves with a syntax error. -/
def raise (fatal : Bool) : Scan α := fun _ c => .failed fatal c

/-- The tokens and the limit. -/
def input : Scan ScanInput := fun i c => .ok i c

/-- Where the reader stands. -/
def cursor : Scan Cursor := fun _ c => .ok c c

/-- Changes where the reader stands. -/
def update (f : Cursor → Cursor) : Scan Unit := fun _ c => .ok () (f c)

/-- The token at a position, which has to be there. -/
def tokenAt (p : Nat) : Scan Token := fun i c =>
  match i.tokens[p]? with
  | some t => .ok t c
  | none => .fault .outOfRange

/-- The next token. -/
def cur : Scan Token := do tokenAt (← cursor).position

/-- The token behind the next one, or the last token if there is none. -/
def peek : Scan Token := do
  tokenAt (min ((← cursor).position + 1) ((← input).tokens.length - 1))

/-- Is the next token of a kind? -/
def atKind (kind : TokenKind) : Scan Bool := return (← cur).kind = kind

/-- Passes over the next token, which must not be the end of the input. -/
def advance : Scan Token := do
  let t ← cur
  if t.kind = .endOfInput then stop .endConsumed
  else
    update fun c => c.moved (c.position + 1)
    return t

/-- Passes over the next token if it is of a kind, and tells whether it was. -/
def accept (kind : TokenKind) : Scan Bool := do
  if ← atKind kind then
    let _ ← advance
    return true
  else return false

/-! ## 3. Errors -/

/-- Records an error at a position. -/
def record (p : Nat) (cause : Cause) : Scan Unit := do
  let _ ← tokenAt p
  let i ← input
  update fun c => c.withError ⟨i.tokens.drop p, cause⟩

/-- Records an error at a position, unless this is an attempt. -/
def report (p : Nat) (cause : Cause) : Scan Unit := do
  if (← cursor).attempts = 0 then record p cause else pure ()

/-- Leaves with an error at a position. -/
def failAt (p : Nat) (cause : Cause) : Scan α := do
  report p cause
  raise false

/-- Leaves with an error at the next token, where one of some kinds was expected. -/
def mismatch (expected : List TokenKind) : Scan α := do
  failAt (← cursor).position (.mismatched (expected.map TokenKind.name))

/-- Takes the next token, which has to be of a kind. -/
def expect (kind : TokenKind) : Scan Token := do
  if ← atKind kind then advance else mismatch [kind]

/-- Reads with one more level counted, and takes it back on every way out. -/
def oneDeeper (m : Scan α) : Scan α := fun i c =>
  match m i c.deeper with
  | .ok x c' => .ok x c'.shallower
  | .failed fatal c' => .failed fatal c'.shallower
  | .fault e => .fault e

/-- Reads one level further inside. Too deep a level is an error that is recorded in an attempt as
    well. -/
def nested (m : Scan α) : Scan α := do
  if (← input).limit < (← cursor).depth + 1 then
    record (← cursor).position .nestedTooDeeply
    raise true
  else oneDeeper m

/-- Goes on from a syntax error. -/
def recover (m : Scan α) (h : Bool → Scan α) : Scan α := fun i c =>
  match m i c with
  | .ok x c' => .ok x c'
  | .failed fatal c' => h fatal i c'
  | .fault e => .fault e

/-! ## 4. Repetition -/

/-- Goes on with operators and items, folding them to the left, for at most so many rounds. -/
def chainFrom {ω : Type} (operator : TokenKind → Option ω) (combine : ω → α → α → α)
    (item : Scan α) : Nat → α → Scan α
  | 0, _ => stop .endless
  | n + 1, left => do
    match operator (← cur).kind with
    | none => return left
    | some op =>
      let _ ← advance
      let right ← item
      chainFrom operator combine item n (combine op left right)

/-- Items with operators between them. -/
def chain {ω : Type} (operator : TokenKind → Option ω) (combine : ω → α → α → α)
    (item : Scan α) : Scan α := do
  let left ← item
  chainFrom operator combine item (← input).tokens.length left

/-- Goes on with commas and items for at most so many rounds. -/
def commaListFrom (item : Scan α) : Nat → Scan (List α)
  | 0 => stop .endless
  | n + 1 => do
    if ← accept (.symbol .comma) then
      let x ← item
      let xs ← commaListFrom item n
      return x :: xs
    else return []

/-- One item or more, with commas between them. -/
def commaList (item : Scan α) : Scan (List α) := do
  let x ← item
  let xs ← commaListFrom item (← input).tokens.length
  return x :: xs

end Scan

end MiningQuery
