/-
  File:      MiningQuery/Proofs/Guard/Basic.lean
  Subject:   Reading with guards: levels that are counted up by one step and down by another.

  A reader with a cursor opens a level around a part of itself. What keeps the count in step with
  that is a guard: it counts the level when it comes, and takes it back when it goes, which it does
  however the part ends. A guard that would count one level too many takes it back at once, records
  the error and throws, and then there is no guard that could go. So the count is right again only
  if the steps fit together, and what the guards do is written down:

  * `GuardEvent`, `GuardedCursor` -- what guards do, and the cursor with all that they have done;
  * `Guarded` -- readers with guards, which return, throw or meet a fault;
  * `Guarded.plainly` -- a reader with a cursor alone leaves the guards alone;
  * `Guarded.enter`, `Guarded.guarded`, `Guarded.rescue` -- guards, and going on from a throw.
-/
import MiningQuery.Proofs.Scan.Basic

namespace MiningQuery

/-! ## 1. Exits -/

/-- What a guard does, with the count of levels behind it: it comes, or it goes. -/
inductive GuardEvent
  | opened (depth : Nat)
  | closed (depth : Nat)
  deriving DecidableEq, Repr

/-- A cursor, and what the guards have done so far. -/
structure GuardedCursor extends Cursor where
  guards : List GuardEvent := []
  deriving DecidableEq, Repr

namespace GuardedCursor

/-- The same guards with another cursor. -/
def withCursor (s : GuardedCursor) (c : Cursor) : GuardedCursor := { s with toCursor := c }

/-- Behind a guard that has come. -/
def opened (s : GuardedCursor) : GuardedCursor :=
  { s with toCursor := s.deeper, guards := s.guards ++ [.opened s.deeper.depth] }

/-- Behind a guard that has gone. -/
def closed (s : GuardedCursor) : GuardedCursor :=
  { s with toCursor := s.shallower, guards := s.guards ++ [.closed s.shallower.depth] }

end GuardedCursor

/-- How a call is left: with a value, with a syntax error that is fatal or not, or with a fault,
    which is no way to leave it. -/
inductive Exit (α : Type)
  | returned (x : α) (s : GuardedCursor)
  | thrown (fatal : Bool) (s : GuardedCursor)
  | fault (f : ScanFault)
  deriving DecidableEq, Repr

/-- A reader with guards. -/
def Guarded (α : Type) : Type := ScanInput → GuardedCursor → Exit α

namespace Guarded

variable {α : Type}

/-- Goes on with the value. -/
def andThen {β : Type} (m : Guarded α) (f : α → Guarded β) : Guarded β := fun i s =>
  match m i s with
  | .returned x s' => f x i s'
  | .thrown fatal s' => .thrown fatal s'
  | .fault e => .fault e

instance : Monad Guarded where
  pure x := fun _ s => .returned x s
  bind := andThen

/-- Reads with the cursor alone. -/
def plainly (m : Scan α) : Guarded α := fun i s =>
  match m i s.toCursor with
  | .ok x c => .returned x (s.withCursor c)
  | .failed fatal c => .thrown fatal (s.withCursor c)
  | .fault e => .fault e

instance : MonadLift Scan Guarded := ⟨plainly⟩

/-! ## 2. Guards -/

/-- Writes down that a guard has come. -/
def noteOpened : Guarded Unit := fun _ s =>
  .returned () { s with guards := s.guards ++ [.opened s.depth] }

/-- A guard comes. It counts its level first; if that is one too many it takes it back, records the
    error and throws. -/
def enter : Guarded Unit := do
  Scan.update Cursor.deeper
  if (← Scan.input).limit < (← Scan.cursor).depth then
    Scan.update Cursor.shallower
    Scan.record (← Scan.cursor).position .nestedTooDeeply
    Scan.raise true
  else noteOpened

/-- Reads while a guard is there, which goes on either way out. -/
def leaving (m : Guarded α) : Guarded α := fun i s =>
  match m i s with
  | .returned x s' => .returned x s'.closed
  | .thrown fatal s' => .thrown fatal s'.closed
  | .fault e => .fault e

/-- Reads one level further inside, under a guard. -/
def guarded (m : Guarded α) : Guarded α := do
  enter
  leaving m

/-- Goes on from a throw. -/
def rescue (m : Guarded α) (h : Bool → Guarded α) : Guarded α := fun i s =>
  match m i s with
  | .returned x s' => .returned x s'
  | .thrown fatal s' => h fatal i s'
  | .fault e => .fault e

/-! ## 3. Repetition -/

/-- Goes on with operators and items, folding them to the left, for at most so many rounds. -/
def chainFrom {ω : Type} (operator : TokenKind → Option ω) (combine : ω → α → α → α)
    (item : Guarded α) : Nat → α → Guarded α
  | 0, _ => Scan.stop .endless
  | n + 1, left => do
    match operator (← Scan.cur).kind with
    | none => return left
    | some op =>
      let _ ← Scan.advance
      let right ← item
      chainFrom operator combine item n (combine op left right)

/-- Items with operators between them. -/
def chain {ω : Type} (operator : TokenKind → Option ω) (combine : ω → α → α → α)
    (item : Guarded α) : Guarded α := do
  let left ← item
  chainFrom operator combine item (← Scan.input).tokens.length left

/-- Goes on with commas and items for at most so many rounds. -/
def commaListFrom (item : Guarded α) : Nat → Guarded (List α)
  | 0 => Scan.stop .endless
  | n + 1 => do
    if ← Scan.accept (.symbol .comma) then
      let x ← item
      let xs ← commaListFrom item n
      return x :: xs
    else return []

/-- One item or more, with commas between them. -/
def commaList (item : Guarded α) : Guarded (List α) := do
  let x ← item
  let xs ← commaListFrom item (← Scan.input).tokens.length
  return x :: xs

end Guarded

end MiningQuery
