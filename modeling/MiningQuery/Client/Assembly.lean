/-
  File:      MiningQuery/Client/Assembly.lean
  Subject:   Putting lines together to statements.

  A statement ends with a line that ends in `;`, at a blank line, or with the input. Between two
  statements a line that begins with a backslash is a command, and `\q` ends everything. The
  lines of a statement are joined without the blanks at their ends.

  * `feed` says what one line leads to;
  * `assemble` says what all lines lead to, in their order.
-/
import MiningQuery.Text.Layout

namespace MiningQuery

/-! ## 1. One line -/

/-- What a line leads to. -/
inductive LineEvent
  /-- The line is taken in; `pending` are the lines of the statement that has begun. -/
  | taken (pending : Text)
  | command (line : Text)
  | statement (text : Text)
  | quit
  deriving DecidableEq, Repr

/-- Does a line end the statement that it belongs to? -/
def endsStatement (line : Text) : Bool := line.isEmpty || line.getLast? == some 59

/-- What a line without blanks at its ends leads to, after the pending lines of a statement. -/
def feedStripped (pending line : Text) : LineEvent :=
  if pending.isEmpty && line.head? == some 92 then
    if line == ascii "\\q" then .quit else .command line
  else
    let pending := if line.isEmpty then pending else pending ++ ascii " " ++ line
    if endsStatement line && !pending.isEmpty then .statement pending else .taken pending

/-- What a line leads to. -/
def feed (pending line : Text) : LineEvent := feedStripped pending (Text.strip line)

/-- The lines of a statement that are pending behind an event. -/
def LineEvent.pending : LineEvent → Text
  | taken pending => pending
  | _ => []

/-! ## 2. All lines -/

/-- The events of the lines, and the statement that is left open at the end of the input. -/
structure Assembled where
  events : List LineEvent
  leftOpen : Option Text
  deriving DecidableEq, Repr

/-- The statement that pending lines make up, if there are any. -/
def openStatement (pending : Text) : Option Text :=
  if pending.isEmpty then none else some pending

/-- Puts lines together, after the pending lines of a statement. -/
def assembleFrom (pending : Text) : List Text → Assembled
  | [] => ⟨[], openStatement pending⟩
  | line :: rest =>
    match feed pending line with
    | .quit => ⟨[.quit], none⟩
    | event =>
      let later := assembleFrom event.pending rest
      ⟨event :: later.events, later.leftOpen⟩

/-- Puts lines together. -/
def assemble (lines : List Text) : Assembled := assembleFrom [] lines

/-- A statement without blanks at its ends and without the semicolons behind it. -/
def withoutTerminators (statement : Text) : Text :=
  Text.dropEnd (fun b => isBlank b || b == 59) (statement.dropWhile isBlank)

end MiningQuery
