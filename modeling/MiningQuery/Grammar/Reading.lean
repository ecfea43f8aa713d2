/-
  File:      MiningQuery/Grammar/Reading.lean
  Subject:   Reading a text: tokens, statement, and the list of its syntax errors.

  A text is never refused: whatever can be read of it becomes the statement, and everything else
  is reported. The errors are those of the lexer in the order of the text, then those of the
  clauses in the order of the text, cut off at a limit if there is one.
-/
import MiningQuery.Grammar.Statement
import MiningQuery.Log.Record
import MiningQuery.Token.Lexer

namespace MiningQuery

/-- How statements are read. -/
structure ReadSettings where
  /-- The most errors that are kept; zero keeps all. -/
  errorLimit : Nat := 0
  /-- The most levels of nesting in a condition. -/
  nestingLimit : Nat := 200
  /-- How a statement without a display clause is shown. -/
  displayType : Text := ascii "table"
  deriving DecidableEq, Repr

/-- What reading a text gives. -/
structure Reading where
  text : Text
  lexing : Lexing
  statement : Statement
  /-- The failures of the clauses, as they are reported. -/
  clauseErrors : List Text
  /-- All errors, as far as they are kept. -/
  errors : List Text
  deriving DecidableEq, Repr

/-- The log record of cutting a text into tokens. -/
def Lexing.record (l : Lexing) : LogRecord :=
  .parse (ascii "Lexed " ++ Text.ofNat l.tokens.length ++ ascii " tokens")

namespace Reading

/-- As many errors as a limit lets through. -/
def keepErrors (limit : Nat) (errors : List Text) : List Text :=
  if limit = 0 then errors else errors.take limit

/-- Reads a text. -/
def ofText (settings : ReadSettings) (text : Text) : Reading :=
  let lexing := lex text
  let reading := readStatement settings.nestingLimit lexing.tokens
  let clauseErrors := reading.failures.map (Failure.text settings.nestingLimit)
  { text, lexing, clauseErrors
    statement := reading.statement
    errors := keepErrors settings.errorLimit (lexing.errors.map LexError.text ++ clauseErrors) }

/-- A text without a syntax error is valid. -/
def isValid (r : Reading) : Bool := r.errors.isEmpty

/-- The record that sums up the errors, if there are any. -/
def errorRecord (errors : List Text) : List LogRecord :=
  match errors with
  | [] => []
  | first :: _ =>
    [.info (Text.ofNat errors.length ++ ascii " syntax error(s) in DMQL statement, first: " ++
      first)]

/-- The log records of reading a text. -/
def records (r : Reading) : List LogRecord :=
  [.parse (ascii "Parsing: " ++ r.text), r.lexing.record] ++
    r.clauseErrors.map (fun e => .parse (ascii "Syntax error: " ++ e)) ++
    [.debug r.statement.text] ++ errorRecord r.errors

end Reading

end MiningQuery
