/-
  File:      MiningQuery/Log/Record.lean
  Subject:   Log records: how serious a record is, or which channel it belongs to.

  A record has a severity or a channel, never both. The severities are ordered, the channels are
  switched on one by one. The records of a run are a list in the order in which they are made;
  which of them reaches which output is decided elsewhere, on that list.
-/
import MiningQuery.Text.Bytes

namespace MiningQuery

/-! ## 1. Severities -/

/-- How serious a record is, from the least to the most. -/
inductive Severity
  | debug4 | debug3 | debug2 | debug1 | info | warning | error | fatal
  deriving DecidableEq, Repr

namespace Severity

/-- All severities in their order. -/
def all : List Severity := [debug4, debug3, debug2, debug1, info, warning, error, fatal]

/-- The place in the order. -/
def rank : Severity → Nat
  | debug4 => 0
  | debug3 => 1
  | debug2 => 2
  | debug1 => 3
  | info => 4
  | warning => 5
  | error => 6
  | fatal => 7

/-- Is a record of severity `s` at least as serious as `minimum`? -/
def atLeast (minimum s : Severity) : Bool := minimum.rank ≤ s.rank

/-- The name in an option. -/
def name : Severity → Text
  | debug4 => ascii "DEBUG4"
  | debug3 => ascii "DEBUG3"
  | debug2 => ascii "DEBUG2"
  | debug1 => ascii "DEBUG1"
  | info => ascii "INFO"
  | warning => ascii "WARNING"
  | error => ascii "ERROR"
  | fatal => ascii "FATAL"

/-- The letter that marks a record. -/
def symbol : Severity → Text
  | debug4 => ascii "4"
  | debug3 => ascii "3"
  | debug2 => ascii "2"
  | debug1 => ascii "1"
  | info => ascii "I"
  | warning => ascii "W"
  | error => ascii "E"
  | fatal => ascii "F"

/-- The severity with a name, in any letter case. -/
def ofName? (t : Text) : Option Severity := all.find? fun s => s.name == Text.upper t

end Severity

/-! ## 2. Channels -/

/-- A channel traces one stage: reading statements, or the SQL that is sent. -/
inductive Channel
  | parse | sql
  deriving DecidableEq, Repr

namespace Channel

/-- All channels in their order. -/
def all : List Channel := [parse, sql]

/-- The name in an option and in the name of a log file. -/
def name : Channel → Text
  | parse => ascii "PARSE"
  | sql => ascii "SQL"

/-- The letter that marks a record. -/
def symbol : Channel → Text
  | parse => ascii "P"
  | sql => ascii "S"

/-- The channel with a name, in any letter case. -/
def ofName? (t : Text) : Option Channel := all.find? fun c => c.name == Text.upper t

end Channel

/-! ## 3. Records -/

/-- What a record is marked with. -/
inductive LogTag
  | severity (s : Severity)
  | channel (c : Channel)
  deriving DecidableEq, Repr

/-- The letter of a mark. -/
def LogTag.symbol : LogTag → Text
  | severity s => s.symbol
  | channel c => c.symbol

/-- A log record. -/
structure LogRecord where
  tag : LogTag
  message : Text
  deriving DecidableEq, Repr

namespace LogRecord

/-- A record about reading a statement. -/
def parse (message : Text) : LogRecord := ⟨.channel .parse, message⟩

/-- A record about SQL. -/
def sql (message : Text) : LogRecord := ⟨.channel .sql, message⟩

/-- A record for finding errors in the program. -/
def debug (message : Text) : LogRecord := ⟨.severity .debug1, message⟩

/-- A record about what happened. -/
def info (message : Text) : LogRecord := ⟨.severity .info, message⟩

/-- A record about something doubtful. -/
def warning (message : Text) : LogRecord := ⟨.severity .warning, message⟩

/-- A record about a failure. -/
def error (message : Text) : LogRecord := ⟨.severity .error, message⟩

end LogRecord

end MiningQuery
