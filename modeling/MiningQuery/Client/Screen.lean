/-
  File:      MiningQuery/Client/Screen.lean
  Subject:   What the command line client writes, and computations that write.

  The client writes to two outputs. A computation that fails keeps what it has written.
-/
import MiningQuery.Storage.Connection

namespace MiningQuery

/-- A connection, and what has been written so far. -/
structure Screen (σ : Type) where
  connection : Connection σ
  output : Text := []
  errors : Text := []

/-- A computation that writes. -/
abbrev Showing (σ α : Type) := ExceptT Fault (StateM (Screen σ)) α

namespace Showing

variable {σ : Type}

/-- Writes to the output. -/
def write (t : Text) : Showing σ Unit := modify fun s => { s with output := s.output ++ t }

/-- Writes a line to the output. -/
def writeLine (t : Text) : Showing σ Unit := write (t ++ ascii "\n")

/-- Writes a line to the output for errors. -/
def complain (t : Text) : Showing σ Unit :=
  modify fun s => { s with errors := s.errors ++ t ++ ascii "\n" }

/-- Works on the connection. -/
def access {α : Type} (a : Access σ α) : Showing σ α := do
  let answer ← modifyGet fun s =>
    let (r, c) := a.run.run s.connection
    (r, { s with connection := c })
  match answer with
  | .ok x => return x
  | .error fault => throw fault

/-- Writes the message of a fault that is reported; the other faults go on. -/
def reporting (a : Showing σ Unit) : Showing σ Unit :=
  tryCatch a fun fault =>
    match fault.message? with
    | some message => complain message
    | none => throw fault

end Showing

end MiningQuery
