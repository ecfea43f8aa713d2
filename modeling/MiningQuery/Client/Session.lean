/-
  File:      MiningQuery/Client/Session.lean
  Subject:   A whole run of the client, from its command line to its exit code.

  A run reads its command line, sets up logging, opens the database and then runs one statement,
  the statements of a file, or those of its input. Logging is set up only if the command line is
  in order and does not ask for help.
-/
import MiningQuery.Client.Commands
import MiningQuery.Log.Options
import MiningQuery.Settings.CommandLine

namespace MiningQuery

namespace Client

/-- What a run can read. -/
structure Surroundings where
  input : Text
  /-- The content of a file, if it can be opened. -/
  file? : Text → Option Text

/-- The texts that belong to the reader of command lines. -/
structure Wording where
  help : Text
  optionError : OptionError → Text

/-- What a command line asks for. -/
structure Invocation where
  help : Bool
  settings : Settings
  log : LogOptions
  deriving DecidableEq, Repr

/-- Reads the command line of a program. -/
def Invocation.ofCommandLine (program : Text) (words : List Text) :
    Except UsageError Invocation := do
  let start := LogOptions.ofProgram program
  let checkLog (vs : OptionValues) : Except OptionError Unit := do
    let _ ← start.ofValues vs
  let given ← Settings.ofCommandLine {} LogOptions.rules checkLog words
  return ⟨given.help, given.settings, ← Settings.optionResult (start.ofValues given.values)⟩

/-- How a run ends. -/
structure Ended (σ : Type) where
  /-- The exit code, unless the program is stopped. -/
  exit : Except Fault Nat
  screen : Screen σ
  /-- How the run logs, if it came to that. -/
  log : Option LogOptions

variable {σ : Type} (e : Engine σ)

/-- Runs what the settings ask for and gives the exit code. -/
def serve (surroundings : Surroundings) (r : Runner) : Showing σ Nat := do
  let s := r.settings
  if !s.query.isEmpty then return if ← runStatement e r s.query then 0 else 1
  else if !s.file.isEmpty then
    match surroundings.file? s.file with
    | none =>
      Showing.complain (ascii "Cannot open file " ++ s.file)
      return 1
    | some text => return if (← runText e r false text) = 0 then 0 else 1
  else
    let _ ← runText e r true surroundings.input
    return 0

/-- Opens the database and runs what the settings ask for. -/
def session (surroundings : Surroundings) (settings : Settings) : Showing σ Nat := do
  let started ← tryCatch (some <$> Showing.access (Runner.start e settings)) fun fault =>
    match fault.message? with
    | none => throw fault
    | some message => do
      Showing.access (Access.note (.error (ascii "Cannot open database " ++ settings.database ++
        ascii ": " ++ message)))
      return none
  match started with
  | some r => serve e surroundings r
  | none => return 1

/-- A whole run. -/
def run (wording : Wording) (surroundings : Surroundings) (program : Text) (words : List Text)
    (engine : σ) : Ended σ :=
  let screen : Screen σ := { connection := { engine } }
  match Invocation.ofCommandLine program words with
  | .error e =>
    let message := ascii "Usage Error: " ++ e.message wording.optionError ++ ascii "\n"
    ⟨.ok 1, { screen with errors := message }, none⟩
  | .ok invocation =>
    if invocation.help then ⟨.ok 0, { screen with output := wording.help ++ ascii "\n" }, none⟩
    else
      let (exit, screen) := (session e surroundings invocation.settings).run.run screen
      ⟨exit, screen, some invocation.log⟩

end Client

end MiningQuery
