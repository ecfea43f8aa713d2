/-
  File:      MiningQuery/Main.lean
  Subject:   The command line client as a program.

  The program reads what it needs, lets `Client.run` decide everything, and writes what came of
  it. It has no engine of its own: it runs on an engine that holds no tables.
-/
import MiningQuery.Client.Session
import MiningQuery.Log.Sinks
import MiningQuery.Storage.Script

open MiningQuery

/-- The bytes of a word of the command line. -/
def wordBytes (s : String) : Text := s.toUTF8.toList

/-- The content of a file, if it can be read. -/
def fileBytes (path : Text) : IO (Option Text) := do
  match String.fromUTF8? ⟨path.toArray⟩ with
  | none => return none
  | some name =>
    try
      return some (← IO.FS.readBinFile name).toList
    catch _ => return none

/-- The table of options. -/
def helpTable : Text :=
  (Settings.rules ++ LogOptions.rules).flatMap fun r => ascii "  --" ++ r.name ++ ascii "\n"

/-- Writes text to an output. -/
def writeText (stream : IO.FS.Stream) (t : Text) : IO Unit := do
  stream.write ⟨t.toArray⟩
  stream.flush

/-- The records that the console shows, a line each. -/
def consoleText (log : LogOptions) (records : List LogRecord) : Text :=
  (records.filter fun r => log.consoleAccepts r.tag).flatMap fun r =>
    r.tag.symbol ++ ascii " " ++ r.message ++ ascii "\n"

/-- Reads the input and the file that the command line asks for. -/
def surroundings (program : Text) (words : List Text) : IO Client.Surroundings := do
  match Client.Invocation.ofCommandLine program words with
  | .error _ => return ⟨[], fun _ => none⟩
  | .ok i =>
    if i.help || !i.settings.query.isEmpty then return ⟨[], fun _ => none⟩
    else if !i.settings.file.isEmpty then
      let content ← fileBytes i.settings.file
      return ⟨[], fun _ => content⟩
    else
      return ⟨(← (← IO.getStdin).readBinToEnd).toList, fun _ => none⟩

def main (args : List String) : IO UInt32 := do
  let program := ascii "dmql"
  let words := args.map wordBytes
  let around ← surroundings program words
  let ended := Client.run Script.engine ⟨helpTable, OptionError.message⟩ around program words .empty
  writeText (← IO.getStdout) ended.screen.output
  let errors ← IO.getStderr
  match ended.log with
  | some log => writeText errors (consoleText log ended.screen.connection.records)
  | none => pure ()
  writeText errors ended.screen.errors
  match ended.exit with
  | .ok code => return code.toUInt32
  | .error _ => return 134
