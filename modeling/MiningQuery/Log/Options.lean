/-
  File:      MiningQuery/Log/Options.lean
  Subject:   What is logged, and where: the options of logging.

  * `Severity.read` and `ChannelReading.ofText` read from the start of a text and leave the
    rest;
  * `LogOptions.ofValues` reads the options of a command line, starting from some options;
  * `LogOptions.ofCommandLine` passes over the options of others.
-/
import MiningQuery.Log.Record
import MiningQuery.Settings.Options

namespace MiningQuery

/-! ## 1. Reading severities and channels -/

/-- Reads one word behind blanks as a severity, and gives what follows the word. -/
def Severity.read (t : Text) : Option Severity × Text :=
  let t := t.dropWhile isBlank
  (Severity.ofName? (t.takeWhile fun b => !isBlank b), t.dropWhile fun b => !isBlank b)

namespace Channel

/-- Adds a channel to a list that is in the order of all channels. -/
def insert (c : Channel) (cs : List Channel) : List Channel :=
  all.filter fun d => d = c ∨ d ∈ cs

/-- The names of channels with blanks between. -/
def names (cs : List Channel) : Text := Text.join (ascii " ") (cs.map name)

/-- Is it a byte that stands between two names? -/
def isSeparator (b : UInt8) : Bool := b == 32 || b == 44

/-- Adds the channels of a list of names up to the first unknown one, and tells whether all of
    them are known. -/
def addNames (cs : List Channel) : List Text → Bool × List Channel
  | [] => (true, cs)
  | n :: ns =>
    match ofName? n with
    | some c => addNames (insert c cs) ns
    | none => (false, cs)

end Channel

/-- What reading a list of channels gives. -/
structure ChannelReading where
  ok : Bool
  channels : List Channel
  rest : Text
  deriving DecidableEq, Repr

/-- Reads one line of names and adds their channels. Where there is no line, nothing is read. -/
def ChannelReading.ofText (cs : List Channel) (t : Text) : ChannelReading :=
  let line := t.takeWhile (· != 10)
  let (known, channels) := Channel.addNames cs (Text.words Channel.isSeparator line)
  ⟨known && !t.isEmpty, channels, (t.dropWhile (· != 10)).drop 1⟩

/-! ## 2. Options -/

/-- How the program logs. -/
structure LogOptions where
  /-- What the names of the log files begin with. -/
  baseName : Text := ascii "dmql"
  directory : Text := ascii "dmql_log"
  /-- The least severity in the log file. -/
  severity : Severity := .info
  /-- The least severity on the console. -/
  consoleSeverity : Severity := .warning
  channels : List Channel := []
  autoFlush : Bool := true
  /-- How many files are kept; with none there are no log files. -/
  maxFiles : Nat := 20
  /-- The size at which a new file is begun. -/
  rotationSize : Nat := 10 * 1024 * 1024
  deriving DecidableEq, Repr

namespace LogOptions

/-- The part of a path behind its last slash. -/
def fileName (path : Text) : Text := (path.reverse.takeWhile (· != 47)).reverse

/-- The options of a program that is called by a path. -/
def ofProgram (path : Text) : LogOptions := { baseName := fileName (Text.untilZero path) }

/-- The options of a command line that are about logging. -/
def rules : List OptionRule :=
  [{ name := ascii "log-directory" }, { name := ascii "log-severity" },
    { name := ascii "log-severity-clog" }, { name := ascii "log-channels" },
    { name := ascii "log-auto-flush" }, { name := ascii "log-max-files" },
    { name := ascii "log-rotation-size" }]

/-- Channels as the value of an option, which has to be one line. -/
def channels? (t : Text) : Option (List Channel) :=
  let r := ChannelReading.ofText [] t
  if r.ok && r.rest.isEmpty then some r.channels else none

/-- What stands before a closing quote that ends the text. A backslash takes the byte behind it
    as it is. -/
def untilQuote? : Text → Option Text
  | [] => none
  | 92 :: b :: rest => (untilQuote? rest).map (b :: ·)
  | b :: rest =>
    if b == doubleQuote then (if rest.isEmpty then some [] else none)
    else (untilQuote? rest).map (b :: ·)

/-- A directory as the value of an option: one word, or any text in double quotes. -/
def directory? (t : Text) : Option Text :=
  if t.head? = some doubleQuote then untilQuote? t.tail
  else if t.isEmpty || t.any isBlank then none
  else some t

/-- The options that values lead to, starting from some options. -/
def ofValues (start : LogOptions) (vs : OptionValues) : Except OptionError LogOptions := do
  return { start with
    directory := ← vs.read (ascii "log-directory") directory? start.directory
    severity := ← vs.read (ascii "log-severity") Severity.ofName? start.severity
    consoleSeverity := ←
      vs.read (ascii "log-severity-clog") Severity.ofName? start.consoleSeverity
    channels := ← vs.read (ascii "log-channels") channels? start.channels
    autoFlush := ← vs.read (ascii "log-auto-flush") Text.bool? start.autoFlush
    maxFiles := ← vs.read (ascii "log-max-files") Text.word64? start.maxFiles
    rotationSize := ← vs.read (ascii "log-rotation-size") Text.word64? start.rotationSize }

/-- The options of a command line. -/
def ofCommandLine (start : LogOptions) (words : List Text) : Except OptionError LogOptions := do
  start.ofValues (← OptionRule.split rules true words)

end LogOptions

end MiningQuery
