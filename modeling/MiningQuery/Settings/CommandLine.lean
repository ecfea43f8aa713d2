/-
  File:      MiningQuery/Settings/CommandLine.lean
  Subject:   Settings from a command line.

  Values are read first and then checked against their ranges, whether they were given or not.
  The two texts that end up inside names are checked last, and only if no help is asked for.

  * `Settings.ofValues` reads the values, starting from some settings;
  * `Settings.checked` checks the texts and makes the display type small.
-/
import MiningQuery.Settings.Basic
import MiningQuery.Settings.Options

namespace MiningQuery

/-- What can be wrong with the way the program is called. -/
inductive UsageError
  | option (e : OptionError)
  | emptyText (name : Text)
  | badText (name value : Text)
  deriving DecidableEq, Repr

namespace UsageError

/-- The error in words, where the words for an option are given. A message ends at its first zero
    byte. -/
def message (wording : OptionError → Text) : UsageError → Text
  | option e => wording e
  | emptyText name => ascii "Option --" ++ name ++ ascii " must not be empty."
  | badText name value =>
    Text.untilZero (ascii "Option --" ++ name ++
      ascii " may only contain letters, digits and underscores, got '" ++ value ++ ascii "'.")

end UsageError

namespace Settings

/-! ## 1. Options -/

/-- An option that takes a truth value, true without one. -/
def switch (name : String) : OptionRule := ⟨ascii name, none, .implied (ascii "true")⟩

/-- The options of the program. -/
def rules : List OptionRule :=
  [⟨ascii "help", some 104, .nothing⟩,
    { name := ascii "max-syntax-errors" }, { name := ascii "max-nesting-depth" },
    { name := ascii "default-display-type" }, { name := ascii "database-separator" },
    { name := ascii "db" }, { name := ascii "sample-rows" },
    switch "echo-sql", switch "print-query",
    ⟨ascii "query", some 113, .value⟩, ⟨ascii "file", some 102, .value⟩]

/-- Options of test programs, which do nothing here. -/
def testRules : List OptionRule :=
  [⟨ascii "gtest_list_tests", none, .nothing⟩, ⟨ascii "gtest_filter", none, .nothing⟩]

/-- Refuses a number that is out of its range. -/
def inRange (name : String) (low high n : Nat) : Except OptionError Unit :=
  if low ≤ n ∧ n ≤ high then .ok () else .error (.valueInvalid (ascii name) (Text.ofNat n))

/-- The settings that values lead to, starting from some settings. -/
def ofValues (start : Settings) (vs : OptionValues) : Except OptionError Settings := do
  let s : Settings := {
    reading := {
      errorLimit := ← vs.read (ascii "max-syntax-errors") Text.word64? start.reading.errorLimit
      nestingLimit := ← vs.read (ascii "max-nesting-depth") Text.word64? start.reading.nestingLimit
      displayType := ← vs.read (ascii "default-display-type") some start.reading.displayType }
    separator := ← vs.read (ascii "database-separator") some start.separator
    database := ← vs.read (ascii "db") some start.database
    sampleRows := ← vs.read (ascii "sample-rows") Text.word64? start.sampleRows
    echoSql := ← vs.read (ascii "echo-sql") Text.bool? start.echoSql
    printQuery := ← vs.read (ascii "print-query") Text.bool? start.printQuery
    query := ← vs.read (ascii "query") some start.query
    file := ← vs.read (ascii "file") some start.file }
  inRange "max-nesting-depth" 1 1000 s.reading.nestingLimit
  inRange "max-syntax-errors" 0 10000 s.reading.errorLimit
  inRange "sample-rows" 1 1000000 s.sampleRows
  return s

/-! ## 2. Checks -/

/-- Checks a text that becomes part of a name. -/
def checkText (name : String) (value : Text) : Except UsageError Unit :=
  if value.isEmpty then .error (.emptyText (ascii name))
  else if value.all isWordPart then .ok ()
  else .error (.badText (ascii name) value)

/-- The settings with their texts checked, the display type in small letters. -/
def checked (s : Settings) : Except UsageError Settings := do
  checkText "database-separator" s.separator
  checkText "default-display-type" s.reading.displayType
  return { s with reading := { s.reading with displayType := Text.lower s.reading.displayType } }

/-! ## 3. Command lines -/

/-- What a command line says. -/
structure FromCommandLine where
  help : Bool
  settings : Settings
  values : OptionValues
  deriving DecidableEq, Repr

/-- The failure of an option as a failure of use. -/
def optionResult {α : Type} (r : Except OptionError α) : Except UsageError α :=
  match r with
  | .ok a => .ok a
  | .error e => .error (.option e)

/-- Reads a command line, which may hold other options besides. Their values are checked by
    `others` together with the settings. -/
def ofCommandLine (start : Settings) (otherRules : List OptionRule)
    (others : OptionValues → Except OptionError Unit) (words : List Text) :
    Except UsageError FromCommandLine := do
  let values ← optionResult (OptionRule.split (rules ++ otherRules) false words)
  let settings ← optionResult (ofValues start values)
  optionResult (others values)
  if values.has (ascii "help") then return ⟨true, settings, values⟩
  else return ⟨false, ← settings.checked, values⟩

end Settings

end MiningQuery
