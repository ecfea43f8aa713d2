/-
  File:      MiningQuery/Settings/Options.lean
  Subject:   Splitting a command line into named values.

  A table of rules says which options there are and what value each takes. An option is written
  `--name value`, `--name=value` or, where it has a letter, `-l value`; it may be given once.
  Words that belong to no option are passed over.

  * `OptionRule.split` reads a command line by a table;
  * `OptionValues.find?` gives the text that was given to an option.
-/
import MiningQuery.Number.Integer
import MiningQuery.Text.Layout

namespace MiningQuery

/-! ## 1. Rules and errors -/

/-- What value an option takes. -/
inductive OptionArgument
  /-- No value. -/
  | nothing
  /-- A value, which may be the next word. -/
  | value
  /-- A value behind an equals sign, or the given one without it. -/
  | implied (text : Text)
  deriving DecidableEq, Repr

/-- An option. -/
structure OptionRule where
  name : Text
  letter : Option UInt8 := none
  argument : OptionArgument := .value
  deriving DecidableEq, Repr

/-- What can be wrong with an option. -/
inductive OptionError
  | unknown (word : Text)
  | repeated (name : Text)
  | valueMissing (name : Text)
  | valueEmpty (name : Text)
  | valueUnexpected (name : Text)
  | valueInvalid (name value : Text)
  deriving DecidableEq, Repr

/-- The error in words. -/
def OptionError.message : OptionError → Text
  | unknown w => ascii "unrecognised option '" ++ w ++ ascii "'"
  | repeated n => ascii "option '--" ++ n ++ ascii "' cannot be specified more than once"
  | valueMissing n => ascii "the required argument for option '--" ++ n ++ ascii "' is missing"
  | valueEmpty n =>
    ascii "the argument for option '--" ++ n ++
      ascii "' should follow immediately after the equal sign"
  | valueUnexpected n => ascii "option '--" ++ n ++ ascii "' does not take any arguments"
  | valueInvalid n v =>
    ascii "the argument ('" ++ v ++ ascii "') for option '--" ++ n ++ ascii "' is invalid"

/-! ## 2. Splitting a command line -/

/-- Options with the texts given to them. -/
abbrev OptionValues := List (Text × Text)

namespace OptionValues

/-- The text given to an option. -/
def find? (vs : OptionValues) (name : Text) : Option Text := vs.lookup name

/-- Has the option been given? -/
def has (vs : OptionValues) (name : Text) : Bool := (vs.find? name).isSome

end OptionValues

/-- A word that names an option, and a value that is attached to it. -/
structure OptionWord where
  word : Text
  rule : Option OptionRule
  attached : Option Text
  deriving DecidableEq, Repr

namespace OptionRule

/-- The part of a word before the first equals sign, and the part behind it. -/
def splitAtEquals (t : Text) : Text × Option Text :=
  match t.dropWhile (· != 61) with
  | [] => (t, none)
  | _ :: value => (t.takeWhile (· != 61), some value)

/-- Reads a word that names an option; any other word gives nothing. -/
def readWord? (rules : List OptionRule) (word : Text) : Option OptionWord :=
  match word with
  | 45 :: 45 :: c :: rest =>
    let (name, attached) := splitAtEquals (c :: rest)
    some ⟨word, rules.find? (·.name == name), attached⟩
  | 45 :: c :: rest =>
    if c == 45 then none
    else some ⟨word, rules.find? (·.letter == some c), if rest.isEmpty then none else some rest⟩
  | _ => none

/-- The value of an option, and how many of the words that follow it belong to it. -/
def takeValue (r : OptionRule) (attached : Option Text) (next : List Text) :
    Except OptionError (Text × Nat) :=
  match r.argument, attached, next with
  | .nothing, none, _ => .ok ([], 0)
  | .nothing, some _, _ => .error (.valueUnexpected r.name)
  | .implied t, none, _ => .ok (t, 0)
  | .implied _, some t, _ => .ok (t, 0)
  | .value, some t, _ => .ok (t, 0)
  | .value, none, t :: _ => .ok (t, 1)
  | .value, none, [] => .error (.valueMissing r.name)

/-- Reads a command line, of which the first `skipped` words belong to the option before them. -/
def splitFrom (rules : List OptionRule) (lenient : Bool) (skipped : Nat) :
    List Text → Except OptionError OptionValues
  | [] => .ok []
  | word :: rest =>
    match skipped with
    | n + 1 => splitFrom rules lenient n rest
    | 0 =>
      if word == ascii "--" then .ok []
      else match readWord? rules word with
        | none => splitFrom rules lenient 0 rest
        | some w =>
          if w.attached == some [] then .error (.valueEmpty word)
          else match w.rule with
            | none => if lenient then splitFrom rules lenient 0 rest else .error (.unknown word)
            | some r => do
              let (value, taken) ← r.takeValue w.attached rest
              let values ← splitFrom rules lenient taken rest
              if values.has r.name then .error (.repeated r.name)
              else .ok ((r.name, value) :: values)

/-- Reads a command line, each word of which ends at its first zero byte. A lenient reader passes
    over options that it does not know. -/
def split (rules : List OptionRule) (lenient : Bool) (words : List Text) :
    Except OptionError OptionValues :=
  splitFrom rules lenient 0 (words.map Text.untilZero)

end OptionRule

/-! ## 3. Reading values -/

namespace OptionValues

/-- The value of an option, read from the text that was given; without one, a default. -/
def read {α : Type} (vs : OptionValues) (name : Text) (reader : Text → Option α) (default : α) :
    Except OptionError α :=
  match vs.find? name with
  | none => .ok default
  | some t =>
    match reader t with
    | some a => .ok a
    | none => .error (.valueInvalid name t)

end OptionValues

/-- The words for true; the empty text counts as one. -/
def trueWords : List Text := [[], ascii "on", ascii "yes", ascii "1", ascii "true"]

/-- The words for false. -/
def falseWords : List Text := [ascii "off", ascii "no", ascii "0", ascii "false"]

/-- Reads a truth value in any letter case. -/
def Text.bool? (t : Text) : Option Bool :=
  if lower t ∈ trueWords then some true
  else if lower t ∈ falseWords then some false
  else none

end MiningQuery
