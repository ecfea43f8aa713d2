/-
  File:      MiningQuery/Log/Sinks.lean
  Subject:   Where log records go: the console and the log files.

  Every sink picks its records from the list of all records, by their marks only. The console
  shows the records of every channel that is on; a channel that is off has no records at all.
  There is one file for the records with a severity and one for every channel that is on.
-/
import MiningQuery.Log.Options

namespace MiningQuery

/-! ## 1. Paths -/

namespace LogOptions

/-- A path, seen from a working directory. -/
def absolute (workingDirectory path : Text) : Text :=
  if path.head? = some 47 then path
  else workingDirectory ++ ascii "/" ++ path

/-- The directory of the log files. -/
def fullDirectory (o : LogOptions) (workingDirectory : Text) : Text :=
  absolute workingDirectory o.directory

/-- The name of a log file, in which the time is left open. -/
def fileNamePattern (o : LogOptions) (tag : Text) : Text :=
  o.baseName ++ ascii "." ++ tag ++ ascii ".%Y%m%d-%H%M%S.log"

/-- A file in a directory. -/
def inDirectory (directory file : Text) : Text :=
  if directory.getLast? = some 47 then directory ++ file else directory ++ ascii "/" ++ file

end LogOptions

/-- The names on the way to a path, which ends at its first zero byte. -/
def pathNames (path : Text) : List Text :=
  (Text.words (· == 47) (Text.untilZero path)).filter (· != ascii ".")

/-- A path that begins at the root, each `..` going back by one name. -/
def rootedPath (names : List Text) : Text :=
  let enter (passed : List Text) (n : Text) : List Text :=
    if n = ascii ".." then passed.dropLast else passed ++ [n]
  ((names.foldl enter []).map fun n => ascii "/" ++ n).flatten

/-- The directories that a path enters by name, in their order. A step back by `..` enters none
    by name. -/
def pathDirectories (path : Text) : List Text :=
  let names := pathNames path
  let named := (List.range names.length).filter fun i => names[i]? != some (ascii "..")
  named.map fun i => rootedPath (names.take (i + 1))

/-- Does creating a path with everything on its way end with a new directory? It does if the
    directory that is entered last is neither present nor entered before. -/
def createsLast (present : List Text) (path : Text) : Bool :=
  match (pathDirectories path).reverse with
  | [] => false
  | last :: earlier => !present.contains last && !earlier.contains last

/-! ## 2. Sinks -/

/-- A log file, and the records that it takes. -/
structure LogFile where
  name : Text
  target : Text
  accepts : LogTag → Bool

namespace LogOptions

/-- Does the console show a record? -/
def consoleAccepts (o : LogOptions) : LogTag → Bool
  | .severity s => o.consoleSeverity.atLeast s
  | .channel c => c ∈ o.channels

/-- Does the file of severities take a record? -/
def fileAccepts (o : LogOptions) : LogTag → Bool
  | .severity s => o.severity.atLeast s
  | .channel _ => false

/-- The log files. -/
def files (o : LogOptions) (workingDirectory : Text) : List LogFile :=
  if o.maxFiles = 0 then []
  else
    let target := o.fullDirectory workingDirectory
    let file (tag : Text) (accepts : LogTag → Bool) : LogFile :=
      ⟨inDirectory target (o.fileNamePattern tag), target, accepts⟩
    file (ascii "LOG") o.fileAccepts :: o.channels.map fun c => file c.name (· = .channel c)

/-- The directories that have to be created, of which those in `present` are there. -/
def missingDirectories (o : LogOptions) (workingDirectory : Text) (present : List Text) :
    List Text :=
  if o.maxFiles = 0 then []
  else (pathDirectories (o.fullDirectory workingDirectory)).filter fun d => !present.contains d

/-- The records of setting up the log: one if creating its directory ends with a new one. -/
def startRecords (o : LogOptions) (workingDirectory : Text) (present : List Text) :
    List LogRecord :=
  let directory := o.fullDirectory workingDirectory
  if o.maxFiles = 0 || !createsLast present directory then []
  else [.info (ascii "Created log directory " ++ directory)]

end LogOptions

end MiningQuery
