import PartitionLease.Environment

namespace PartitionLease

/-- The two forms in which log records are written. -/
inductive LogFormat
  | pretty
  | json
deriving DecidableEq

namespace LogFormat

/-- Only the word "json", in letters of either case, asks for records as JSON. No letter outside ASCII
has one of the word's letters as its lower case, so looking at ASCII is enough. -/
def ofText (text : String) : LogFormat := if text.toLower = "json" then json else pretty

def ofEnvironment (env : Environment) : LogFormat :=
  match env.text? "LOG_FORMAT" with
  | none => pretty
  | some text => ofText text

end LogFormat

inductive LoggingError
  | alreadyStarted
deriving DecidableEq

def LoggingError.message : LoggingError → String
  | alreadyStarted => "a global default trace dispatcher has already been set"

/-- Where a process writes its log records to, once it has been told. -/
structure Logging where
  started : Option LogFormat
deriving DecidableEq

/-- Logging is set up once in a process. Later attempts are refused and change nothing. -/
def Logging.start (logging : Logging) (format : LogFormat) : Except LoggingError Logging :=
  match logging.started with
  | none => .ok ⟨some format⟩
  | some _ => .error .alreadyStarted

end PartitionLease
