/-!
# Reports

What a command leaves behind: an exit code, the bytes of its standard output, and its notices in
their order. A notice is a text for standard error or a log record. How the log writes its records,
and whether it writes them at all, is not decided here.
-/
namespace TapeMachine

/-- The levels of log records, the gravest first. -/
inductive Level where
  | error
  | warn
  | info
  | debug
  deriving DecidableEq

inductive Notice where
  | text (text : String)
  | record (level : Level) (message : String)
  deriving DecidableEq

/-- What a notice shows if `write` tells how the log writes a record. -/
def Notice.render (write : Level → String → String) : Notice → String
  | text t => t
  | record l message => write l message

structure Report where
  exitCode : Nat
  stdout : ByteArray := .empty
  notices : List Notice := []

namespace Report

/-- A report that says one thing and no more. -/
def complaint (exitCode : Nat) (text : String) : Report :=
  { exitCode := exitCode, notices := [.text text] }

/-- The report with notices put in front of its own. -/
def after (earlier : List Notice) (r : Report) : Report :=
  { r with notices := earlier ++ r.notices }

/-- What the report shows on standard error if `write` tells how the log writes a record. -/
def stderrWith (write : Level → String → String) (r : Report) : String :=
  String.join (r.notices.map (Notice.render write))

end Report

/-- A value that may be missing, as log records show it. -/
def optionText (value? : Option Nat) : String :=
  match value? with
  | none => "None"
  | some n => "Some(" ++ toString n ++ ")"

/-- What is said of bytes that should be text and are not. -/
def notText : String := "stream did not contain valid UTF-8"

end TapeMachine
