import TapeMachine.CommandLine.Command
import TapeMachine.Report
import TapeMachine.Text.Letters

/-!
# Surroundings

What the program takes from its environment before it plans anything: where the settings file is
looked for, and from which level on log records are written. Plans and reports work with any other
place and any other form of the log as well.
-/
namespace TapeMachine

namespace Level

def name : Level → String
  | error => "ERROR"
  | warn => "WARN"
  | info => "INFO"
  | debug => "DEBUG"

def rank : Level → Nat
  | error => 1
  | warn => 2
  | info => 3
  | debug => 4

/-- The level asked for by a text, a name in any case or a number, and warnings if it asks for none.
Nothing at all may be asked for too. -/
def ofText (text? : Option String) : Option Level :=
  match text?.map Text.asciiLower with
  | some "off" | some "0" => none
  | some "error" | some "1" | some "" => some .error
  | some "info" | some "3" => some .info
  | some "debug" | some "4" => some .debug
  | some "trace" | some "5" => some .debug
  | _ => some .warn

/-- Whether a record of the level is shown. -/
def shown (least : Option Level) (l : Level) : Bool :=
  match least with
  | none => false
  | some bound => l.rank ≤ bound.rank

/-- A record on a line of its own, without the time. -/
def line (least : Option Level) (l : Level) (message : String) : String :=
  if l.shown least then l.name ++ " " ++ message ++ "\n" else ""

end Level

/-- What the report shows on standard error with a log that has a line for each record down to the
level. -/
def Report.stderr (least : Option Level) (r : Report) : String :=
  r.stderrWith (Level.line least)

namespace CommandLine

/-- The path of a name in a directory. The empty path is the working directory. -/
def pathIn (directory name : String) : String :=
  if directory.isEmpty || directory.endsWith "/" then directory ++ name
  else directory ++ "/" ++ name

/-- Where the settings file usually is. -/
def usualSettingsPath? (environment : String → Option String) : Option String :=
  let directory? :=
    (environment "XDG_CONFIG_HOME").or ((environment "HOME").map fun home => pathIn home ".config")
  directory?.map fun directory => pathIn directory "bf.toml"

/-- The files that a plan for the words may look at. -/
def filesOf (environment : String → Option String) (words : List String) : List String :=
  match CommandLine.parse words with
  | .error _ => []
  | .ok .help => []
  | .ok command => (usualSettingsPath? environment).toList ++ command.sourcePath?.toList

end CommandLine

end TapeMachine
