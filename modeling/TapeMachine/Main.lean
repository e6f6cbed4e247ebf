import TapeMachine.CommandLine.Plan

/-!
# The program

Looks at the arguments, the environment, the files and standard input, carries out the plan of the
command line and writes its report.
-/
namespace TapeMachine

/-- The name under which the program complains. -/
def programName : String := "bf"

/-- Turns of the machine in a millisecond. -/
def usualPace : Nat := 30000

/-- The environment variables that are looked at. -/
def variableNames : List String :=
  ["BF_LOG", "BF_REPL_MODE", "BF_REPL_ONCE", "XDG_CONFIG_HOME", "HOME"] ++ Key.all.map Key.envName

def readEnvironment : IO (String → Option String) := do
  let found ← variableNames.filterMapM fun name => do
    return (← IO.getEnv name).map fun text => (name, text)
  return fun name => found.lookup name

/-- The system's number of an error, which may come with its sign changed. -/
def errorNumber (code : UInt32) : Nat :=
  (min code (0 - code)).toNat

def fileError : IO.Error → CommandLine.FileError
  | .noFileOrDirectory _ _ _ => .missing
  | .permissionDenied _ _ _ => .forbidden
  | .inappropriateType _ code details | .invalidArgument _ code details =>
    match errorNumber code with
    | 20 => .notDirectory
    | 21 => .directory
    | 36 => .nameTooLong
    | number => .other (details ++ " (os error " ++ toString number ++ ")")
  | e => .other (toString e)

/-- The content of each file, or why there is none. -/
def readFiles (paths : List String) :
    IO (String → Except CommandLine.FileError ByteArray) := do
  let contents ← paths.mapM fun (path : String) => do
    match ← (IO.FS.readBinFile path).toBaseIO with
    | .ok bytes => return (path, Except.ok bytes)
    | .error e => return (path, Except.error (fileError e))
  return fun path => (contents.lookup path).getD (.error .missing)

def writeReport (least : Option Level) (r : Report) : IO Unit := do
  let stdout ← IO.getStdout
  stdout.write r.stdout
  stdout.flush
  IO.eprint (r.stderr least)

/-- Asks for lines and runs each of them, until the session is left. -/
partial def editLines (least : Option Level) (s : Settings) (once : Bool) : IO Unit := do
  let stdout ← IO.getStdout
  stdout.putStr (programName ++ "> ")
  stdout.flush
  let line ← (← IO.getStdin).getLine
  if line.isEmpty then
    stdout.putStr "\n"
    stdout.flush
  else
    match SessionLine.ofText line with
    | .leave => return
    | .help =>
      IO.eprint sessionHelp
      editLines least s once
    | .program text =>
      match submit usualPace s text with
      | none => editLines least s once
      | some r =>
        writeReport least r
        if !once then editLines least s once

def sessionBanner : String :=
  "Brainfuck REPL\n" ++
    "Enter runs the line as a program. Type :help for commands, ctrl+c to exit\n"

def runMain (words : List String) : IO UInt32 := do
  let environment ← readEnvironment
  let fileBytes ← readFiles (CommandLine.filesOf environment words)
  let stdin ← IO.getStdin
  let terminal ← stdin.isTty
  let settingsPath? := CommandLine.usualSettingsPath? environment
  let world : CommandLine.World :=
    { program := programName, environment, fileBytes, terminal, settingsPath? }
  let plan := world.plan words
  let given ←
    if plan.readsStdin terminal then Stdin.piped <$> stdin.readBinToEnd else pure .terminal
  let report := plan.report usualPace given
  let least := Level.ofText (environment "BF_LOG")
  writeReport least report
  if let .edit _ s := plan then
    if ← (← IO.getStderr).isTty then IO.eprint sessionBanner
    editLines least s (environment "BF_REPL_ONCE" == some "1")
  return report.exitCode.toUInt32

end TapeMachine

def main (args : List String) : IO UInt32 :=
  TapeMachine.runMain args
