import TapeMachine.CommandLine.Surroundings
import TapeMachine.CommandLine.Usage
import TapeMachine.Settings.Section
import TapeMachine.Submission

/-!
# Plans

A command line is first turned into a plan, which takes the arguments, the environment and the files
but nothing of standard input. Settings are resolved once the arguments are understood, unless help
on the whole program is all that was asked for.
-/
namespace TapeMachine.CommandLine

/-- Why a file could not be read. -/
inductive FileError where
  | missing
  | forbidden
  | notDirectory
  | directory
  | nameTooLong
  | other (text : String)
  deriving DecidableEq

def FileError.message : FileError → String
  | missing => "No such file or directory (os error 2)"
  | forbidden => "Permission denied (os error 13)"
  | notDirectory => "Not a directory (os error 20)"
  | directory => "Is a directory (os error 21)"
  | nameTooLong => "File name too long (os error 36)"
  | other text => text

/-- What a call of the program finds around it. -/
structure World where
  /-- The name under which the program was called. -/
  program : String
  environment : String → Option String
  fileBytes : String → Except FileError ByteArray
  /-- Whether standard input is a terminal. -/
  terminal : Bool
  /-- Where the settings file is looked for, if there is such a place. -/
  settingsPath? : Option String := usualSettingsPath? environment

inductive Plan where
  | done (report : Report)
  | execute (notices : List Notice) (program : String) (request : Request)
  /-- Run standard input once. -/
  | once (notices : List Notice) (settings : Settings)
  /-- Edit and run lines on a terminal. -/
  | edit (notices : List Notice) (settings : Settings)

def warningNotice (w : Warning) : Notice :=
  .record .warn ("ignoring invalid config value key=\"" ++ w.key.name ++ "\" value=" ++ w.value ++
    (match w.reason? with
      | some reason => " reason=" ++ reason
      | none => ""))

def settingsNotice (s : Settings) : Notice :=
  .record .debug ("resolved interpreter settings cfg=Settings \x7b memory_size: " ++
    toString s.memorySize ++ ", max_steps: " ++ optionText s.maxSteps ++ ", timeout_ms: " ++
    toString s.timeoutMs ++ " \x7d")

namespace World

/-- The text of the settings file, with its place. A file that cannot be read or is not text counts
as missing. -/
def settingsFile? (w : World) : Option (String × String) :=
  match w.settingsPath? with
  | none => none
  | some path =>
    match w.fileBytes path with
    | .error _ => none
    | .ok bytes => (String.fromUTF8? bytes).map fun text => (path, text)

/-- The settings in force, and what is to be said about them: the file is laid over the defaults,
and the environment over the file. -/
def settings (w : World) : Settings × List Notice :=
  let defaults : Settings := {}
  let (fromFile, fileNotices) :=
    match w.settingsFile? with
    | none => (defaults, [])
    | some (path, text) =>
      let (s, warnings) := defaults.overlay (sectionLayer (readSection text))
      (s, Notice.record .debug ("loaded config file path=" ++ path) :: warnings.map warningNotice)
  let (s, warnings) := fromFile.overlay (environmentLayer w.environment)
  (s, fileNotices ++ warnings.map warningNotice ++ [settingsNotice s])

/-- The text of a program file, or why there is none. -/
def readSource (w : World) (path : String) : Except String String :=
  match w.fileBytes path with
  | .error e => .error e.message
  | .ok bytes =>
    match String.fromUTF8? bytes with
    | some text => .ok text
    | none => .error notText

/-- A complaint under the name of the program. -/
def complain (w : World) (text : String) : Notice :=
  .text (w.program ++ ": " ++ text ++ "\n")

def planScript (w : World) (path : String) (s : Settings) (notices : List Notice) : Plan :=
  match w.readSource path with
  | .ok code => .execute notices w.program (Request.ofSettings code s)
  | .error e =>
    .done { exitCode := 1,
            notices := notices ++ [w.complain ("failed to read script " ++ path ++ ": " ++ e)] }

/-- The request of a run command: its options win over the settings. -/
def runRequest (o : RunOptions) (code : String) (s : Settings) : Request where
  code := code
  input? := o.input?
  memorySize := o.memorySize?.getD s.memorySize
  maxSteps := o.maxSteps?.or s.maxSteps
  timeoutMs := o.timeoutMs?.getD s.timeoutMs
  debug := o.debug
  dump := o.dump

def planRun (w : World) (o : RunOptions) (s : Settings) (notices : List Notice) : Plan :=
  let usage : Notice := .text (Usage.run w.program)
  if o.help then .done { exitCode := 0, notices := notices ++ [usage] }
  else match o.file?, o.code with
    | none, [] => .done { exitCode := 2, notices := notices ++ [usage] }
    | none, words => .execute notices w.program (runRequest o (String.join words) s)
    | some path, [] =>
      match w.readSource path with
      | .ok code => .execute notices w.program (runRequest o code s)
      | .error e =>
        .done { exitCode := 1,
                notices := notices ++ [w.complain ("failed to read code file as UTF-8: " ++ e)] }
    | some _, _ :: _ =>
      .done { exitCode := 2,
              notices := notices ++
                [w.complain "cannot use positional code together with --file", usage] }

def planSession (w : World) (o : SessionOptions) (s : Settings) (notices : List Notice) : Plan :=
  if o.help then .done { exitCode := 0, notices := notices ++ [.text (Usage.session w.program)] }
  else match resolveMode o.mode? (w.environment "BF_REPL_MODE") w.terminal with
    | .error e => .done { exitCode := 1, notices := notices ++ [w.complain e.message] }
    | .ok mode =>
      let notices := notices ++ [.record .debug ("selected REPL mode mode=" ++ mode.name)]
      match mode with
      | .bare => .once notices s
      | .editor => .edit notices s

/-- A plan that is made under the settings in force. -/
def underSettings (w : World) (make : Settings → List Notice → Plan) : Plan :=
  let (s, notices) := w.settings
  make s notices

def plan (w : World) (words : List String) : Plan :=
  match CommandLine.parse words with
  | .error e => .done (Report.complaint 2 ("error: " ++ e.message ++ "\n"))
  | .ok .help => .done (Report.complaint 0 (Usage.top w.program))
  | .ok (.script path) => w.underSettings (w.planScript path)
  | .ok (.run o) => w.underSettings (w.planRun o)
  | .ok (.session o) => w.underSettings (w.planSession o)

end World

namespace Plan

/-- Whether the plan takes the bytes on standard input. The input of a program is not taken from a
terminal. -/
def readsStdin (terminal : Bool) : Plan → Bool
  | done _ => false
  | execute _ _ request =>
    match request.input?, Program.parse request.code with
    | none, .ok p => p.readsInput && !terminal
    | _, _ => false
  | once _ _ => true
  | edit _ _ => false

/-- Carries out a plan. Of a session that edits lines only the opening is reported. -/
def report (pace : Nat) (stdin : Stdin) : Plan → Report
  | done r => r
  | execute notices program request =>
    (TapeMachine.execute pace (some program) request stdin).after notices
  | once notices settings =>
    match stdin with
    | .piped bytes => (runOnce pace settings bytes).after notices
    | .terminal => { exitCode := 0, notices := notices }
  | edit notices _ => { exitCode := 0, notices := notices }

end Plan

end TapeMachine.CommandLine
