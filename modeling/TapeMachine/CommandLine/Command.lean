import TapeMachine.CommandLine.RunOptions
import TapeMachine.Mode

/-!
# Commands

A command line asks for help, for a script, for the run command or for a session. The names of the
two commands count only before any other argument, and everything behind a separator is plain.
-/
namespace TapeMachine.CommandLine

structure SessionOptions where
  /-- The modes asked for, in the order of the words. -/
  modes : List Mode := []
  help : Bool := false

inductive Command where
  | help
  | script (path : String)
  | run (options : RunOptions)
  | session (options : SessionOptions)

/-- The program file that the command names. Help wins over it. -/
def Command.sourcePath? : Command → Option String
  | help => none
  | script path => some path
  | run options => if options.help then none else options.file?
  | session _ => none

namespace SessionOptions

def setMode (o : SessionOptions) (mode : Mode) : Except ArgumentError SessionOptions :=
  if o.modes.contains mode then .error (.repeated mode.flag)
  else .ok { o with modes := o.modes ++ [mode] }

def setHelp (o : SessionOptions) : Except ArgumentError SessionOptions :=
  if o.help then .error (.repeated "--help") else .ok { o with help := true }

/-- Sets the flag of a name. -/
def setFlag (o : SessionOptions) (name : String) (value? : Option String) :
    Except ArgumentError SessionOptions :=
  let set (flag : Except ArgumentError SessionOptions) : Except ArgumentError SessionOptions :=
    match value? with
    | some value => .error (.unwantedValue value ("--" ++ name))
    | none => flag
  match name with
  | "bare" => set (o.setMode .bare)
  | "editor" => set (o.setMode .editor)
  | "help" => set o.setHelp
  | _ => .error (.unexpected ("--" ++ name))

def readCluster (o : SessionOptions) : List Char → Except ArgumentError SessionOptions
  | [] => .ok o
  | 'h' :: rest =>
    match o.setHelp with
    | .ok o' => o'.readCluster rest
    | .error e => .error e
  | c :: _ => .error (.unexpected (String.ofList ['-', c]))

def mode? (o : SessionOptions) : Option Mode :=
  flaggedMode (o.modes.contains .bare) (o.modes.contains .editor)

/-- The two modes exclude each other. -/
def check (o : SessionOptions) : Except ArgumentError SessionOptions :=
  match o.modes with
  | first :: second :: _ => .error (.conflict first.flag second.flag)
  | _ => .ok o

def readWords (o : SessionOptions) : List String → Except ArgumentError SessionOptions
  | [] => o.check
  | word :: rest =>
    match Word.ofString word with
    | .plain => .error (.unexpected word)
    | .separator =>
      match rest with
      | [] => o.check
      | extra :: _ => .error (.unexpected extra)
    | .long name value? =>
      match o.setFlag name value? with
      | .ok o' => o'.readWords rest
      | .error e => .error e
    | .short letters =>
      match o.readCluster letters with
      | .ok o' => o'.readWords rest
      | .error e => .error e

def parse (words : List String) : Except ArgumentError SessionOptions :=
  readWords {} words

end SessionOptions

/-- What has been read of a command line that is no named command. -/
structure Opening where
  help : Bool := false
  script? : Option String := none

namespace Opening

/-- Help wins over a script, and without either a session starts. -/
def command (o : Opening) : Command :=
  if o.help then .help
  else match o.script? with
    | some path => .script path
    | none => .session {}

def setHelp (o : Opening) : Except ArgumentError Opening :=
  if o.help then .error (.repeated "--help") else .ok { o with help := true }

def setScript (o : Opening) (word : String) : Except ArgumentError Opening :=
  match o.script? with
  | some _ => .error (.behindScript word o.help)
  | none => .ok { o with script? := some word }

def readCluster (o : Opening) : List Char → Except ArgumentError Opening
  | [] => .ok o
  | 'h' :: rest =>
    match o.setHelp with
    | .ok o' => o'.readCluster rest
    | .error e => .error e
  | c :: _ => .error (.unexpected (String.ofList ['-', c]))

def readPlain (o : Opening) : List String → Except ArgumentError Command
  | [] => .ok o.command
  | word :: rest =>
    match o.setScript word with
    | .ok o' => o'.readPlain rest
    | .error e => .error e

/-- Whether nothing has been read yet. -/
def untouched (o : Opening) : Bool :=
  !o.help && o.script?.isNone

def readWords (o : Opening) : List String → Except ArgumentError Command
  | [] => .ok o.command
  | word :: rest =>
    match Word.ofString word with
    | .separator => o.readPlain rest
    | .plain =>
      if o.untouched && word == "run" then (RunOptions.parse rest).map .run
      else if o.untouched && word == "repl" then (SessionOptions.parse rest).map .session
      else match o.setScript word with
        | .ok o' => o'.readWords rest
        | .error e => .error e
    | .long "help" none =>
      match o.setHelp with
      | .ok o' => o'.readWords rest
      | .error e => .error e
    | .long "help" (some value) => .error (.unwantedValue value "--help")
    | .long name _ => .error (.unexpected ("--" ++ name))
    | .short letters =>
      match o.readCluster letters with
      | .ok o' => o'.readWords rest
      | .error e => .error e

end Opening

def parse (words : List String) : Except ArgumentError Command :=
  Opening.readWords {} words

end TapeMachine.CommandLine
