import TapeMachine.CommandLine.Word
import TapeMachine.Settings.MemorySize

/-!
# Options of the run command

Program code may begin with dashes, so a word is an option only if it is spelled like one in full;
every other word is code, and so is all that follows the first code word. A separator before the
code is dropped.

The words are taken from the left, and the first fault ends the reading. An option whose value is a
word of its own stays pending until the word behind the value is understood, so a flag that is given
a value there is at fault before the option is.
-/
namespace TapeMachine.CommandLine

inductive RunFlag where
  | debug
  | dump
  | help
  deriving DecidableEq

inductive RunOption where
  | file
  | input
  | memorySize
  | timeout
  | maxSteps
  deriving DecidableEq

inductive RunSwitch where
  | flag (flag : RunFlag)
  | option (option : RunOption)
  deriving DecidableEq

namespace RunSwitch

def ofName? : String → Option RunSwitch
  | "debug" => some (.flag .debug)
  | "dump" => some (.flag .dump)
  | "help" => some (.flag .help)
  | "file" => some (.option .file)
  | "input" => some (.option .input)
  | "memory-size" => some (.option .memorySize)
  | "timeout" => some (.option .timeout)
  | "max-steps" => some (.option .maxSteps)
  | _ => none

def ofLetter? : Char → Option RunSwitch
  | 'd' => some (.flag .debug)
  | 'h' => some (.flag .help)
  | 'f' => some (.option .file)
  | 'i' => some (.option .input)
  | 'm' => some (.option .memorySize)
  | _ => none

end RunSwitch

/-- How complaints name the flag. -/
def RunFlag.display : RunFlag → String
  | debug => "--debug"
  | dump => "--dump"
  | help => "--help"

/-- How complaints name the option. -/
def RunOption.display : RunOption → String
  | file => "--file <FILE>"
  | input => "--input <TEXT>"
  | memorySize => "--memory-size <N>"
  | timeout => "--timeout <MS>"
  | maxSteps => "--max-steps <N>"

structure RunOptions where
  debug : Bool := false
  dump : Bool := false
  help : Bool := false
  file? : Option String := none
  input? : Option String := none
  memorySize? : Option Nat := none
  timeoutMs? : Option Nat := none
  maxSteps? : Option Nat := none
  code : List String := []

namespace RunOptions

def hasFlag (o : RunOptions) : RunFlag → Bool
  | .debug => o.debug
  | .dump => o.dump
  | .help => o.help

def raise (o : RunOptions) : RunFlag → RunOptions
  | .debug => { o with debug := true }
  | .dump => { o with dump := true }
  | .help => { o with help := true }

def setFlag (o : RunOptions) (flag : RunFlag) : Except ArgumentError RunOptions :=
  if o.hasFlag flag then .error (.repeated flag.display) else .ok (o.raise flag)

def hasOption (o : RunOptions) : RunOption → Bool
  | .file => o.file?.isSome
  | .input => o.input?.isSome
  | .memorySize => o.memorySize?.isSome
  | .timeout => o.timeoutMs?.isSome
  | .maxSteps => o.maxSteps?.isSome

/-- The options with a value stored, or the reason why the value will not do. -/
def store (o : RunOptions) (value : String) : RunOption → Except String RunOptions
  | .file => .ok { o with file? := some value }
  | .input => .ok { o with input? := some value }
  | .memorySize =>
    match readMemorySize value with
    | .ok n => .ok { o with memorySize? := some n }
    | .error e => .error e.message
  | .timeout =>
    match Text.readNumeral value.toList with
    | .ok n => .ok { o with timeoutMs? := some n }
    | .error e => .error e.message
  | .maxSteps =>
    match Text.readNumeral value.toList with
    | .ok n => .ok { o with maxSteps? := some n }
    | .error e => .error e.message

def setOption (o : RunOptions) (option : RunOption) (value : String) :
    Except ArgumentError RunOptions :=
  if o.hasOption option then .error (.repeated option.display)
  else match o.store value option with
    | .ok o' => .ok o'
    | .error reason => .error (.invalidValue value option.display reason)

/-- An option without a value in its own word, and the word that has become its value. -/
structure Pending where
  option : RunOption
  value? : Option String := none

/-- The options with the value of a pending one stored. -/
def settle (o : RunOptions) : Option Pending → Except ArgumentError RunOptions
  | none => .ok o
  | some ⟨option, none⟩ => .error (.missingValue option.display)
  | some ⟨option, some value⟩ => o.setOption option value

end RunOptions

/-- A word of the run command. A word that is not an option in full is code, or the value of the
option before it. -/
inductive RunWord where
  | separator
  | flag (flag : RunFlag) (value? : Option String)
  | option (option : RunOption) (value? : Option String)
  | cluster (letters : List Char)
  | code

def RunWord.ofString (word : String) : RunWord :=
  match Word.ofString word with
  | .separator => .separator
  | .long name value? =>
    match RunSwitch.ofName? name with
    | some (.flag f) => .flag f value?
    | some (.option o) => .option o value?
    | none => .code
  | .short letters =>
    if letters.all fun c => (RunSwitch.ofLetter? c).isSome then .cluster letters else .code
  | .plain => .code

namespace RunOptions

/-- Reads a cluster of short switches. An option takes the rest of the cluster as its value, and is
left pending if there is no rest. -/
def readCluster (o : RunOptions) :
    List Char → Except ArgumentError (RunOptions × Option Pending)
  | [] => .ok (o, none)
  | c :: rest =>
    match RunSwitch.ofLetter? c with
    | some (.flag f) =>
      match o.setFlag f with
      | .ok o' => o'.readCluster rest
      | .error e => .error e
    | some (.option option) =>
      if rest.isEmpty then .ok (o, some { option })
      else match o.setOption option (String.ofList rest) with
        | .ok o' => .ok (o', none)
        | .error e => .error e
    | none => .error (.unexpected (String.ofList ['-', c]))

/-- Reads the words behind those that made the options so far. -/
def readWords (o : RunOptions) (pending? : Option Pending) :
    List String → Except ArgumentError RunOptions
  | [] => o.settle pending?
  | word :: rest =>
    match RunWord.ofString word, pending? with
    | .flag flag (some value), _ => .error (.unwantedValue value flag.display)
    | .code, some ⟨option, none⟩ => o.readWords (some { option, value? := some word }) rest
    | .code, _ => do
      let settled ← o.settle pending?
      return { settled with code := word :: rest }
    | .separator, _ => do
      let settled ← o.settle pending?
      return { settled with code := rest }
    | .flag flag none, _ => do
      let settled ← o.settle pending?
      (← settled.setFlag flag).readWords none rest
    | .option option (some value), _ => do
      let settled ← o.settle pending?
      (← settled.setOption option value).readWords none rest
    | .option option none, _ => do
      let settled ← o.settle pending?
      settled.readWords (some { option }) rest
    | .cluster letters, _ => do
      let settled ← o.settle pending?
      let (o', pending?) ← settled.readCluster letters
      o'.readWords pending? rest

def parse (words : List String) : Except ArgumentError RunOptions :=
  readWords {} none words

end RunOptions

end TapeMachine.CommandLine
