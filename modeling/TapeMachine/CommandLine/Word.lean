import TapeMachine.Text.Visible

/-!
# Words of a command line

A word is a long switch, a cluster of short switches, the separator, or plain. Of the faults of a
command line one is complained of, and words are repeated in the complaint as a terminal shows them.
-/
namespace TapeMachine.CommandLine

inductive Word where
  /-- Two dashes alone. -/
  | separator
  /-- Two dashes, a name, and perhaps a value behind an equals sign. -/
  | long (name : String) (value? : Option String)
  /-- One dash and at least one letter. -/
  | short (letters : List Char)
  | plain

/-- Splits a name from the value behind the first equals sign. -/
def splitValue : List Char → List Char × Option (List Char)
  | [] => ([], none)
  | c :: rest =>
    if c = '=' then ([], some rest)
    else
      let (name, value?) := splitValue rest
      (c :: name, value?)

def Word.ofChars : List Char → Word
  | ['-', '-'] => .separator
  | '-' :: '-' :: rest =>
    let (name, value?) := splitValue rest
    .long (String.ofList name) (value?.map String.ofList)
  | '-' :: c :: rest => .short (c :: rest)
  | _ => .plain

def Word.ofString (word : String) : Word :=
  ofChars word.toList

inductive ArgumentError where
  | unexpected (argument : String)
  /-- A flag takes no value. -/
  | unwantedValue (value flag : String)
  | missingValue (option : String)
  | repeated (argument : String)
  | invalidValue (value option reason : String)
  /-- Two arguments exclude each other. The first of them was given first. -/
  | conflict (first second : String)
  /-- A word behind the script, and whether help was asked for before it. -/
  | behindScript (word : String) (helped : Bool)
  deriving DecidableEq

namespace ArgumentError

/-- An argument as complaints repeat it. -/
def quoted (argument : String) : String :=
  "'" ++ Text.visible argument ++ "'"

def message : ArgumentError → String
  | unexpected argument => "unexpected argument " ++ quoted argument ++ " found"
  | unwantedValue value flag =>
    "unexpected value " ++ quoted value ++ " for " ++ quoted flag ++
      " found; no more were expected"
  | missingValue option => "a value is required for " ++ quoted option ++ " but none was supplied"
  | repeated argument => "the argument " ++ quoted argument ++ " cannot be used multiple times"
  | invalidValue value option reason =>
    "invalid value " ++ quoted value ++ " for " ++ quoted option ++ ": " ++ reason
  | conflict first second =>
    "the argument " ++ quoted first ++ " cannot be used with " ++ quoted second
  | behindScript word helped =>
    "the subcommand " ++ quoted word ++ " cannot be used with" ++
      if helped then ":\n  --help\n  [SCRIPT]" else " '[SCRIPT]'"

end ArgumentError

end TapeMachine.CommandLine
