import TapeMachine.Execution

/-!
# Submissions

A submission is a text that is run as a program of its own on a fresh tape. Standard input carries
the submissions themselves, so their programs read nothing.
-/
namespace TapeMachine

/-- A text without instructions is not run. -/
def submit (pace : Nat) (s : Settings) (text : String) : Option Report :=
  let program := Text.trim text
  if (instructionChars program.toList).isEmpty then none
  else some (execute pace none { Request.ofSettings program s with input? := some "" } .terminal)

/-- The lines of a stream of bytes, each with the line feed that ends it. -/
def byteLines : List UInt8 → List (List UInt8)
  | [] => []
  | b :: rest =>
    if b = 10 then [b] :: byteLines rest
    else match byteLines rest with
      | [] => [[b]]
      | line :: lines => (b :: line) :: lines

/-- Reads line after line as text, and gives up at the first one that is not text. -/
def decodeLines : List (List UInt8) → Option (List String)
  | [] => some []
  | line :: lines =>
    match String.fromUTF8? ⟨line.toArray⟩ with
    | none => none
    | some text => (decodeLines lines).map fun rest => text :: rest

/-- The text of a stream, unless it is empty or not text, and what is to be said about it. -/
def readSubmission (bytes : ByteArray) : Option String × List Notice :=
  match decodeLines (byteLines bytes.data.toList) with
  | none => (none, [.record .warn ("stopped reading submission error=" ++ notText)])
  | some [] => (none, [])
  | some lines => (some (String.join lines), [])

/-- Runs a whole stream once. The session ends well whatever becomes of the program. -/
def runOnce (pace : Nat) (s : Settings) (bytes : ByteArray) : Report :=
  let (text?, complaints) := readSubmission bytes
  match text?.bind (submit pace s) with
  | none => { exitCode := 0, notices := complaints }
  | some r => { r with exitCode := 0 }.after complaints

/-- What a line asks of an interactive session. -/
inductive SessionLine where
  | leave
  | help
  | program (text : String)

def SessionLine.ofText (line : String) : SessionLine :=
  match Text.trim line with
  | ":exit" => .leave
  | ":help" => .help
  | _ => .program line

def sessionHelp : String :=
  String.intercalate "\n"
    ["Meta commands:",
      "  :exit   Exit the REPL",
      "  :help   Show this help",
      "",
      "Every other line is run as a fresh program.",
      ""]

end TapeMachine
