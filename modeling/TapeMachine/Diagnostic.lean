import TapeMachine.Excerpt
import TapeMachine.Failure

/-!
# Diagnostics

The report of a failure. A failure that has a place in the source comes with an excerpt.
-/
namespace TapeMachine

def BracketError.summary (e : BracketError) : String :=
  "unmatched bracket '" ++ e.bracket.toString ++ "'"

def Fault.summary : Fault → String
  | cell _ pointer => "data pointer out of bounds (ptr=" ++ toString pointer ++ ")"
  | jump _ target => "jump target out of range (target=" ++ toString target ++ ")"

/-- The place of the instruction at fault. Without an offset for it, its index has to do. -/
def Fault.position (f : Fault) (offsets : Array Nat) : Nat :=
  offsets.getD f.ip f.ip

/-- A message led by the name of the program that issues it, if it has one. -/
def attributed (program? : Option String) (message : String) : String :=
  match program? with
  | some name => name ++ ": " ++ message
  | none => message

def Failure.report (program? : Option String) (source : String) (offsets : Array Nat) :
    Failure → String
  | brackets e =>
    let title := attributed program? ("Parse error: " ++ e.summary)
    (Excerpt.around title source.toList e.offset).text
  | fault f =>
    let title := attributed program? ("Runtime error: " ++ f.summary)
    (Excerpt.around title source.toList (f.position offsets)).text
  | other => attributed program? other.message ++ "\n"

end TapeMachine
