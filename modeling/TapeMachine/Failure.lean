import TapeMachine.Machine
import TapeMachine.Program

/-!
# Failures

All that can keep a program from running to its end.
-/
namespace TapeMachine

inductive Failure where
  | brackets (error : BracketError)
  | fault (fault : Fault)
  | stepLimit (limit : Nat)
  | cancelled
  | io (text : String)
  deriving DecidableEq

def Failure.message : Failure → String
  | brackets e => "Parse error: " ++ e.message
  | fault f => "Runtime error: " ++ f.message
  | stepLimit n => "Execution aborted: step limit exceeded (" ++ toString n ++ ")"
  | cancelled => "Execution aborted: cancelled"
  | io text => "I/O error: " ++ text

end TapeMachine
