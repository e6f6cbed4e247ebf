import TapeMachine.Text.Numeral

/-!
# Memory sizes

The number of cells that a tape starts with. It has an upper bound, whichever way it is given.
-/
namespace TapeMachine

inductive MemorySizeError where
  | numeral (error : Text.NumeralError)
  | aboveLimit
  deriving DecidableEq

/-- The largest tape to start with, in cells. -/
def memoryLimit : Nat := Nat.pow 2 24

def MemorySizeError.message : MemorySizeError → String
  | numeral e => e.message
  | aboveLimit => "memory size must be at most " ++ toString memoryLimit ++ " cells"

def checkMemorySize (cells : Nat) : Except MemorySizeError Nat :=
  if cells ≤ memoryLimit then .ok cells else .error .aboveLimit

def readMemorySize (text : String) : Except MemorySizeError Nat :=
  match Text.readNumeral text.toList with
  | .ok n => checkMemorySize n
  | .error e => .error (.numeral e)

end TapeMachine
