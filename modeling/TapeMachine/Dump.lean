import TapeMachine.Machine
import TapeMachine.Text.Layout

/-!
# The dump of a machine

Two pictures with a caret under each: the tape with its head, and the code with the instruction
that runs next. The carets stand in columns of a fixed width, three for a cell and two for an
instruction, and a rule of three dashes for each cell closes the dump.
-/
namespace TapeMachine.Machine

def tapeLine (m : Machine) : String :=
  "[" ++ String.intercalate ", " (m.tape.cells.toList.map fun v => toString v) ++ "]"

def headLine (m : Machine) : String :=
  Text.blanks (1 + 3 * m.tape.head) ++ "^"

def codeLine (m : Machine) : String :=
  String.intercalate " " (m.code.toList.map fun i => String.singleton i.toChar)

def ipLine (m : Machine) : String :=
  Text.blanks (2 * m.ip) ++ "^"

def ruleLine (m : Machine) : String :=
  Text.replicate (3 * m.tape.cells.size) '-'

def dumpLines (m : Machine) : List String :=
  [m.tapeLine, m.headLine, "", m.codeLine, m.ipLine, "", m.ruleLine]

def dump (m : Machine) : String :=
  String.join (m.dumpLines.map fun line => line ++ "\n")

end TapeMachine.Machine
