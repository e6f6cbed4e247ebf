/-!
# Instructions

The eight instructions of a tape program and the characters that spell them. Every other character
is a comment.
-/
namespace TapeMachine

/-- A loop bracket carries the index of the instruction that runs next when its jump is taken. -/
inductive Instruction where
  | moveRight
  | moveLeft
  | increment
  | decrement
  | output
  | input
  | loopStart (target : Nat)
  | loopEnd (target : Nat)
  deriving DecidableEq

namespace Instruction

/-- A bracket read on its own does not know its partner yet; its target is zero until it is paired. -/
def ofChar? : Char → Option Instruction
  | '>' => some .moveRight
  | '<' => some .moveLeft
  | '+' => some .increment
  | '-' => some .decrement
  | '.' => some .output
  | ',' => some .input
  | '[' => some (.loopStart 0)
  | ']' => some (.loopEnd 0)
  | _ => none

def toChar : Instruction → Char
  | moveRight => '>'
  | moveLeft => '<'
  | increment => '+'
  | decrement => '-'
  | output => '.'
  | input => ','
  | loopStart _ => '['
  | loopEnd _ => ']'

/-- An instruction with its jump target, if it has one, set back to zero. -/
def unresolved : Instruction → Instruction
  | loopStart _ => .loopStart 0
  | loopEnd _ => .loopEnd 0
  | i => i

theorem ofChar?_toChar (i : Instruction) : ofChar? i.toChar = some i.unresolved := by
  cases i <;> rfl

end Instruction

/-- The characters of a text that spell instructions, in their order. -/
def instructionChars (text : List Char) : List Char :=
  text.filter fun c => (Instruction.ofChar? c).isSome

end TapeMachine
