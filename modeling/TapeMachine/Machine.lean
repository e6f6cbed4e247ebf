import TapeMachine.Instruction
import TapeMachine.Tape
import TapeMachine.Feed

/-!
# The machine

A machine executes resolved code one instruction at a time. The code is taken as it is: its jump
targets need not come from paired brackets, and a jump beyond the end of the code is a fault.
-/
namespace TapeMachine

/-- Why an instruction could not be carried out, with the index of that instruction. -/
inductive Fault where
  /-- The head would leave the tape, or the cell to print is beyond its end. -/
  | cell (ip : Nat) (pointer : Int)
  /-- The jump leads beyond the end of the code. -/
  | jump (ip : Nat) (target : Nat)
  deriving DecidableEq

namespace Fault

def ip : Fault → Nat
  | cell i _ => i
  | jump i _ => i

def message : Fault → String
  | cell i p => "Invalid data index " ++ toString p ++ " at instruction " ++ toString i
  | jump i t => "Invalid instruction index " ++ toString t ++ " at instruction " ++ toString i

end Fault

structure Machine where
  code : Array Instruction
  tape : Tape
  input : Feed
  /-- The index of the instruction that runs next. -/
  ip : Nat := 0
  output : Array UInt8 := #[]
  /-- How many instructions have been started, faulty ones included. -/
  steps : Nat := 0

/-- A machine after one step, and the fault if there was one. -/
structure Stepped where
  machine : Machine
  fault? : Option Fault := none

namespace Machine

/-- A machine at the start of its code. -/
def load (code : Array Instruction) (tape : Tape) (input : String) : Machine :=
  { code := code, tape := tape, input := Feed.ofString input }

def current? (m : Machine) : Option Instruction :=
  m.code[m.ip]?

/-- The machine rests when it has run off the end of its code. -/
def halted (m : Machine) : Bool :=
  m.code.size ≤ m.ip

/-- The output read as text, one character for each byte. -/
def outputText (m : Machine) : String :=
  String.ofList (m.output.toList.map fun b => Char.ofNat b.toNat)

/-- The end of the code itself is a place to jump to: the machine rests there. -/
def jump (m : Machine) (origin target : Nat) : Stepped :=
  if target ≤ m.code.size then { machine := { m with ip := target } }
  else { machine := m, fault? := some (.jump origin target) }

/-- Carries out the instruction found at index `origin`. The machine has already moved on to the
next one, so only a jump that is taken touches `ip`. -/
def execute (m : Machine) (origin : Nat) : Instruction → Stepped
  | .moveRight => { machine := { m with tape := m.tape.moveRight } }
  | .moveLeft =>
    match m.tape.moveLeft? with
    | some t => { machine := { m with tape := t } }
    | none => { machine := m, fault? := some (.cell origin (-1)) }
  | .increment =>
    let v := m.tape.value + 1
    { machine := { m with tape := m.tape.write v } }
  | .decrement =>
    let v := m.tape.value - 1
    { machine := { m with tape := m.tape.write v } }
  | .output =>
    match m.tape.cell? with
    | some v => { machine := { m with output := m.output.push v } }
    | none => { machine := m, fault? := some (.cell origin m.tape.head) }
  | .input =>
    let (v, rest) := m.input.next
    { machine := { m with tape := m.tape.write v, input := rest } }
  | .loopStart target =>
    if m.tape.value = 0 then m.jump origin target else { machine := m }
  | .loopEnd target =>
    if m.tape.value = 0 then { machine := m } else m.jump origin target

/-- Runs one instruction. A machine that rests stays as it is. -/
def step (m : Machine) : Stepped :=
  match m.current? with
  | none => { machine := m }
  | some i =>
    let origin := m.ip
    { m with ip := origin + 1, steps := m.steps + 1 }.execute origin i

end Machine

end TapeMachine
