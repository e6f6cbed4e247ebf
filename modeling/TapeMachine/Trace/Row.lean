import TapeMachine.Machine
import TapeMachine.Text.Layout
import TapeMachine.Text.Quoted

/-!
# Rows of the trace table

A row tells of one step: where the machine stood before it, the instruction, and what the
instruction did.
-/
namespace TapeMachine.Trace

/-- What a step did, as far as the table tells it. -/
inductive Action where
  | moved (head : Nat)
  | increased (cell : Nat) (before after : UInt8)
  | decreased (cell : Nat) (before after : UInt8)
  | printed (byte : UInt8)
  | received (byte : UInt8)
  | exhausted
  | skippedLoop (target : Nat)
  | enteredLoop
  | repeatedLoop (target : Nat)
  | leftLoop
  | failed (fault : Fault)

def Action.text : Action → String
  | moved head => "Moved pointer head to index " ++ toString head
  | increased cell before after =>
    "Increment cell[" ++ toString cell ++ "] from " ++ toString before ++ " to " ++ toString after
  | decreased cell before after =>
    "Decrement cell[" ++ toString cell ++ "] from " ++ toString before ++ " to " ++ toString after
  | printed byte => "Output byte " ++ toString byte ++ " " ++ Text.quoted byte
  | received byte => "Read input -> " ++ toString byte
  | exhausted => "Input exhausted -> 0"
  | skippedLoop target => "Cell is 0; jump forward to IP " ++ toString target
  | enteredLoop => "Enter loop (cell != 0)"
  | repeatedLoop target => "Cell != 0; jump back to IP " ++ toString target
  | leftLoop => "Exit loop (cell is 0)"
  | failed fault => "Error: " ++ fault.message

/-- What a row needs to know of the machine before the step. -/
structure Snapshot where
  ip : Nat
  head : Nat
  /-- Zero if the head is beyond the end of the tape. -/
  cell : UInt8
  cursor : Nat

def Snapshot.of (m : Machine) : Snapshot where
  ip := m.ip
  head := m.tape.head
  cell := m.tape.value
  cursor := m.input.cursor

/-- Reads off a step what it did. -/
def Action.of (before : Snapshot) (i : Instruction) (stepped : Stepped) : Action :=
  let after := stepped.machine
  match stepped.fault? with
  | some fault => .failed fault
  | none =>
    match i with
    | .moveRight => .moved after.tape.head
    | .moveLeft => .moved after.tape.head
    | .increment => .increased before.head before.cell after.tape.value
    | .decrement => .decreased before.head before.cell after.tape.value
    | .output => .printed before.cell
    | .input =>
      if before.cursor < after.input.cursor then .received after.tape.value else .exhausted
    | .loopStart target => if before.cell = 0 then .skippedLoop target else .enteredLoop
    | .loopEnd target => if before.cell = 0 then .leftLoop else .repeatedLoop target

structure Row where
  /-- The number of the step within its run. -/
  step : Nat
  before : Snapshot
  instruction : Instruction
  action : Action

def Row.text (r : Row) : String :=
  Text.padRight 4 (toString r.step) ++ " | " ++
    Text.padRight 3 (toString r.before.ip) ++ " | " ++
    Text.padRight 3 (toString r.before.head) ++ " | " ++
    Text.padRight 4 (toString r.before.cell) ++ " |  " ++
    String.singleton r.instruction.toChar ++ "    | " ++ r.action.text ++ "\n"

/-- The two lines above the rows. -/
def header : String :=
  "STEP | IP  | PTR | CELL | INSTR | ACTION\n" ++
    "-----+-----+-----+------+-------+------------------------------------------------\n"

end TapeMachine.Trace
