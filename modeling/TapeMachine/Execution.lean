import TapeMachine.Diagnostic
import TapeMachine.Dump
import TapeMachine.Report
import TapeMachine.Settings.Basic
import TapeMachine.Trace.Table

/-!
# Executing a request

A request is executed by loading its program and driving the machine within the limits. The output
of a program that fails is still shown. A program that does not come to an end within its time is
left, and then nothing of its output is shown.

Time is counted in steps: `pace` says how many turns of the machine go into a millisecond.
-/
namespace TapeMachine

structure Request where
  code : String
  /-- The characters to read. Without any, a program that reads takes them from standard input. -/
  input? : Option String := none
  memorySize : Nat
  maxSteps : Option Nat
  timeoutMs : Nat
  debug : Bool := false
  dump : Bool := false

def Request.ofSettings (code : String) (s : Settings) : Request where
  code := code
  memorySize := s.memorySize
  maxSteps := s.maxSteps
  timeoutMs := s.timeoutMs

inductive Stdin where
  | terminal
  | piped (bytes : ByteArray)

/-- The text on standard input, empty if it is not text, and what is to be said about it. A terminal
is never read. -/
def Stdin.text : Stdin → String × List Notice
  | terminal => ("", [])
  | piped bytes =>
    match String.fromUTF8? bytes with
    | some text => (text, [])
    | none => ("", [.record .warn ("failed reading program input from stdin error=" ++ notText)])

namespace Request

/-- The input that the program gets, and what is to be said about it. -/
def resolveInput (r : Request) (p : Program) (stdin : Stdin) : String × List Notice :=
  match r.input? with
  | some text => (text, [])
  | none => if p.readsInput then stdin.text else ("", [])

def control (r : Request) : Control :=
  { maxSteps := r.maxSteps }

/-- The machine that a program of the request starts on. -/
def machine (r : Request) (p : Program) (input : String) : Machine :=
  Machine.load p.code (Tape.blank r.memorySize) input

def patience (pace : Nat) (r : Request) : Nat :=
  r.timeoutMs * pace

/-- Drives the machine, with a table if the request asks for one. -/
def conduct (pace : Nat) (r : Request) (m : Machine) : Traced :=
  if r.debug then m.trace (some r.control) (r.patience pace) {}
  else
    let driven := m.drive r.control (r.patience pace)
    { ending := driven.ending, machine := driven.machine, sink := {} }

def startNotice (r : Request) (p : Program) : Notice :=
  .record .debug ("starting program instructions=" ++ toString p.code.size ++
    " memory_size=" ++ toString r.memorySize ++
    " max_steps=" ++ optionText r.maxSteps ++
    " timeout_ms=" ++ toString r.timeoutMs)

/-- What is said once the machine has come to an end. -/
def endNotices (program? : Option String) (r : Request) (p : Program) (m : Machine)
    (failure? : Option Failure) : List Notice :=
  (if r.dump then [.text m.dump] else []) ++
    [.record .debug ("program finished steps=" ++ toString m.steps)] ++
    (match failure? with
      | none => []
      | some failure => [.text (failure.report program? r.code p.offsets)])

/-- What is said when the time is over. -/
def timeoutNotices (r : Request) : List Notice :=
  [.record .debug ("cancelled program after timeout timeout_ms=" ++ toString r.timeoutMs),
    .text ("Execution aborted: wall-clock timeout exceeded (" ++ toString r.timeoutMs ++ " ms)\n")]

end Request

/-- The report of a machine that was conducted to an end, or was left when the time was over. A
newline closes standard output. -/
def conclude (program? : Option String) (r : Request) (p : Program) (t : Traced) : Report :=
  let table := t.sink.bytes
  let shown := table ++ t.machine.outputText.toUTF8 ++ "\n".toUTF8
  match t.ending with
  | .halted =>
    { exitCode := 0, stdout := shown, notices := r.endNotices program? p t.machine none }
  | .failed failure =>
    { exitCode := 1, stdout := shown, notices := r.endNotices program? p t.machine (some failure) }
  | .unfinished =>
    { exitCode := 1, stdout := table ++ "\n".toUTF8, notices := r.timeoutNotices }

def execute (pace : Nat) (program? : Option String) (r : Request) (stdin : Stdin) : Report :=
  match Program.parse r.code with
  | .error e => Report.complaint 1 ((Failure.brackets e).report program? r.code #[])
  | .ok p =>
    let (input, complaints) := r.resolveInput p stdin
    (conclude program? r p (r.conduct pace (r.machine p input))).after
      (r.startNotice p :: complaints)

end TapeMachine
