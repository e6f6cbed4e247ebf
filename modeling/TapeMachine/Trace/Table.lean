import TapeMachine.Run
import TapeMachine.Trace.Row
import TapeMachine.Trace.Sink

/-!
# Traced runs

A traced run writes a header and then one row for each step it makes, a failing step included. The
row is written after its step. A row that does not fit ends the run, and its failure takes the
place of the fault that the row tells of.
-/
namespace TapeMachine

/-- How a traced run ended, the machine it left and the sink with its table. -/
structure Traced where
  ending : Ending Failure
  machine : Machine
  sink : Trace.Sink

namespace Machine
open Trace

/-- The rows of a run that has already made `executed` steps. -/
def traceRows (control? : Option Control) : Nat → Nat → Machine → Sink → Traced
  | 0, _, m, sink => ⟨.unfinished, m, sink⟩
  | patience + 1, executed, m, sink =>
    match m.current? with
    | none => ⟨.halted, m, sink⟩
    | some i =>
      match control?.bind fun control => control.stop? executed with
      | some failure => ⟨.failed failure, m, sink⟩
      | none =>
        let before := Snapshot.of m
        let stepped := m.step
        let line := Row.text ⟨executed, before, i, Action.of before i stepped⟩
        let fits := sink.fits line
        let sink := sink.put line
        if fits then
          match stepped with
          | ⟨after, none⟩ => traceRows control? patience (executed + 1) after sink
          | ⟨after, some fault⟩ => ⟨.failed (.fault fault), after, sink⟩
        else ⟨.failed (.io sinkFull), stepped.machine, sink⟩

def trace (control? : Option Control) (patience : Nat) (m : Machine) (sink : Sink) : Traced :=
  let fits := sink.fits header
  let sink := sink.put header
  if fits then traceRows control? patience 0 m sink
  else ⟨.failed (.io sinkFull), m, sink⟩

end Machine

end TapeMachine
