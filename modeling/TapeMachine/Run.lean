import TapeMachine.Failure

/-!
# Runs

A run repeats steps until the machine rests or a step fails. A program may run for ever, so each
run is given a patience, the number of turns after which the observer leaves it unfinished; an
unfinished run is no result. A controlled run also stops when it is cancelled and when it has used
up its budget of steps, in this order, and looks at both before each step.
-/
namespace TapeMachine

inductive Ending (ε : Type) where
  | halted
  | failed (error : ε)
  | unfinished
  deriving DecidableEq

/-- How a run ended, and the machine it left. -/
structure Run (ε : Type) where
  ending : Ending ε
  machine : Machine

/-- The bounds of a controlled run. The budget counts the steps of that run alone. -/
structure Control where
  maxSteps : Option Nat := none
  cancelled : Bool := false

/-- What stops a run that has made `executed` steps, if anything does. -/
def Control.stop? (control : Control) (executed : Nat) : Option Failure :=
  if control.cancelled then some .cancelled
  else match control.maxSteps with
    | some limit => if limit ≤ executed then some (.stepLimit limit) else none
    | none => none

namespace Machine

def run : Nat → Machine → Run Fault
  | 0, m => ⟨.unfinished, m⟩
  | patience + 1, m =>
    if m.halted then ⟨.halted, m⟩
    else match m.step with
      | ⟨after, none⟩ => run patience after
      | ⟨after, some fault⟩ => ⟨.failed fault, after⟩

/-- A controlled run that has already made `executed` steps. -/
def driveFrom (control : Control) : Nat → Nat → Machine → Run Failure
  | 0, _, m => ⟨.unfinished, m⟩
  | patience + 1, executed, m =>
    if m.halted then ⟨.halted, m⟩
    else match control.stop? executed with
      | some failure => ⟨.failed failure, m⟩
      | none => match m.step with
        | ⟨after, none⟩ => driveFrom control patience (executed + 1) after
        | ⟨after, some fault⟩ => ⟨.failed (.fault fault), after⟩

def drive (control : Control) (patience : Nat) (m : Machine) : Run Failure :=
  driveFrom control patience 0 m

end Machine

end TapeMachine
