import TapeMachine.Proofs.Execution.Steps
import TapeMachine.Trace.Table

/-!
# Calls

What a caller may do with a machine: make a step, run it, drive it within bounds, or trace it. Each
call makes a number of steps, and a fault that it reports is the fault of its last step. So whatever
calls are made, one after the other and past all faults, the machine is where some steps bring it.
-/
namespace TapeMachine

/-- A patience may be any number, so a call may be left, or cancelled, after any step. -/
inductive Call where
  | step
  | run (patience : Nat)
  | drive (control : Control) (patience : Nat)
  | trace (control? : Option Control) (patience : Nat) (sink : Trace.Sink)

def Ending.error? {ε : Type} : Ending ε → Option ε
  | failed e => some e
  | _ => none

def Failure.fault? : Failure → Option Fault
  | fault f => some f
  | _ => none

/-- What stops a driven machine is not a fault. -/
theorem Control.fault?_of_stop? {control : Control} {executed : Nat} {e : Failure}
    (h : control.stop? executed = some e) : e.fault? = none := by
  unfold stop? at h
  split at h
  · obtain rfl := Option.some.inj h
    rfl
  · split at h
    · split at h
      · obtain rfl := Option.some.inj h
        rfl
      · simp at h
    · simp at h

namespace Machine

/-- A machine at the end of a call, and the fault if that ended it. -/
def atEnd (m : Machine) (ending : Ending Failure) : Stepped :=
  { machine := m, fault? := ending.error?.bind Failure.fault? }

/-- The machine that a call leaves, and the fault that it reports. -/
def perform (m : Machine) : Call → Stepped
  | .step => m.step
  | .run patience =>
    let r := m.run patience
    { machine := r.machine, fault? := r.ending.error? }
  | .drive control patience =>
    let r := m.drive control patience
    r.machine.atEnd r.ending
  | .trace control? patience sink =>
    let t := m.trace control? patience sink
    t.machine.atEnd t.ending

/-- Makes the calls one after the other, whatever they report. -/
def performAll (m : Machine) (calls : List Call) : Machine :=
  calls.foldl (fun m call => (m.perform call).machine) m

/-- A number of steps lead from the machine to this one, and a fault is that of the last step. -/
inductive LeadsTo (m : Machine) : Stepped → Prop where
  | clean (n : Nat) : LeadsTo m { machine := m.after n }
  | faulty {n : Nat} {f : Fault} (hf : (m.after n).step.fault? = some f) :
    LeadsTo m { machine := (m.after n).step.machine, fault? := some f }

variable {m : Machine} {s : Stepped}

theorem LeadsTo.of_step (h : m.step.machine.LeadsTo s) : m.LeadsTo s := by
  cases h with
  | clean n => exact .clean (n + 1)
  | @faulty n f hf => exact .faulty (n := n + 1) hf

theorem leadsTo_step (m : Machine) : m.LeadsTo m.step := by
  rcases hstep : m.step with ⟨m', _ | f⟩
  · have hclean := LeadsTo.clean (m := m) 1
    rwa [after, after, hstep] at hclean
  · have hfaulty := LeadsTo.faulty (m := m) (n := 0) (f := f) (by rw [after, hstep])
    rwa [after, hstep] at hfaulty

theorem LeadsTo.exists_after (h : m.LeadsTo s) : ∃ n, s.machine = m.after n := by
  cases h with
  | clean n => exact ⟨n, rfl⟩
  | @faulty n f hf => exact ⟨n + 1, (m.after_succ n).symm⟩

theorem run_leadsTo (patience : Nat) (m : Machine) :
    m.LeadsTo
      { machine := (m.run patience).machine, fault? := (m.run patience).ending.error? } := by
  induction patience generalizing m with
  | zero => exact .clean 0
  | succ patience ih =>
    cases hrest : m.halted with
    | true =>
      rw [run_of_halted hrest]
      exact .clean 0
    | false =>
      cases hfault : m.step.fault? with
      | none =>
        rw [run_of_clean hrest hfault]
        exact (ih m.step.machine).of_step
      | some f =>
        rw [run_of_fault hrest hfault]
        exact .faulty (n := 0) hfault

theorem leadsTo_stopped {control : Control} {executed : Nat} {e : Failure}
    (h : control.stop? executed = some e) (m : Machine) : m.LeadsTo (m.atEnd (.failed e)) := by
  have hend : m.atEnd (.failed e) = { machine := m } := by
    rw [atEnd, Ending.error?, Option.bind_some, Control.fault?_of_stop? h]
  rw [hend]
  exact .clean 0

theorem driveFrom_leadsTo (control : Control) (patience executed : Nat) (m : Machine) :
    m.LeadsTo ((m.driveFrom control patience executed).machine.atEnd
      (m.driveFrom control patience executed).ending) := by
  induction patience generalizing m executed with
  | zero => exact .clean 0
  | succ patience ih =>
    rw [driveFrom]
    split
    · exact .clean 0
    · split
      · rename_i e hstop
        exact leadsTo_stopped hstop m
      · split
        · rename_i m' hstep
          have hnext : m.step.machine = m' := by rw [hstep]
          rw [← hnext]
          exact (ih (executed + 1) m.step.machine).of_step
        · rename_i m' f hstep
          have hlast := leadsTo_step m
          rwa [hstep] at hlast

open Trace in
/-- A row that does not fit hides the fault that it tells of, but its step is made. -/
theorem traceRows_leadsTo (control? : Option Control) (patience executed : Nat) (m : Machine)
    (sink : Sink) : m.LeadsTo ((m.traceRows control? patience executed sink).machine.atEnd
      (m.traceRows control? patience executed sink).ending) := by
  induction patience generalizing m executed sink with
  | zero => exact .clean 0
  | succ patience ih =>
    rw [traceRows]
    split
    · exact .clean 0
    · split
      · rename_i e hstop
        obtain ⟨control, -, hstop⟩ := Option.bind_eq_some_iff.mp hstop
        exact leadsTo_stopped hstop m
      · simp only
        split
        · split
          · rename_i m' hstep
            have hnext : m.step.machine = m' := by rw [hstep]
            rw [← hnext]
            exact (ih (executed + 1) m.step.machine _).of_step
          · rename_i m' f hstep
            have hlast := leadsTo_step m
            rwa [hstep] at hlast
        · exact .clean 1

theorem trace_leadsTo (control? : Option Control) (patience : Nat) (m : Machine)
    (sink : Trace.Sink) : m.LeadsTo ((m.trace control? patience sink).machine.atEnd
      (m.trace control? patience sink).ending) := by
  rw [trace]
  split
  · exact traceRows_leadsTo control? patience 0 m _
  · exact .clean 0

theorem perform_leadsTo (m : Machine) (call : Call) : m.LeadsTo (m.perform call) := by
  cases call with
  | step => exact leadsTo_step m
  | run patience => exact run_leadsTo patience m
  | drive control patience => exact driveFrom_leadsTo control patience 0 m
  | trace control? patience sink => exact trace_leadsTo control? patience m sink

/-- The calls are made along one line of steps. -/
theorem performAll_eq_after (m : Machine) (calls : List Call) :
    ∃ n, m.performAll calls = m.after n := by
  induction calls generalizing m with
  | nil => exact ⟨0, rfl⟩
  | cons call calls ih =>
    obtain ⟨n, hn⟩ := (perform_leadsTo m call).exists_after
    obtain ⟨k, hk⟩ := ih (m.perform call).machine
    refine ⟨n + k, ?_⟩
    rw [after_add, ← hn, ← hk]
    rfl

end Machine

end TapeMachine
