import TapeMachine.Proofs.Execution.Budget
import TapeMachine.Trace.Table

/-!
# The turns of a traced run

In each turn a traced run looks at the machine and at its bounds, makes a step and writes a row for
it. As long as its sink takes the rows, it does to the machine what a driven run with the same
bounds does, and without bounds what a plain run does.
-/
namespace TapeMachine

namespace Trace.Sink

variable (bytes : ByteArray) (text : String)

/-- A sink without a capacity takes every text. -/
@[simp] theorem fits_unbounded : ({ bytes } : Sink).fits text = true := rfl

@[simp] theorem put_unbounded :
    ({ bytes } : Sink).put text = { bytes := bytes ++ text.toUTF8 } := rfl

end Trace.Sink

/-- A traced run without its table. -/
def Traced.driven (t : Traced) : Run Failure where
  ending := t.ending
  machine := t.machine

/-- What stops a run that has made `executed` steps, if it has bounds at all. -/
def Control.stopIfAny? (control? : Option Control) (executed : Nat) : Option Failure :=
  control?.bind fun control => control.stop? executed

namespace Machine
open Trace Control

variable {m : Machine} {i : Instruction} {control? : Option Control} {patience executed : Nat}
  {sink : Sink}

theorem exists_current (h : m.halted = false) : ∃ i, m.current? = some i :=
  ⟨_, Array.getElem?_eq_getElem (halted_eq_false_iff.mp h)⟩

/-- The row that tells of the next step. -/
def row (m : Machine) (executed : Nat) (i : Instruction) : Row where
  step := executed
  before := Snapshot.of m
  instruction := i
  action := Action.of (Snapshot.of m) i m.step

theorem traceRows_of_halted (h : m.halted = true) :
    m.traceRows control? (patience + 1) executed sink = ⟨.halted, m, sink⟩ := by
  have hcurrent : m.current? = none := by
    rw [current?, Array.getElem?_eq_none_iff]
    simpa [halted] using h
  rw [traceRows, hcurrent]

theorem traceRows_of_stop {e : Failure} (hi : m.current? = some i)
    (hstop : stopIfAny? control? executed = some e) :
    m.traceRows control? (patience + 1) executed sink = ⟨.failed e, m, sink⟩ := by
  rw [stopIfAny?] at hstop
  rw [traceRows, hi, hstop]

theorem traceRows_of_clean (hi : m.current? = some i) (hstop : stopIfAny? control? executed = none)
    (hfits : sink.fits (m.row executed i).text = true) (hfault : m.step.fault? = none) :
    m.traceRows control? (patience + 1) executed sink = m.step.machine.traceRows control? patience
      (executed + 1) (sink.put (m.row executed i).text) := by
  rw [stopIfAny?] at hstop
  rw [row] at hfits ⊢
  rw [traceRows, hi, hstop]
  simp only [hfits, if_true]
  rcases hstep : m.step with ⟨m', f⟩
  rw [hstep] at hfault
  obtain rfl := hfault
  rfl

theorem traceRows_of_fault {f : Fault} (hi : m.current? = some i)
    (hstop : stopIfAny? control? executed = none)
    (hfits : sink.fits (m.row executed i).text = true) (hfault : m.step.fault? = some f) :
    m.traceRows control? (patience + 1) executed sink =
      ⟨.failed (.fault f), m.step.machine, sink.put (m.row executed i).text⟩ := by
  rw [stopIfAny?] at hstop
  rw [row] at hfits ⊢
  rw [traceRows, hi, hstop]
  simp only [hfits, if_true]
  rcases hstep : m.step with ⟨m', f⟩
  rw [hstep] at hfault
  obtain rfl := hfault
  rfl

theorem traceRows_of_full (hi : m.current? = some i) (hstop : stopIfAny? control? executed = none)
    (hfits : sink.fits (m.row executed i).text = false) :
    m.traceRows control? (patience + 1) executed sink =
      ⟨.failed (.io sinkFull), m.step.machine, sink.put (m.row executed i).text⟩ := by
  rw [stopIfAny?] at hstop
  rw [row] at hfits ⊢
  rw [traceRows, hi, hstop]
  simp only [hfits]
  rfl

/-- By induction on the patience: both runs look at the same things in the same order. -/
theorem traceRows_driven (control : Control) (patience executed : Nat) (m : Machine)
    (bytes : ByteArray) : (m.traceRows (some control) patience executed { bytes }).driven =
      m.driveFrom control patience executed := by
  induction patience generalizing m executed bytes with
  | zero => rfl
  | succ patience ih =>
    cases hrest : m.halted with
    | true => rw [traceRows_of_halted hrest, driveFrom_of_halted hrest]; rfl
    | false =>
      obtain ⟨i, hi⟩ := exists_current hrest
      have hfits := Sink.fits_unbounded bytes (m.row executed i).text
      cases hstop : stopIfAny? (some control) executed with
      | some e =>
        have hdrive : control.stop? executed = some e := hstop
        rw [traceRows_of_stop hi hstop, driveFrom_of_stop hrest hdrive]
        rfl
      | none =>
        have hdrive : control.stop? executed = none := hstop
        cases hfault : m.step.fault? with
        | none =>
          rw [traceRows_of_clean hi hstop hfits hfault, driveFrom_of_clean hrest hdrive hfault]
          exact ih (executed + 1) m.step.machine _
        | some f =>
          rw [traceRows_of_fault hi hstop hfits hfault, driveFrom_of_fault hrest hdrive hfault]
          rfl

/-- No bounds at all and bounds that bound nothing are the same. -/
theorem traceRows_unbounded (patience executed : Nat) (m : Machine) (sink : Sink) :
    m.traceRows none patience executed sink = m.traceRows (some {}) patience executed sink := by
  induction patience generalizing m executed sink with
  | zero => rfl
  | succ patience ih =>
    cases hrest : m.halted with
    | true => rw [traceRows_of_halted hrest, traceRows_of_halted hrest]
    | false =>
      obtain ⟨i, hi⟩ := exists_current hrest
      cases hfits : sink.fits (m.row executed i).text with
      | false => rw [traceRows_of_full hi rfl hfits, traceRows_of_full hi rfl hfits]
      | true =>
        cases hfault : m.step.fault? with
        | none =>
          rw [traceRows_of_clean hi rfl hfits hfault, traceRows_of_clean hi rfl hfits hfault, ih]
        | some f =>
          rw [traceRows_of_fault hi rfl hfits hfault, traceRows_of_fault hi rfl hfits hfault]

theorem traceRows_add_of_finished
    (h : (m.traceRows control? patience executed sink).ending ≠ .unfinished) (k : Nat) :
    m.traceRows control? (patience + k) executed sink =
      m.traceRows control? patience executed sink := by
  induction patience generalizing m executed sink with
  | zero => exact absurd rfl h
  | succ patience ih =>
    rw [Nat.succ_add]
    cases hrest : m.halted with
    | true => rw [traceRows_of_halted hrest, traceRows_of_halted hrest]
    | false =>
      obtain ⟨i, hi⟩ := exists_current hrest
      cases hstop : stopIfAny? control? executed with
      | some e => rw [traceRows_of_stop hi hstop, traceRows_of_stop hi hstop]
      | none =>
        cases hfits : sink.fits (m.row executed i).text with
        | false => rw [traceRows_of_full hi hstop hfits, traceRows_of_full hi hstop hfits]
        | true =>
          cases hfault : m.step.fault? with
          | none =>
            rw [traceRows_of_clean hi hstop hfits hfault] at h ⊢
            rw [traceRows_of_clean hi hstop hfits hfault, ih h]
          | some f =>
            rw [traceRows_of_fault hi hstop hfits hfault, traceRows_of_fault hi hstop hfits hfault]

/-- Two traced runs that have come to an end agree, whatever their patience. -/
theorem traceRows_eq_of_finished {k : Nat}
    (h : (m.traceRows control? patience executed sink).ending ≠ .unfinished)
    (hk : (m.traceRows control? k executed sink).ending ≠ .unfinished) :
    m.traceRows control? patience executed sink = m.traceRows control? k executed sink := by
  rw [← traceRows_add_of_finished h k, Nat.add_comm, traceRows_add_of_finished hk]

theorem trace_eq_of_finished {k : Nat} (h : (m.trace control? patience sink).ending ≠ .unfinished)
    (hk : (m.trace control? k sink).ending ≠ .unfinished) :
    m.trace control? patience sink = m.trace control? k sink := by
  unfold trace at h hk ⊢
  cases hfits : sink.fits header with
  | true =>
    rw [hfits] at h hk
    exact traceRows_eq_of_finished h hk
  | false => rfl

theorem drive_eq_of_finished {control : Control} {k : Nat}
    (h : (m.drive control patience).ending ≠ .unfinished)
    (hk : (m.drive control k).ending ≠ .unfinished) :
    m.drive control patience = m.drive control k := by
  rw [drive, ← traceRows_driven control _ 0 m .empty] at h hk ⊢
  rw [drive, ← traceRows_driven control k 0 m .empty, traceRows_eq_of_finished h hk]

end Machine

/-- Tracing changes nothing but the table, whatever the machine: into a sink that takes every row, a
traced run ends as the driven run with the same bounds does, with the same failure and the same
machine, and without bounds as the plain run does. If one of them has no end, neither has the
other. -/
theorem tracing_changes_nothing (m : Machine) (bytes : ByteArray) :
    (∀ control patience,
      (m.trace (some control) patience { bytes }).driven = m.drive control patience) ∧
    (∀ patience, (m.trace none patience { bytes }).driven = (m.run patience).driven) ∧
    (∀ control, (∀ n, (m.trace (some control) n { bytes }).ending = .unfinished) ↔
      ∀ n, (m.drive control n).ending = .unfinished) ∧
    ((∀ n, (m.trace none n { bytes }).ending = .unfinished) ↔
      ∀ n, (m.run n).ending = .unfinished) := by
  have hbounded (control : Control) (patience : Nat) :
      (m.trace (some control) patience { bytes }).driven = m.drive control patience :=
    m.traceRows_driven control patience 0 _
  have hplain (patience : Nat) :
      (m.trace none patience { bytes }).driven = (m.run patience).driven := by
    rw [← Machine.drive_unbounded, ← hbounded, Machine.trace, Machine.traceRows_unbounded]
    rfl
  refine ⟨hbounded, hplain, fun control => forall_congr' fun n => ?_, forall_congr' fun n => ?_⟩
  · rw [← hbounded control n]
    rfl
  · have hending : (m.trace none n { bytes }).ending = (m.run n).ending.map .fault :=
      congrArg Run.ending (hplain n)
    rw [hending, Ending.map_eq_unfinished_iff]

end TapeMachine
