import TapeMachine.Proofs.Trace.Turns

/-!
# Machines that no run tells apart

A relation between machines that is kept by single turns is kept by whole runs. In a turn related
machines have to run the same instruction, with the same fault and the same text in the table, and
their next states have to be related again.
-/
namespace TapeMachine.Machine
open Trace Control

/-- What a relation between machines has to keep in each turn. -/
structure Simulation (R : Machine → Machine → Prop) : Prop where
  current? {m m' : Machine} (h : R m m') : m.current? = m'.current?
  row {m m' : Machine} (h : R m m') (executed : Nat) {i : Instruction}
    (hi : m.current? = some i) : (m.row executed i).text = (m'.row executed i).text
  fault? {m m' : Machine} (h : R m m') : m.step.fault? = m'.step.fault?
  step {m m' : Machine} (h : R m m') : R m.step.machine m'.step.machine

/-- The runs end alike, with the same table and with related machines. -/
structure Simulated (R : Machine → Machine → Prop) (t t' : Traced) : Prop where
  ending : t.ending = t'.ending
  machine : R t.machine t'.machine
  sink : t.sink = t'.sink

namespace Simulation

variable {R : Machine → Machine → Prop} {m m' : Machine}

theorem halted (hR : Simulation R) (h : R m m') : m.halted = m'.halted := by
  have hcurrent : m.code[m.ip]? = m'.code[m'.ip]? := hR.current? h
  apply Bool.eq_iff_iff.mpr
  rw [halted_iff, halted_iff, ← Array.getElem?_eq_none_iff, hcurrent, Array.getElem?_eq_none_iff]

/-- By induction on the patience: both runs take the same turn on related machines. -/
theorem traceRows (hR : Simulation R) (h : R m m') (control? : Option Control)
    (patience executed : Nat) (sink : Sink) :
    Simulated R (m.traceRows control? patience executed sink)
      (m'.traceRows control? patience executed sink) := by
  induction patience generalizing m m' executed sink with
  | zero => exact ⟨rfl, h, rfl⟩
  | succ patience ih =>
    cases hrest : m.halted with
    | true =>
      have hrest' : m'.halted = true := hR.halted h ▸ hrest
      rw [traceRows_of_halted hrest, traceRows_of_halted hrest']
      exact ⟨rfl, h, rfl⟩
    | false =>
      obtain ⟨i, hi⟩ := exists_current hrest
      have hi' : m'.current? = some i := hR.current? h ▸ hi
      have hrow := hR.row h executed hi
      cases hstop : stopIfAny? control? executed with
      | some e =>
        rw [traceRows_of_stop hi hstop, traceRows_of_stop hi' hstop]
        exact ⟨rfl, h, rfl⟩
      | none =>
        cases hfits : sink.fits (m.row executed i).text with
        | false =>
          have hfits' : sink.fits (m'.row executed i).text = false := hrow ▸ hfits
          rw [traceRows_of_full hi hstop hfits, traceRows_of_full hi' hstop hfits', hrow]
          exact ⟨rfl, hR.step h, rfl⟩
        | true =>
          have hfits' : sink.fits (m'.row executed i).text = true := hrow ▸ hfits
          cases hfault : m.step.fault? with
          | none =>
            have hfault' : m'.step.fault? = none := hR.fault? h ▸ hfault
            rw [traceRows_of_clean hi hstop hfits hfault,
              traceRows_of_clean hi' hstop hfits' hfault', hrow]
            exact ih (hR.step h) (executed + 1) _
          | some f =>
            have hfault' : m'.step.fault? = some f := hR.fault? h ▸ hfault
            rw [traceRows_of_fault hi hstop hfits hfault,
              traceRows_of_fault hi' hstop hfits' hfault', hrow]
            exact ⟨rfl, hR.step h, rfl⟩

theorem trace (hR : Simulation R) (h : R m m') (control? : Option Control) (patience : Nat)
    (sink : Sink) :
    Simulated R (m.trace control? patience sink) (m'.trace control? patience sink) := by
  unfold Machine.trace
  simp only
  split
  · exact hR.traceRows h control? patience 0 _
  · exact ⟨rfl, h, rfl⟩

/-- A driven run is a traced one without its table. -/
theorem drive (hR : Simulation R) (h : R m m') (control : Control) (patience : Nat) :
    (m.drive control patience).ending = (m'.drive control patience).ending ∧
      R (m.drive control patience).machine (m'.drive control patience).machine := by
  have hrows := hR.traceRows h (some control) patience 0 {}
  rw [Machine.drive, Machine.drive, ← traceRows_driven control patience 0 m .empty,
    ← traceRows_driven control patience 0 m' .empty]
  exact ⟨hrows.ending, hrows.machine⟩

end Simulation

end TapeMachine.Machine
