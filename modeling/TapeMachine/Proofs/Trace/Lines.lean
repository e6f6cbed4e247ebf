import TapeMachine.Proofs.Execution.Calls
import TapeMachine.Proofs.Trace.Account

/-!
# The lines of the table

The table of a traced run has one line below its header for each step of the run, and each line
tells the truth about its step.
-/
namespace TapeMachine

namespace Machine
open Trace Control

/-- The rows of the steps of a run that has already made `executed` steps, and where they lead. -/
inductive Records : Machine → Nat → List Row → Stepped → Prop where
  | nil {m : Machine} {executed : Nat} : Records m executed [] { machine := m }
  | clean {m : Machine} {executed : Nat} {i : Instruction} {rows : List Row} {s : Stepped}
    (hi : m.current? = some i) (hfault : m.step.fault? = none)
    (hrest : Records m.step.machine (executed + 1) rows s) :
    Records m executed (m.row executed i :: rows) s
  | faulty {m : Machine} {executed : Nat} {i : Instruction} {f : Fault}
    (hi : m.current? = some i) (hfault : m.step.fault? = some f) :
    Records m executed [m.row executed i] m.step

variable {m : Machine} {executed : Nat} {rows : List Row} {s : Stepped}

theorem Records.machine (h : Records m executed rows s) : s.machine = m.after rows.length := by
  induction h with
  | nil => rfl
  | clean hi hfault hrest ih => exact ih
  | faulty hi hfault => rfl

theorem Records.steps (h : Records m executed rows s) :
    s.machine.steps = m.steps + rows.length := by
  have hstep {m : Machine} {i : Instruction} (hi : m.current? = some i) :
      m.step.machine.steps = m.steps + 1 := m.step_effect.steps (halted_of_current hi)
  induction h with
  | nil => rfl
  | clean hi hfault hrest ih =>
    rw [ih, hstep hi, List.length_cons]
    omega
  | faulty hi hfault => exact hstep hi

/-- The row at an index is that of the step with this index. -/
theorem Records.row (h : Records m executed rows s) {j : Nat} {r : Row} (hj : rows[j]? = some r) :
    ∃ i, (m.after j).current? = some i ∧ r = (m.after j).row (executed + j) i := by
  induction h generalizing j with
  | nil => simp at hj
  | @clean m executed i rows s hi hfault hrest ih =>
    cases j with
    | zero => exact ⟨i, hi, (Option.some.inj hj).symm⟩
    | succ j =>
      obtain ⟨i', hi', hr⟩ := ih hj
      rw [Nat.add_right_comm] at hr
      exact ⟨i', hi', hr⟩
  | @faulty m executed i f hi hfault =>
    cases j with
    | zero => exact ⟨i, hi, (Option.some.inj hj).symm⟩
    | succ j => simp at hj

/-- Only the last step of a run may fail. -/
theorem Records.fault (h : Records m executed rows s) {j : Nat} {f : Fault} (hj : j < rows.length)
    (hf : (m.after j).step.fault? = some f) : j + 1 = rows.length ∧ s.fault? = some f := by
  induction h generalizing j with
  | nil => simp at hj
  | clean hi hfault hrest ih =>
    cases j with
    | zero => simp [after, hfault] at hf
    | succ j =>
      obtain ⟨hlast, hs⟩ := ih (Nat.lt_of_succ_lt_succ hj) hf
      exact ⟨congrArg (· + 1) hlast, hs⟩
  | faulty hi hfault =>
    obtain rfl : j = 0 := Nat.lt_one_iff.mp hj
    exact ⟨rfl, hf⟩

/-- A run that fails has recorded the step that failed. -/
theorem Records.exists_fault (h : Records m executed rows s) {f : Fault} (hf : s.fault? = some f) :
    ∃ j, j + 1 = rows.length ∧ (m.after j).step.fault? = some f := by
  induction h with
  | nil => simp at hf
  | clean hi hfault hrest ih =>
    obtain ⟨j, hlast, hstep⟩ := ih hf
    exact ⟨j + 1, congrArg (· + 1) hlast, hstep⟩
  | faulty hi hfault => exact ⟨0, rfl, hf⟩

theorem atEnd_fault?_eq_some_iff {ending : Ending Failure} {f : Fault} :
    (m.atEnd ending).fault? = some f ↔ ending = .failed (.fault f) := by
  cases ending with
  | failed e => cases e <;> simp [atEnd, Ending.error?, Failure.fault?]
  | _ => simp [atEnd, Ending.error?]

/-- By induction on the patience: each turn that makes a step writes its row. -/
theorem exists_records (control? : Option Control) (patience executed : Nat) (m : Machine)
    (bytes : ByteArray) : ∃ rows : List Row,
      Records m executed rows ((m.traceRows control? patience executed { bytes }).machine.atEnd
        (m.traceRows control? patience executed { bytes }).ending) ∧
      (m.traceRows control? patience executed { bytes }).sink.bytes =
        bytes ++ (String.join (rows.map Row.text)).toUTF8 := by
  induction patience generalizing m executed bytes with
  | zero => exact ⟨[], .nil, by simp [traceRows]⟩
  | succ patience ih =>
    cases hrest : m.halted with
    | true =>
      rw [traceRows_of_halted hrest]
      exact ⟨[], .nil, by simp⟩
    | false =>
      obtain ⟨i, hi⟩ := exists_current hrest
      have hfits := Sink.fits_unbounded bytes (m.row executed i).text
      cases hstop : stopIfAny? control? executed with
      | some e =>
        have hclean : e.fault? = none := by
          obtain ⟨control, -, hstop⟩ := Option.bind_eq_some_iff.mp hstop
          exact fault?_of_stop? hstop
        have hend : m.atEnd (.failed e) = { machine := m } := by simp [atEnd, Ending.error?, hclean]
        rw [traceRows_of_stop hi hstop, hend]
        exact ⟨[], .nil, by simp⟩
      | none =>
        cases hfault : m.step.fault? with
        | none =>
          rw [traceRows_of_clean hi hstop hfits hfault, Sink.put_unbounded]
          obtain ⟨rows, hrows, htable⟩ := ih (executed + 1) m.step.machine
            (bytes ++ (m.row executed i).text.toUTF8)
          refine ⟨m.row executed i :: rows, .clean hi hfault hrows, ?_⟩
          rw [htable, ByteArray.append_assoc]
          simp
        | some f =>
          have hend : m.step.machine.atEnd (.failed (.fault f)) = m.step := by
            rw [atEnd, Ending.error?, Option.bind_some, Failure.fault?, ← hfault]
          rw [traceRows_of_fault hi hstop hfits hfault, hend]
          exact ⟨[m.row executed i], .faulty hi hfault, by simp⟩

end Machine

namespace Trace

/-- The table with these lines. -/
def table (lines : List String) : String :=
  header ++ String.join (lines.map fun line => line ++ "\n")

/-- Lines that are unbroken stay one line each. -/
theorem count_newline_table {lines : List String} (h : ∀ line ∈ lines, '\n' ∉ line.toList) :
    (table lines).toList.count '\n' = 2 + lines.length := by
  have hheader : header.toList.count '\n' = 2 := by decide +kernel
  have hlines : (String.join (lines.map fun line => line ++ "\n")).toList.count '\n' =
      lines.length := by
    induction lines with
    | nil => simp
    | cons line lines ih =>
      have hline : line.toList.count '\n' = 0 := List.count_eq_zero.mpr (h line (by simp))
      have hrest := ih fun line' hline' => h line' (by simp [hline'])
      simp only [List.map_cons, String.join_cons, String.toList_append, List.count_append, hrest,
        hline]
      simp
      omega
  rw [table, String.toList_append, List.count_append, hheader, hlines]

end Trace

open Trace in
/-- The table of a traced run is true, whatever the machine and the bounds. Below the header it has
one unbroken line for each step that the run made, a failing one included. The line of step `j`
gives its number, the place of the machine before it and the instruction, and an account of what the
step did. Only the last line can report an error: that of the fault which ended the run. -/
theorem trace_tells_each_step (m : Machine) (control? : Option Control) (patience : Nat)
    (bytes : ByteArray) :
    let t := m.trace control? patience { bytes }
    ∃ lines : List String,
      t.sink.bytes = bytes ++ (table lines).toUTF8 ∧
      (table lines).toList.count '\n' = 2 + lines.length ∧
      t.machine = m.after lines.length ∧ t.machine.steps = m.steps + lines.length ∧
      (∀ j line, lines[j]? = some line → '\n' ∉ line.toList ∧
        ∃ i action, (m.after j).current? = some i ∧
          columns line = [toString j, toString (m.after j).ip, toString (m.after j).tape.head,
            toString (m.after j).tape.value, String.singleton i.toChar, action] ∧
          Account (m.after j) (m.after j).step action ∧
          ("Error: ".toList <+: action.toList → j + 1 = lines.length ∧
            ∃ f, (m.after j).step.fault? = some f ∧ t.ending = .failed (.fault f))) ∧
      ∀ f, t.ending = .failed (.fault f) →
        ∃ j, j + 1 = lines.length ∧ (m.after j).step.fault? = some f := by
  intro t
  obtain ⟨rows, hrows, hbytes⟩ :=
    Machine.exists_records control? patience 0 m (bytes ++ header.toUTF8)
  have htrace : m.traceRows control? patience 0 { bytes := bytes ++ header.toUTF8 } = t := rfl
  rw [htrace] at hrows hbytes
  have hlength : (rows.map Row.line).length = rows.length := List.length_map _
  refine ⟨rows.map Row.line, ?bytes, ?count, ?machine, ?steps, ?lines, ?fault⟩
  case bytes =>
    have htext : Row.text = fun r => r.line ++ "\n" := funext Row.text_eq
    rw [hbytes, ByteArray.append_assoc, htext]
    simp [table, Function.comp_def]
  case count =>
    apply count_newline_table
    intro line hline
    obtain ⟨r, -, rfl⟩ := List.mem_map.mp hline
    exact newline_not_mem_line r
  case machine =>
    rw [hlength]
    exact hrows.machine
  case steps =>
    rw [hlength]
    exact hrows.steps
  case lines =>
    intro j line hline
    rw [List.getElem?_map] at hline
    obtain ⟨r, hr, rfl⟩ := Option.map_eq_some_iff.mp hline
    obtain ⟨i, hi, rfl⟩ := hrows.row hr
    have haccount := (m.after j).step_effect.account hi
    rw [Nat.zero_add]
    refine ⟨newline_not_mem_line _, i, _, hi, columns_line _, haccount, fun herror => ?_⟩
    obtain ⟨f, hf⟩ := haccount.error_iff.mp herror
    obtain ⟨hlast, hend⟩ := hrows.fault (List.getElem?_eq_some_iff.mp hr).1 hf
    rw [hlength]
    exact ⟨hlast, f, hf, Machine.atEnd_fault?_eq_some_iff.mp hend⟩
  case fault =>
    intro f hf
    rw [hlength]
    exact hrows.exists_fault (Machine.atEnd_fault?_eq_some_iff.mpr hf)

open Trace in
/-- A machine that moves left of its first cell in its second step: the second line is the last one
and tells of the fault. -/
theorem trace_tells_each_step_of_fault : ∃ (m : Machine) (lines : List String) (line : String),
    lines.length = 2 ∧ (m.trace none 9 {}).sink.bytes = (table lines).toUTF8 ∧
      lines[1]? = some line ∧ columns line =
        ["1", "1", "0", "1", "<", "Error: Invalid data index -1 at instruction 1"] ∧
      (m.trace none 9 {}).ending = .failed (.fault (.cell 1 (-1))) := by
  let m := Machine.load #[.increment, .moveLeft] (Tape.blank 1) ""
  obtain ⟨lines, hbytes, -, -, hsteps, hlines, -⟩ := trace_tells_each_step m none 9 .empty
  have hlength : lines.length = 2 := by
    have htwo : (m.trace none 9 {}).machine.steps = 2 := by rfl
    have hstart : m.steps = 0 := rfl
    omega
  have hsecond : lines[1]? = some lines[1] := List.getElem?_eq_getElem _
  obtain ⟨-, i, action, hi, hcolumns, haccount, -⟩ := hlines 1 _ hsecond
  have hstep : (m.after 1).step =
      { machine := (m.after 1).advanced, fault? := some (.cell 1 (-1)) } := rfl
  rw [hstep] at haccount
  obtain rfl : i = .moveLeft := Option.some.inj (hi.symm.trans rfl)
  refine ⟨m, lines, lines[1], hlength, ?_, hsecond, ?_, by rfl⟩
  · rw [hbytes, ByteArray.empty_append]
  · rw [hcolumns]
    cases haccount
    decide +kernel

end TapeMachine
