import TapeMachine.Proofs.Execution.Calls
import TapeMachine.Proofs.Trace.Simulation

/-!
# Zeros at the end of the tape

A cell that holds a zero and a cell beyond the end of the row read alike, and the row grows before
the head can tell them apart. So machines whose tapes differ in the number of zeros at the end do the
same things for ever.
-/
namespace TapeMachine

/-- The rows become the same when enough zeros are put behind them. -/
def EqualUpToZeros (a b : Array UInt8) : Prop :=
  ∃ j k, a.toList ++ List.replicate j 0 = b.toList ++ List.replicate k 0

/-- Equal up to zeros are rows that read alike at each index. -/
theorem equalUpToZeros_iff {a b : Array UInt8} :
    EqualUpToZeros a b ↔ ∀ i : Nat, a.toList[i]?.getD 0 = b.toList[i]?.getD 0 := by
  constructor
  · rintro ⟨j, k, h⟩ i
    rw [← Tape.getD_append_zeros i a.toList j, h, Tape.getD_append_zeros]
  · intro h
    refine ⟨b.size - a.size, a.size - b.size, ?_⟩
    apply List.ext_getElem
    · simp only [List.length_append, List.length_replicate, Array.length_toList]
      omega
    · intro i hi hi'
      have hbyte := h i
      rw [← Tape.getD_append_zeros i a.toList (b.size - a.size),
        ← Tape.getD_append_zeros i b.toList (a.size - b.size),
        List.getElem?_eq_getElem hi, List.getElem?_eq_getElem hi'] at hbyte
      exact hbyte

theorem equalUpToZeros_replicate (n k : Nat) :
    EqualUpToZeros (Array.replicate n 0) (Array.replicate k 0) := by
  refine ⟨k, n, ?_⟩
  rw [Array.toList_replicate, Array.toList_replicate, List.replicate_append_replicate,
    List.replicate_append_replicate, Nat.add_comm]

/-- Both heads stand on the same cell, and the rows are equal up to zeros. -/
structure Tape.Alike (t t' : Tape) : Prop where
  head : t.head = t'.head
  cells : EqualUpToZeros t.cells t'.cells
  seated : t.head < t.cells.size
  seated' : t'.head < t'.cells.size

/-- Machines with alike tapes that differ in nothing else. -/
inductive Machine.Alike (m : Machine) : Machine → Prop where
  | retape {t : Tape} (h : m.tape.Alike t) : Alike m { m with tape := t }

structure Stepped.Alike (s s' : Stepped) : Prop where
  fault? : s.fault? = s'.fault?
  machine : s.machine.Alike s'.machine

structure Run.Alike {ε : Type} (r r' : Run ε) : Prop where
  ending : r.ending = r'.ending
  machine : r.machine.Alike r'.machine

structure Traced.Alike (t t' : Traced) : Prop where
  ending : t.ending = t'.ending
  machine : t.machine.Alike t'.machine
  sink : t.sink = t'.sink

/-! ### Tapes -/

namespace Tape

variable {t t' : Tape}

theorem equalUpToZeros_cells_iff :
    EqualUpToZeros t.cells t'.cells ↔ ∀ i, t.byteAt i = t'.byteAt i := by
  simp only [byteAt_eq, equalUpToZeros_iff]

theorem Alike.byteAt (h : t.Alike t') (i : Nat) : t.byteAt i = t'.byteAt i :=
  equalUpToZeros_cells_iff.mp h.cells i

theorem Alike.value (h : t.Alike t') : t.value = t'.value := by
  rw [value_eq_byteAt, value_eq_byteAt, h.byteAt, h.head]

theorem Alike.cell? (h : t.Alike t') : t.cell? = t'.cell? := by
  rw [cell?_eq_some_value h.seated, cell?_eq_some_value h.seated', h.value]

theorem Alike.write (h : t.Alike t') (v : UInt8) : (t.write v).Alike (t'.write v) where
  head := by rw [write_head, write_head, h.head]
  cells := by
    apply equalUpToZeros_cells_iff.mpr
    intro i
    rw [byteAt_write, byteAt_write, h.byteAt, h.head]
  seated := t.write_head_lt v
  seated' := t'.write_head_lt v

theorem Alike.moveRight (h : t.Alike t') : t.moveRight.Alike t'.moveRight where
  head := by rw [moveRight_head, moveRight_head, h.head]
  cells := by
    apply equalUpToZeros_cells_iff.mpr
    intro i
    rw [byteAt_moveRight, byteAt_moveRight, h.byteAt]
  seated := t.moveRight_head_lt
  seated' := t'.moveRight_head_lt

/-- Both heads can move to the left, or neither can. -/
theorem Alike.moveLeft? (h : t.Alike t') : t.moveLeft? = none ∧ t'.moveLeft? = none ∨
    ∃ u u', t.moveLeft? = some u ∧ t'.moveLeft? = some u' ∧ u.Alike u' := by
  cases hu : t.moveLeft? with
  | none =>
    have hhead : t'.head = 0 := h.head ▸ t.moveLeft?_eq_none_iff.mp hu
    exact .inl ⟨rfl, t'.moveLeft?_eq_none_iff.mpr hhead⟩
  | some u =>
    cases hu' : t'.moveLeft? with
    | none =>
      have hhead : t.head = 0 := h.head.trans (t'.moveLeft?_eq_none_iff.mp hu')
      rw [t.moveLeft?_eq_none_iff.mpr hhead] at hu
      contradiction
    | some u' =>
      obtain ⟨hcells, hhead⟩ := moveLeft?_eq_some hu
      obtain ⟨hcells', hhead'⟩ := moveLeft?_eq_some hu'
      obtain ⟨hsame, hequal, hlt, hlt'⟩ := h
      rw [← hcells, ← hcells'] at hequal
      rw [← hcells] at hlt
      rw [← hcells'] at hlt'
      exact .inr ⟨u, u', rfl, rfl, ⟨by omega, hequal, by omega, by omega⟩⟩

end Tape

/-! ### Steps -/

namespace Machine

variable {m m' : Machine}

theorem Alike.jump (h : m.Alike m') (origin target : Nat) :
    (m.jump origin target).Alike (m'.jump origin target) := by
  obtain ⟨ht⟩ := h
  unfold Machine.jump
  split
  · exact ⟨rfl, .retape ht⟩
  · exact ⟨rfl, .retape ht⟩

theorem Alike.execute (h : m.Alike m') (origin : Nat) (i : Instruction) :
    (m.execute origin i).Alike (m'.execute origin i) := by
  have hjump := h.jump origin
  obtain @⟨t, ht⟩ := h
  cases i with
  | moveRight => exact ⟨rfl, .retape ht.moveRight⟩
  | moveLeft =>
    rcases ht.moveLeft? with ⟨hu, hu'⟩ | ⟨u, u', hu, hu', hleft⟩
    · simp only [Machine.execute, hu, hu']
      exact ⟨rfl, .retape ht⟩
    · simp only [Machine.execute, hu, hu']
      exact ⟨rfl, .retape hleft⟩
  | increment =>
    simp only [Machine.execute, ← ht.value]
    exact ⟨rfl, .retape (ht.write _)⟩
  | decrement =>
    simp only [Machine.execute, ← ht.value]
    exact ⟨rfl, .retape (ht.write _)⟩
  | output =>
    -- Both heads are on their rows, so neither print fails for want of a cell.
    have hv := Tape.cell?_eq_some_value ht.seated
    have hv' : t.cell? = some m.tape.value := ht.cell?.symm.trans hv
    simp only [Machine.execute, hv, hv']
    exact ⟨rfl, .retape ht⟩
  | input => exact ⟨rfl, .retape (ht.write _)⟩
  | loopStart target =>
    simp only [Machine.execute, ← ht.value]
    split
    · exact hjump target
    · exact ⟨rfl, .retape ht⟩
  | loopEnd target =>
    simp only [Machine.execute, ← ht.value]
    split
    · exact ⟨rfl, .retape ht⟩
    · exact hjump target

theorem Alike.tape (h : m.Alike m') : m.tape.Alike m'.tape := by
  obtain ⟨ht⟩ := h
  exact ht

theorem Alike.input (h : m.Alike m') : m.input = m'.input := by
  obtain ⟨-⟩ := h
  rfl

theorem Alike.current? (h : m.Alike m') : m.current? = m'.current? := by
  obtain ⟨-⟩ := h
  rfl

theorem Alike.step (h : m.Alike m') : m.step.Alike m'.step := by
  unfold Machine.step
  rw [← h.current?]
  cases m.current? with
  | none => exact ⟨rfl, h⟩
  | some i =>
    obtain ⟨ht⟩ := h
    exact Alike.execute (.retape (m := m.advanced) ht) m.ip i

end Machine

/-! ### Runs -/

open Trace in
/-- A row cannot tell alike machines apart. -/
theorem Stepped.Alike.action {s s' : Stepped} (h : s.Alike s') (before : Snapshot)
    (i : Instruction) : Action.of before i s = Action.of before i s' := by
  have ht := h.machine.tape
  simp only [Action.of, h.fault?, ht.head, ht.value, h.machine.input]

namespace Machine
open Trace

variable {m m' : Machine}

theorem Alike.snapshot (h : m.Alike m') : Snapshot.of m = Snapshot.of m' := by
  obtain ⟨ht⟩ := h
  rw [Snapshot.of, Snapshot.of, ht.head, ht.value]

theorem Alike.row (h : m.Alike m') (executed : Nat) (i : Instruction) :
    m.row executed i = m'.row executed i := by
  rw [Machine.row, Machine.row, h.snapshot, h.step.action]

theorem simulation_alike : Simulation Alike where
  current? h := h.current?
  row h executed i _ := by rw [h.row]
  fault? h := h.step.fault?
  step h := h.step.machine

theorem Alike.trace (h : m.Alike m') (control? : Option Control) (patience : Nat) (sink : Sink) :
    (m.trace control? patience sink).Alike (m'.trace control? patience sink) := by
  have htrace := simulation_alike.trace h control? patience sink
  exact ⟨htrace.ending, htrace.machine, htrace.sink⟩

theorem Alike.drive (h : m.Alike m') (control : Control) (patience : Nat) :
    (m.drive control patience).Alike (m'.drive control patience) := by
  have hdrive := simulation_alike.drive h control patience
  exact ⟨hdrive.1, hdrive.2⟩

theorem Alike.run (h : m.Alike m') (patience : Nat) :
    (m.run patience).Alike (m'.run patience) := by
  obtain ⟨hending, hmachine⟩ := h.drive {} patience
  rw [drive_unbounded, drive_unbounded] at hending hmachine
  have hinjective : Function.Injective Failure.fault := fun f f' hf => Failure.fault.inj hf
  exact ⟨Ending.map_injective hinjective hending, hmachine⟩

/-- Alike machines answer every call alike. -/
theorem Alike.perform (h : m.Alike m') (call : Call) :
    (m.perform call).Alike (m'.perform call) := by
  cases call with
  | step => exact h.step
  | run patience =>
    obtain ⟨hending, hmachine⟩ := h.run patience
    exact ⟨congrArg Ending.error? hending, hmachine⟩
  | drive control patience =>
    obtain ⟨hending, hmachine⟩ := h.drive control patience
    exact ⟨congrArg (fun ending => (m.atEnd ending).fault?) hending, hmachine⟩
  | trace control? patience sink =>
    obtain ⟨hending, hmachine, -⟩ := h.trace control? patience sink
    exact ⟨congrArg (fun ending => (m.atEnd ending).fault?) hending, hmachine⟩

theorem Alike.performAll (h : m.Alike m') (calls : List Call) :
    (m.performAll calls).Alike (m'.performAll calls) := by
  induction calls generalizing m m' with
  | nil => exact h
  | cons call calls ih => exact ih (h.perform call).machine

/-- Nothing that a caller can do tells the machines apart. -/
structure Indistinguishable (m m' : Machine) : Prop where
  alike : m.Alike m'
  step : m.step.Alike m'.step
  run : ∀ patience, (m.run patience).Alike (m'.run patience)
  drive : ∀ control patience, (m.drive control patience).Alike (m'.drive control patience)
  trace : ∀ control? patience sink,
    (m.trace control? patience sink).Alike (m'.trace control? patience sink)

theorem Alike.indistinguishable (h : m.Alike m') : m.Indistinguishable m' where
  alike := h
  step := h.step
  run := h.run
  drive := h.drive
  trace := h.trace

theorem alike_load (code : Array Instruction) (input : String) {cells cells' : Array UInt8}
    (h : EqualUpToZeros cells cells') (hsize : 0 < cells.size) (hsize' : 0 < cells'.size) :
    (load code { cells } input).Alike (load code { cells := cells' } input) :=
  .retape (m := load code { cells } input) ⟨rfl, h, hsize, hsize'⟩

end Machine

open Machine in
/-- The size of the tape at the start cannot be observed. Let any code be loaded on two tapes of
zeros, of any sizes but zero, or on any two tapes that are not empty and equal up to zeros. Whatever
calls are made on both machines, they stay the same but for zeros at the end of their tapes, and the
next call has the same end and writes the same table on both. -/
theorem tape_size_unobservable (code : Array Instruction) (input : String) (calls : List Call) :
    (∀ n n', 1 ≤ n → 1 ≤ n' →
      ((load code (Tape.blank n) input).performAll calls).Indistinguishable
        ((load code (Tape.blank n') input).performAll calls)) ∧
    ∀ cells cells' : Array UInt8, cells ≠ #[] → cells' ≠ #[] → EqualUpToZeros cells cells' →
      ((load code { cells } input).performAll calls).Indistinguishable
        ((load code { cells := cells' } input).performAll calls) := by
  have hloaded {cells cells' : Array UInt8} (h : EqualUpToZeros cells cells')
      (hsize : 0 < cells.size) (hsize' : 0 < cells'.size) :
      ((load code { cells } input).performAll calls).Indistinguishable
        ((load code { cells := cells' } input).performAll calls) :=
    ((alike_load code input h hsize hsize').performAll calls).indistinguishable
  constructor
  · intro n n' hn hn'
    apply hloaded (equalUpToZeros_replicate n n')
    · rwa [Array.size_replicate]
    · rwa [Array.size_replicate]
  · intro cells cells' hne hne' h
    exact hloaded h (Array.size_pos_iff.mpr hne) (Array.size_pos_iff.mpr hne')

open Machine in
/-- One tape has to grow and the other one has room, and then they end in a different number of
zeros. -/
theorem tape_size_unobservable_past_the_end : ∃ code : Array Instruction,
    (((load code (Tape.blank 1) "").performAll [.step, .run 9]).Indistinguishable
        ((load code (Tape.blank 4) "").performAll [.step, .run 9]) ∧
      ((load code (Tape.blank 1) "").performAll [.step, .run 9]).tape.cells = #[0, 1] ∧
      ((load code (Tape.blank 4) "").performAll [.step, .run 9]).tape.cells = #[0, 1, 0, 0]) ∧
    EqualUpToZeros #[7] #[7, 0] ∧
      ((load code { cells := #[7] } "").performAll [.step, .run 9]).Indistinguishable
        ((load code { cells := #[7, 0] } "").performAll [.step, .run 9]) := by
  have hcells : EqualUpToZeros #[7] #[7, 0] := ⟨1, 0, rfl⟩
  obtain ⟨hblank, hequal⟩ :=
    tape_size_unobservable #[.moveRight, .increment, .output] "" [.step, .run 9]
  refine ⟨_, ⟨hblank 1 4 (by decide) (by decide), by rfl, by rfl⟩, hcells, ?_⟩
  exact hequal #[7] #[7, 0] (by decide) (by decide) hcells

end TapeMachine
