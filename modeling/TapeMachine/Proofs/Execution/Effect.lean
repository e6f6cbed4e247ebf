import TapeMachine.Proofs.Execution.Steps
import TapeMachine.Proofs.Execution.Tape

/-!
# What one step can do

All that a step may do to a machine, whatever its code. Every law that holds along all steps is a
case analysis of these effects.
-/
namespace TapeMachine

/-- The target of an instruction that jumps when this byte is under the head. -/
def Instruction.jump? (v : UInt8) : Instruction → Option Nat
  | .loopStart target => if v = 0 then some target else none
  | .loopEnd target => if v = 0 then none else some target
  | _ => none

theorem Instruction.bracket_of_jump? {i : Instruction} {v : UInt8} {target : Nat}
    (h : i.jump? v = some target) : i = .loopStart target ∨ i = .loopEnd target := by
  cases i with
  | loopStart t => simp_all [jump?]
  | loopEnd t => simp_all [jump?]
  | _ => simp [jump?] at h

namespace Machine

/-- The ways in which a step can turn out. -/
inductive Effect (m : Machine) : Stepped → Prop where
  | rest (hi : m.code[m.ip]? = none) : Effect m { machine := m }
  | right (hi : m.code[m.ip]? = some .moveRight) :
    Effect m { machine := { m.advanced with tape := m.tape.moveRight } }
  | left {t : Tape} (hi : m.code[m.ip]? = some .moveLeft) (ht : m.tape.moveLeft? = some t) :
    Effect m { machine := { m.advanced with tape := t } }
  | leftFails (hi : m.code[m.ip]? = some .moveLeft) (ht : m.tape.head = 0) :
    Effect m { machine := m.advanced, fault? := some (.cell m.ip (-1)) }
  | increment (hi : m.code[m.ip]? = some .increment) :
    Effect m { machine := { m.advanced with tape := m.tape.write (m.tape.value + 1) } }
  | decrement (hi : m.code[m.ip]? = some .decrement) :
    Effect m { machine := { m.advanced with tape := m.tape.write (m.tape.value - 1) } }
  | output {v : UInt8} (hi : m.code[m.ip]? = some .output) (hv : m.tape.cell? = some v) :
    Effect m { machine := { m.advanced with output := m.output.push v } }
  | outputFails (hi : m.code[m.ip]? = some .output) (hv : m.tape.cell? = none) :
    Effect m { machine := m.advanced, fault? := some (.cell m.ip m.tape.head) }
  | input (hi : m.code[m.ip]? = some .input) :
    Effect m { machine := { m.advanced with
      tape := m.tape.write m.input.next.1, input := m.input.next.2 } }
  | enter {target : Nat} (hi : m.code[m.ip]? = some (.loopStart target)) (hv : m.tape.value ≠ 0) :
    Effect m { machine := m.advanced }
  | leave {target : Nat} (hi : m.code[m.ip]? = some (.loopEnd target)) (hv : m.tape.value = 0) :
    Effect m { machine := m.advanced }
  | jump {i : Instruction} {target : Nat} (hi : m.code[m.ip]? = some i)
    (hv : i.jump? m.tape.value = some target) (ht : target ≤ m.code.size) :
    Effect m { machine := { m.advanced with ip := target } }
  | jumpFails {i : Instruction} {target : Nat} (hi : m.code[m.ip]? = some i)
    (hv : i.jump? m.tape.value = some target) (ht : m.code.size < target) :
    Effect m { machine := m.advanced, fault? := some (.jump m.ip target) }

variable {m : Machine} {s : Stepped}

theorem jump_effect {i : Instruction} {target : Nat} (hi : m.code[m.ip]? = some i)
    (hv : i.jump? m.tape.value = some target) : m.Effect (m.advanced.jump m.ip target) := by
  unfold Machine.jump
  split
  · rename_i ht
    exact .jump hi hv ht
  · rename_i ht
    exact .jumpFails hi hv (Nat.lt_of_not_le ht)

theorem step_effect (m : Machine) : m.Effect m.step := by
  cases hi : m.code[m.ip]? with
  | none =>
    have hstep : m.step = { machine := m } := by rw [step, current?, hi]
    rw [hstep]
    exact .rest hi
  | some i =>
    have hstep := step_of_current hi
    cases i with
    | moveRight => exact hstep ▸ .right hi
    | moveLeft =>
      cases ht : m.tape.moveLeft? with
      | none =>
        simp only [hstep, execute, advanced_tape, ht]
        exact .leftFails hi (m.tape.moveLeft?_eq_none_iff.mp ht)
      | some t =>
        simp only [hstep, execute, advanced_tape, ht]
        exact .left hi ht
    | increment => exact hstep ▸ .increment hi
    | decrement => exact hstep ▸ .decrement hi
    | output =>
      cases hv : m.tape.cell? with
      | none =>
        simp only [hstep, execute, advanced_tape, hv]
        exact .outputFails hi hv
      | some v =>
        simp only [hstep, execute, advanced_tape, hv]
        exact .output hi hv
    | input => exact hstep ▸ .input hi
    | loopStart target =>
      by_cases hv : m.tape.value = 0
      · rw [step_loopStart_of_zero hi hv]
        exact jump_effect hi (if_pos hv)
      · rw [step_loopStart_of_ne hi hv]
        exact .enter hi hv
    | loopEnd target =>
      by_cases hv : m.tape.value = 0
      · rw [step_loopEnd_of_zero hi hv]
        exact .leave hi hv
      · rw [step_loopEnd_of_ne hi hv]
        exact jump_effect hi (if_neg hv)

theorem Effect.code (h : m.Effect s) : s.machine.code = m.code := by
  cases h <;> rfl

theorem code_after (m : Machine) (k : Nat) : (m.after k).code = m.code := by
  induction k with
  | zero => rfl
  | succ k ih => rw [after_succ, (step_effect _).code, ih]

/-- A machine that does not rest counts its step, whether it fails or not. -/
theorem Effect.steps (h : m.Effect s) (hrest : m.halted = false) :
    s.machine.steps = m.steps + 1 := by
  cases h with
  | rest hi =>
    have hlt := halted_eq_false_iff.mp hrest
    rw [Array.getElem?_eq_none_iff] at hi
    omega
  | _ => rfl

/-- A machine that stands inside its code, or at its end, does so after the step. -/
theorem Effect.ip_le (h : m.Effect s) (hip : m.ip ≤ m.code.size) :
    s.machine.ip ≤ s.machine.code.size := by
  have hnext {i : Instruction} (hi : m.code[m.ip]? = some i) : m.ip + 1 ≤ m.code.size :=
    (Array.getElem?_eq_some_iff.mp hi).1
  cases h with
  | rest => exact hip
  | jump hi hv ht => exact ht
  | right hi => exact hnext hi
  | left hi => exact hnext hi
  | leftFails hi => exact hnext hi
  | increment hi => exact hnext hi
  | decrement hi => exact hnext hi
  | output hi => exact hnext hi
  | outputFails hi => exact hnext hi
  | input hi => exact hnext hi
  | enter hi => exact hnext hi
  | leave hi => exact hnext hi
  | jumpFails hi => exact hnext hi

/-- A step that fails has moved on to the next instruction, and that is all. -/
theorem Effect.machine_of_fault {f : Fault} (h : m.Effect s) (hf : s.fault? = some f) :
    s.machine = m.advanced := by
  cases h with
  | leftFails => rfl
  | outputFails => rfl
  | jumpFails => rfl
  | _ => simp at hf

/-- What a step does to the tape. -/
theorem Effect.tape (h : m.Effect s) : s.machine.tape = m.tape ∨
    s.machine.tape = m.tape.moveRight ∨ m.tape.moveLeft? = some s.machine.tape ∨
      ∃ v, s.machine.tape = m.tape.write v := by
  cases h with
  | right => exact .inr (.inl rfl)
  | left hi ht => exact .inr (.inr (.inl ht))
  | increment => exact .inr (.inr (.inr ⟨_, rfl⟩))
  | decrement => exact .inr (.inr (.inr ⟨_, rfl⟩))
  | input => exact .inr (.inr (.inr ⟨_, rfl⟩))
  | _ => exact .inl rfl

end Machine

end TapeMachine
