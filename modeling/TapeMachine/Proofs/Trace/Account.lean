import TapeMachine.Proofs.Trace.Columns
import TapeMachine.Proofs.Trace.Turns

/-!
# What the table tells

A row gives an account of its step. It is read off the machine before the step and the machine after
it, and it is true.
-/
namespace TapeMachine.Trace

/-- The texts that are true accounts of a step from the machine `m`. -/
inductive Account (m : Machine) : Stepped → String → Prop where
  | moved {after : Machine} (hi : m.current? = some .moveRight ∨ m.current? = some .moveLeft) :
    Account m { machine := after } ("Moved pointer head to index " ++ toString after.tape.head)
  | increased {after : Machine} (hi : m.current? = some .increment)
    (hhead : after.tape.head = m.tape.head) (hcell : after.tape.value = m.tape.value + 1) :
    Account m { machine := after } ("Increment cell[" ++ toString m.tape.head ++ "] from " ++
      toString m.tape.value ++ " to " ++ toString after.tape.value)
  | decreased {after : Machine} (hi : m.current? = some .decrement)
    (hhead : after.tape.head = m.tape.head) (hcell : after.tape.value = m.tape.value - 1) :
    Account m { machine := after } ("Decrement cell[" ++ toString m.tape.head ++ "] from " ++
      toString m.tape.value ++ " to " ++ toString after.tape.value)
  | printed {after : Machine} {byte : UInt8} (hi : m.current? = some .output)
    (hout : after.output = m.output.push byte) :
    Account m { machine := after }
      ("Output byte " ++ toString byte ++ " " ++ Text.quoted byte)
  | received {after : Machine} {c : Char} (hi : m.current? = some .input)
    (hc : m.input.chars[m.input.cursor]? = some c)
    (hinput : after.input = { m.input with cursor := m.input.cursor + 1 })
    (hhead : after.tape.head = m.tape.head) (hcell : after.tape.value = asciiByte c) :
    Account m { machine := after } ("Read input -> " ++ toString after.tape.value)
  | exhausted {after : Machine} (hi : m.current? = some .input)
    (hc : m.input.chars[m.input.cursor]? = none) (hinput : after.input = m.input)
    (hhead : after.tape.head = m.tape.head) (hcell : after.tape.value = 0) :
    Account m { machine := after } "Input exhausted -> 0"
  | skipped {after : Machine} {target : Nat} (hi : m.current? = some (.loopStart target))
    (hv : m.tape.value = 0) (hip : after.ip = target) :
    Account m { machine := after } ("Cell is 0; jump forward to IP " ++ toString target)
  | entered {after : Machine} {target : Nat} (hi : m.current? = some (.loopStart target))
    (hv : m.tape.value ≠ 0) (hip : after.ip = m.ip + 1) :
    Account m { machine := after } "Enter loop (cell != 0)"
  | repeated {after : Machine} {target : Nat} (hi : m.current? = some (.loopEnd target))
    (hv : m.tape.value ≠ 0) (hip : after.ip = target) :
    Account m { machine := after } ("Cell != 0; jump back to IP " ++ toString target)
  | left {after : Machine} {target : Nat} (hi : m.current? = some (.loopEnd target))
    (hv : m.tape.value = 0) (hip : after.ip = m.ip + 1) :
    Account m { machine := after } "Exit loop (cell is 0)"
  | failed {after : Machine} {f : Fault} :
    Account m { machine := after, fault? := some f } ("Error: " ++ f.message)

/-- Only the account of a step that fails speaks of an error. -/
theorem Account.error_iff {m : Machine} {s : Stepped} {text : String} (h : Account m s text) :
    "Error: ".toList <+: text.toList ↔ ∃ f, s.fault? = some f := by
  cases h <;> simp

namespace Action

variable {before : Snapshot} {after : Machine} {target : Nat}

theorem of_input_of_lt (h : before.cursor < after.input.cursor) :
    Action.of before .input { machine := after } = .received after.tape.value :=
  if_pos h

theorem of_input_of_le (h : after.input.cursor ≤ before.cursor) :
    Action.of before .input { machine := after } = .exhausted :=
  if_neg (Nat.not_lt_of_le h)

theorem of_loopStart_of_zero (h : before.cell = 0) :
    Action.of before (.loopStart target) { machine := after } = .skippedLoop target :=
  if_pos h

theorem of_loopStart_of_ne (h : before.cell ≠ 0) :
    Action.of before (.loopStart target) { machine := after } = .enteredLoop :=
  if_neg h

theorem of_loopEnd_of_zero (h : before.cell = 0) :
    Action.of before (.loopEnd target) { machine := after } = .leftLoop :=
  if_pos h

theorem of_loopEnd_of_ne (h : before.cell ≠ 0) :
    Action.of before (.loopEnd target) { machine := after } = .repeatedLoop target :=
  if_neg h

end Action

end TapeMachine.Trace

namespace TapeMachine.Machine
open Trace

variable {m : Machine} {s : Stepped} {i : Instruction}

/-- The row of a step reads off the machine before it and after it what the step did. -/
theorem Effect.account (h : m.Effect s) (hi : m.current? = some i) :
    Account m s (Action.of (Snapshot.of m) i s).text := by
  have hsame {j : Instruction} (hj : m.code[m.ip]? = some j) : i = j :=
    Option.some.inj (hi.symm.trans hj)
  cases h with
  | rest hj => simp [current?, hj] at hi
  | right hj =>
    obtain rfl := hsame hj
    exact .moved (.inl hi)
  | left hj =>
    obtain rfl := hsame hj
    exact .moved (.inr hi)
  | increment hj =>
    obtain rfl := hsame hj
    exact .increased hi (by simp) (by simp)
  | decrement hj =>
    obtain rfl := hsame hj
    exact .decreased hi (by simp) (by simp)
  | @output v hj hv =>
    obtain rfl := hsame hj
    obtain rfl : m.tape.value = v := by rw [Tape.value, hv]; rfl
    exact .printed hi rfl
  | input hj =>
    obtain rfl := hsame hj
    cases hc : m.input.chars[m.input.cursor]? with
    | some c =>
      have hnext : m.input.next = (asciiByte c, { m.input with cursor := m.input.cursor + 1 }) := by
        rw [Feed.next, hc]
      rw [hnext, Action.of_input_of_lt (Nat.lt_succ_self m.input.cursor)]
      exact .received hi hc rfl (by simp) (by simp)
    | none =>
      have hnext : m.input.next = (0, m.input) := by rw [Feed.next, hc]
      rw [hnext, Action.of_input_of_le (Nat.le_refl m.input.cursor)]
      exact .exhausted hi hc rfl (by simp) (by simp)
  | @enter target hj hv =>
    obtain rfl := hsame hj
    rw [Action.of_loopStart_of_ne hv]
    exact .entered hi hv rfl
  | @leave target hj hv =>
    obtain rfl := hsame hj
    rw [Action.of_loopEnd_of_zero hv]
    exact .left hi hv rfl
  | @jump j target hj hv ht =>
    obtain rfl := hsame hj
    rcases Instruction.bracket_of_jump? hv with rfl | rfl
    · have hzero : m.tape.value = 0 := by simpa [Instruction.jump?] using hv
      rw [Action.of_loopStart_of_zero hzero]
      exact .skipped hi hzero rfl
    · have hne : m.tape.value ≠ 0 := by simpa [Instruction.jump?] using hv
      rw [Action.of_loopEnd_of_ne hne]
      exact .repeated hi hne rfl
  | leftFails | outputFails | jumpFails => exact .failed

end TapeMachine.Machine
