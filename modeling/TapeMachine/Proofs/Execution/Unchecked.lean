import TapeMachine.Proofs.Execution.Safety

/-!
# Code that nobody has checked

A machine takes any code, with brackets that have no partner and targets anywhere. It still never
looks for an instruction or a cell where there is none: a step that refuses to do so is the step that
is made. A bracket jumps to its target if the cell under the head bids it and the target is in the
code or at its end; a target beyond is a fault.
-/
namespace TapeMachine

namespace Tape

/-- The tape with another byte under the head, if there is a cell. -/
def put? (t : Tape) (v : UInt8) : Option Tape :=
  if h : t.head < t.cells.size then some { t with cells := t.cells.set t.head v h } else none

variable (t : Tape) (v : UInt8)

/-- Once the row has grown there is a cell under the head. -/
theorem reach_head_lt : t.reach.head < t.reach.cells.size := by
  rw [reach_head, size_reach]
  omega

theorem put?_reach : t.reach.put? v = some (t.write v) := by
  rw [put?, dif_pos t.reach_head_lt, write, Array.setIfInBounds, dif_pos t.reach_head_lt]

theorem cell?_reach : t.reach.cell? = some t.value := by
  rw [cell?_eq_some_value t.reach_head_lt, value_eq_byteAt, byteAt_reach, reach_head,
    ← value_eq_byteAt]

end Tape

namespace Machine

/-- Carries out an instruction, but nothing comes of it if a cell is read or written that is not
there. Brackets and prints look first whether there is a cell, and a move does not need one. -/
def executeChecked (m : Machine) (origin : Nat) : Instruction → Option Stepped
  | .increment => do
    let v ← m.tape.reach.cell?
    let t ← m.tape.reach.put? (v + 1)
    return { machine := { m with tape := t } }
  | .decrement => do
    let v ← m.tape.reach.cell?
    let t ← m.tape.reach.put? (v - 1)
    return { machine := { m with tape := t } }
  | .input => do
    let (v, rest) := m.input.next
    let t ← m.tape.reach.put? v
    return { machine := { m with tape := t, input := rest } }
  | i => some (m.execute origin i)

/-- Runs one instruction, but nothing comes of it if there is none where the machine stands, or if it
needs a cell that is not there. -/
def stepChecked (m : Machine) : Option Stepped :=
  if m.halted then some { machine := m }
  else do
    let i ← m.code[m.ip]?
    m.advanced.executeChecked m.ip i

/-- The next instruction is a bracket with this target. -/
def Bracket (m : Machine) (target : Nat) : Prop :=
  m.current? = some (.loopStart target) ∨ m.current? = some (.loopEnd target)

/-- The next instruction is a bracket with this target, and the cell under the head bids it jump. -/
def Bids (m : Machine) (target : Nat) : Prop :=
  m.current? = some (.loopStart target) ∧ m.tape.value = 0 ∨
    m.current? = some (.loopEnd target) ∧ m.tape.value ≠ 0

instance (m : Machine) (target : Nat) : Decidable (m.Bids target) :=
  inferInstanceAs (Decidable (_ ∨ _))

variable {m : Machine} {target : Nat}

theorem executeChecked_eq_execute (m : Machine) (origin : Nat) (i : Instruction) :
    m.executeChecked origin i = some (m.execute origin i) := by
  cases i with
  | increment => simp only [executeChecked, Tape.cell?_reach, Tape.put?_reach, execute]; rfl
  | decrement => simp only [executeChecked, Tape.cell?_reach, Tape.put?_reach, execute]; rfl
  | input => simp only [executeChecked, Tape.put?_reach, execute]; rfl
  | moveRight | moveLeft | output | loopStart | loopEnd => rfl

/-- Nothing is out of reach: the checked step is always made, and it is the step. -/
theorem stepChecked_eq_step (m : Machine) : m.stepChecked = some m.step := by
  cases hrest : m.halted with
  | true => rw [stepChecked, if_pos hrest, step_of_halted hrest]
  | false =>
    have hlt := halted_eq_false_iff.mp hrest
    have hi : m.code[m.ip]? = some m.code[m.ip] := Array.getElem?_eq_getElem hlt
    rw [stepChecked, hrest, hi, step_of_current hi]
    exact executeChecked_eq_execute _ _ _

theorem bids_of_jump? {i : Instruction} (hi : m.code[m.ip]? = some i)
    (hv : i.jump? m.tape.value = some target) : m.Bids target := by
  rcases Instruction.bracket_of_jump? hv with rfl | rfl
  · exact .inl ⟨hi, by simpa [Instruction.jump?] using hv⟩
  · exact .inr ⟨hi, by simpa [Instruction.jump?] using hv⟩

/-- A bracket that is bidden jumps to its target, or fails if that is beyond the end. -/
theorem step_of_bids (h : m.Bids target) : m.step = m.advanced.jump m.ip target := by
  rcases h with ⟨hi, hv⟩ | ⟨hi, hv⟩
  · exact step_loopStart_of_zero hi hv
  · exact step_loopEnd_of_ne hi hv

/-- A bracket that is not bidden lets the machine go on to the next instruction. -/
theorem step_of_not_bids (h : m.Bracket target) (hnot : ¬ m.Bids target) :
    m.step = { machine := m.advanced } := by
  rcases h with hi | hi
  · exact step_loopStart_of_ne hi fun hv => hnot (.inl ⟨hi, hv⟩)
  · exact step_loopEnd_of_zero hi (of_not_not fun hv => hnot (.inr ⟨hi, hv⟩))

/-- What a bracket does, with any target. -/
theorem step_of_bracket (h : m.Bracket target) : m.step =
    { machine := { m.advanced with
        ip := if m.Bids target ∧ target ≤ m.code.size then target else m.ip + 1 }
      fault? := if m.Bids target ∧ m.code.size < target then some (.jump m.ip target) else none } := by
  by_cases hbids : m.Bids target
  · rw [step_of_bids hbids, jump, advanced_code]
    by_cases ht : target ≤ m.code.size
    · simp [hbids, ht, Nat.not_lt_of_le ht]
    · simp [hbids, ht, Nat.lt_of_not_le ht, advanced]
  · rw [step_of_not_bids h hbids]
    simp [hbids, advanced]

/-- The only faults that tell of a target are those of brackets that were bidden too far. -/
theorem fault_jump_iff {origin : Nat} : m.step.fault? = some (.jump origin target) ↔
    origin = m.ip ∧ m.Bids target ∧ m.code.size < target := by
  constructor
  · intro hf
    have heffect := m.step_effect
    generalize m.step = s at heffect hf
    cases heffect with
    | jumpFails hi hv ht =>
      obtain ⟨rfl, rfl⟩ := Fault.jump.inj (Option.some.inj hf)
      exact ⟨rfl, bids_of_jump? hi hv, ht⟩
    | _ => simp at hf
  · rintro ⟨rfl, hbids, ht⟩
    rw [step_of_bids hbids, jump, advanced_code, if_neg (Nat.not_le_of_lt ht)]

/-- A jump to the end of the code brings the machine to rest. -/
theorem halted_of_bids_size (h : m.Bids m.code.size) :
    m.step.fault? = none ∧ m.step.machine.halted = true := by
  have hend : m.code.size ≤ m.advanced.code.size := Nat.le_refl _
  rw [step_of_bids h, jump_of_le hend]
  exact ⟨rfl, halted_iff.mpr (Nat.le_refl _)⟩

end Machine

open Machine in
/-- Any code, on any tape and after any number of steps, faulty ones included: the machine stands in
its code or at its end, its head on a cell unless there is none, and the next step touches nothing
that is not there. A bracket jumps exactly if the cell under the head bids it and its target is not
beyond the end of the code, and otherwise the machine goes on to the next instruction; it fails
exactly if it is bidden to a target beyond the end, and only then a fault tells of a target. At the
end of the code the machine rests. -/
theorem unchecked_code_stays_in_range (code : Array Instruction) (cells : Array UInt8)
    (input : String) (n : Nat) :
    let m := (load code { cells } input).after n
    (m.code = code ∧ m.ip ≤ code.size) ∧
    (m.tape.head < m.tape.cells.size ∨ m.tape.head = 0 ∧ m.tape.cells.size = 0) ∧
    m.stepChecked = some m.step ∧
    (∀ target, m.Bracket target → m.step =
      { machine := { m.advanced with
          ip := if m.Bids target ∧ target ≤ code.size then target else m.ip + 1 }
        fault? := if m.Bids target ∧ code.size < target then some (.jump m.ip target)
          else none }) ∧
    (∀ origin target, m.step.fault? = some (.jump origin target) ↔
      origin = m.ip ∧ m.Bids target ∧ code.size < target) ∧
    (m.Bids code.size → m.step.fault? = none ∧ m.step.machine.halted = true) := by
  intro m
  have hsound : m.Sound code cells := (sound_load code cells input).after n
  have hcode : m.code = code := hsound.code
  have hseat : m.tape.head < m.tape.cells.size ∨ m.tape.head = 0 ∧ m.tape.cells.size = 0 :=
    hsound.seated.imp_right fun h => ⟨h.1, Array.size_eq_zero_iff.mpr h.2⟩
  refine ⟨⟨hcode, hcode ▸ hsound.ip_le⟩, hseat, m.stepChecked_eq_step, ?bracket, ?fault, ?rests⟩
  case bracket =>
    intro target h
    rw [step_of_bracket h, hcode]
  case fault =>
    intro origin target
    rw [fault_jump_iff, hcode]
  case rests =>
    intro h
    exact halted_of_bids_size (hcode ▸ h)

open Machine in
/-- Stray closing brackets on an empty tape: the first is not bidden, the second fails for the
greatest target there is, and the third brings the machine to rest. -/
theorem unchecked_code_stays_in_range_on_stray_brackets :
    let m := load #[.loopEnd 7, .increment, .loopEnd 18446744073709551615, .loopEnd 4]
      { cells := #[] } ""
    ((m.after 0).Bracket 7 ∧ (m.after 0).step = { machine := m.advanced }) ∧
    ((m.after 2).Bids 18446744073709551615 ∧
      (m.after 2).step.fault? = some (.jump 2 18446744073709551615)) ∧
    ((m.after 3).Bids 4 ∧ (m.after 3).step.fault? = none ∧ (m.after 3).step.machine.halted = true) ∧
    (m.after 4).ip ≤ 4 ∧ (m.after 4).stepChecked = some (m.after 4).step := by
  have hall := unchecked_code_stays_in_range
    #[.loopEnd 7, .increment, .loopEnd 18446744073709551615, .loopEnd 4] #[] ""
  obtain ⟨-, -, -, hbracket, -, -⟩ := hall 0
  obtain ⟨-, -, -, -, hfault, -⟩ := hall 2
  obtain ⟨-, -, -, -, -, hrests⟩ := hall 3
  obtain ⟨⟨-, hip⟩, -, hchecked, -⟩ := hall 4
  exact ⟨⟨.inr (by decide), hbracket 7 (.inr (by decide))⟩,
    ⟨by decide, (hfault 2 _).mpr (by decide)⟩, ⟨by decide, hrests (by decide)⟩, hip, hchecked⟩

end TapeMachine
