import Mathlib.Data.Finset.Lattice.Fold
import Mathlib.Order.Lattice.Nat
import TapeMachine.Proofs.Execution.Safety
import TapeMachine.Proofs.Execution.Stream

/-!
# The tape as an account of the steps

The row of cells is what a history of steps leaves: its size is told by the places to which the head
came, and each of its bytes by the steps that were made while the head stood on it.
-/
namespace TapeMachine

/-- What a step does to the byte that it changes. -/
inductive Edit where
  | plus
  | minus
  | put (b : UInt8)

def Edit.apply (v : UInt8) : Edit → UInt8
  | plus => v + 1
  | minus => v - 1
  | put b => b

namespace Instruction

/-- The instruction makes the row long enough for the head. -/
def stretches : Instruction → Bool
  | moveRight => true
  | increment => true
  | decrement => true
  | input => true
  | _ => false

/-- What the instruction does to the cell under the head. If it reads, it reads the byte `b`. -/
def edit? (b : UInt8) : Instruction → Option Edit
  | increment => some .plus
  | decrement => some .minus
  | input => some (.put b)
  | _ => none

variable {i : Instruction} {v b : UInt8} {target : Nat}

theorem stretches_of_jump? (h : i.jump? v = some target) : i.stretches = false := by
  rcases bracket_of_jump? h with rfl | rfl <;> rfl

theorem edit?_of_jump? (h : i.jump? v = some target) : i.edit? b = none := by
  rcases bracket_of_jump? h with rfl | rfl <;> rfl

end Instruction

namespace Machine

/-- The next step makes the row long enough for the head. -/
def stretches (m : Machine) : Bool :=
  m.current?.any Instruction.stretches

/-- What the next step does to the byte at index `cell`. If it reads, it reads the byte `b`. -/
def edit? (m : Machine) (b : UInt8) (cell : Nat) : Option Edit :=
  if m.tape.head = cell then m.current?.bind (Instruction.edit? b) else none

/-- What the next `n` steps do to the byte at index `cell`, in their order. The reads among them take
the bytes of the text one by one. -/
def edits (m : Machine) (text : String) (cell n : Nat) : List Edit :=
  (List.range n).filterMap fun k => (m.after k).edit? (stream text (m.readsIn k)) cell

/-! ### One step -/

/-- The three ways in which a step treats the tape. -/
inductive Treats (m : Machine) (t : Tape) : Prop where
  | keeps (hstretches : m.stretches = false)
    (hedit : m.current?.bind (Instruction.edit? m.input.next.1) = none)
    (hcells : t.cells = m.tape.cells) (hhead : t.head ≤ m.tape.head)
  | moves (hstretches : m.stretches = true)
    (hedit : m.current?.bind (Instruction.edit? m.input.next.1) = none)
    (ht : t = m.tape.moveRight)
  | edits {e : Edit} (hstretches : m.stretches = true)
    (hedit : m.current?.bind (Instruction.edit? m.input.next.1) = some e)
    (ht : t = m.tape.write (e.apply m.tape.value))

variable {m : Machine} {s : Stepped} {t : Tape} {text : String}

theorem Effect.treats (h : m.Effect s) : m.Treats s.machine.tape := by
  have hstretches {i : Instruction} (hi : m.code[m.ip]? = some i) : m.stretches = i.stretches := by
    rw [stretches, current?, hi, Option.any_some]
  have hedit {i : Instruction} (hi : m.code[m.ip]? = some i) (b : UInt8) :
      m.current?.bind (Instruction.edit? b) = i.edit? b := by
    rw [current?, hi, Option.bind_some]
  have hkeeps {i : Instruction} (hi : m.code[m.ip]? = some i) (hs : i.stretches = false)
      (he : i.edit? m.input.next.1 = none) : m.Treats m.tape :=
    .keeps ((hstretches hi).trans hs) ((hedit hi _).trans he) rfl (Nat.le_refl _)
  cases h with
  | rest hi =>
    refine .keeps ?_ ?_ rfl (Nat.le_refl _)
    · rw [stretches, current?, hi, Option.any_none]
    · rw [current?, hi, Option.bind_none]
  | right hi => exact .moves (hstretches hi) (hedit hi _) rfl
  | left hi ht =>
    obtain ⟨hcells, hhead⟩ := Tape.moveLeft?_eq_some ht
    exact .keeps (hstretches hi) (hedit hi _) hcells (Nat.le_of_succ_le hhead.ge)
  | increment hi => exact .edits (hstretches hi) (hedit hi _) rfl
  | decrement hi => exact .edits (hstretches hi) (hedit hi _) rfl
  | input hi => exact .edits (hstretches hi) (hedit hi _) rfl
  | leftFails hi => exact hkeeps hi rfl rfl
  | output hi => exact hkeeps hi rfl rfl
  | outputFails hi => exact hkeeps hi rfl rfl
  | enter hi => exact hkeeps hi rfl rfl
  | leave hi => exact hkeeps hi rfl rfl
  | jump hi hv =>
    exact hkeeps hi (Instruction.stretches_of_jump? hv) (Instruction.edit?_of_jump? hv)
  | jumpFails hi hv =>
    exact hkeeps hi (Instruction.stretches_of_jump? hv) (Instruction.edit?_of_jump? hv)

/-- Only a step that stretches changes the size of the row. -/
theorem Treats.size (h : m.Treats t) : t.cells.size =
    if m.stretches then max m.tape.cells.size (t.head + 1) else m.tape.cells.size := by
  cases h with
  | keeps hstretches _ hcells _ => rw [hstretches, hcells]; rfl
  | moves hstretches _ ht =>
    rw [if_pos hstretches, ht, Tape.size_moveRight, Tape.moveRight_head, Nat.max_comm]
  | edits hstretches _ ht =>
    rw [if_pos hstretches, ht, Tape.size_write, Tape.write_head, Nat.max_comm]

/-- A step leaves all bytes alone but the one under the head. -/
theorem Treats.byteAt (h : m.Treats t) (cell : Nat) : t.byteAt cell =
    (m.edit? m.input.next.1 cell).toList.foldl Edit.apply (m.tape.byteAt cell) := by
  cases h with
  | keeps _ hedit hcells _ =>
    rw [edit?, hedit, ite_self, Tape.byteAt, hcells]
    rfl
  | moves _ hedit ht =>
    rw [edit?, hedit, ite_self, ht, Tape.byteAt_moveRight]
    rfl
  | edits _ hedit ht =>
    rw [edit?, hedit, ht, Tape.byteAt_write, Tape.value_eq_byteAt]
    by_cases hcell : m.tape.head = cell
    · rw [if_pos hcell, if_pos hcell.symm, hcell]
      rfl
    · rw [if_neg hcell, if_neg (Ne.symm hcell)]
      rfl

/-- A step takes the head at most one cell further. -/
theorem Treats.head_le (h : m.Treats t) : t.head ≤ m.tape.head + 1 := by
  cases h with
  | keeps _ _ _ hhead => exact Nat.le_succ_of_le hhead
  | moves _ _ ht => rw [ht, Tape.moveRight_head]
  | edits _ _ ht =>
    rw [ht, Tape.write_head]
    exact Nat.le_succ _

/-! ### All steps -/

theorem step_treats (m : Machine) : m.Treats m.step.machine.tape :=
  m.step_effect.treats

theorem size_after (m : Machine) (n : Nat) : (m.after n).tape.cells.size =
    max m.tape.cells.size ((Finset.range n).sup fun k =>
      if (m.after k).stretches then (m.after (k + 1)).tape.head + 1 else 0) := by
  induction n with
  | zero => exact (Nat.max_zero _).symm
  | succ n ih =>
    rw [after_succ, (m.after n).step_treats.size, ih, Finset.range_add_one, Finset.sup_insert,
      after_succ]
    split <;> omega

/-- The head and the size of the row are bounded by the number of steps. -/
structure Within (m : Machine) (size : Nat) : Prop where
  head : m.tape.head ≤ m.steps
  cells : m.tape.cells.size ≤ max size (m.steps + 1)

theorem Within.step {size : Nat} (h : m.Within size) : m.step.machine.Within size := by
  cases hrest : m.halted with
  | true => rwa [step_of_halted hrest]
  | false =>
    obtain ⟨hhead, hcells⟩ := h
    have hsteps := m.step_effect.steps hrest
    have hnext := m.step_treats.head_le
    constructor
    · omega
    · rw [m.step_treats.size]
      split <;> omega

theorem Within.after {size : Nat} (h : m.Within size) (n : Nat) : (m.after n).Within size := by
  induction n generalizing m with
  | zero => exact h
  | succ n ih => exact ih h.step

theorem within_load (code : Array Instruction) (cells : Array UInt8) (input : String) :
    (load code { cells } input).Within cells.size where
  head := Nat.le_refl 0
  cells := Nat.le_max_left _ _

theorem edits_succ (m : Machine) (text : String) (cell n : Nat) :
    m.edits text cell (n + 1) = m.edits text cell n ++
      ((m.after n).edit? (stream text (m.readsIn n)) cell).toList :=
  filterMap_range_succ _ n

/-- A byte is what the steps on it have made of it. -/
theorem byteAt_after (h : m.input = .afterReads text 0) (cell n : Nat) :
    (m.after n).tape.byteAt cell =
      (m.edits text cell n).foldl Edit.apply (m.tape.byteAt cell) := by
  induction n with
  | zero => rfl
  | succ n ih =>
    have hread : (m.after n).input.next.1 = stream text (m.readsIn n) := by
      rw [input_after h, Feed.next_afterReads]
    rw [after_succ, (m.after n).step_treats.byteAt, hread, ih, edits_succ, List.foldl_append]

/-- A step that changes the size of the row is one that stretches it, and it does not fail. -/
theorem grows_only_by_stretching
    (h : m.step.machine.tape.cells.size ≠ m.tape.cells.size) :
    m.stretches = true ∧ m.step.fault? = none := by
  constructor
  · by_contra hkept
    rw [m.step_treats.size, if_neg hkept] at h
    exact h rfl
  · by_contra hfault
    obtain ⟨f, hf⟩ := Option.ne_none_iff_exists'.mp hfault
    rw [m.step_effect.machine_of_fault hf] at h
    exact h rfl

end Machine

open Machine in
/-- The tape accounts for the steps that were made, whatever the code, failing steps included. The
row reaches as far as it did at the start, or as far as the head came with a step that moves to the
right, changes a cell or reads, whichever is further. It never shrinks, only such a step makes it
longer, and only if it succeeds; it is never longer than the number of steps and one, unless it was
so from the start. Each byte is the one at the start, changed by the steps that were made while the
head stood on it, in their order: by one up or down, or to the byte that is read. -/
theorem tape_accounts_for_steps (code : Array Instruction) (cells : Array UInt8) (input : String)
    (n : Nat) :
    let m := load code { cells } input
    (m.after n).tape.cells.size = max cells.size ((Finset.range n).sup fun k =>
      if (m.after k).stretches then (m.after (k + 1)).tape.head + 1 else 0) ∧
    (m.after n).tape.cells.size ≤ (m.after (n + 1)).tape.cells.size ∧
    ((m.after (n + 1)).tape.cells.size ≠ (m.after n).tape.cells.size →
      (m.after n).stretches = true ∧ (m.after n).step.fault? = none) ∧
    (m.after n).tape.cells.size ≤ max cells.size ((m.after n).steps + 1) ∧
    ∀ cell, (m.after n).tape.byteAt cell =
      (m.edits input cell n).foldl Edit.apply (cells.getD cell 0) := by
  intro m
  have hinput : m.input = .afterReads input 0 := by
    simp [m, load, Feed.ofString, Feed.afterReads]
  have hwithin : (m.after n).Within cells.size := (within_load code cells input).after n
  have hsize := m.size_after n
  have hbyte (cell : Nat) := byteAt_after hinput cell n
  rw [after_succ]
  exact ⟨hsize, (step_effect _).size_le, grows_only_by_stretching, hwithin.cells, hbyte⟩

open Machine in
/-- Code that no source spells, on an empty tape. The second and the last step fail. -/
theorem tape_accounts_for_steps_past_faults :
    let m := load #[.input, .moveLeft, .moveRight, .decrement, .loopEnd 9] { cells := #[] } "A"
    ((m.after 1).step.fault? = some (.cell 1 (-1)) ∧
      (m.after 4).step.fault? = some (.jump 4 9)) ∧
    ((m.after (2 + 1)).tape.cells.size ≠ (m.after 2).tape.cells.size ∧
      (m.after 2).stretches = true ∧ (m.after 2).step.fault? = none) ∧
    (m.after 5).tape.cells.size = 2 ∧ (m.after 5).steps = 5 ∧
      (m.after 5).tape.byteAt 0 = 65 ∧ (m.after 5).tape.byteAt 1 = 255 := by
  obtain ⟨-, -, hstretches, -⟩ := tape_accounts_for_steps
    #[.input, .moveLeft, .moveRight, .decrement, .loopEnd 9] #[] "A" 2
  obtain ⟨hsize, -, -, -, hbyte⟩ := tape_accounts_for_steps
    #[.input, .moveLeft, .moveRight, .decrement, .loopEnd 9] #[] "A" 5
  dsimp only
  refine ⟨by decide, ⟨by decide, hstretches (by decide)⟩, ?size, by decide, ?first, ?second⟩
  case size =>
    rw [hsize]
    decide
  case first =>
    rw [hbyte 0]
    decide
  case second =>
    rw [hbyte 1]
    decide

end TapeMachine
