import TapeMachine.Proofs.Execution.Budget
import TapeMachine.Proofs.Execution.Safety
import TapeMachine.Proofs.Syntax.Composition

/-!
# Programs in sequence

Code that stands somewhere in other code, with its jumps moved to where it stands, does there what
it does on its own, as long as it does not run off its end. So the program of two sources, one after
the other, is the first program and then the second on what the first has left.
-/
namespace TapeMachine

/-- The fault of an instruction that stands `n` places further on. -/
def Fault.shift (n : Nat) : Fault → Fault
  | cell ip pointer => .cell (ip + n) pointer
  | jump ip target => .jump (ip + n) (target + n)

theorem Instruction.shift_zero (i : Instruction) : i.shift 0 = i := by
  cases i <;> rfl

theorem Fault.shift_zero (f : Fault) : f.shift 0 = f := by
  cases f <;> rfl

/-- The code is found in `whole` from index `n` on, with its jumps moved on as far. -/
structure Located (code whole : Array Instruction) (n : Nat) : Prop where
  found : ∀ i : Nat, ∀ instruction, code[i]? = some instruction →
    whole[i + n]? = some (instruction.shift n)
  fits : code.size + n ≤ whole.size

theorem located_left (code rest : Array Instruction) : Located code (code ++ rest) 0 where
  found i instruction hi := by
    rw [Nat.add_zero, Array.getElem?_append_left (Array.getElem?_eq_some_iff.mp hi).1, hi,
      Instruction.shift_zero]
  fits := by simp

theorem located_right (before code : Array Instruction) :
    Located code (before ++ code.map (Instruction.shift before.size)) before.size where
  found i instruction hi := by
    rw [Array.getElem?_append_right (Nat.le_add_left _ _), Nat.add_sub_cancel, Array.getElem?_map,
      hi]
    rfl
  fits := by simp [Nat.add_comm]

/-- The machine where its code stands in other code. -/
def Machine.placedIn (m : Machine) (whole : Array Instruction) (n : Nat) : Machine :=
  { m with code := whole, ip := m.ip + n }

/-- What a step has come to, where the code stands in other code. -/
def Stepped.placedIn (s : Stepped) (whole : Array Instruction) (n : Nat) : Stepped where
  machine := s.machine.placedIn whole n
  fault? := s.fault?.map (Fault.shift n)

namespace Machine

variable {m : Machine} {whole : Array Instruction} {n k : Nat}

@[simp] theorem placedIn_code (m : Machine) (whole : Array Instruction) (n : Nat) :
    (m.placedIn whole n).code = whole := rfl
@[simp] theorem placedIn_tape (m : Machine) (whole : Array Instruction) (n : Nat) :
    (m.placedIn whole n).tape = m.tape := rfl

theorem advanced_placedIn (m : Machine) (whole : Array Instruction) (n : Nat) :
    (m.placedIn whole n).advanced = m.advanced.placedIn whole n := by
  have hip : m.ip + n + 1 = m.ip + 1 + n := Nat.add_right_comm _ _ _
  simp only [advanced, placedIn, hip]

/-- A jump within the code is a jump within the whole. -/
theorem jump_placedIn {target : Nat} (hfits : m.code.size + n ≤ whole.size)
    (ht : target ≤ m.code.size) (origin : Nat) :
    (m.placedIn whole n).jump (origin + n) (target + n) =
      (m.jump origin target).placedIn whole n := by
  have htarget : target + n ≤ (m.placedIn whole n).code.size := by
    rw [placedIn_code]
    omega
  rw [jump, jump, if_pos htarget, if_pos ht]
  rfl

theorem execute_placedIn {i : Instruction} (hfits : m.code.size + n ≤ whole.size)
    (hland : ∀ target, i = .loopStart target ∨ i = .loopEnd target → target ≤ m.code.size)
    (origin : Nat) : (m.placedIn whole n).execute (origin + n) (i.shift n) =
      (m.execute origin i).placedIn whole n := by
  cases i with
  | moveRight => rfl
  | moveLeft =>
    simp only [execute, Instruction.shift, placedIn_tape]
    cases m.tape.moveLeft? <;> rfl
  | increment => rfl
  | decrement => rfl
  | output =>
    simp only [execute, Instruction.shift, placedIn_tape]
    cases m.tape.cell? <;> rfl
  | input => rfl
  | loopStart target =>
    have hjump := jump_placedIn hfits (hland target (.inl rfl)) origin
    simp only [execute, Instruction.shift, placedIn_tape, hjump]
    split <;> rfl
  | loopEnd target =>
    have hjump := jump_placedIn hfits (hland target (.inr rfl)) origin
    simp only [execute, Instruction.shift, placedIn_tape, hjump]
    split <;> rfl

/-- A machine that rests on its own rests in the whole if its code is the end of it. -/
theorem halted_placedIn (hloc : Located m.code whole n)
    (hrest : m.halted = true → m.code.size + n = whole.size) :
    (m.placedIn whole n).halted = m.halted := by
  have hfits := hloc.fits
  cases hm : m.halted with
  | true =>
    have hend := hrest hm
    have hle := halted_iff.mp hm
    apply halted_iff.mpr
    simp only [placedIn]
    omega
  | false =>
    have hlt := halted_eq_false_iff.mp hm
    apply halted_eq_false_iff.mpr
    simp only [placedIn]
    omega

theorem step_placedIn (hloc : Located m.code whole n) (hland : Lands m.code)
    (hrest : m.halted = true → m.code.size + n = whole.size) :
    (m.placedIn whole n).step = m.step.placedIn whole n := by
  cases hi : m.code[m.ip]? with
  | none =>
    have hm : m.halted = true := halted_iff.mpr (Array.getElem?_eq_none_iff.mp hi)
    have hm' : (m.placedIn whole n).halted = true := (halted_placedIn hloc hrest).trans hm
    rw [step_of_halted hm, step_of_halted hm']
    rfl
  | some i =>
    have hi' : (m.placedIn whole n).code[(m.placedIn whole n).ip]? = some (i.shift n) :=
      hloc.found m.ip i hi
    have hlands (target : Nat) (h : i = .loopStart target ∨ i = .loopEnd target) :
        target ≤ m.advanced.code.size := by
      rcases h with rfl | rfl
      · exact hland m.ip target (.inl hi)
      · exact hland m.ip target (.inr hi)
    rw [step_of_current hi, step_of_current hi', advanced_placedIn]
    exact execute_placedIn (m := m.advanced) hloc.fits hlands m.ip

/-- By induction on the steps: a machine and the same machine in the whole stay side by side. -/
theorem after_placedIn (hloc : Located m.code whole n) (hland : Lands m.code)
    (hrest : ∀ j < k, (m.after j).halted = true → m.code.size + n = whole.size) :
    (m.placedIn whole n).after k = (m.after k).placedIn whole n := by
  induction k with
  | zero => rfl
  | succ k ih =>
    have hearlier (j : Nat) (hj : j < k) := hrest j (Nat.lt_succ_of_lt hj)
    have hlast := hrest k (Nat.lt_succ_self k)
    rw [← code_after m k] at hloc hland hlast
    rw [after_succ, ih hearlier, step_placedIn hloc hland hlast, after_succ]
    rfl

theorem LiveFor.after_placedIn (h : m.LiveFor k) (hloc : Located m.code whole n)
    (hland : Lands m.code) : (m.placedIn whole n).after k = (m.after k).placedIn whole n := by
  apply Machine.after_placedIn hloc hland
  intro j hj hhalted
  rw [(h j hj).1] at hhalted
  contradiction

/-- A step that is made on its own is made in the whole. -/
theorem LiveFor.step_placedIn (h : m.LiveFor k) (hloc : Located m.code whole n)
    (hland : Lands m.code) (hrest : (m.after k).halted = false) :
    ((m.placedIn whole n).after k).halted = false ∧
      ((m.placedIn whole n).after k).step = (m.after k).step.placedIn whole n := by
  have hnever : (m.after k).halted = true → (m.after k).code.size + n = whole.size := by
    simp [hrest]
  rw [h.after_placedIn hloc hland]
  rw [← code_after m k] at hloc hland
  exact ⟨(halted_placedIn hloc hnever).trans hrest, Machine.step_placedIn hloc hland hnever⟩

theorem LiveFor.placedIn (h : m.LiveFor k) (hloc : Located m.code whole n) (hland : Lands m.code) :
    (m.placedIn whole n).LiveFor k := by
  intro j hj
  obtain ⟨hrest, hfault⟩ := h j hj
  have hlive : m.LiveFor j := fun i hi => h i (Nat.lt_trans hi hj)
  obtain ⟨hrest', hstep⟩ := hlive.step_placedIn hloc hland hrest
  refine ⟨hrest', ?_⟩
  rw [hstep, Stepped.placedIn, hfault]
  rfl

/-- At the end of the whole, code runs for ever as it does on its own. -/
theorem runs_at_end (hloc : Located m.code whole n) (hland : Lands m.code)
    (hend : m.code.size + n = whole.size) (k : Nat) :
    (m.placedIn whole n).after k = (m.after k).placedIn whole n ∧
      ((m.placedIn whole n).after k).halted = (m.after k).halted ∧
      ((m.placedIn whole n).after k).step = (m.after k).step.placedIn whole n := by
  have hafter := after_placedIn (k := k) hloc hland fun _ _ _ => hend
  rw [hafter]
  rw [← code_after m k] at hloc hland hend
  exact ⟨rfl, halted_placedIn hloc fun _ => hend, step_placedIn hloc hland fun _ => hend⟩

theorem Sound.ip_of_halted {code : Array Instruction} {cells : Array UInt8}
    (h : m.Sound code cells) (hm : m.halted = true) : m.ip = code.size := by
  have hle := h.ip_le
  have hge := halted_iff.mp hm
  rw [h.code] at hle hge
  exact Nat.le_antisymm hle hge

end Machine

open Machine in
/-- The program of two sources, one after the other, runs as its parts in sequence. If the first
part comes to rest, the whole is then in the same state, in front of the second part, and each
further step of it is a step of the second part on what the first has left, with its indices moved
on by the number of instructions of the first. If the first part fails or runs for ever, so does the
whole. -/
theorem concatenation_runs_in_sequence {a b : String} {p q : Program}
    (ha : Program.parse a = .ok p) (hb : Program.parse b = .ok q) :
    ∃ both, Program.parse (a ++ b) = .ok both ∧ ∀ (cells : Array UInt8) (input : String),
      let first := load p.code { cells } input
      let whole := load both.code { cells } input
      (∀ k, first.LiveFor k → (first.after k).halted = true →
        whole.LiveFor k ∧ whole.after k = { first.after k with code := both.code } ∧
        (whole.after k).ip = p.code.size ∧
        let second := { first.after k with code := q.code, ip := 0 }
        ∀ j, whole.after (k + j) = { second.after j with
            code := both.code, ip := (second.after j).ip + p.code.size } ∧
          (whole.after (k + j)).halted = (second.after j).halted ∧
          (whole.after (k + j)).step.fault? =
            (second.after j).step.fault?.map (Fault.shift p.code.size)) ∧
      (∀ k f, first.LiveFor k → (first.after k).step.fault? = some f →
        whole.LiveFor k ∧ (whole.after k).step.fault? = some f ∧
        whole.after (k + 1) = { first.after (k + 1) with code := both.code }) ∧
      ((∀ n, (first.run n).ending = .unfinished) → ∀ n, (whole.run n).ending = .unfinished) := by
  refine ⟨_, parse_append ha hb, fun cells input => ?_⟩
  intro first whole
  have hland : Lands first.code := lands_of_parse ha
  have hleft : Located first.code whole.code 0 := located_left _ _
  have hright : Located q.code whole.code p.code.size := located_right _ _
  refine ⟨?halts, ?fails, ?never⟩
  case halts =>
    intro k hlive hhalted
    have hafter : whole.after k = (first.after k).placedIn whole.code 0 :=
      hlive.after_placedIn hleft hland
    have hip : (first.after k).ip = p.code.size :=
      ((sound_load p.code cells input).after k).ip_of_halted hhalted
    refine ⟨hlive.placedIn hleft hland, hafter, ?_, ?_⟩
    · rw [hafter]
      exact hip
    · intro second j
      have hend : second.code.size + p.code.size = whole.code.size := by
        simp [whole, second, load, Nat.add_comm]
      have hseam : whole.after k = second.placedIn whole.code p.code.size := by
        rw [hafter]
        simp only [placedIn, second, hip, Nat.add_zero, Nat.zero_add]
      obtain ⟨hsecond, hrest, hstep⟩ := runs_at_end hright (lands_of_parse hb) hend j
      rw [after_add, hseam]
      refine ⟨hsecond, hrest, ?_⟩
      rw [hstep]
      rfl
  case fails =>
    intro k f hlive hfault
    obtain ⟨-, hstep⟩ := hlive.step_placedIn hleft hland (halted_of_fault hfault)
    have hstep' : (whole.after k).step = (first.after k).step.placedIn whole.code 0 := hstep
    refine ⟨hlive.placedIn hleft hland, ?_, ?_⟩
    · rw [hstep', Stepped.placedIn, hfault, Option.map_some, Fault.shift_zero]
    · rw [after_succ, after_succ, hstep']
      rfl
  case never =>
    intro hnever n
    have hlive : first.LiveFor n := liveFor_of_run_unfinished (hnever n)
    exact (hlive.placedIn hleft hland).run_unfinished (Nat.le_refl n)

open Machine in
/-- A loop ends at the seam and the next one starts there, and the fault behind both is reported
with its index in the whole; a first part that fails; and a first part that runs for ever. -/
theorem concatenation_runs_in_sequence_past_the_seam :
    (∃ both, Program.parse ("+[-]" ++ "[.]<") = .ok both ∧
      let whole := load both.code { cells := #[] } ""
      (whole.after 4).ip = 4 ∧ (whole.after (4 + 1)).step.fault? = some (.cell 7 (-1))) ∧
    (∃ both, Program.parse ("+<" ++ "-") = .ok both ∧
      let whole := load both.code { cells := #[] } ""
      whole.LiveFor 1 ∧ (whole.after 1).step.fault? = some (.cell 1 (-1))) ∧
    ∃ both, Program.parse ("+[]" ++ "<") = .ok both ∧
      ∀ n, ((load both.code { cells := #[] } "").run n).ending = .unfinished := by
  have hclear : Program.parse "+[-]" = .ok ⟨#[.increment, .loopStart 4, .decrement, .loopEnd 2],
      #[0, 1, 2, 3]⟩ := by rfl
  have hprint : Program.parse "[.]<" = .ok ⟨#[.loopStart 3, .output, .loopEnd 1, .moveLeft],
      #[0, 1, 2, 3]⟩ := by rfl
  have hfaulty : Program.parse "+<" = .ok ⟨#[.increment, .moveLeft], #[0, 1]⟩ := by rfl
  have hminus : Program.parse "-" = .ok ⟨#[.decrement], #[0]⟩ := by rfl
  have hloop : Program.parse "+[]" = .ok ⟨#[.increment, .loopStart 3, .loopEnd 2],
      #[0, 1, 2]⟩ := by rfl
  have hleft : Program.parse "<" = .ok ⟨#[.moveLeft], #[0]⟩ := by rfl
  let looping := load #[.increment, .loopStart 3, .loopEnd 2] { cells := #[] } ""
  have hstart : looping.LiveFor 2 := by unfold LiveFor; decide
  have hlive (n : Nat) : looping.LiveFor (2 + n) :=
    hstart.add (liveFor_of_self_jump (by rfl) (by decide) n)
  have hnever (n : Nat) : (looping.run n).ending = .unfinished :=
    (hlive n).run_unfinished (Nat.le_add_left n 2)
  obtain ⟨both, hboth, hruns⟩ := concatenation_runs_in_sequence hclear hprint
  obtain ⟨-, -, hip, hsecond⟩ := (hruns #[] "").1 4 (by unfold LiveFor; decide) (by rfl)
  obtain ⟨both', hboth', hfails⟩ := concatenation_runs_in_sequence hfaulty hminus
  obtain ⟨hlive', hfault', -⟩ :=
    (hfails #[] "").2.1 1 (.cell 1 (-1)) (by unfold LiveFor; decide) (by rfl)
  obtain ⟨both'', hboth'', hforever⟩ := concatenation_runs_in_sequence hloop hleft
  refine ⟨⟨both, hboth, hip, ?_⟩, ⟨both', hboth', hlive', hfault'⟩, both'', hboth'', ?_⟩
  · exact (hsecond 1).2.2.trans (by rfl)
  · exact (hforever #[] "").2.2 hnever

end TapeMachine
