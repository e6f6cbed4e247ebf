import TapeMachine.Run

/-!
# Steps and runs

Where a machine is after a number of steps, and what a run makes of it: a run walks through steps
that succeed and ends at the first machine that rests or fails. More patience does not change a run
that has come to its end.
-/
namespace TapeMachine.Machine

variable {m : Machine} {i : Instruction} {n : Nat}

theorem halted_eq_false_iff : m.halted = false ↔ m.ip < m.code.size := by
  simp [halted]

theorem halted_iff : m.halted = true ↔ m.code.size ≤ m.ip := by
  simp [halted]

theorem halted_of_current (h : m.code[m.ip]? = some i) : m.halted = false :=
  halted_eq_false_iff.mpr (Array.getElem?_eq_some_iff.mp h).1

/-- The machine once it has taken note of an instruction and before it carries it out. -/
def advanced (m : Machine) : Machine :=
  { m with ip := m.ip + 1, steps := m.steps + 1 }

@[simp] theorem advanced_code (m : Machine) : m.advanced.code = m.code := rfl
@[simp] theorem advanced_tape (m : Machine) : m.advanced.tape = m.tape := rfl
@[simp] theorem advanced_input (m : Machine) : m.advanced.input = m.input := rfl
@[simp] theorem advanced_output (m : Machine) : m.advanced.output = m.output := rfl
@[simp] theorem advanced_ip (m : Machine) : m.advanced.ip = m.ip + 1 := rfl
@[simp] theorem advanced_steps (m : Machine) : m.advanced.steps = m.steps + 1 := rfl

theorem step_of_current (h : m.code[m.ip]? = some i) : m.step = m.advanced.execute m.ip i := by
  rw [step, current?, h]
  rfl

theorem step_of_halted (h : m.halted = true) : m.step = { machine := m } := by
  rw [step, current?, Array.getElem?_eq_none (halted_iff.mp h)]

theorem step_loopStart_of_zero {target : Nat} (hi : m.code[m.ip]? = some (.loopStart target))
    (hv : m.tape.value = 0) : m.step = m.advanced.jump m.ip target := by
  rw [step_of_current hi]
  exact if_pos hv

theorem step_loopStart_of_ne {target : Nat} (hi : m.code[m.ip]? = some (.loopStart target))
    (hv : m.tape.value ≠ 0) : m.step = { machine := m.advanced } := by
  rw [step_of_current hi]
  exact if_neg hv

theorem step_loopEnd_of_zero {target : Nat} (hi : m.code[m.ip]? = some (.loopEnd target))
    (hv : m.tape.value = 0) : m.step = { machine := m.advanced } := by
  rw [step_of_current hi]
  exact if_pos hv

theorem step_loopEnd_of_ne {target : Nat} (hi : m.code[m.ip]? = some (.loopEnd target))
    (hv : m.tape.value ≠ 0) : m.step = m.advanced.jump m.ip target := by
  rw [step_of_current hi]
  exact if_neg hv

/-- A jump within the code, or to its end, is taken. -/
theorem jump_of_le {origin target : Nat} (h : target ≤ m.code.size) :
    m.jump origin target = { machine := { m with ip := target } } :=
  if_pos h

/-- The machine after so many steps, faulty ones included. -/
def after (m : Machine) : Nat → Machine
  | 0 => m
  | n + 1 => m.step.machine.after n

theorem after_add (m : Machine) (n k : Nat) : m.after (n + k) = (m.after n).after k := by
  induction n generalizing m with
  | zero => rw [Nat.zero_add, after]
  | succ n ih => rw [Nat.succ_add, after, after, ih]

theorem after_succ (m : Machine) (n : Nat) : m.after (n + 1) = (m.after n).step.machine := by
  rw [after_add]
  rfl

/-- What is gathered from steps, in their order, grows by what one more step gives. -/
theorem filterMap_range_succ {α : Type} (gives : Nat → Option α) (n : Nat) :
    (List.range (n + 1)).filterMap gives = (List.range n).filterMap gives ++ (gives n).toList := by
  rw [List.range_succ, List.filterMap_append, List.filterMap_cons]
  cases gives n <;> rfl

/-- None of the next `n` steps fails, and none of them finds the machine at rest. -/
def LiveFor (n : Nat) (m : Machine) : Prop :=
  ∀ k < n, (m.after k).halted = false ∧ (m.after k).step.fault? = none

theorem liveFor_zero (m : Machine) : LiveFor 0 m :=
  fun _ hk => absurd hk (Nat.not_lt_zero _)

theorem liveFor_succ_iff : LiveFor (n + 1) m ↔
    (m.halted = false ∧ m.step.fault? = none) ∧ LiveFor n m.step.machine := by
  constructor
  · intro h
    exact ⟨h 0 (Nat.zero_lt_succ n), fun k hk => h (k + 1) (Nat.succ_lt_succ hk)⟩
  · rintro ⟨hfirst, hrest⟩ k hk
    cases k with
    | zero => exact hfirst
    | succ k => exact hrest k (Nat.lt_of_succ_lt_succ hk)

theorem liveFor_one (hrest : m.halted = false) (hfault : m.step.fault? = none) : LiveFor 1 m :=
  liveFor_succ_iff.mpr ⟨⟨hrest, hfault⟩, liveFor_zero _⟩

theorem LiveFor.add {k : Nat} (h : LiveFor n m) (h' : LiveFor k (m.after n)) :
    LiveFor (n + k) m := by
  intro j hj
  rcases Nat.lt_or_ge j n with hlt | hge
  · exact h j hlt
  · obtain ⟨d, rfl⟩ := Nat.exists_eq_add_of_le hge
    rw [after_add]
    exact h' d (by omega)

/-- On a cell that is not zero, a closing bracket that leads to itself is run for ever. -/
theorem liveFor_of_self_jump (hi : m.code[m.ip]? = some (.loopEnd m.ip)) (hv : m.tape.value ≠ 0)
    (n : Nat) : LiveFor n m := by
  induction n generalizing m with
  | zero => exact liveFor_zero m
  | succ n ih =>
    have hrest := halted_of_current hi
    have htarget : m.ip ≤ m.advanced.code.size := Nat.le_of_lt (halted_eq_false_iff.mp hrest)
    have hstep : m.step = { machine := { m.advanced with ip := m.ip } } := by
      rw [step_loopEnd_of_ne hi hv, jump_of_le htarget]
    rw [liveFor_succ_iff, hstep]
    exact ⟨⟨hrest, rfl⟩, ih hi hv⟩

theorem run_of_halted (h : m.halted = true) (n : Nat) : m.run (n + 1) = ⟨.halted, m⟩ := by
  rw [run, h]
  rfl

theorem run_of_clean (hrest : m.halted = false) (hfault : m.step.fault? = none) (n : Nat) :
    m.run (n + 1) = m.step.machine.run n := by
  rw [run, hrest]
  rcases hstep : m.step with ⟨m', f⟩
  rw [hstep] at hfault
  obtain rfl := hfault
  rfl

theorem run_of_fault {f : Fault} (hrest : m.halted = false) (hfault : m.step.fault? = some f)
    (n : Nat) : m.run (n + 1) = ⟨.failed f, m.step.machine⟩ := by
  rw [run, hrest]
  rcases hstep : m.step with ⟨m', f'⟩
  rw [hstep] at hfault
  obtain rfl := hfault
  rfl

/-- A run goes through all steps that succeed. -/
theorem LiveFor.run_add (h : LiveFor n m) (k : Nat) : m.run (n + k) = (m.after n).run k := by
  induction n generalizing m with
  | zero => rw [Nat.zero_add, after]
  | succ n ih =>
    obtain ⟨⟨hrest, hfault⟩, hnext⟩ := liveFor_succ_iff.mp h
    rw [Nat.succ_add, run_of_clean hrest hfault, ih hnext, after]

theorem LiveFor.run_unfinished {k : Nat} (h : LiveFor n m) (hk : k ≤ n) :
    (m.run k).ending = .unfinished := by
  have hlive : LiveFor k m := fun j hj => h j (Nat.lt_of_lt_of_le hj hk)
  have hrun := hlive.run_add 0
  rw [Nat.add_zero] at hrun
  rw [hrun, run]

/-- A run that is unfinished has gone through steps that all succeeded. -/
theorem liveFor_of_run_unfinished (h : (m.run n).ending = .unfinished) : LiveFor n m := by
  induction n generalizing m with
  | zero => exact liveFor_zero m
  | succ n ih =>
    cases hrest : m.halted with
    | true =>
      rw [run_of_halted hrest] at h
      contradiction
    | false =>
      cases hfault : m.step.fault? with
      | none =>
        rw [run_of_clean hrest hfault] at h
        exact liveFor_succ_iff.mpr ⟨⟨hrest, hfault⟩, ih h⟩
      | some f =>
        rw [run_of_fault hrest hfault] at h
        contradiction

theorem run_add_of_finished (h : (m.run n).ending ≠ .unfinished) (k : Nat) :
    m.run (n + k) = m.run n := by
  induction n generalizing m with
  | zero => exact absurd rfl h
  | succ n ih =>
    rw [Nat.succ_add]
    cases hrest : m.halted with
    | true => rw [run_of_halted hrest, run_of_halted hrest]
    | false =>
      cases hfault : m.step.fault? with
      | none =>
        rw [run_of_clean hrest hfault] at h ⊢
        rw [run_of_clean hrest hfault, ih h]
      | some f => rw [run_of_fault hrest hfault, run_of_fault hrest hfault]

/-- Two runs that have come to an end agree, whatever their patience. -/
theorem run_eq_of_finished {k : Nat} (hn : (m.run n).ending ≠ .unfinished)
    (hk : (m.run k).ending ≠ .unfinished) : m.run n = m.run k := by
  rw [← run_add_of_finished hn k, Nat.add_comm, run_add_of_finished hk n]

end TapeMachine.Machine
