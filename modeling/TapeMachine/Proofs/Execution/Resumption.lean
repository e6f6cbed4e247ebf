import Mathlib.Data.Nat.Count
import TapeMachine.Proofs.Execution.Budget
import TapeMachine.Proofs.Syntax.Comments

/-!
# Going on behind a fault

A step that fails only moves the machine on to the next instruction. So code without brackets is
walked through from its first instruction to its last, however many of them fail, if each run that
ends in a fault is followed by another one. What is left is what the code leaves that never had the
instructions that failed.
-/
namespace TapeMachine

/-- No instruction of the code jumps. -/
def Jumpless (code : Array Instruction) : Prop :=
  ∀ i ∈ code, ∃ o : Op, o.instruction = i

theorem exists_op_of_toChar {i : Instruction} (ho : i.toChar ≠ '[') (hc : i.toChar ≠ ']') :
    ∃ o : Op, o.instruction = i := by
  cases i with
  | moveRight => exact ⟨.moveRight, rfl⟩
  | moveLeft => exact ⟨.moveLeft, rfl⟩
  | increment => exact ⟨.increment, rfl⟩
  | decrement => exact ⟨.decrement, rfl⟩
  | output => exact ⟨.output, rfl⟩
  | input => exact ⟨.input, rfl⟩
  | loopStart => exact absurd rfl ho
  | loopEnd => exact absurd rfl hc

theorem jumpless_of_parse {source : String} {p : Program} (h : Program.parse source = .ok p)
    (ho : '[' ∉ source.toList) (hc : ']' ∉ source.toList) : Jumpless p.code := by
  intro i hi
  have hchar : i.toChar ∈ instructionChars source.toList := by
    rw [← spelling_of_parse h]
    exact List.mem_map_of_mem (Array.mem_toList_iff.mpr hi)
  have hsource : i.toChar ∈ source.toList := (List.mem_filter.mp hchar).1
  exact exists_op_of_toChar (fun he => ho (he ▸ hsource)) (fun he => hc (he ▸ hsource))

theorem Jumpless.exists_op {code : Array Instruction} (h : Jumpless code) {k : Nat}
    (hk : k < code.size) : ∃ o : Op, code[k]? = some o.instruction := by
  obtain ⟨o, ho⟩ := h code[k] (Array.getElem_mem hk)
  exact ⟨o, by rw [ho, Array.getElem?_eq_getElem hk]⟩

namespace Machine

/-- Runs the machine, and again after each run that ends in a fault, with at most so many calls. -/
def runAgain (patience : Nat) : Nat → Machine → Run Fault
  | 0, m => ⟨.unfinished, m⟩
  | calls + 1, m =>
    match m.run patience with
    | ⟨.failed _, after⟩ => runAgain patience calls after
    | r => r

/-- How many of the next `n` steps fail. -/
def failuresIn (m : Machine) (n : Nat) : Nat :=
  Nat.count (fun k => (m.after k).step.fault? ≠ none) n

/-- The first `n` instructions of the code without those that fail when each is run in its turn. -/
def kept (m : Machine) (n : Nat) : List Instruction :=
  (List.range n).filterMap fun k => if (m.after k).step.fault? = none then m.code[k]? else none

variable {m : Machine} {s : Stepped} {o : Op} {f : Fault} {n k patience : Nat}

/-! ### A step that fails -/

theorem Effect.ip_of_fault (h : m.Effect s) (hf : s.fault? = some f) : f.ip = m.ip := by
  cases h with
  | leftFails | outputFails | jumpFails =>
    obtain rfl := Option.some.inj hf
    rfl
  | _ => simp at hf

theorem ip_lt_of_fault (h : m.step.fault? = some f) : f.ip < m.code.size := by
  rw [m.step_effect.ip_of_fault h]
  exact halted_eq_false_iff.mp (halted_of_fault h)

/-! ### Code without jumps -/

theorem ip_step_of_op (hi : m.code[m.ip]? = some o.instruction) :
    m.step.machine.ip = m.ip + 1 := by
  rw [step_of_current hi]
  cases o with
  | moveLeft =>
    simp only [Op.instruction, execute]
    split <;> rfl
  | output =>
    simp only [Op.instruction, execute]
    split <;> rfl
  | moveRight | increment | decrement | input => rfl

/-- Each step goes on to the next instruction, whether it fails or not. -/
theorem ip_after (hcode : Jumpless m.code) (hk : m.ip + k ≤ m.code.size) :
    (m.after k).ip = m.ip + k := by
  induction k with
  | zero => rfl
  | succ k ih =>
    have hip := ih (by omega)
    obtain ⟨o, ho⟩ := hcode.exists_op (k := m.ip + k) (by omega)
    have hi : (m.after k).code[(m.after k).ip]? = some o.instruction := by
      rw [code_after, hip, ho]
    rw [after_succ, ip_step_of_op hi, hip, Nat.add_assoc]

theorem run_finished (hcode : Jumpless m.code) (hn : m.ip + n = m.code.size)
    (hp : n < patience) : (m.run patience).ending ≠ .unfinished := by
  intro h
  have hawake := (liveFor_of_run_unfinished h n hp).1
  have hlt := halted_eq_false_iff.mp hawake
  rw [code_after, ip_after hcode hn.le] at hlt
  omega

/-! ### One run after the other -/

theorem runAgain_of_halted (h : m.halted = true) (calls : Nat) (hp : 0 < patience) :
    m.runAgain patience (calls + 1) = ⟨.halted, m⟩ := by
  obtain ⟨patience, rfl⟩ := Nat.exists_eq_add_one.mpr hp
  rw [runAgain, run_of_halted h]

/-- The run that fails at once is the next of the calls. -/
theorem runAgain_of_fault (h : m.step.fault? = some f) (calls : Nat) (hp : 0 < patience) :
    m.runAgain patience (calls + 1) = m.step.machine.runAgain patience calls := by
  obtain ⟨patience, rfl⟩ := Nat.exists_eq_add_one.mpr hp
  rw [runAgain, run_of_fault (halted_of_fault h) h]

/-- A patience that is enough for the code is enough for the code but for its first instruction. -/
theorem runAgain_of_clean (hcode : Jumpless m.code) (hn : m.ip + n = m.code.size)
    (hrest : m.halted = false) (hfault : m.step.fault? = none) (calls : Nat) (hp : n < patience) :
    m.runAgain patience (calls + 1) = m.step.machine.runAgain patience (calls + 1) := by
  have hmore : m.run patience = m.run (patience + 1) :=
    run_eq_of_finished (run_finished hcode hn hp) (run_finished hcode hn (Nat.lt_succ_of_lt hp))
  rw [runAgain, runAgain, hmore, run_of_clean hrest hfault]

theorem failuresIn_succ (m : Machine) (n : Nat) : m.failuresIn (n + 1) =
    m.step.machine.failuresIn n + if m.step.fault? ≠ none then 1 else 0 :=
  Nat.count_succ' _ n

/-- One call for each step that fails, and one more. -/
theorem runAgain_jumpless (hcode : Jumpless m.code) (hn : m.ip + n = m.code.size)
    (hp : n < patience) : m.runAgain patience (m.failuresIn n + 1) = ⟨.halted, m.after n⟩ := by
  induction n generalizing m with
  | zero => exact runAgain_of_halted (halted_iff.mpr hn.ge) _ hp
  | succ n ih =>
    have hrest : m.halted = false := halted_eq_false_iff.mpr (by omega)
    have hcode' : Jumpless m.step.machine.code := m.step_effect.code ▸ hcode
    have hip : m.step.machine.ip = m.ip + 1 := ip_after (k := 1) hcode (by omega)
    have hn' : m.step.machine.ip + n = m.step.machine.code.size := by
      rw [hip, m.step_effect.code]
      omega
    have hrun := ih hcode' hn' (Nat.lt_of_succ_lt hp)
    rw [failuresIn_succ, after, ← hrun]
    cases hfault : m.step.fault? with
    | none => exact runAgain_of_clean hcode hn hrest hfault _ hp
    | some f => exact runAgain_of_fault hfault _ (Nat.zero_lt_of_lt hp)

/-! ### Without the instructions that fail -/

/-- The machine with the same data at index `n` of other code, where it has made `n` steps. -/
def transferred (m : Machine) (code : Array Instruction) (n : Nat) : Machine :=
  { m with code := code, ip := n, steps := n }

@[simp] theorem transferred_tape (m : Machine) (code : Array Instruction) (n : Nat) :
    (m.transferred code n).tape = m.tape := rfl

theorem kept_succ (m : Machine) (n : Nat) : m.kept (n + 1) = m.kept n ++
    (if (m.after n).step.fault? = none then m.code[n]? else none).toList :=
  filterMap_range_succ _ n

theorem kept_isPrefix (m : Machine) (h : n ≤ k) : m.kept n <+: m.kept k := by
  obtain ⟨d, rfl⟩ := Nat.exists_eq_add_of_le h
  induction d with
  | zero => exact List.prefix_refl _
  | succ d ih =>
    have hlast : m.kept (n + d) <+: m.kept (n + (d + 1)) := by
      rw [← Nat.add_assoc, kept_succ]
      exact List.prefix_append _ _
    exact (ih (Nat.le_add_right n d)).trans hlast

theorem length_kept_le (m : Machine) (n : Nat) : (m.kept n).length ≤ n := by
  rw [kept]
  exact (List.length_filterMap_le _ _).trans List.length_range.le

/-- An instruction that does not fail does the same in other code. -/
theorem step_transferred {code : Array Instruction} (hi : m.code[m.ip]? = some o.instruction)
    (hn : code[n]? = some o.instruction) (hfault : m.step.fault? = none) :
    (m.transferred code n).step = { machine := m.step.machine.transferred code (n + 1) } := by
  have hn' : (m.transferred code n).code[(m.transferred code n).ip]? = some o.instruction := hn
  rw [step_of_current hi] at hfault ⊢
  rw [step_of_current hn']
  cases o with
  | moveLeft =>
    simp only [Op.instruction, execute, advanced_tape, transferred_tape] at hfault ⊢
    cases ht : m.tape.moveLeft? with
    | none => simp [ht] at hfault
    | some t => rfl
  | output =>
    simp only [Op.instruction, execute, advanced_tape, transferred_tape] at hfault ⊢
    cases hv : m.tape.cell? with
    | none => simp [hv] at hfault
    | some v => rfl
  | moveRight | increment | decrement | input => rfl

/-- The code without the failing instructions leads to the same data. -/
theorem after_kept {code : Array Instruction} (hcode : Jumpless m.code) (hip : m.ip = 0)
    (hkept : (m.kept m.code.size).toArray = code) (hn : n ≤ m.code.size) :
    LiveFor (m.kept n).length (m.transferred code 0) ∧
      (m.transferred code 0).after (m.kept n).length =
        (m.after n).transferred code (m.kept n).length := by
  induction n with
  | zero => exact ⟨liveFor_zero _, rfl⟩
  | succ n ih =>
    obtain ⟨hlive, hsame⟩ := ih (Nat.le_of_succ_le hn)
    obtain ⟨o, ho⟩ := hcode.exists_op hn
    have hi : (m.after n).code[(m.after n).ip]? = some o.instruction := by
      rw [code_after, ip_after hcode (by omega), hip, Nat.zero_add, ho]
    cases hfault : (m.after n).step.fault? with
    | some f =>
      have hgone : m.kept (n + 1) = m.kept n := by simp [kept_succ, hfault]
      rw [hgone, after_succ, (step_effect _).machine_of_fault hfault]
      exact ⟨hlive, hsame⟩
    | none =>
      have hnext : m.kept (n + 1) = m.kept n ++ [o.instruction] := by simp [kept_succ, hfault, ho]
      have hat : code[(m.kept n).length]? = some o.instruction := by
        obtain ⟨rest, hrest⟩ := m.kept_isPrefix hn
        rw [← hkept, ← hrest, hnext]
        simp
      have hstep := step_transferred hi hat hfault
      have hrest : ((m.after n).transferred code (m.kept n).length).halted = false :=
        halted_of_current hat
      have hone : LiveFor 1 ((m.after n).transferred code (m.kept n).length) :=
        liveFor_one hrest (by rw [hstep])
      rw [hnext, List.length_append, List.length_singleton]
      refine ⟨hlive.add (hsame ▸ hone), ?_⟩
      rw [after_succ, hsame, hstep, after_succ]

theorem run_kept (hcode : Jumpless m.code) (hip : m.ip = 0) (hp : m.code.size < patience) :
    (m.transferred (m.kept m.code.size).toArray 0).run patience =
      ⟨.halted, (m.after m.code.size).transferred (m.kept m.code.size).toArray
        (m.kept m.code.size).length⟩ := by
  obtain ⟨hlive, hsame⟩ := after_kept hcode hip rfl (Nat.le_refl _)
  have hlength := m.length_kept_le m.code.size
  obtain ⟨d, rfl⟩ := Nat.exists_eq_add_of_lt (Nat.lt_of_le_of_lt hlength hp)
  rw [Nat.add_assoc, hlive.run_add, hsame]
  exact run_of_halted (halted_iff.mpr List.size_toArray.le) d

end Machine

open Machine in
/-- A step that fails leaves all data alone: it is counted, the machine has moved on behind the
instruction, and the fault tells its place in the code. So on code without brackets, whatever the
tape, one run more than there are steps that fail is enough to come to the end of the code, with one
step for each instruction. The tape, the feed and the output are then what one run leaves of the code
without the instructions that fail, and that run does not fail. -/
theorem faults_are_passed_over :
    (∀ (m : Machine) (f : Fault), m.step.fault? = some f →
      m.step.machine = { m with ip := m.ip + 1, steps := m.steps + 1 } ∧
        f.ip = m.ip ∧ f.ip < m.code.size) ∧
    ∀ (source : String) (p : Program), Program.parse source = .ok p →
      '[' ∉ source.toList → ']' ∉ source.toList →
      ∀ (cells : Array UInt8) (input : String) (patience : Nat), p.code.size < patience →
        let m := load p.code { cells } input
        let m' := m.after p.code.size
        let kept := (m.kept p.code.size).toArray
        (∀ k ≤ p.code.size, (m.after k).ip = k) ∧
        m.runAgain patience (m.failuresIn p.code.size + 1) = ⟨.halted, m'⟩ ∧
        m'.steps = p.code.size ∧
        (load kept { cells } input).run patience =
          ⟨.halted, { m' with code := kept, ip := kept.size, steps := kept.size }⟩ := by
  constructor
  · intro m f hf
    exact ⟨m.step_effect.machine_of_fault hf, m.step_effect.ip_of_fault hf, ip_lt_of_fault hf⟩
  · intro source p hp ho hc cells input patience hpatience m m' kept
    have hcode : Jumpless m.code := jumpless_of_parse hp ho hc
    have hip (k : Nat) (hk : k ≤ p.code.size) : (m.after k).ip = k :=
      (ip_after hcode (by rwa [show m.ip = 0 from rfl, Nat.zero_add])).trans (Nat.zero_add k)
    have hsteps : m'.steps = p.code.size := by
      have hcount : m'.steps = 0 + p.code.size := steps_after fun k hk => by
        rw [halted_eq_false_iff, code_after, hip k hk.le]
        exact hk
      rw [hcount, Nat.zero_add]
    exact ⟨hip, runAgain_jumpless hcode (Nat.zero_add _) hpatience, hsteps,
      run_kept hcode rfl hpatience⟩

open Machine in
/-- Four of eight instructions fail on an empty tape, for both reasons that they can have. -/
theorem faults_are_passed_over_four_times :
    let code := #[.moveLeft, .output, .increment, .moveLeft, .moveRight, .output, .moveLeft, .moveLeft]
    let rest := #[.increment, .moveRight, .output, .moveLeft]
    let m := load code { cells := #[] } ""
    Program.parse "<.+<>.<<" = .ok ⟨code, #[0, 1, 2, 3, 4, 5, 6, 7]⟩ ∧
    (m.step.fault? = some (.cell 0 (-1)) ∧ m.step.machine = { m with ip := 1, steps := 1 }) ∧
    (m.failuresIn 8 = 4 ∧ m.runAgain 9 5 = ⟨.halted, m.after 8⟩ ∧ (m.after 8).steps = 8) ∧
    (load rest { cells := #[] } "").run 9 =
      ⟨.halted, { m.after 8 with code := rest, ip := 4, steps := 4 }⟩ := by
  obtain ⟨hatomic, hpassed⟩ := faults_are_passed_over
  have hparse : Program.parse "<.+<>.<<" = .ok ⟨#[.moveLeft, .output, .increment, .moveLeft,
      .moveRight, .output, .moveLeft, .moveLeft], #[0, 1, 2, 3, 4, 5, 6, 7]⟩ := by rfl
  obtain ⟨-, hagain, hsteps, hrest⟩ :=
    hpassed "<.+<>.<<" _ hparse (by decide) (by decide) #[] "" 9 (by decide)
  exact ⟨hparse, ⟨by decide, (hatomic _ (.cell 0 (-1)) (by decide)).1⟩, ⟨by decide, hagain, hsteps⟩, hrest⟩

end TapeMachine
