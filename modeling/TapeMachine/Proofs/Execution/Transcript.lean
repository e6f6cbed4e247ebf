import TapeMachine.Proofs.Execution.Budget
import TapeMachine.Proofs.Execution.Stream

/-!
# What has been printed and read

The output of a machine is what its printing steps have found under the head, one character for each
of them that succeeded, and the place of its cursor is the number of the steps that have read, as far
as the text goes. Nothing else has touched either of them, whatever calls have been made and however
they have ended.
-/
namespace TapeMachine.Machine

/-- The character that the next step prints. A step that fails prints none. -/
def printed? (m : Machine) : Option Char :=
  if m.current? = some .output ∧ m.step.fault? = none then some (Char.ofNat m.tape.value.toNat)
  else none

/-- The characters that the next `n` steps print, in their order. -/
def printedIn (m : Machine) (n : Nat) : List Char :=
  (List.range n).filterMap fun k => (m.after k).printed?

variable {m : Machine} {s : Stepped} {text : String} {n k : Nat}

/-! ### One step -/

theorem toList_outputText (m : Machine) :
    m.outputText.toList = m.output.toList.map fun b => Char.ofNat b.toNat := by
  rw [outputText, String.toList_ofList]

/-- A step that is no printing one, or fails, leaves the output as it is. -/
theorem Effect.prints (h : m.Effect s) : s.machine.output =
    if m.current? = some .output ∧ s.fault? = none then m.output.push m.tape.value
    else m.output := by
  have hother {i : Instruction} (hi : m.code[m.ip]? = some i) (hne : i ≠ .output) :
      m.current? ≠ some .output := by
    rw [current?, hi]
    exact fun he => hne (Option.some.inj he)
  cases h with
  | rest hi => simp [current?, hi]
  | output hi hv => simp [current?, hi, Tape.value, hv]
  | right hi | left hi | increment hi | decrement hi | input hi | enter hi | leave hi =>
    simp [hother hi]
  | jump hi hv => rcases Instruction.bracket_of_jump? hv with rfl | rfl <;> simp [hother hi]
  | leftFails | outputFails | jumpFails => simp

theorem outputText_step (m : Machine) :
    m.step.machine.outputText.toList = m.outputText.toList ++ m.printed?.toList := by
  rw [toList_outputText, toList_outputText, m.step_effect.prints, printed?]
  split <;> simp

/-- A step that reads writes the next byte of the feed where the head is. -/
theorem getElem?_step_of_reads (h : m.Reads) :
    m.step.machine.tape.cells[m.tape.head]? = some m.input.next.1 := by
  have hstep : m.step.machine.tape = m.tape.write m.input.next.1 := by
    rw [step_of_current h]
    rfl
  rw [hstep, ← Array.getElem?_toList, Tape.toList_write, List.getElem?_set_self]
  rw [List.length_rightpad]
  omega

theorem output_of_fault {f : Fault} (h : m.step.fault? = some f) :
    m.step.machine.output = m.output := by
  rw [m.step_effect.machine_of_fault h, advanced_output]

/-! ### All steps -/

theorem printedIn_succ (m : Machine) (n : Nat) :
    m.printedIn (n + 1) = m.printedIn n ++ (m.after n).printed?.toList :=
  filterMap_range_succ _ n

theorem outputText_after (m : Machine) (n : Nat) :
    (m.after n).outputText.toList = m.outputText.toList ++ m.printedIn n := by
  induction n with
  | zero => exact (List.append_nil _).symm
  | succ n ih =>
    rw [after_succ, outputText_step, ih, printedIn_succ, List.append_assoc]

/-- What has been printed stays. -/
theorem outputText_grows (m : Machine) (h : n ≤ k) :
    (m.after n).outputText.toList <+: (m.after k).outputText.toList := by
  obtain ⟨d, rfl⟩ := Nat.exists_eq_add_of_le h
  rw [after_add, outputText_after (m.after n)]
  exact List.prefix_append _ _

/-- Steps of a machine that rests lead nowhere, so they need not be counted. -/
theorem exists_awake (m : Machine) (n : Nat) :
    ∃ k ≤ n, m.after k = m.after n ∧ ∀ j < k, (m.after j).halted = false := by
  induction n with
  | zero => exact ⟨0, Nat.le_refl 0, rfl, fun _ hj => absurd hj (Nat.not_lt_zero _)⟩
  | succ n ih =>
    obtain ⟨k, hk, hsame, hawake⟩ := ih
    cases hrest : (m.after n).halted with
    | true =>
      refine ⟨k, Nat.le_succ_of_le hk, ?_, hawake⟩
      rw [hsame, after_succ, step_of_halted hrest]
    | false =>
      refine ⟨k + 1, Nat.succ_le_succ hk, ?_, fun j hj => ?_⟩
      · rw [after_succ, hsame, after_succ]
      · rcases Nat.lt_succ_iff_lt_or_eq.mp hj with hlt | rfl
        · exact hawake j hlt
        · rwa [hsame]

/-- The calls have brought a machine as many steps further as it has counted. -/
theorem performAll_eq_after_steps (h : m.steps = 0) (calls : List Call) :
    m.performAll calls = m.after (m.performAll calls).steps ∧
      ∀ k < (m.performAll calls).steps, (m.after k).halted = false := by
  obtain ⟨n, hn⟩ := m.performAll_eq_after calls
  obtain ⟨k, -, hsame, hawake⟩ := m.exists_awake n
  have hsteps := steps_after hawake
  rw [h, Nat.zero_add] at hsteps
  rw [hn, ← hsame, hsteps]
  exact ⟨rfl, hawake⟩

theorem performAll_append (m : Machine) (calls more : List Call) :
    m.performAll (calls ++ more) = (m.performAll calls).performAll more := by
  rw [performAll, List.foldl_append, performAll, performAll]

theorem outputText_grows_performAll (m : Machine) (calls more : List Call) :
    (m.performAll calls).outputText.toList <+:
      (m.performAll (calls ++ more)).outputText.toList := by
  obtain ⟨n, hn⟩ := (m.performAll calls).performAll_eq_after more
  have hprefix := (m.performAll calls).outputText_grows (Nat.zero_le n)
  rwa [after, ← hn, ← performAll_append] at hprefix

end TapeMachine.Machine

namespace TapeMachine

open Machine in
/-- Whatever calls are made on any code, one after the other and past all faults, the machine has
made as many steps as it counts, and none of them at rest. Its output is what the printing steps that
succeeded have found under the head, in their order: later calls only add to it, and a step that
fails adds nothing. The step that reads as number `k` writes byte `k` of the stream of the text to
the cell under the head, and the cursor stands behind as many characters as there were reads, or at
the end of the text. -/
theorem calls_account_for_input_and_output (code : Array Instruction) (cells : Array UInt8)
    (text : String) (calls more : List Call) :
    let m := load code { cells } text
    let m' := m.performAll calls
    let n := m'.steps
    (m' = m.after n ∧ ∀ k < n, (m.after k).halted = false) ∧
    m'.outputText.toList = m.printedIn n ∧
    m'.outputText.toList <+: (m.performAll (calls ++ more)).outputText.toList ∧
    (∀ k < n, (m.after k).step.fault? ≠ none → (m.after (k + 1)).output = (m.after k).output) ∧
    (∀ k < n, (m.after k).Reads →
      (m.after (k + 1)).tape.cells[(m.after k).tape.head]? = some (stream text (m.readsIn k))) ∧
    m'.input.cursor = min (m.readsIn n) text.length := by
  intro m m' n
  obtain ⟨hsteps, hawake⟩ : m' = m.after n ∧ ∀ k < n, (m.after k).halted = false :=
    performAll_eq_after_steps rfl calls
  have hinput : m.input = .afterReads text 0 := by
    simp [m, load, Feed.ofString, Feed.afterReads]
  have hprinted : m'.outputText.toList = m.printedIn n := by
    rw [hsteps, outputText_after]
    rfl
  have hcursor : m'.input.cursor = min (m.readsIn n) text.length := by
    rw [hsteps, input_after hinput, ← String.length_toList]
    rfl
  refine ⟨⟨hsteps, hawake⟩, hprinted, m.outputText_grows_performAll calls more, ?fails, ?reads,
    hcursor⟩
  case fails =>
    intro k _ hfault
    obtain ⟨f, hf⟩ := Option.ne_none_iff_exists'.mp hfault
    rw [after_succ, output_of_fault hf]
  case reads =>
    intro k _ hreads
    rw [after_succ, getElem?_step_of_reads hreads, input_after hinput, Feed.next_afterReads]

open Machine in
/-- Four calls on code that no source spells, on an empty tape: the first and the third end in a
fault, the second at its limit, and the last one reads a character that is not ASCII and then the end
of the text. -/
theorem calls_account_for_input_and_output_past_faults :
    let m := load #[.output, .input, .output, .loopEnd 9, .input, .input, .output] { cells := #[] }
      "Aé"
    let m' := m.performAll [.run 9, .drive { maxSteps := some 2 } 9, .step]
    let m'' := m.performAll [.run 9, .drive { maxSteps := some 2 } 9, .step, .trace none 9 {}]
    (m'.outputText.toList = ['A'] ∧ m'.outputText.toList <+: m''.outputText.toList) ∧
    (m'' = m.after 7 ∧ m''.outputText.toList = ['A', '\x00'] ∧ m''.input.cursor = 2) ∧
    ((m.after 3).step.fault? = some (.jump 3 9) ∧
      (m.after (3 + 1)).output = (m.after 3).output) ∧
    (m.after 5).Reads ∧ m.readsIn 5 = 2 ∧
      (m.after (5 + 1)).tape.cells[(m.after 5).tape.head]? = some 0 := by
  obtain ⟨-, hbefore, hprefix, -⟩ := calls_account_for_input_and_output
    #[.output, .input, .output, .loopEnd 9, .input, .input, .output] #[] "Aé"
    [.run 9, .drive { maxSteps := some 2 } 9, .step] [.trace none 9 {}]
  obtain ⟨⟨hsteps, -⟩, hprinted, -, hfails, hreads, hcursor⟩ := calls_account_for_input_and_output
    #[.output, .input, .output, .loopEnd 9, .input, .input, .output] #[] "Aé"
    [.run 9, .drive { maxSteps := some 2 } 9, .step, .trace none 9 {}] []
  dsimp only
  refine ⟨⟨?first, hprefix⟩, ⟨hsteps, ?text, ?cursor⟩, ⟨by decide, hfails 3 (by decide) (by decide)⟩,
    by decide, by decide, ?read⟩
  case first =>
    rw [hbefore]
    decide
  case text =>
    rw [hprinted]
    decide
  case cursor =>
    rw [hcursor]
    decide
  case read =>
    rw [hreads 5 (by decide) (by decide)]
    decide

end TapeMachine
