import Mathlib.Data.Nat.Count
import TapeMachine.Proofs.Execution.Calls
import TapeMachine.Proofs.Execution.Effect

/-!
# The stream that a machine reads

A text gives its bytes one by one to the instructions that read, and then zeros for ever. How many
of them have read is all that the cursor of a feed depends on. So machines on texts with the same
stream do the same things, although their cursors may part: a feed at its end stays there, and a
character that is not ASCII is taken.
-/
namespace TapeMachine

/-- The byte for read number `k`, counted from zero. -/
def stream (text : String) (k : Nat) : UInt8 :=
  (text.toList[k]?.map asciiByte).getD 0

theorem stream_of_length_le {text : String} {k : Nat} (h : text.toList.length ≤ k) :
    stream text k = 0 := by
  rw [stream, List.getElem?_eq_none h]
  rfl

/-- NUL characters at the end do not show. -/
theorem stream_append_nuls (text : String) (n k : Nat) :
    stream (text ++ String.ofList (List.replicate n '\x00')) k = stream text k := by
  rw [stream, String.toList_append, String.toList_ofList, List.getElem?_append]
  split
  · rfl
  · rename_i h
    rw [stream_of_length_le (Nat.le_of_not_lt h), List.getElem?_replicate]
    split <;> rfl

/-- A NUL does as well as a character that is not ASCII. -/
theorem stream_map_nul (text : String) (k : Nat) :
    stream (String.ofList (text.toList.map fun c => if c.toNat < 128 then c else '\x00')) k =
      stream text k := by
  rw [stream, stream, String.toList_ofList, List.getElem?_map, Option.map_map]
  congr 2
  funext c
  by_cases h : c.toNat < 128
  · rw [Function.comp_apply, if_pos h]
  · rw [Function.comp_apply, if_neg h, asciiByte, asciiByte, if_neg h]
    rfl

/-- The feed of a text after so many reads. -/
def Feed.afterReads (text : String) (reads : Nat) : Feed where
  chars := text.toList.toArray
  cursor := min reads text.toList.length

theorem Feed.next_afterReads (text : String) (reads : Nat) :
    (afterReads text reads).next = (stream text reads, afterReads text (reads + 1)) := by
  by_cases h : reads < text.toList.length
  · have hchar : text.toList.toArray[min reads text.toList.length]? = some text.toList[reads] := by
      rw [Nat.min_eq_left (Nat.le_of_lt h), List.getElem?_toArray, List.getElem?_eq_getElem h]
    simp only [next, afterReads, hchar, stream, List.getElem?_eq_getElem h]
    rw [Nat.min_eq_left (Nat.le_of_lt h), Nat.min_eq_left h]
    rfl
  · have hle := Nat.le_of_not_lt h
    have hchar : text.toList.toArray[min reads text.toList.length]? = none := by
      rw [Nat.min_eq_right hle, List.getElem?_toArray, List.getElem?_eq_none (Nat.le_refl _)]
    simp only [next, afterReads, hchar, stream_of_length_le hle]
    rw [Nat.min_eq_right hle, Nat.min_eq_right (Nat.le_succ_of_le hle)]

namespace Machine

variable {m : Machine} {s : Stepped} {text text' : String} {n k : Nat}

/-- The next step reads. -/
def Reads (m : Machine) : Prop :=
  m.current? = some .input

instance (m : Machine) : Decidable m.Reads :=
  inferInstanceAs (Decidable (m.current? = some .input))

/-- How many of the next `n` steps read. -/
def readsIn (m : Machine) (n : Nat) : Nat :=
  Nat.count (fun k => (m.after k).Reads) n

theorem readsIn_succ (m : Machine) (n : Nat) :
    m.readsIn (n + 1) = m.readsIn n + if (m.after n).Reads then 1 else 0 :=
  Nat.count_succ _ n

theorem readsIn_mono (h : n ≤ k) : m.readsIn n ≤ m.readsIn k :=
  Nat.count_monotone _ h

/-- The machine with another feed. -/
def withInput (m : Machine) (f : Feed) : Machine :=
  { m with input := f }

end Machine

/-- What a step has come to, with another feed. -/
def Stepped.withInput (s : Stepped) (f : Feed) : Stepped :=
  { s with machine := s.machine.withInput f }

namespace Machine

variable {m : Machine} {text text' : String} {n k : Nat}

@[simp] theorem withInput_code (m : Machine) (f : Feed) : (m.withInput f).code = m.code := rfl
@[simp] theorem withInput_tape (m : Machine) (f : Feed) : (m.withInput f).tape = m.tape := rfl

theorem jump_withInput (m : Machine) (f : Feed) (origin target : Nat) :
    (m.withInput f).jump origin target = (m.jump origin target).withInput f := by
  unfold jump
  rw [withInput_code]
  split <;> rfl

/-- An instruction that does not read does not look at the feed. -/
theorem execute_withInput (m : Machine) (f : Feed) (origin : Nat) {i : Instruction}
    (h : i ≠ .input) : (m.withInput f).execute origin i = (m.execute origin i).withInput f := by
  cases i with
  | moveRight => rfl
  | moveLeft =>
    simp only [execute, withInput_tape]
    cases m.tape.moveLeft? <;> rfl
  | increment => rfl
  | decrement => rfl
  | output =>
    simp only [execute, withInput_tape]
    cases m.tape.cell? <;> rfl
  | input => exact absurd rfl h
  | loopStart target =>
    simp only [execute, withInput_tape, jump_withInput]
    split <;> rfl
  | loopEnd target =>
    simp only [execute, withInput_tape, jump_withInput]
    split <;> rfl

/-- Two feeds that give the same byte, if a byte is read, lead to the same step. -/
theorem step_withInput (f : Feed) (h : m.Reads → f.next.1 = m.input.next.1) :
    (m.withInput f).step = m.step.withInput (if m.Reads then f.next.2 else f) := by
  cases hi : m.code[m.ip]? with
  | none =>
    have hnot : ¬ m.Reads := by simp [Reads, current?, hi]
    rw [if_neg hnot, step, step, current?, current?, hi]
    simp only [withInput, hi]
    rfl
  | some i =>
    have hi' : (m.withInput f).code[(m.withInput f).ip]? = some i := hi
    rw [step_of_current hi, step_of_current hi']
    by_cases hread : i = .input
    · subst hread
      have hbyte := h hi
      rw [if_pos (show m.Reads from hi)]
      simp only [execute, advanced, withInput, hbyte]
      rfl
    · have hnot : ¬ m.Reads := by simpa [Reads, current?, hi] using hread
      rw [if_neg hnot]
      exact execute_withInput m.advanced f m.ip hread

/-- Only a step that reads touches the feed. -/
theorem step_input (m : Machine) :
    m.step.machine.input = if m.Reads then m.input.next.2 else m.input :=
  congrArg (fun s => s.machine.input) (m.step_withInput m.input fun _ => rfl)

/-- The number of reads tells what has become of the feed. -/
theorem input_after (h : m.input = .afterReads text 0) (n : Nat) :
    (m.after n).input = .afterReads text (m.readsIn n) := by
  induction n with
  | zero => exact h
  | succ n ih =>
    rw [after_succ, step_input, ih, Feed.next_afterReads, readsIn_succ]
    split <;> rfl

/-- One more step: the byte that it reads, if it reads one, is the same in both texts. -/
theorem step_stream (h : m.input = .afterReads text 0)
    (hequal : ∀ j < m.readsIn (k + 1), stream text j = stream text' j) :
    ((m.after k).withInput (.afterReads text' (m.readsIn k))).step =
      (m.after k).step.withInput (.afterReads text' (m.readsIn (k + 1))) := by
  rw [step_withInput, readsIn_succ, Feed.next_afterReads]
  · split <;> rfl
  · intro hread
    rw [readsIn_succ, if_pos hread] at hequal
    rw [input_after h, Feed.next_afterReads, Feed.next_afterReads]
    exact (hequal _ (Nat.lt_succ_self _)).symm

theorem after_stream (h : m.input = .afterReads text 0)
    (hequal : ∀ j < m.readsIn n, stream text j = stream text' j) :
    (m.withInput (.afterReads text' 0)).after n =
      (m.after n).withInput (.afterReads text' (m.readsIn n)) := by
  induction n with
  | zero => rfl
  | succ n ih =>
    have hfewer (j : Nat) (hj : j < m.readsIn n) : stream text j = stream text' j :=
      hequal j (Nat.lt_of_lt_of_le hj (readsIn_mono (Nat.le_succ n)))
    rw [after_succ, ih hfewer, step_stream h hequal, after_succ]
    rfl

end Machine

open Machine in
/-- A text matters only through its stream, whatever the code and the tape. If two texts have the
same stream, the machines loaded with them are the same after any number of steps, but for their
feeds, and their next steps fail alike. If only the first `c` bytes of the streams are the same, all
this holds as long as at most `c` instructions have read. -/
theorem input_matters_as_stream (code : Array Instruction) (tape : Tape) (text text' : String) :
    let m := load code tape text
    let m' := load code tape text'
    ((∀ k, stream text k = stream text' k) → ∀ n,
      m'.after n = { m.after n with input := (m'.after n).input } ∧
        (m'.after n).step.fault? = (m.after n).step.fault?) ∧
    ∀ c, (∀ k < c, stream text k = stream text' k) → ∀ n, m.readsIn n ≤ c →
      m'.after n = { m.after n with input := (m'.after n).input } ∧
        ∀ k < n, (m'.after k).step.fault? = (m.after k).step.fault? := by
  intro m m'
  have hload (text : String) : (load code tape text).input = .afterReads text 0 := by
    simp [load, Feed.ofString, Feed.afterReads]
  have hother : m' = m.withInput (.afterReads text' 0) := by
    rw [← hload text']
    rfl
  have hafter (n : Nat) (hequal : ∀ j < m.readsIn n, stream text j = stream text' j) :
      m'.after n = (m.after n).withInput (.afterReads text' (m.readsIn n)) := by
    rw [hother]
    exact after_stream (hload text) hequal
  have hstate (n : Nat) (hequal : ∀ j < m.readsIn n, stream text j = stream text' j) :
      m'.after n = { m.after n with input := (m'.after n).input } := by
    rw [hafter n hequal]
    rfl
  have hfault (k : Nat) (hequal : ∀ j < m.readsIn (k + 1), stream text j = stream text' j) :
      (m'.after k).step.fault? = (m.after k).step.fault? := by
    have hfewer (j : Nat) (hj : j < m.readsIn k) : stream text j = stream text' j :=
      hequal j (Nat.lt_of_lt_of_le hj (readsIn_mono (Nat.le_succ k)))
    rw [hafter k hfewer, step_stream (hload text) hequal]
    rfl
  constructor
  · intro hequal n
    exact ⟨hstate n fun j _ => hequal j, hfault n fun j _ => hequal j⟩
  · intro c hequal n hreads
    refine ⟨hstate n fun j hj => hequal j (Nat.lt_of_lt_of_le hj hreads), fun k hk => ?_⟩
    have hle : m.readsIn (k + 1) ≤ c := Nat.le_trans (readsIn_mono hk) hreads
    exact hfault k fun j hj => hequal j (Nat.lt_of_lt_of_le hj hle)

open Machine in
/-- The cursors part over a character that is not ASCII and the end of a text, and the tapes part
only with the second read. -/
theorem input_matters_as_stream_past_the_end :
    let start := load #[.input, .input] (Tape.blank 1)
    ((∀ k, stream "hé" k = stream "h" k) ∧
      (start "h").after 2 = { (start "hé").after 2 with input := ((start "h").after 2).input } ∧
      ((start "hé").after 2).input.cursor = 2 ∧ ((start "h").after 2).input.cursor = 1) ∧
    (∀ k < 1, stream "hi" k = stream "ha" k) ∧ (start "hi").readsIn 1 ≤ 1 ∧
      (start "ha").after 1 = { (start "hi").after 1 with input := ((start "ha").after 1).input } ∧
      ((start "hi").after 2).tape.cells ≠ ((start "ha").after 2).tape.cells := by
  intro start
  have hpadded : String.ofList ("hé".toList.map fun c => if c.toNat < 128 then c else '\x00') =
      "h" ++ String.ofList (List.replicate 1 '\x00') := by rfl
  have hequal (k : Nat) : stream "hé" k = stream "h" k := by
    rw [← stream_map_nul, hpadded, stream_append_nuls]
  have hfirst : ∀ k < 1, stream "hi" k = stream "ha" k := by decide
  have hreads : (start "hi").readsIn 1 ≤ 1 := by decide
  obtain ⟨hall, -⟩ := input_matters_as_stream #[.input, .input] (Tape.blank 1) "hé" "h"
  obtain ⟨-, hsome⟩ := input_matters_as_stream #[.input, .input] (Tape.blank 1) "hi" "ha"
  refine ⟨⟨hequal, (hall hequal 2).1, by rfl, by rfl⟩, hfirst, hreads, ?_, by decide⟩
  exact (hsome 1 hfirst 1 hreads).1

end TapeMachine
