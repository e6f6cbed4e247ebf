import Mathlib.Data.List.TakeWhile
import TapeMachine.Proofs.Execution.Straight
import TapeMachine.Proofs.Execution.Transcript

/-!
# The echo

A program that prints what it reads, until it reads a zero. It copies its input up to the first
character that a cell cannot hold or that is NUL, or up to its end, and stops there.
-/
namespace TapeMachine

/-- The code of `,[.,]`. -/
def echo : Array Instruction :=
  #[.input, .loopStart 5, .output, .input, .loopEnd 2]

theorem parse_echo : Program.parse ",[.,]" = .ok ⟨echo, #[0, 1, 2, 3, 4]⟩ := by rfl

/-- The character is ASCII and not NUL. -/
def isCopied (c : Char) : Bool :=
  c.toNat < 128 && c != '\x00'

theorem toNat_asciiByte {c : Char} (h : c.toNat < 128) : (asciiByte c).toNat = c.toNat := by
  rw [asciiByte, if_pos h, Nat.toUInt8_eq, UInt8.toNat_ofNat']
  omega

theorem asciiByte_ne_zero_iff {c : Char} : asciiByte c ≠ 0 ↔ isCopied c = true := by
  by_cases h : c.toNat < 128
  · have hbyte := toNat_asciiByte h
    have hzero : asciiByte c = 0 ↔ c = '\x00' := by
      rw [← UInt8.toNat_inj, hbyte, ← Char.toNat_inj]
      rfl
    simp [isCopied, h, hzero]
  · simp [isCopied, asciiByte, h]

/-- What is printed of a character that was read is the character. -/
theorem ofNat_asciiByte {c : Char} (h : isCopied c = true) :
    Char.ofNat (asciiByte c).toNat = c := by
  have hascii : c.toNat < 128 := by
    simp [isCopied] at h
    exact h.1
  rw [toNat_asciiByte hascii, Char.ofNat_toNat]

/-- The characters of a text up to the first one that is not copied. -/
def copiedFront (text : String) : List Char :=
  text.toList.takeWhile isCopied

section

variable {text : String} {k : Nat}

theorem getElem?_of_lt_copiedFront (hk : k < (copiedFront text).length) :
    text.toList[k]? = some (copiedFront text)[k] ∧ isCopied (copiedFront text)[k] = true := by
  have hfront : copiedFront text <+: text.toList := List.takeWhile_prefix isCopied
  constructor
  · rw [hfront.getElem hk]
    exact List.getElem?_eq_getElem _
  · exact List.mem_takeWhile_imp (List.getElem_mem hk)

theorem stream_ne_zero_of_lt (hk : k < (copiedFront text).length) : stream text k ≠ 0 := by
  obtain ⟨hchar, hcopied⟩ := getElem?_of_lt_copiedFront hk
  rw [stream, hchar]
  exact asciiByte_ne_zero_iff.mpr hcopied

theorem stream_length_copiedFront (text : String) :
    stream text (copiedFront text).length = 0 := by
  have hsplit : text.toList = copiedFront text ++ text.toList.dropWhile isCopied :=
    List.takeWhile_append_dropWhile.symm
  have hnext : text.toList[(copiedFront text).length]? =
      (text.toList.dropWhile isCopied).head? := by
    conv_lhs => rw [hsplit]
    rw [List.getElem?_append_right (Nat.le_refl _), Nat.sub_self, List.head?_eq_getElem?]
  have hnot := List.head?_dropWhile_not isCopied text.toList
  rw [stream, hnext]
  cases hhead : (text.toList.dropWhile isCopied).head? with
  | none => rfl
  | some c =>
    have hskipped : isCopied c = false := by rwa [hhead] at hnot
    apply of_not_not
    intro hne
    exact absurd (asciiByte_ne_zero_iff.mp hne) (by simp [hskipped])

/-- The bytes before the first zero are those of the front. -/
theorem map_stream_eq_copiedFront (text : String) :
    (List.range (copiedFront text).length).map (fun j => Char.ofNat (stream text j).toNat) =
      copiedFront text := by
  apply List.ext_getElem
  · simp
  · intro j hj hj'
    obtain ⟨hchar, hcopied⟩ := getElem?_of_lt_copiedFront hj'
    rw [List.getElem_map, List.getElem_range, stream, hchar]
    exact ofNat_asciiByte hcopied

end

namespace Tape

theorem reach_of_lt {t : Tape} (h : t.head < t.cells.size) : t.reach = t :=
  if_pos h

/-- Only the last byte that is written stays. -/
theorem write_write (t : Tape) (u v : UInt8) : (t.write u).write v = t.write v := by
  rw [write, reach_of_lt (t.write_head_lt u), write, write]
  simp only [Array.setIfInBounds_setIfInBounds]

theorem blank_write_zero (size : Nat) : (blank size).write 0 = blank (max 1 size) := by
  cases size with
  | zero => rfl
  | succ n =>
    have hlt : (blank (n + 1)).head < (blank (n + 1)).cells.size := by simp [blank]
    rw [write, reach_of_lt hlt, Nat.max_eq_right (Nat.succ_le_succ (Nat.zero_le n))]
    simp [blank]

end Tape

namespace Machine

variable {text : String} {size printed steps k n : Nat}

/-- The machine on the echo that has read byte `k` of the text last. -/
def echoing (text : String) (size k printed ip steps : Nat) : Machine where
  code := echo
  tape := (Tape.blank size).write (stream text k)
  input := .afterReads text (k + 1)
  ip := ip
  output := ((List.range printed).map (stream text)).toArray
  steps := steps

theorem value_echoing (text : String) (size k printed ip steps : Nat) :
    (echoing text size k printed ip steps).tape.value = stream text k :=
  Tape.value_write _ _

/-- Byte `k` has been read and is about to be looked at: the first one by the bracket that opens the
loop, the others by the one that closes it. -/
def testing (text : String) (size k : Nat) : Machine :=
  echoing text size k k (if k = 0 then 1 else 4) (1 + 3 * k)

theorem step_load_echo (text : String) (size : Nat) :
    (load echo (Tape.blank size) text).step = { machine := testing text size 0 } := by
  have hinput : (load echo (Tape.blank size) text).input = .afterReads text 0 := by
    simp [load, Feed.ofString, Feed.afterReads]
  rw [step_of_current (i := .input) rfl, execute, advanced_input, hinput, Feed.next_afterReads]
  rfl

/-- Either bracket leads behind the loop on zero, and to the start of its body otherwise. -/
theorem step_testing (text : String) (size k : Nat) : (testing text size k).step =
    { machine := echoing text size k k (if stream text k = 0 then 5 else 2) (1 + 3 * k + 1) } := by
  have hvalue : (testing text size k).tape.value = stream text k := value_echoing ..
  cases k with
  | zero =>
    have hi : (testing text size 0).code[(testing text size 0).ip]? = some (.loopStart 5) := rfl
    by_cases hzero : stream text 0 = 0
    · rw [if_pos hzero]
      exact step_loopStart_of_zero hi (hvalue.trans hzero)
    · rw [if_neg hzero]
      exact step_loopStart_of_ne hi (hvalue.trans_ne hzero)
  | succ k =>
    have hi : (testing text size (k + 1)).code[(testing text size (k + 1)).ip]? =
        some (.loopEnd 2) := rfl
    by_cases hzero : stream text (k + 1) = 0
    · rw [if_pos hzero]
      exact step_loopEnd_of_zero hi (hvalue.trans hzero)
    · rw [if_neg hzero]
      exact step_loopEnd_of_ne hi (hvalue.trans_ne hzero)

theorem step_echoing_print (text : String) (size k steps : Nat) :
    (echoing text size k k 2 steps).step =
      { machine := echoing text size k (k + 1) 3 (steps + 1) } := by
  have hcell : (echoing text size k k 2 steps).tape.cell? = some (stream text k) := by
    rw [← value_echoing text size k k 2 steps]
    exact Tape.cell?_eq_some_value (Tape.write_head_lt _ _)
  rw [step_of_current (i := .output) rfl]
  simp only [execute, advanced_tape, hcell]
  simp [echoing, advanced, List.range_succ]

theorem step_echoing_read (text : String) (size k steps : Nat) :
    (echoing text size k (k + 1) 3 steps).step =
      { machine := echoing text size (k + 1) (k + 1) 4 (steps + 1) } := by
  rw [step_of_current (i := .input) rfl]
  simp [execute, echoing, advanced, Feed.next_afterReads, Tape.write_write]

theorem walks_echoing {ip : Nat} {m' : Machine} (hip : ip < 5)
    (hstep : (echoing text size k printed ip steps).step = { machine := m' }) :
    Walks 5 1 (echoing text size k printed ip steps) m' :=
  .of_step (halted_eq_false_iff.mpr hip) hstep hip

theorem walks_testing (text : String) (size k : Nat) : Walks 5 1 (testing text size k)
    (echoing text size k k (if stream text k = 0 then 5 else 2) (1 + 3 * k + 1)) := by
  apply walks_echoing
  · split <;> decide
  · exact step_testing text size k

/-- A turn prints the byte that was read last and reads the next one. -/
theorem walks_turn_of_echo (h : stream text k ≠ 0) :
    Walks 5 3 (testing text size k) (testing text size (k + 1)) := by
  have hlook := walks_testing text size k
  rw [if_neg h] at hlook
  have hprint := walks_echoing (by decide) (step_echoing_print text size k (1 + 3 * k + 1))
  have hread := walks_echoing (by decide) (step_echoing_read text size k (1 + 3 * k + 2))
  exact (hlook.trans hprint).trans hread

/-- By induction on the number of turns, as long as no zero has been read. -/
theorem walks_turns_of_echo (h : ∀ j < k, stream text j ≠ 0) :
    Walks 5 (1 + 3 * k) (load echo (Tape.blank size) text) (testing text size k) := by
  induction k with
  | zero => exact .of_step rfl (step_load_echo text size) (Nat.zero_lt_succ 4)
  | succ k ih =>
    have hbefore := ih fun j hj => h j (Nat.lt_succ_of_lt hj)
    exact hbefore.trans (walks_turn_of_echo (h k (Nat.lt_succ_self k)))

/-- The whole run: the loop is left at the first zero. -/
theorem walks_echo (h : ∀ j < k, stream text j ≠ 0) (hzero : stream text k = 0) :
    Walks 5 (1 + 3 * k + 1) (load echo (Tape.blank size) text)
      (echoing text size k k 5 (1 + 3 * k + 1)) := by
  have hleave := walks_testing text size k
  rw [if_pos hzero] at hleave
  exact (walks_turns_of_echo h).trans hleave

end Machine

open Machine in
/-- The echo program copies its input up to the first character that is not ASCII or is NUL, whatever
the size of its tape. With `k` the number of characters before that one, it halts after `2 + 3 * k`
steps and has printed just these characters. The cell under the head is zero, and the cursor stands
behind the character that ended the loop, or at the end of the text. -/
theorem echo_copies_front (text : String) (size : Nat) :
    ∃ p, Program.parse ",[.,]" = .ok p ∧
      let copied := text.toList.takeWhile fun c => c.toNat < 128 && c != '\x00'
      let k := copied.length
      let m := load p.code (Tape.blank size) text
      let m' := m.after (2 + 3 * k)
      (∀ n, m.run (2 + 3 * k + (n + 1)) = ⟨.halted, m'⟩) ∧
        m'.outputText.toList = copied ∧ m'.steps = 2 + 3 * k ∧
        m'.tape = Tape.blank (max 1 size) ∧ m'.tape.cell? = some 0 ∧
        m'.input.cursor = min (k + 1) text.length := by
  refine ⟨_, parse_echo, ?_⟩
  intro copied k m m'
  have hzero : stream text k = 0 := stream_length_copiedFront text
  have hwalk : Walks 5 (1 + 3 * k + 1) m (echoing text size k k 5 (1 + 3 * k + 1)) :=
    walks_echo (fun j hj => stream_ne_zero_of_lt hj) hzero
  have hcount : 1 + 3 * k + 1 = 2 + 3 * k := by omega
  rw [hcount] at hwalk
  have hend : m' = echoing text size k k 5 (2 + 3 * k) := hwalk.arrives
  have htape : m'.tape = Tape.blank (max 1 size) := by
    rw [hend, echoing, hzero, Tape.blank_write_zero]
  refine ⟨?run, ?output, by rw [hend]; rfl, htape, ?cell, ?cursor⟩
  case run =>
    intro n
    have hrest : m'.halted = true := by
      rw [hend]
      rfl
    rw [hwalk.live.run_add, run_of_halted hrest]
  case output =>
    rw [hend, toList_outputText, echoing, List.map_map]
    exact map_stream_eq_copiedFront text
  case cell =>
    rw [htape]
    simp [Tape.cell?, Tape.blank]
  case cursor =>
    rw [hend, ← String.length_toList]
    rfl

end TapeMachine
