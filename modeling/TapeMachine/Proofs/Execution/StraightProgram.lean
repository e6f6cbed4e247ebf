import Mathlib.Data.List.Count
import Mathlib.Data.Nat.Find
import Mathlib.Data.Set.List
import TapeMachine.Proofs.Execution.Straight
import TapeMachine.Proofs.Syntax.Comments

/-!
# Straight programs

A program that only moves the head and changes cells is a single straight stretch of code. What a
run of it leaves is known by counting the characters of its source: where the head is, how each cell
has changed and, if the head has to leave the tape, which instruction asks for it.
-/
namespace TapeMachine

/-- How far the characters bring the head to the right. -/
def drift (text : List Char) : Int :=
  text.count '>' - text.count '<'

/-- How many times the character `c` stands where those before it have brought the head to `d`. -/
def occurrences (text : List Char) (c : Char) (d : Int) : Nat :=
  (List.range text.length).countP fun k => text[k]? = some c ∧ drift (text.take k) = d

/-- By how much the characters raise the cell at `d`. -/
def raised (text : List Char) (d : Int) : Int :=
  occurrences text '+' d - occurrences text '-' d

/-- The character at index `i` ends the shortest prefix that moves more to the left than to the
right. -/
structure LeavesAt (text : List Char) (i : Nat) : Prop where
  excess : (text.take (i + 1)).count '>' < (text.take (i + 1)).count '<'
  before : ∀ n ≤ i, (text.take n).count '<' ≤ (text.take n).count '>'

theorem LeavesAt.unique {text : List Char} {i j : Nat} (hi : LeavesAt text i)
    (hj : LeavesAt text j) : i = j := by
  have hij : i ≤ j := Nat.le_of_not_lt fun h => Nat.not_le_of_lt hj.excess (hi.before _ h)
  have hji : j ≤ i := Nat.le_of_not_lt fun h => Nat.not_le_of_lt hi.excess (hj.before _ h)
  exact Nat.le_antisymm hij hji

theorem exists_leavesAt {text : List Char}
    (h : ¬ ∀ n ≤ text.length, (text.take n).count '<' ≤ (text.take n).count '>') :
    ∃ i, LeavesAt text i := by
  have hexcess : ∃ n, (text.take n).count '>' < (text.take n).count '<' := by
    obtain ⟨n, hn⟩ := not_forall.mp h
    exact ⟨n, Nat.lt_of_not_le fun hle => hn fun _ => hle⟩
  classical
  have hfirst (n : Nat) (hn : n < Nat.find hexcess) :
      (text.take n).count '<' ≤ (text.take n).count '>' :=
    Nat.le_of_not_lt (Nat.find_min hexcess hn)
  have hspec := Nat.find_spec hexcess
  cases hn : Nat.find hexcess with
  | zero =>
    rw [hn] at hspec
    simp at hspec
  | succ i =>
    rw [hn] at hspec hfirst
    exact ⟨i, hspec, fun n hle => hfirst n (Nat.lt_succ_of_le hle)⟩

namespace Stroke

def char (s : Stroke) : Char :=
  s.instruction.toChar

theorem char_injective : Function.Injective char := by
  intro s s' h
  cases s <;> cases s' <;> first | rfl | exact absurd h (by decide)

theorem char_ne_open (s : Stroke) : s.char ≠ '[' := by
  cases s <;> decide

theorem char_ne_close (s : Stroke) : s.char ≠ ']' := by
  cases s <;> decide

/-- Only one instruction is spelled by the character of a stroke. -/
theorem eq_instruction_of_toChar {s : Stroke} {i : Instruction} (h : i.toChar = s.char) :
    i = s.instruction := by
  cases i with
  | loopStart => exact absurd h.symm s.char_ne_open
  | loopEnd => exact absurd h.symm s.char_ne_close
  | _ => cases s <;> first | rfl | exact absurd h (by decide)

end Stroke

variable {text : List Char} {strokes : List Stroke} {s : Stroke} {i : Nat}

/-! ### Strokes and their characters -/

theorem exists_strokes (h : ∀ c ∈ text, c ∈ ['>', '<', '+', '-']) :
    ∃ strokes : List Stroke, strokes.map Stroke.char = text := by
  have hrange : text ∈ Set.range (List.map Stroke.char) := by
    rw [Set.range_list_map]
    intro c hc
    have hchar := h c hc
    simp only [List.mem_cons, List.not_mem_nil, or_false] at hchar
    rcases hchar with rfl | rfl | rfl | rfl
    · exact ⟨.right, rfl⟩
    · exact ⟨.left, rfl⟩
    · exact ⟨.plus, rfl⟩
    · exact ⟨.minus, rfl⟩
  exact hrange

theorem count_char (strokes : List Stroke) (s : Stroke) :
    (strokes.map Stroke.char).count s.char = strokes.count s :=
  List.count_map_of_injective strokes _ Stroke.char_injective s

theorem displacement_eq_count (strokes : List Stroke) :
    displacement strokes = strokes.count .right - strokes.count .left := by
  induction strokes with
  | nil => rfl
  | cons s strokes ih =>
    rw [displacement_cons, ih]
    cases s <;> simp [Stroke.shift] <;> omega

theorem drift_char (strokes : List Stroke) :
    drift (strokes.map Stroke.char) = displacement strokes := by
  have hright := count_char strokes .right
  have hleft := count_char strokes .left
  rw [displacement_eq_count, ← hright, ← hleft]
  rfl

theorem occurrences_char (strokes : List Stroke) (s : Stroke) (d : Int) :
    occurrences (strokes.map Stroke.char) s.char d = strikes strokes s d := by
  rw [occurrences, strikes, List.length_map]
  congr 1
  funext k
  rw [← List.map_take, drift_char, List.getElem?_map]
  cases strokes[k]? <;> simp [Stroke.char_injective.eq_iff]

theorem raised_char (strokes : List Stroke) (d : Int) :
    raised (strokes.map Stroke.char) d = delta strokes d := by
  have hplus := occurrences_char strokes .plus d
  have hminus := occurrences_char strokes .minus d
  rw [delta, ← hplus, ← hminus]
  rfl

/-- The balance of a prefix is where the strokes before it have brought the head. -/
theorem count_take_sub (strokes : List Stroke) (n : Nat) :
    (((strokes.map Stroke.char).take n).count '>' : Int) -
      ((strokes.map Stroke.char).take n).count '<' = displacement (strokes.take n) := by
  rw [← drift_char, List.map_take, drift]

theorem stays_of_count (h : ∀ n ≤ strokes.length, ((strokes.map Stroke.char).take n).count '<' ≤
    ((strokes.map Stroke.char).take n).count '>') : Stays 0 strokes := by
  intro n hn
  have hcount := h n hn
  have hsub := count_take_sub strokes n
  omega

theorem displacement_take_succ (hi : strokes[i]? = some s) :
    displacement (strokes.take (i + 1)) = displacement (strokes.take i) + s.shift := by
  rw [List.take_add_one, hi, displacement, List.map_append, List.sum_append]
  simp [displacement]

/-- Where the head would leave the tape it is back on the cell where it started. -/
theorem LeavesAt.edge (h : LeavesAt (strokes.map Stroke.char) i) :
    strokes[i]? = some .left ∧ displacement (strokes.take i) = 0 := by
  have hexcess := h.excess
  have hback := h.before i (Nat.le_refl i)
  have hsub := count_take_sub strokes i
  have hsub' := count_take_sub strokes (i + 1)
  cases hi : strokes[i]? with
  | none =>
    have hlength : strokes.length ≤ i := List.getElem?_eq_none_iff.mp hi
    have hsame : strokes.take (i + 1) = strokes.take i := by
      rw [List.take_of_length_le hlength, List.take_of_length_le (Nat.le_succ_of_le hlength)]
    rw [hsame] at hsub'
    omega
  | some s =>
    rw [displacement_take_succ hi] at hsub'
    cases s with
    | left =>
      rw [Stroke.shift] at hsub'
      exact ⟨rfl, by omega⟩
    | _ =>
      rw [Stroke.shift] at hsub'
      omega

theorem LeavesAt.stays (h : LeavesAt (strokes.map Stroke.char) i) : Stays 0 (strokes.take i) := by
  apply stays_of_count
  intro n hn
  have hle : n ≤ i := Nat.le_trans hn (List.length_take_le i strokes)
  rw [List.map_take, List.take_take, Nat.min_eq_left hle]
  exact h.before n hle

/-! ### The code of a straight source -/

variable {source : String}

theorem balanced_char (strokes : List Stroke) : Balanced (strokes.map Stroke.char) := by
  induction strokes with
  | nil => exact balanced_nil
  | cons s strokes ih => exact (balanced_singleton s.char_ne_open s.char_ne_close).append ih

/-- A source of strokes has no brackets, so it is a program, and its code is the strokes. -/
theorem exists_parse_of_strokes (h : instructionChars source.toList = strokes.map Stroke.char) :
    ∃ p, Program.parse source = .ok p ∧ Written p.code 0 strokes ∧
      p.code.size = strokes.length := by
  have hbalanced : Balanced (instructionChars source.toList) := h ▸ balanced_char strokes
  obtain ⟨p, hp⟩ := (exists_parse_iff source).mpr (balanced_of_instructionChars hbalanced)
  have hspelling : p.code.toList.map Instruction.toChar = strokes.map Stroke.char :=
    (spelling_of_parse hp).trans h
  refine ⟨p, hp, ?_, ?_⟩
  · intro k s hs
    have hk := congrArg (·[k]?) hspelling
    simp only [List.getElem?_map, Option.mem_def.mp hs, Option.map_some,
      Array.getElem?_toList] at hk
    obtain ⟨i, hi, hchar⟩ := Option.map_eq_some_iff.mp hk
    rw [Nat.zero_add, hi, Stroke.eq_instruction_of_toChar hchar]
  · have hlength := congrArg List.length hspelling
    rwa [List.length_map, List.length_map, Array.length_toList] at hlength

/-! ### The run -/

/-- A cell counts the strokes that find the head on it. -/
theorem byteAt_play_start (h : Stays 0 strokes) (cells : Array UInt8) (j : Nat) :
    (((play strokes { cells }).byteAt j).toNat : Int) =
      ((cells.getD j 0).toNat + raised (strokes.map Stroke.char) j) % 256 := by
  rw [byteAt_play (t := { cells }) h, raised_char, Int.ofNat_zero, Int.sub_zero, Tape.byteAt]

theorem head_play_start (h : Stays 0 strokes) (cells : Array UInt8) :
    ((play strokes { cells }).head : Int) = displacement strokes := by
  rw [head_play (t := { cells }) h, Int.ofNat_zero, Int.zero_add]

theorem Written.take {code : Array Instruction} {start : Nat} (h : Written code start strokes)
    (n : Nat) : Written code start (strokes.take n) := by
  intro k s hs
  rw [List.getElem?_take] at hs
  split at hs
  · exact h k s hs
  · simp at hs

namespace Machine

variable {m : Machine} {patience : Nat}

theorem step_left_of_zero (hi : m.code[m.ip]? = some .moveLeft) (hhead : m.tape.head = 0) :
    m.step = { machine := m.advanced, fault? := some (.cell m.ip (-1)) } := by
  rw [step_of_current hi]
  simp only [execute, advanced_tape, m.tape.moveLeft?_eq_none_iff.mpr hhead]

/-- Code that ends with the strokes is run to its end. -/
theorem run_play (hcode : Written m.code m.ip strokes) (hstay : Stays m.tape.head strokes)
    (hsize : m.code.size = m.ip + strokes.length) (hp : strokes.length < patience) :
    m.run patience = ⟨.halted,
      m.further strokes.length (m.ip + strokes.length) (play strokes m.tape)⟩ := by
  have hwalk := walks_play hcode hstay (Nat.le_refl _)
  have hhalted : (m.after strokes.length).halted = true := by
    rw [hwalk.arrives]
    exact halted_iff.mpr (Nat.le_of_eq hsize)
  obtain ⟨k, rfl⟩ := Nat.exists_eq_add_of_lt hp
  rw [Nat.add_assoc, hwalk.live.run_add, run_of_halted hhalted, hwalk.arrives]

/-- A stroke that would leave the tape ends the run behind the strokes before it. -/
theorem run_play_off (hcode : Written m.code m.ip strokes) (hi : strokes[i]? = some .left)
    (hstay : Stays m.tape.head (strokes.take i))
    (hback : (m.tape.head : Int) + displacement (strokes.take i) = 0) (hp : i < patience) :
    m.run patience = ⟨.failed (.cell (m.ip + i) (-1)),
      m.further (i + 1) (m.ip + i + 1) (play (strokes.take i) m.tape)⟩ := by
  have hlength : (strokes.take i).length = i :=
    List.length_take_of_le (Nat.le_of_lt (List.getElem?_eq_some_iff.mp hi).1)
  have hwalk := walks_play (hcode.take i) hstay (Nat.le_refl _)
  rw [hlength] at hwalk
  have hhead := head_play hstay
  have hcurrent : (m.after i).code[(m.after i).ip]? = some .moveLeft := by
    rw [hwalk.arrives]
    exact hcode i .left hi
  have hstep := step_left_of_zero hcurrent (by rw [hwalk.arrives, further_tape]; omega)
  obtain ⟨k, rfl⟩ := Nat.exists_eq_add_of_lt hp
  rw [Nat.add_assoc, hwalk.live.run_add,
    run_of_fault (halted_of_current hcurrent) (congrArg Stepped.fault? hstep), hstep, hwalk.arrives]
  rfl

end Machine

/-- Straight programs are known by counting. A source whose instructions only move the head and
change cells is a program, whatever its comments. Loaded with any cells, it runs to its end if no
prefix of its instructions moves more to the left than to the right: with one step for each of them,
the head as far to the right as they bring it, and each cell raised once for each `+` and lowered
once for each `-` that finds the head there, modulo 256. Otherwise the run ends with the fault of
the instruction that ends the shortest prefix of the other kind, with the head on the first cell and
each cell changed in the same way by the instructions before it. -/
theorem straight_programs_are_counted {source : String} {text : List Char}
    (htext : instructionChars source.toList = text) (h : ∀ c ∈ text, c ∈ ['>', '<', '+', '-']) :
    ∃ p, Program.parse source = .ok p ∧ ∀ (cells : Array UInt8) (input : String),
      ((∀ n ≤ text.length, (text.take n).count '<' ≤ (text.take n).count '>') →
        ∃ m : Machine, (∀ patience, text.length < patience →
            (Machine.load p.code { cells } input).run patience = ⟨.halted, m⟩) ∧
          m.steps = text.length ∧ (m.tape.head : Int) = drift text ∧
          ∀ j : Nat, ((m.tape.byteAt j).toNat : Int) =
            ((cells.getD j 0).toNat + raised text j) % 256) ∧
      ((¬ ∀ n ≤ text.length, (text.take n).count '<' ≤ (text.take n).count '>') →
        ∃ (i : Nat) (m : Machine), (LeavesAt text i ∧ text[i]? = some '<') ∧
          (∀ patience, i < patience →
            (Machine.load p.code { cells } input).run patience = ⟨.failed (.cell i (-1)), m⟩) ∧
          m.steps = i + 1 ∧ m.tape.head = 0 ∧
          ∀ j : Nat, ((m.tape.byteAt j).toNat : Int) =
            ((cells.getD j 0).toNat + raised (text.take i) j) % 256) := by
  obtain ⟨strokes, rfl⟩ := exists_strokes h
  obtain ⟨p, hp, hcode, hsize⟩ := exists_parse_of_strokes htext
  refine ⟨p, hp, fun cells input => ?_⟩
  have hip : (Machine.load p.code { cells } input).ip = 0 := rfl
  refine ⟨fun hwithin => ?within, fun hexcess => ?excess⟩
  case within =>
    rw [List.length_map] at hwithin
    have hstay : Stays 0 strokes := stays_of_count hwithin
    refine ⟨(Machine.load p.code { cells } input).further strokes.length strokes.length
      (play strokes { cells }), ?run, ?steps, ?head, byteAt_play_start hstay cells⟩
    case run =>
      intro patience hpatience
      rw [List.length_map] at hpatience
      have hrun := Machine.run_play (m := Machine.load p.code { cells } input) hcode hstay
        (by rw [hip, Nat.zero_add]; exact hsize) hpatience
      rwa [hip, Nat.zero_add] at hrun
    case steps =>
      rw [List.length_map]
      exact Nat.zero_add _
    case head =>
      rw [Machine.further_tape, head_play_start hstay, drift_char]
  case excess =>
    obtain ⟨i, hi⟩ := exists_leavesAt hexcess
    obtain ⟨hleft, hback⟩ := hi.edge
    have hhead := head_play_start hi.stays cells
    refine ⟨i, (Machine.load p.code { cells } input).further (i + 1) (i + 1)
      (play (strokes.take i) { cells }), ⟨hi, ?char⟩, ?run, Nat.zero_add _, ?head, ?cell⟩
    case char =>
      rw [List.getElem?_map, hleft]
      rfl
    case run =>
      intro patience hpatience
      have hrun := Machine.run_play_off (m := Machine.load p.code { cells } input) hcode hleft
        hi.stays (by rw [hback]; rfl) hpatience
      rwa [hip, Nat.zero_add] at hrun
    case head =>
      rw [Machine.further_tape]
      omega
    case cell =>
      rw [← List.map_take]
      exact byteAt_play_start hi.stays cells

/-- Past zero and back on the first cell, and a move too far behind a comment. -/
theorem straight_programs_are_counted_to_the_edge :
    (instructionChars ">++<--".toList = ['>', '+', '+', '<', '-', '-'] ∧
      ∃ p m, Program.parse ">++<--" = .ok p ∧
        (Machine.load p.code { cells := #[1] } "").run 7 = ⟨.halted, m⟩ ∧ m.steps = 6 ∧
        (m.tape.head : Int) = 0 ∧ ((m.tape.byteAt 0).toNat : Int) = 255 ∧
        ((m.tape.byteAt 1).toNat : Int) = 2) ∧
    instructionChars "é+><<-".toList = ['+', '>', '<', '<', '-'] ∧
      ∃ p m, Program.parse "é+><<-" = .ok p ∧
        (Machine.load p.code { cells := #[] } "").run 4 = ⟨.failed (.cell 3 (-1)), m⟩ ∧
        m.steps = 4 ∧ m.tape.head = 0 ∧ ((m.tape.byteAt 0).toNat : Int) = 1 := by
  have hwithin : instructionChars ">++<--".toList = ['>', '+', '+', '<', '-', '-'] := by rfl
  have hexcess : instructionChars "é+><<-".toList = ['+', '>', '<', '<', '-'] := by rfl
  obtain ⟨p, hp, hrun⟩ := straight_programs_are_counted hwithin (by simp)
  obtain ⟨m, hend, hsteps, hhead, hcell⟩ := (hrun #[1] "").1 (by decide)
  obtain ⟨p', hp', hrun'⟩ := straight_programs_are_counted hexcess (by simp)
  obtain ⟨i, m', ⟨hi, -⟩, hend', hsteps', hhead', hcell'⟩ := (hrun' #[] "").2 (by decide)
  obtain rfl : i = 3 := hi.unique ⟨by decide, by decide⟩
  exact ⟨⟨hwithin, p, m, hp, hend 7 (by decide), hsteps, hhead, hcell 0, hcell 1⟩,
    hexcess, p', m', hp', hend' 4 (by decide), hsteps', hhead', hcell' 0⟩

end TapeMachine
