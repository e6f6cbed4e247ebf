import TapeMachine.Dump
import TapeMachine.Proofs.Report.Caret
import TapeMachine.Proofs.Trace.Columns

/-!
# The carets of a dump

A dump reads back as its seven lines. The caret below the code stands under the instruction that runs
next. The caret below the tape leaves three columns for each cell before the head, so it falls short
of the cell under the head by one column for each further digit of the cells before it.
-/
namespace TapeMachine

section

variable {separator text : String} {front back : List String}

theorem intercalate_cons : separator.intercalate (text :: back) =
    text ++ String.join (back.map (separator ++ ·)) := by
  induction back generalizing text with
  | nil => simp
  | cons next back ih =>
    rw [String.intercalate_cons_cons, ih]
    simp [String.append_assoc]

/-- A separator stands behind each text before a chosen one, and before each text behind it. -/
theorem intercalate_append_cons : separator.intercalate (front ++ text :: back) =
    String.join (front.map (· ++ separator)) ++ text ++
      String.join (back.map (separator ++ ·)) := by
  induction front with
  | nil => simp [intercalate_cons]
  | cons first front ih =>
    rw [List.cons_append, String.intercalate_cons_of_ne_nil (by simp), ih]
    simp [String.append_assoc]

/-- The text of the item of index `i`, and what stands before and behind it. -/
theorem intercalate_map_of_getElem? {α : Type} {items : List α} {item : α} {i : Nat}
    (shown : α → String) (h : items[i]? = some item) : separator.intercalate (items.map shown) =
      String.join ((items.take i).map fun a => shown a ++ separator) ++ shown item ++
        String.join ((items.drop (i + 1)).map fun a => separator ++ shown a) := by
  obtain ⟨hlt, rfl⟩ := List.getElem?_eq_some_iff.mp h
  have hsplit : items = items.take i ++ items[i] :: items.drop (i + 1) := by
    rw [List.getElem_cons_drop, List.take_append_drop]
  conv_lhs => rw [hsplit, List.map_append, List.map_cons, intercalate_append_cons]
  simp [Function.comp_def]

theorem newline_not_mem_intercalate {texts : List String} (hseparator : '\n' ∉ separator.toList)
    (htexts : ∀ text ∈ texts, '\n' ∉ text.toList) :
    '\n' ∉ (separator.intercalate texts).toList := by
  cases texts with
  | nil => simp
  | cons text back =>
    obtain ⟨htext, hback⟩ := List.forall_mem_cons.mp htexts
    rw [intercalate_cons]
    simpa [htext, hseparator] using hback

/-- Unbroken lines are read back from the text that has a newline behind each. -/
theorem splitOn_join_lines {lines : List String} (h : ∀ line ∈ lines, '\n' ∉ line.toList) :
    (String.join (lines.map (· ++ "\n"))).toList.splitOn '\n' = (lines ++ [""]).map String.toList := by
  have htext : String.join (lines.map (· ++ "\n")) = "\n".intercalate (lines ++ [""]) := by
    simp [intercalate_append_cons]
  rw [htext, String.toList_intercalate]
  refine List.splitOn_intercalate '\n' ?_ (by simp)
  simpa [or_imp, forall_and] using h

end

/-- The columns that the numbers of these cells take beyond one for each. -/
def furtherDigits : List UInt8 → Nat
  | [] => 0
  | v :: cells => (toString v).length - 1 + furtherDigits cells

theorem length_byte (v : UInt8) : (toString v).length = (Nat.toDigits 10 v.toNat).length := by
  rw [Text.toString_byte, ← String.length_toList]
  simp

theorem length_byte_pos (v : UInt8) : 0 < (toString v).length := by
  rw [length_byte]
  exact Nat.length_toDigits_pos

theorem length_byte_le_one_iff (v : UInt8) : (toString v).length ≤ 1 ↔ v < 10 := by
  rw [length_byte, UInt8.lt_iff_toNat_lt]
  exact Nat.length_toDigits_le_iff (by decide) (by decide)

theorem furtherDigits_eq_zero_iff {cells : List UInt8} :
    furtherDigits cells = 0 ↔ ∀ v ∈ cells, v < 10 := by
  induction cells with
  | nil => simp [furtherDigits]
  | cons v cells ih =>
    rw [furtherDigits, List.forall_mem_cons, ← length_byte_le_one_iff, ← ih]
    omega

/-- Three columns for each cell are enough for one digit with a comma and a blank. -/
theorem length_join_cells (cells : List UInt8) :
    (String.join (cells.map fun v => toString v ++ ", ")).length =
      3 * cells.length + furtherDigits cells := by
  induction cells with
  | nil => rfl
  | cons v cells ih =>
    have hpos := length_byte_pos v
    have hseparator : (", " : String).length = 2 := rfl
    rw [List.map_cons, String.join_cons, String.length_append, String.length_append, ih,
      hseparator, List.length_cons, furtherDigits]
    omega

namespace Machine

variable (m : Machine) {k : Nat}

/-- Line `k` of the dump, counted from 0. -/
def dumpLine (k : Nat) : String :=
  String.ofList ((m.dump.toList.splitOn '\n').getD k [])

/-- The column of the caret in line `k` of the dump. -/
def dumpCaret (k : Nat) : Nat :=
  (m.dumpLine k).toList.idxOf '^'

/-- The tape line up to the number of cell `k`. -/
def tapeLineBefore (k : Nat) : String :=
  "[" ++ String.join ((m.tape.cells.toList.take k).map fun v => toString v ++ ", ")

/-- The tape line behind the number of cell `k`. -/
def tapeLineBehind (k : Nat) : String :=
  String.join ((m.tape.cells.toList.drop (k + 1)).map fun v => ", " ++ toString v) ++ "]"

theorem tapeLine_eq (h : k < m.tape.cells.size) :
    m.tapeLine = m.tapeLineBefore k ++ toString m.tape.cells[k] ++ m.tapeLineBehind k := by
  have hcell : m.tape.cells.toList[k]? = some m.tape.cells[k] := by simp [h]
  rw [tapeLine, intercalate_map_of_getElem? _ hcell]
  simp [tapeLineBefore, tapeLineBehind, String.append_assoc]

theorem length_tapeLineBefore (h : k < m.tape.cells.size) :
    (m.tapeLineBefore k).length = 1 + 3 * k + furtherDigits (m.tape.cells.toList.take k) := by
  have hbracket : ("[" : String).length = 1 := rfl
  have htake : (m.tape.cells.toList.take k).length = k := by
    rw [List.length_take, Array.length_toList]
    omega
  rw [tapeLineBefore, String.length_append, hbracket, length_join_cells, htake]
  omega

/-- The code line up to the character of instruction `k`. -/
def codeLineBefore (k : Nat) : String :=
  String.join ((m.code.toList.take k).map fun i => String.singleton i.toChar ++ " ")

/-- The code line behind the character of instruction `k`. -/
def codeLineBehind (k : Nat) : String :=
  String.join ((m.code.toList.drop (k + 1)).map fun i => " " ++ String.singleton i.toChar)

theorem codeLine_eq {i : Instruction} (hi : m.code[k]? = some i) :
    m.codeLine = m.codeLineBefore k ++ String.singleton i.toChar ++ m.codeLineBehind k := by
  have hcode : m.code.toList[k]? = some i := by rwa [Array.getElem?_toList]
  exact intercalate_map_of_getElem? _ hcode

/-- Each instruction takes one column, and the blank behind it another. -/
theorem length_codeLineBefore (h : k ≤ m.code.size) : (m.codeLineBefore k).length = 2 * k := by
  have htake : (m.code.toList.take k).length = k := by
    rw [List.length_take, Array.length_toList]
    omega
  have hwidth (i : Instruction) : (String.singleton i.toChar ++ " ").length = 2 := by
    rw [String.length_append, String.length_singleton]
    rfl
  rw [codeLineBefore, String.length_join, List.map_map]
  simp only [Function.comp_def, hwidth, List.map_const', List.sum_replicate_nat, htake]
  omega

theorem newline_not_mem_dumpLines : ∀ line ∈ m.dumpLines, '\n' ∉ line.toList := by
  have hcells : '\n' ∉ (", ".intercalate (m.tape.cells.toList.map toString)).toList :=
    newline_not_mem_intercalate (by decide) (by simp [Text.toString_byte])
  have hcode : '\n' ∉
      (" ".intercalate (m.code.toList.map fun i => String.singleton i.toChar)).toList :=
    newline_not_mem_intercalate (by decide) (by simp [Ne.symm (Trace.toChar_ne_newline _)])
  simp [dumpLines, tapeLine, headLine, codeLine, ipLine, ruleLine, Text.blanks, Text.replicate,
    hcells, hcode, -String.toList_intercalate]

theorem dumpLine_of_getElem? {line : String} (h : m.dumpLines[k]? = some line) :
    m.dumpLine k = line := by
  have hlt : k < m.dumpLines.length := (List.getElem?_eq_some_iff.mp h).1
  rw [dumpLine, dump, splitOn_join_lines m.newline_not_mem_dumpLines, List.getD_eq_getElem?_getD,
    List.getElem?_map, List.getElem?_append_left hlt, h]
  simp

theorem dumpCaret_head : m.dumpCaret 1 = 1 + 3 * m.tape.head := by
  rw [dumpCaret, m.dumpLine_of_getElem? rfl]
  exact Text.idxOf_caret _

theorem dumpCaret_ip : m.dumpCaret 4 = 2 * m.ip := by
  rw [dumpCaret, m.dumpLine_of_getElem? rfl]
  exact Text.idxOf_caret _

/-- The caret below the code stands under the instruction that runs next. -/
theorem code_caret_marks_instruction {i : Instruction} (hi : m.current? = some i) :
    (m.dumpLine 3).toList[m.dumpCaret 4]? = some i.toChar := by
  have hlt : m.ip < m.code.size := (Array.getElem?_eq_some_iff.mp hi).1
  rw [dumpCaret_ip, m.dumpLine_of_getElem? rfl, m.codeLine_eq hi, ← m.length_codeLineBefore hlt.le,
    ← String.length_toList]
  simp

end Machine

open Machine in
/-- The caret below the tape against the number of the cell under the head: it falls short of it by
the further digits of the cells before the head. So it stands under the first digit of the number
exactly if all of these cells are below ten. -/
theorem head_caret_falls_short_by_further_digits (m : Machine)
    (h : m.tape.head < m.tape.cells.size) :
    let before := m.tapeLineBefore m.tape.head
    let cells := m.tape.cells.toList.take m.tape.head
    m.dumpLine 0 = before ++ toString m.tape.cells[m.tape.head] ++ m.tapeLineBehind m.tape.head ∧
    m.dumpCaret 1 + furtherDigits cells = before.length ∧
    (m.dumpCaret 1 = before.length ↔ ∀ v ∈ cells, v < 10) := by
  intro before cells
  have hcaret : m.dumpCaret 1 + furtherDigits cells = before.length := by
    rw [dumpCaret_head, length_tapeLineBefore m h]
  refine ⟨?line, hcaret, ?under⟩
  case line => rw [m.dumpLine_of_getElem? rfl, m.tapeLine_eq h]
  case under =>
    rw [← hcaret, ← furtherDigits_eq_zero_iff]
    omega

open Machine in
/-- One cell with two digits before the head, and the caret stands on the blank before the number. -/
theorem head_caret_falls_short_behind_ten :
    let m := (load #[.moveRight] { cells := #[10, 0] } "").after 1
    m.tape.head < m.tape.cells.size ∧ m.dumpCaret 1 + 1 = (m.tapeLineBefore m.tape.head).length ∧
      (m.dumpLine 0).toList[m.dumpCaret 1]? = some ' ' := by
  have hfalls := head_caret_falls_short_by_further_digits
    ((load #[.moveRight] { cells := #[10, 0] } "").after 1) (by decide)
  refine ⟨by decide, ?_, ?_⟩
  · exact hfalls.2.1
  · rw [hfalls.1]
    decide

open Machine in
/-- The caret below the tape does not always stand under the number of the cell under the head. -/
theorem head_caret_misses_number :
    ¬ ∀ m : Machine, m.tape.head < m.tape.cells.size →
      m.dumpCaret 1 = (m.tapeLineBefore m.tape.head).length := by
  intro hunder
  have hcaret := hunder ((load #[.moveRight] { cells := #[10, 0] } "").after 1) (by decide)
  revert hcaret
  decide

end TapeMachine
