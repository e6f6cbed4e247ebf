import TapeMachine.Proofs.Text.Numeral
import TapeMachine.Trace.Row

/-!
# The columns of a row

A row is one line. Cut at its first five bars and trimmed, it gives back the number of the step, the
place of the machine before it, the instruction and the text of the action.
-/
namespace TapeMachine.Trace
open Text

/-- The parts of a line before its first `n` bars, and the rest of it. -/
def cut : Nat → List Char → List (List Char)
  | 0, line => [line]
  | n + 1, line => line.takeWhile (· != '|') :: cut n (line.dropWhile (· != '|')).tail

theorem cut_bar {front : List Char} (h : '|' ∉ front) (n : Nat) (rest : List Char) :
    cut (n + 1) (front ++ '|' :: rest) = front :: cut n rest := by
  have hfront : ∀ c ∈ front, (c != '|') = true := by
    intro c hc
    have hne : c ≠ '|' := fun he => h (he ▸ hc)
    simpa using hne
  rw [cut, List.takeWhile_append_of_pos hfront, List.dropWhile_append_of_pos hfront]
  simp

/-- The six columns of a line of the table. The last one may hold bars of its own. -/
def columns (line : String) : List String :=
  (cut 5 line.toList).map fun column => trim (String.ofList column)

/-- A row without the newline behind it. -/
def Row.line (r : Row) : String :=
  Text.padRight 4 (toString r.step) ++ " | " ++
    Text.padRight 3 (toString r.before.ip) ++ " | " ++
    Text.padRight 3 (toString r.before.head) ++ " | " ++
    Text.padRight 4 (toString r.before.cell) ++ " |  " ++
    String.singleton r.instruction.toChar ++ "    | " ++ r.action.text

theorem Row.text_eq (r : Row) : r.text = r.line ++ "\n" := rfl

theorem newline_not_mem_message (f : Fault) : '\n' ∉ f.message.toList := by
  delta Fault.message
  cases f with
  | cell ip pointer => simp [Int.toString_eq_repr, newline_not_mem_int]
  | jump ip target => simp

theorem newline_not_mem_action (a : Action) : '\n' ∉ a.text.toList := by
  delta Action.text
  cases a <;> simp [newline_not_mem_message, newline_not_mem_quoted, toString_byte]

theorem solid_message (f : Fault) : Solid f.message where
  opens := by
    cases f <;> exact .append (.append (.append (by decide) _) _) _
  closes := by
    cases f with
    | cell ip | jump ip => exact (solid_nat ip).closes.append _

theorem solid_action (a : Action) : Solid a.text where
  opens := by
    cases a with
    | moved | received | skippedLoop | repeatedLoop | failed => exact .append (by decide) _
    | printed => exact .append (.append (.append (by decide) _) _) _
    | increased | decreased =>
      exact .append (.append (.append (.append (.append (by decide) _) _) _) _) _
    | exhausted | enteredLoop | leftLoop => decide
  closes := by
    cases a with
    | moved n | skippedLoop n | repeatedLoop n => exact (solid_nat n).closes.append _
    | received b | increased _ _ b | decreased _ _ b => exact (solid_byte b).closes.append _
    | printed b =>
      have hquoted : Closes (quoted b) := Closes.append (by decide) _
      exact hquoted.append _
    | failed f => exact (solid_message f).closes.append _
    | exhausted | enteredLoop | leftLoop => decide

theorem toList_padRight (width : Nat) (text : String) :
    (padRight width text).toList = text.toList ++ List.replicate (width - text.length) ' ' := by
  simp [padRight, blanks, replicate]

theorem toChar_ne_newline (i : Instruction) : i.toChar ≠ '\n' := by
  cases i <;> simp [Instruction.toChar]

theorem toChar_ne_bar (i : Instruction) : i.toChar ≠ '|' := by
  cases i <;> simp [Instruction.toChar]

theorem solid_toChar (i : Instruction) : Solid (String.singleton i.toChar) :=
  solid_singleton (by cases i <;> rfl)

theorem newline_not_mem_line (r : Row) : '\n' ∉ r.line.toList := by
  delta Row.line
  simp [toList_padRight, newline_not_mem_action, toString_byte, Ne.symm (toChar_ne_newline _)]

theorem bar_not_mem_between {text : String} (h : '|' ∉ text.toList) (front back : Nat) :
    '|' ∉ between front text back := by
  simp [between, h]

theorem columns_line (r : Row) : columns r.line = [toString r.step, toString r.before.ip,
    toString r.before.head, toString r.before.cell, String.singleton r.instruction.toChar,
    r.action.text] := by
  have hnat (n : Nat) : '|' ∉ (toString n).toList := by simp
  have hbyte (b : UInt8) : '|' ∉ (toString b).toList := hnat b.toNat
  have hchar : '|' ∉ (String.singleton r.instruction.toChar).toList := by
    simpa using (toChar_ne_bar r.instruction).symm
  have hline : r.line.toList =
      between 0 (toString r.step) (4 - (toString r.step).length + 1) ++ '|' ::
        (between 1 (toString r.before.ip) (3 - (toString r.before.ip).length + 1) ++ '|' ::
          (between 1 (toString r.before.head) (3 - (toString r.before.head).length + 1) ++ '|' ::
            (between 1 (toString r.before.cell) (4 - (toString r.before.cell).length + 1) ++ '|' ::
              (between 2 (String.singleton r.instruction.toChar) 4 ++ '|' ::
                between 1 r.action.text 0)))) := by
    delta Row.line
    simp [toList_padRight, between, List.replicate_succ']
  rw [columns, hline, cut_bar (bar_not_mem_between (hnat _) _ _),
    cut_bar (bar_not_mem_between (hnat _) _ _), cut_bar (bar_not_mem_between (hnat _) _ _),
    cut_bar (bar_not_mem_between (hbyte _) _ _),
    cut_bar (bar_not_mem_between hchar _ _), cut]
  simp only [List.map_cons, List.map_nil, trim_between (solid_nat _), trim_between (solid_byte _),
    trim_between (solid_toChar _), trim_between (solid_action _)]

example : columns "7    | 3   | 0   | 124  |  .    | Output byte 124 '|'" =
    ["7", "3", "0", "124", ".", "Output byte 124 '|'"] := by
  decide +kernel

end TapeMachine.Trace
