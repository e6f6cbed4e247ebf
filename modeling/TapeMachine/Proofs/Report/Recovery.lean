import Std.Data.String.ToNat
import TapeMachine.Proofs.Report.Dump

/-!
# What a dump tells

A dump tells the tape, its head, the place in the code and the code of a machine on a program, and
nothing else: no other such state is dumped the same way. The numbers and the characters are read
back from their lines, and the jump targets, which are not shown, from the brackets.
-/
namespace TapeMachine

section

variable {separator text : String} {texts texts' back : List String} {c : Char} {pad : List Char}

/-- The pad of a separator may be counted among the pieces behind the first one. -/
theorem intercalate_padded (piece : List Char) (pieces : List (List Char)) :
    (c :: pad).intercalate (piece :: pieces) = [c].intercalate (piece :: pieces.map (pad ++ ·)) := by
  induction pieces generalizing piece with
  | nil => simp
  | cons next pieces ih =>
    rw [List.intercalate_cons_cons, ih, List.map_cons, List.intercalate_cons_cons]
    cases pieces <;> simp

/-- Texts are read back at the character that opens the separator between them. -/
theorem splitOn_intercalate_padded (hseparator : separator.toList = c :: pad) (hpad : c ∉ pad)
    (h : ∀ t ∈ text :: back, c ∉ t.toList) :
    (separator.intercalate (text :: back)).toList.splitOn c =
      text.toList :: back.map fun t => pad ++ t.toList := by
  obtain ⟨htext, hback⟩ := List.forall_mem_cons.mp h
  rw [String.toList_intercalate, hseparator, List.map_cons, intercalate_padded,
    List.splitOn_intercalate c]
  · simp
  · simpa [htext, hpad] using hback
  · simp

theorem intercalate_cons_ne_empty (h : text ≠ "") : separator.intercalate (text :: back) ≠ "" := by
  rw [intercalate_cons]
  simp [h]

/-- What separates texts leaves no doubt about them, if none of them is empty or has the character
that opens the separator. -/
theorem intercalate_injective (hseparator : separator.toList = c :: pad) (hpad : c ∉ pad)
    (h : ∀ t ∈ texts, t ≠ "" ∧ c ∉ t.toList) (h' : ∀ t ∈ texts', t ≠ "" ∧ c ∉ t.toList)
    (hequal : separator.intercalate texts = separator.intercalate texts') : texts = texts' := by
  cases texts with
  | nil =>
    cases texts' with
    | nil => rfl
    | cons text' back' =>
      exact absurd hequal.symm (intercalate_cons_ne_empty (h' _ List.mem_cons_self).1)
  | cons text back =>
    cases texts' with
    | nil => exact absurd hequal (intercalate_cons_ne_empty (h _ List.mem_cons_self).1)
    | cons text' back' =>
      have hread := splitOn_intercalate_padded hseparator hpad fun t ht => (h t ht).2
      rw [hequal, splitOn_intercalate_padded hseparator hpad fun t ht => (h' t ht).2] at hread
      have hpadded : Function.Injective fun t : String => pad ++ t.toList := by
        intro t t' ht
        exact String.toList_inj.mp (List.append_cancel_left ht)
      rw [String.toList_inj.mp (List.cons.inj hread).1,
        List.map_injective_iff.mpr hpadded (List.cons.inj hread).2]

end

/-- Different bytes have different numerals. -/
theorem toString_byte_injective : Function.Injective fun v : UInt8 => toString v := by
  intro v w h
  apply UInt8.toNat_inj.mp
  apply Nat.repr_injective
  exact h

/-- The jump targets of a program are recovered from its characters. -/
theorem code_eq_of_spelling_eq {source source' : String} {p p' : Program}
    (hp : Program.parse source = .ok p) (hp' : Program.parse source' = .ok p')
    (h : spelling p.code = spelling p'.code) : p.code = p'.code := by
  obtain ⟨b, hb, hcode⟩ := exists_block_of_parse hp
  obtain ⟨b', hb', hcode'⟩ := exists_block_of_parse hp'
  rw [spelling_of_parse hp, spelling_of_parse hp', ← hb, ← hb'] at h
  rw [hcode, hcode', Block.chars_injective h]

namespace Machine

variable {m m' : Machine} {k : Nat}

/-! ### Reading the lines -/

theorem cells_eq_of_tapeLine_eq (h : m.tapeLine = m'.tapeLine) : m.tape.cells = m'.tape.cells := by
  have hcomma (v : UInt8) : toString v ≠ "" ∧ ',' ∉ (toString v).toList := by
    simp [Text.toString_byte, Text.not_mem_toDigits]
  rw [tapeLine, tapeLine, String.append_assoc, String.append_assoc, String.append_right_inj,
    String.append_left_inj] at h
  apply Array.toList_inj.mp
  apply List.map_injective_iff.mpr toString_byte_injective
  apply intercalate_injective (show _ = [',', ' '] from rfl) (by decide) _ _ h
  all_goals simp [hcomma]

theorem spelling_eq_of_codeLine_eq (h : m.codeLine = m'.codeLine) :
    spelling m.code = spelling m'.code := by
  have hblank (i : Instruction) : i.toChar ≠ ' ' := by
    cases i <;> simp [Instruction.toChar]
  have hsingle : Function.Injective String.singleton := by
    intro c d hcd
    simpa using congrArg String.toList hcd
  have htexts (m : Machine) : m.code.toList.map (fun i => String.singleton i.toChar) =
      (spelling m.code).map String.singleton := by
    rw [spelling, List.map_map]
    rfl
  apply List.map_injective_iff.mpr hsingle
  rw [← htexts, ← htexts]
  apply intercalate_injective (show _ = [' '] from rfl) (by decide) _ _ h
  all_goals simp [Ne.symm (hblank _)]

/-- A dump shows nothing but these. -/
theorem dump_congr (hcells : m.tape.cells = m'.tape.cells) (hhead : m.tape.head = m'.tape.head)
    (hip : m.ip = m'.ip) (hcode : m.code = m'.code) : m.dump = m'.dump := by
  simp only [dump, dumpLines, tapeLine, headLine, codeLine, ipLine, ruleLine, hcells, hhead, hip,
    hcode]

theorem shown_of_dump_eq (h : m.dump = m'.dump) : m.tape.cells = m'.tape.cells ∧
    m.tape.head = m'.tape.head ∧ m.ip = m'.ip ∧ spelling m.code = spelling m'.code := by
  have hline (k : Nat) : m.dumpLine k = m'.dumpLine k := by rw [dumpLine, dumpLine, h]
  have htape : m.tapeLine = m'.tapeLine := by
    rw [← m.dumpLine_of_getElem? (k := 0) rfl, hline, m'.dumpLine_of_getElem? rfl]
  have hcode : m.codeLine = m'.codeLine := by
    rw [← m.dumpLine_of_getElem? (k := 3) rfl, hline, m'.dumpLine_of_getElem? rfl]
  have hhead : m.dumpCaret 1 = m'.dumpCaret 1 := by rw [dumpCaret, dumpCaret, hline]
  have hip : m.dumpCaret 4 = m'.dumpCaret 4 := by rw [dumpCaret, dumpCaret, hline]
  rw [dumpCaret_head, dumpCaret_head] at hhead
  rw [dumpCaret_ip, dumpCaret_ip] at hip
  exact ⟨cells_eq_of_tapeLine_eq htape, by omega, by omega, spelling_eq_of_codeLine_eq hcode⟩

end Machine

open Machine in
/-- The dump tells the state faithfully. Two machines on programs, after any steps, are dumped the
same way exactly if they agree on the tape, the head, the place in the code and the code with all its
jump targets. And as long as a machine does not rest, the line below its code has its caret in the
column of the instruction that runs next. -/
theorem dump_tells_state :
    (∀ {source source' : String} {p p' : Program}, Program.parse source = .ok p →
      Program.parse source' = .ok p' →
      ∀ (cells cells' : Array UInt8) (input input' : String) (n n' : Nat),
        let m := (load p.code { cells } input).after n
        let m' := (load p'.code { cells := cells' } input').after n'
        m.dump = m'.dump ↔ m.tape.cells = m'.tape.cells ∧ m.tape.head = m'.tape.head ∧
          m.ip = m'.ip ∧ m.code = m'.code) ∧
    ∀ m : Machine, m.halted = false → ∃ i, m.current? = some i ∧
      let before := m.codeLineBefore m.ip
      m.dumpLine 3 = before ++ String.singleton i.toChar ++ m.codeLineBehind m.ip ∧
        m.dumpLine 4 = Text.blanks before.length ++ "^" := by
  constructor
  · intro source source' p p' hp hp' cells cells' input input' n n' m m'
    constructor
    · intro h
      obtain ⟨hcells, hhead, hip, hspelling⟩ := shown_of_dump_eq h
      have hcode : m.code = m'.code := by
        rw [code_after, code_after] at hspelling ⊢
        exact code_eq_of_spelling_eq hp hp' hspelling
      exact ⟨hcells, hhead, hip, hcode⟩
    · rintro ⟨hcells, hhead, hip, hcode⟩
      exact dump_congr hcells hhead hip hcode
  · intro m h
    have hlt : m.ip < m.code.size := halted_eq_false_iff.mp h
    refine ⟨m.code[m.ip], Array.getElem?_eq_getElem hlt, ?code, ?caret⟩
    case code =>
      rw [m.dumpLine_of_getElem? rfl]
      exact m.codeLine_eq (Array.getElem?_eq_getElem hlt)
    case caret =>
      rw [m.dumpLine_of_getElem? rfl, m.length_codeLineBefore hlt.le]
      rfl

open Machine in
/-- The sources, the first tapes, the inputs and the numbers of steps differ, but not what is dumped
of the loop. -/
theorem dump_tells_state_in_a_loop :
    let code : Array Instruction := #[.increment, .loopStart 3, .loopEnd 2]
    let m := (load code { cells := #[] } "").after 2
    let m' := (load code { cells := #[0] } "é").after 3
    (Program.parse "+[]" = .ok ⟨code, #[0, 1, 2]⟩ ∧ Program.parse "+ []" = .ok ⟨code, #[0, 2, 3]⟩ ∧
      m.dump = m'.dump ∧ m.steps ≠ m'.steps) ∧
    m.halted = false ∧ ∃ i, m.current? = some i ∧
      m.dumpLine 3 = "+ [ " ++ String.singleton i.toChar ∧ m.dumpLine 4 = "    ^" := by
  intro code m m'
  have hp : Program.parse "+[]" = .ok ⟨code, #[0, 1, 2]⟩ := by rfl
  have hp' : Program.parse "+ []" = .ok ⟨code, #[0, 2, 3]⟩ := by rfl
  have hlive : m.halted = false := by decide
  have hbefore : m.codeLineBefore m.ip = "+ [ " := by decide
  have hbehind : m.codeLineBehind m.ip = "" := by decide
  obtain ⟨htell, hcaret⟩ := dump_tells_state
  have hdump : m.dump = m'.dump :=
    (htell hp hp' #[] #[0] "" "é" 2 3).mpr ⟨by decide, by decide, by decide, by decide⟩
  refine ⟨⟨hp, hp', hdump, by decide⟩, hlive, ?_⟩
  obtain ⟨i, hi, hcode, hline⟩ := hcaret m hlive
  rw [hbefore, hbehind, String.append_empty] at hcode
  rw [hbefore] at hline
  exact ⟨i, hi, hcode, hline⟩

end TapeMachine
