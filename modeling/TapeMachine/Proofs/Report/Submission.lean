import TapeMachine.Proofs.Report.Caret
import TapeMachine.Proofs.Report.Comments
import TapeMachine.Proofs.Text.Encoding
import TapeMachine.Proofs.Text.Trim

/-!
# Submissions are all or nothing

A stream is read line by line, and it is a submission exactly if all of its bytes together are the
text of one. Such a text is run as one program if it spells any instruction; the blanks around it are
comments.
-/
namespace TapeMachine

/-! ### Reading a submission -/

/-- What is said of a stream that is not text. -/
def stoppedReading : Notice :=
  .record .warn ("stopped reading submission error=" ++ notText)

theorem readSubmission_toUTF8 (text : String) :
    readSubmission text.toUTF8 = (if text = "" then none else some text, []) := by
  by_cases hempty : text = ""
  · rw [hempty]
    rfl
  · have hjoin := join_textLines text
    rw [if_neg hempty, readSubmission, decodeLines_toUTF8]
    cases hlines : (textLines text.toList).map String.ofList with
    | nil =>
      rw [hlines] at hjoin
      exact absurd hjoin.symm hempty
    | cons line lines =>
      rw [hlines] at hjoin
      simp only [hjoin]

theorem readSubmission_of_not_valid {bytes : ByteArray} (h : ¬ bytes.IsValidUTF8) :
    readSubmission bytes = (none, [stoppedReading]) := by
  rw [readSubmission]
  cases hlines : decodeLines (byteLines bytes.data.toList) with
  | none => rfl
  | some texts => exact absurd (isValidUTF8_iff.mpr ⟨_, toUTF8_join_of_decodeLines hlines⟩) h

theorem readSubmission_eq_some_iff {bytes : ByteArray} {text : String} :
    (readSubmission bytes).1 = some text ↔ bytes ≠ .empty ∧ text.toUTF8 = bytes := by
  by_cases hvalid : bytes.IsValidUTF8
  · obtain ⟨found, rfl⟩ := isValidUTF8_iff.mp hvalid
    rw [readSubmission_toUTF8, ne_eq, toUTF8_eq_empty_iff, toUTF8_inj]
    simp [eq_comm]
  · rw [readSubmission_of_not_valid hvalid]
    constructor
    · intro h
      exact absurd h (by simp)
    · rintro ⟨-, rfl⟩
      exact absurd text.isValidUTF8 hvalid

/-! ### Running a submission -/

theorem Instruction.ofChar?_of_isBlank {c : Char} (h : Text.isBlank c = true) :
    ofChar? c = none := by
  have hvisible : ∀ d ∈ "><+-.,[]".toList, Text.isBlank d = false := by simp [Text.isBlank]
  rw [← Option.not_isSome_iff_eq_none, isSome_ofChar?_iff]
  intro hc
  exact absurd h (by simp [hvisible c hc])

theorem instructionChars_of_blanks {cs : List Char} (h : ∀ c ∈ cs, Text.isBlank c = true) :
    instructionChars cs = [] := by
  apply List.filter_eq_nil_iff.mpr
  intro c hc
  rw [Instruction.ofChar?_of_isBlank (h c hc)]
  decide

/-- The blanks around a text are comments. -/
theorem instructionChars_trim (text : String) :
    instructionChars (Text.trim text).toList = instructionChars text.toList := by
  obtain ⟨front, back, htext, hfront, hback, -, -⟩ := Text.trimmed_trimChars text.toList
  have htrim : (Text.trim text).toList = Text.trimChars text.toList := String.toList_ofList
  rw [htrim]
  conv_rhs => rw [htext]
  rw [instructionChars_append, instructionChars_append, instructionChars_of_blanks hfront,
    instructionChars_of_blanks hback, List.nil_append, List.append_nil]

/-- Some character of the text spells an instruction. -/
def Instructs (text : String) : Prop :=
  ∃ c ∈ text.toList, c ∈ "><+-.,[]".toList

theorem instructionChars_eq_nil_iff {text : String} :
    instructionChars text.toList = [] ↔ ¬ Instructs text := by
  rw [instructionChars, List.filter_eq_nil_iff, Instructs]
  simp [Instruction.isSome_ofChar?_iff]

theorem submit_of_instructs {text : String} (h : Instructs text) (pace : Nat) (s : Settings) :
    submit pace s text = some (execute pace none (Request.ofSubmission s text) .terminal) := by
  have hne : instructionChars (Text.trim text).toList ≠ [] := by
    rw [instructionChars_trim]
    exact fun hnil => instructionChars_eq_nil_iff.mp hnil h
  rw [submit, if_neg (by simpa using hne)]
  rfl

theorem submit_of_not_instructs {text : String} (h : ¬ Instructs text) (pace : Nat)
    (s : Settings) : submit pace s text = none := by
  have hnil : instructionChars (Text.trim text).toList = [] := by
    rw [instructionChars_trim]
    exact instructionChars_eq_nil_iff.mpr h
  rw [submit, hnil]
  rfl

theorem runOnce_of_not_valid {bytes : ByteArray} (h : ¬ bytes.IsValidUTF8) (pace : Nat)
    (s : Settings) : runOnce pace s bytes = { exitCode := 0, notices := [stoppedReading] } := by
  rw [runOnce, readSubmission_of_not_valid h]
  rfl

/-- The session ends well with the report of the program, or with nothing to report. -/
theorem runOnce_toUTF8 (pace : Nat) (s : Settings) (text : String) :
    runOnce pace s text.toUTF8 =
      ((submit pace s text).map fun report => { report with exitCode := 0 }).getD
        { exitCode := 0 } := by
  rw [runOnce, readSubmission_toUTF8]
  by_cases hempty : text = ""
  · rw [hempty]
    rfl
  · simp only [if_neg hempty, Option.bind_some]
    cases submit pace s text <;> rfl

/-- A submission is run as the whole text would be run without trimming, but for the place that an
error shows. -/
theorem alike_execute_trimmed (pace : Nat) (s : Settings) (text : String) :
    (execute pace none (Request.ofSubmission s text) .terminal).Alike (Text.trim text).toList
      text.toList
      (execute pace none { Request.ofSubmission s text with code := text } .terminal) :=
  alike_execute_of_conduct (r := Request.ofSubmission s text) (instructionChars_trim text)
    (fun _ _ => rfl) none

/-- A stream is read as a text exactly if it is not empty and all of its bytes together are UTF-8, and
then the text has exactly these bytes. A stream that is not UTF-8 throughout runs nothing and shows
nothing but a warning, whatever whole lines it begins with. A stream that is text is run exactly if it
spells an instruction. Then all of it is one program: what is shown is what the untrimmed text would
show, but for the place that comes with an error. Else nothing is shown. -/
theorem submissions_are_all_or_nothing (bytes : ByteArray) :
    ((readSubmission bytes).1.isSome ↔ bytes ≠ .empty ∧ bytes.IsValidUTF8) ∧
    (∀ text, (readSubmission bytes).1 = some text ↔ bytes ≠ .empty ∧ text.toUTF8 = bytes) ∧
    ∀ (pace : Nat) (s : Settings),
      (¬ bytes.IsValidUTF8 →
        runOnce pace s bytes = { exitCode := 0, stdout := .empty, notices := [stoppedReading] }) ∧
      ∀ text : String, text.toUTF8 = bytes →
        ((submit pace s text).isSome ↔ Instructs text) ∧
        (¬ Instructs text →
          runOnce pace s bytes = { exitCode := 0, stdout := .empty, notices := [] }) ∧
        (Instructs text →
          let report := execute pace none (Request.ofSubmission s text) .terminal
          let whole := execute pace none { Request.ofSubmission s text with code := text } .terminal
          runOnce pace s bytes = { report with exitCode := 0 } ∧
            report.Alike (Text.trim text).toList text.toList whole) := by
  refine ⟨?valid, ?bytes, fun pace s => ⟨?broken, ?text⟩⟩
  case valid =>
    rw [Option.isSome_iff_exists, isValidUTF8_iff, ← exists_and_left]
    exact exists_congr fun text => readSubmission_eq_some_iff
  case bytes =>
    intro text
    exact readSubmission_eq_some_iff
  case broken =>
    intro h
    exact runOnce_of_not_valid h pace s
  case text =>
    rintro text rfl
    rw [runOnce_toUTF8]
    by_cases h : Instructs text
    · rw [submit_of_instructs h]
      exact ⟨iff_of_true rfl h, fun hnot => absurd h hnot,
        fun _ => ⟨rfl, alike_execute_trimmed pace s text⟩⟩
    · rw [submit_of_not_instructs h]
      exact ⟨iff_of_false (by simp) h, fun _ => rfl, fun hyes => absurd hyes h⟩

/-- The two bytes of a character do not fit on two lines, whatever line stands before them. The same
line runs together with a line that is whole. -/
theorem submissions_are_all_or_nothing_on_two_lines :
    let broken : ByteArray := ⟨#[0x2b, 0x2e, 0x0a, 0xc3, 0x0a, 0xa9]⟩
    let text := "+.\n.é"
    let s : Settings := ⟨0, none, 1⟩
    (readSubmission broken).1 = none ∧ (runOnce 5 s broken).stdout = .empty ∧
      (readSubmission text.toUTF8).1 = some text ∧ (submit 5 s text).isSome ∧
      (runOnce 5 s text.toUTF8).stdout = "\x01\x01\n".toUTF8 := by
  intro broken text s
  have hbroken : ¬ broken.IsValidUTF8 := by decide
  have hspells : Instructs text := ⟨'+', by decide, by decide⟩
  have hstdout : (execute 5 none (Request.ofSubmission s text) .terminal).stdout =
      "\x01\x01\n".toUTF8 := by decide +kernel
  obtain ⟨hvalid, -, hrefused⟩ := submissions_are_all_or_nothing broken
  obtain ⟨-, hread, hruns⟩ := submissions_are_all_or_nothing text.toUTF8
  have hnone : (readSubmission broken).1 = none := by
    rw [← Option.not_isSome_iff_eq_none, hvalid]
    exact fun h => hbroken h.2
  obtain ⟨hsubmit, -, hreport⟩ := (hruns 5 s).2 text rfl
  refine ⟨hnone, ?_, (hread text).mpr ⟨?_, rfl⟩, hsubmit.mpr hspells, ?_⟩
  · rw [(hrefused 5 s).1 hbroken]
  · rw [ne_eq, toUTF8_eq_empty_iff]
    decide
  · simp only [(hreport hspells).1, hstdout]

end TapeMachine
