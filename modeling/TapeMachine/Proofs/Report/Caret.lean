import Mathlib.Data.List.Basic
import TapeMachine.Proofs.Report.Execution
import TapeMachine.Submission

/-!
# Where an error points

An error that has a place in the source is shown with an excerpt. Whatever stands before the place,
it is the place of the character at fault: a bracket without a partner, or the instruction that
failed. The caret stands under the same character.
-/
namespace TapeMachine

/-- A caret behind blanks stands in the column that they leave. -/
theorem Text.idxOf_caret (n : Nat) : (Text.blanks n ++ "^").toList.idxOf '^' = n := by
  have hblank : '^' ∉ List.replicate n ' ' := by simp
  simp [Text.blanks, Text.replicate, List.idxOf_append_of_notMem hblank]

namespace Excerpt

variable {source : List Char} {position : Nat} {c : Char}

/-- The column of the caret in its line, and so in the line above it. -/
def caret (e : Excerpt) : Nat :=
  e.underline.toList.idxOf '^'

theorem caret_around (title : String) (source : List Char) (position : Nat) :
    (around title source position).caret = position - (position - excerptReach) :=
  Text.idxOf_caret _

theorem getElem?_slice (title : String) (source : List Char) {position i : Nat}
    (hi : i < min (position + excerptReach + 1) source.length - (position - excerptReach)) :
    (around title source position).slice.toList[i]? =
      source[position - excerptReach + i]?.map flattened := by
  rw [around, String.toList_ofList, List.getElem?_map, List.getElem?_take_of_lt hi,
    List.getElem?_drop]

/-- The excerpt starts at most as many characters before the place as it reaches. -/
theorem getElem?_slice_caret (title : String) (h : source[position]? = some c) :
    (around title source position).slice.toList[(around title source position).caret]? =
      some (flattened c) := by
  obtain ⟨hlt, -⟩ := List.getElem?_eq_some_iff.mp h
  have hreach : position - (position - excerptReach) <
      min (position + excerptReach + 1) source.length - (position - excerptReach) := by omega
  have hplace : position - excerptReach + (position - (position - excerptReach)) = position := by
    omega
  rw [caret_around, getElem?_slice title source hreach, hplace, h]
  rfl

end Excerpt

theorem flattened_toChar (i : Instruction) : flattened i.toChar = i.toChar := by
  cases i <;> rfl

theorem flattened_bracket (e : BracketError) : flattened e.bracket = e.bracket := by
  cases e <;> rfl

/-- The last thing that is said is an excerpt of the source at this place. The character at the place
is `c`, and so is the one above the caret. -/
structure Report.Points (report : Report) (title : String) (source : List Char) (position : Nat)
    (c : Char) : Prop where
  shown : report.notices.getLast? = some (.text (Excerpt.around title source position).text)
  inside : position < source.length
  char : source[position]? = some c
  caret : (Excerpt.around title source position).slice.toList[
    (Excerpt.around title source position).caret]? = some c

theorem Report.points_of_char {report : Report} {title : String} {source : List Char}
    {position : Nat} {c : Char}
    (hshown : report.notices.getLast? = some (.text (Excerpt.around title source position).text))
    (hchar : source[position]? = some c) (hflat : flattened c = c) :
    report.Points title source position c where
  shown := hshown
  inside := (List.getElem?_eq_some_iff.mp hchar).1
  char := hchar
  caret := by rw [Excerpt.getElem?_slice_caret title hchar, hflat]

section

variable {source : String} {p : Program}

/-- The place of a bracket error is that of the bracket. -/
theorem getElem?_offset_of_error {e : BracketError} (h : Program.parse source = .error e) :
    source.toList[e.offset]? = some e.bracket := by
  have hreading := reading_parse source
  rw [h] at hreading
  generalize source.toList = text at hreading
  cases hreading with
  | unopened before after b hsplit => simp [hsplit, BracketError.offset, BracketError.bracket]
  | unclosed before after n b hsplit => simp [hsplit, BracketError.offset, BracketError.bracket]

/-- The place of rank `k` is held by the instruction character of that rank. -/
theorem getElem?_of_places {text : List Char} {k place : Nat} (h : (places text)[k]? = some place) :
    text[place]? = (instructionChars text)[k]? := by
  have hk : k < (instructionChars text).length := by
    rw [← length_places]
    exact (List.getElem?_eq_some_iff.mp h).1
  have hparts : instructionChars text = (instructionChars text).take k ++
      (instructionChars text)[k] :: (instructionChars text).drop (k + 1) := by simp
  obtain ⟨before, after, hsplit, -, -, hplace⟩ := exists_split_of_instructionChars hparts
  have hrank : ((instructionChars text).take k).length = k := by
    rw [List.length_take]
    omega
  rw [hrank, h] at hplace
  obtain rfl := Option.some.inj hplace
  have hchar : text[before.length]? = some (instructionChars text)[k] := by
    conv_lhs => rw [hsplit]
    simp
  rw [hchar, List.getElem?_eq_getElem hk]

/-- The place of a fault is that of the character that spells the instruction at fault. -/
theorem getElem?_position_of_fault {f : Fault} {i : Instruction}
    (hp : Program.parse source = .ok p) (hi : p.code[f.ip]? = some i) :
    source.toList[f.position p.offsets]? = some i.toChar := by
  obtain ⟨hlt, -⟩ := Array.getElem?_eq_some_iff.mp hi
  rw [getElem?_of_places (getElem?_places_of_fault hp hlt), ← spelling_of_parse hp, spelling,
    List.getElem?_map, Array.getElem?_toList, hi]
  rfl

end

theorem getLast?_notices_of_failed {r : Request} {p : Program} {pace : Nat} {stdin : Stdin}
    {e : Failure} (hp : Program.parse r.code = .ok p)
    (h : (r.conduct pace (r.start p stdin)).ending = .failed e) (program? : Option String) :
    (execute pace program? r stdin).notices.getLast? =
      some (.text (e.report program? r.code p.offsets)) := by
  rw [execute_of_ok hp, conclude, h]
  change (_ ++ r.endNotices program? p _ (some e)).getLast? = _
  rw [Request.endNotices, ← List.append_assoc]
  exact List.getLast?_concat

/-- What is told of a request that comes to an end in time. -/
inductive Request.Told (pace : Nat) (program? : Option String) (r : Request) (stdin : Stdin)
    (report : Report) : Prop where
  | brackets {e : BracketError} (hp : Program.parse r.code = .error e)
    (points : report.Points (attributed program? ("Parse error: " ++ e.summary)) r.code.toList
      e.offset e.bracket)
  | fault {p : Program} {f : Fault} {i : Instruction} (hp : Program.parse r.code = .ok p)
    (ending : (r.conduct pace (r.start p stdin)).ending = .failed (.fault f))
    (edge : Machine.EdgeFault p.code (r.conduct pace (r.start p stdin)).machine.tape f)
    (instruction : p.code[f.ip]? = some i)
    (points : report.Points (attributed program? ("Runtime error: " ++ f.summary)) r.code.toList
      (f.position p.offsets) i.toChar)
  | stepLimit {p : Program} {n : Nat} (hp : Program.parse r.code = .ok p)
    (ending : (r.conduct pace (r.start p stdin)).ending = .failed (.stepLimit n))
    (limit : r.maxSteps = some n)
    (shown : report.notices.getLast? = some (.text (attributed program?
      ("Execution aborted: step limit exceeded (" ++ toString n ++ ")") ++ "\n")))
  | halted {p : Program} (hp : Program.parse r.code = .ok p)
    (ending : (r.conduct pace (r.start p stdin)).ending = .halted)
    (exitCode : report.exitCode = 0)

theorem told_execute {pace : Nat} {r : Request} {stdin : Stdin} (h : r.InTime pace stdin)
    (program? : Option String) : r.Told pace program? stdin (execute pace program? r stdin) := by
  cases hp : Program.parse r.code with
  | error e =>
    refine .brackets hp (Report.points_of_char ?_ (getElem?_offset_of_error hp)
      (flattened_bracket e))
    rw [execute_of_error hp, Failure.report_brackets]
    rfl
  | ok p =>
    cases hend : (r.conduct pace (r.start p stdin)).ending with
    | halted =>
      refine .halted hp hend ?_
      rw [execute_of_ok hp, conclude, hend]
      rfl
    | unfinished => exact absurd hend (h p hp)
    | failed e =>
      have hshown := getLast?_notices_of_failed hp hend program?
      rcases Request.failure_of_conduct hp hend with ⟨f, rfl, -⟩ | ⟨n, hlimit, rfl⟩
      · have hedge := Request.edgeFault_of_conduct hp hend
        obtain ⟨i, hi⟩ := hedge.exists_instruction
        exact .fault hp hend hedge hi
          (Report.points_of_char hshown (getElem?_position_of_fault hp hi) (flattened_toChar i))
      · exact .stepLimit hp hend hlimit hshown

namespace Request.Told

variable {pace : Nat} {program? : Option String} {r : Request} {stdin : Stdin} {report : Report}

theorem points_of_error (h : r.Told pace program? stdin report) {e : BracketError}
    (he : Program.parse r.code = .error e) :
    report.Points (attributed program? ("Parse error: " ++ e.summary)) r.code.toList e.offset
      e.bracket := by
  cases h with
  | brackets hp points =>
    obtain rfl := Except.error.inj (hp.symm.trans he)
    exact points
  | fault hp => exact absurd (hp.symm.trans he) (by simp)
  | stepLimit hp => exact absurd (hp.symm.trans he) (by simp)
  | halted hp => exact absurd (hp.symm.trans he) (by simp)

theorem points_of_fault (h : r.Told pace program? stdin report) {p : Program} {f : Fault}
    {i : Instruction} (hp : Program.parse r.code = .ok p)
    (hf : (r.conduct pace (r.start p stdin)).ending = .failed (.fault f))
    (hi : p.code[f.ip]? = some i) :
    report.Points (attributed program? ("Runtime error: " ++ f.summary)) r.code.toList
      (f.position p.offsets) i.toChar := by
  cases h with
  | brackets hp' => exact absurd (hp'.symm.trans hp) (by simp)
  | fault hp' hf' _ hi' points =>
    obtain rfl := Except.ok.inj (hp'.symm.trans hp)
    obtain rfl := Failure.fault.inj (Ending.failed.inj (hf'.symm.trans hf))
    obtain rfl := Option.some.inj (hi'.symm.trans hi)
    exact points
  | stepLimit hp' hf' =>
    obtain rfl := Except.ok.inj (hp'.symm.trans hp)
    exact absurd (hf'.symm.trans hf) (by simp)
  | halted hp' hf' =>
    obtain rfl := Except.ok.inj (hp'.symm.trans hp)
    exact absurd (hf'.symm.trans hf) (by simp)

end Request.Told

/-- What a submission requests. -/
def Request.ofSubmission (s : Settings) (text : String) : Request :=
  { Request.ofSettings (Text.trim text) s with input? := some "" }

/-- Every error that comes in time, but for a step limit, points at the character at fault: the
bracket without a partner that its title names, or the instruction that moved left on the first cell
or printed on an empty tape. A submission is told of its text without the blanks around it. -/
theorem errors_point_at_their_cause :
    (∀ (pace : Nat) (program? : Option String) (r : Request) (stdin : Stdin),
      r.InTime pace stdin → r.Told pace program? stdin (execute pace program? r stdin)) ∧
    ∀ (pace : Nat) (s : Settings) (text : String) (report : Report),
      submit pace s text = some report → (Request.ofSubmission s text).InTime pace .terminal →
        (Request.ofSubmission s text).Told pace none .terminal report := by
  constructor
  · intro pace program? r stdin h
    exact told_execute h program?
  · intro pace s text report hreport h
    rw [submit] at hreport
    split at hreport
    · exact absurd hreport (by simp)
    · obtain rfl := Option.some.inj hreport
      exact told_execute h none

/-- Places are counted in characters. Neither a table nor the blanks around a submission count. -/
theorem errors_point_at_their_cause_behind_comments :
    (execute 1 none ⟨"é[é", none, 1, none, 1, false, false⟩ .terminal).Points
        "Parse error: unmatched bracket '['" "é[é".toList 1 '[' ∧
      (execute 2 (some "bf") ⟨"é\t<", none, 1, none, 1, true, false⟩ .terminal).Points
        "bf: Runtime error: data pointer out of bounds (ptr=-1)" "é\t<".toList 2 '<' ∧
      ∃ report, submit 2 ⟨0, none, 1⟩ "  é.\n" = some report ∧
        report.Points "Runtime error: data pointer out of bounds (ptr=0)" "é.".toList 1 '.' := by
  obtain ⟨hexecute, hsubmit⟩ := errors_point_at_their_cause
  have hopen : Program.parse "é[é" = .error (.unmatchedOpen 1) := by rfl
  have hleft : Program.parse "é\t<" = .ok ⟨#[.moveLeft], #[2]⟩ := by rfl
  have hprint : Program.parse (Text.trim "  é.\n") = .ok ⟨#[.output], #[1]⟩ := by rfl
  refine ⟨?_, ?_, _, rfl, ?_⟩
  · have htold := hexecute 1 none ⟨"é[é", none, 1, none, 1, false, false⟩ .terminal
      (fun p hp => absurd (hopen.symm.trans hp) (by simp))
    exact htold.points_of_error hopen
  · have htold := hexecute 2 (some "bf") ⟨"é\t<", none, 1, none, 1, true, false⟩ .terminal
      (Request.inTime_of_parse hleft (by decide))
    exact htold.points_of_fault (f := .cell 0 (-1)) (i := .moveLeft) hleft (by decide) (by rfl)
  · have htold := hsubmit 2 ⟨0, none, 1⟩ "  é.\n" _ rfl (Request.inTime_of_parse hprint (by decide))
    exact htold.points_of_fault (f := .cell 0 0) (i := .output) hprint (by decide) (by rfl)

end TapeMachine
