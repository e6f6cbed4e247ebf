import TapeMachine.Proofs.Execution.Transcript
import TapeMachine.Proofs.Report.Answer
import TapeMachine.Proofs.Report.Submission

/-!
# Blanks around a submission

A submission is its text without the blanks around it. So more blanks change nothing of what it
leaves behind, not even the place of an error, and the program is executed as a request of its own
that has nothing to read.
-/
namespace TapeMachine

/-- What is left behind when a text is submitted: nothing at all if it is not run. -/
def submitted (pace : Nat) (s : Settings) (text : String) : Report :=
  (submit pace s text).getD { exitCode := 0 }

/-- The request for a program under the settings that has nothing to read. -/
def Request.readless (s : Settings) (code : String) : Request where
  code := code
  input? := some ""
  memorySize := s.memorySize
  maxSteps := s.maxSteps
  timeoutMs := s.timeoutMs

theorem Request.ofSubmission_eq_readless {text core : String}
    (h : Text.Trimmed text.toList core.toList) (s : Settings) :
    ofSubmission s text = readless s core := by
  rw [ofSubmission, Text.trim_eq_of_trimmed h, String.ofList_toList]
  rfl

/-- The machine that a request leaves is where some steps lead. -/
theorem Request.exists_after_conduct (pace : Nat) (r : Request) (m : Machine) :
    ∃ n, (r.conduct pace m).machine = m.after n := by
  have hmachine : (r.conduct pace m).machine = (m.drive r.control (r.patience pace)).machine :=
    congrArg Run.machine (conduct_driven pace r m)
  rw [hmachine]
  exact (Machine.driveFrom_leadsTo r.control (r.patience pace) 0 m).exists_after

namespace Machine

variable (code : Array Instruction) (tape : Tape) (n : Nat)

theorem input_after_load_empty :
    ((load code tape "").after n).input = .afterReads "" ((load code tape "").readsIn n) :=
  input_after rfl n

/-- Without a text the cursor stays where it is. -/
theorem cursor_after_load_empty : ((load code tape "").after n).input.cursor = 0 := by
  rw [input_after_load_empty]
  exact Nat.min_zero _

/-- Without a text every read gives zero. -/
theorem getElem?_read_of_load_empty (h : ((load code tape "").after n).Reads) :
    ((load code tape "").after (n + 1)).tape.cells[((load code tape "").after n).tape.head]? =
      some 0 := by
  have hzero (k : Nat) : stream "" k = 0 := stream_of_length_le (Nat.zero_le k)
  rw [after_succ, getElem?_step_of_reads h, input_after_load_empty, Feed.next_afterReads, hzero]

end Machine

theorem submit_surrounded {front back : List Char} (hfront : ∀ c ∈ front, Text.isBlank c = true)
    (hback : ∀ c ∈ back, Text.isBlank c = true) (pace : Nat) (s : Settings) (text : String) :
    submit pace s (String.ofList (front ++ (text.toList ++ back))) = submit pace s text := by
  have htrim : Text.trim (String.ofList (front ++ (text.toList ++ back))) = Text.trim text := by
    rw [Text.trim, Text.trim, String.toList_ofList, Text.trimChars_surrounded hfront hback]
  rw [submit, submit, htrim]

/-- A text is run exactly if one of the eight instruction characters stands anywhere in it, and else
it leaves nothing behind. If it is run, its report is that of the request for the trimmed text with
nothing to read, whatever standard input holds, and at any pace that is in time; every read of this
program gives zero, and the cursor never moves. Blanks put around the text change nothing of the
report, the place of an error and the excerpt with it included. -/
theorem submissions_ignore_blanks_around_them (s : Settings) (text : String) :
    (∀ pace, ((submit pace s text).isSome ↔ Instructs text) ∧
      (¬ Instructs text → (submitted pace s text).stdout = .empty ∧
        ∀ write, (submitted pace s text).stderrWith write = "")) ∧
    (∀ core : String, Text.Trimmed text.toList core.toList →
      let request := Request.readless s core
      (Instructs text →
        (∀ pace stdin, submit pace s text = some (execute pace none request stdin)) ∧
        ∀ pace pace' stdin stdin', request.InTime pace stdin → request.InTime pace' stdin' →
          submit pace s text = some (execute pace' none request stdin')) ∧
      ∀ p, Program.parse core = .ok p →
        let m := Machine.load p.code (Tape.blank s.memorySize) ""
        (∀ pace stdin, ∃ n, (request.conduct pace (request.start p stdin)).machine = m.after n) ∧
        ∀ n, (m.after n).input.cursor = 0 ∧ ((m.after n).Reads →
          (m.after (n + 1)).tape.cells[(m.after n).tape.head]? = some 0)) ∧
    ∀ front back : List Char, (∀ c ∈ front, Text.isBlank c = true) →
      (∀ c ∈ back, Text.isBlank c = true) → ∀ pace,
        submit pace s (String.ofList (front ++ (text.toList ++ back))) = submit pace s text := by
  refine ⟨fun pace => ?ran, fun core hcore => ⟨fun h => ?report, fun p hp => ?reads⟩, ?blanks⟩
  case ran =>
    by_cases h : Instructs text
    · rw [submit_of_instructs h]
      exact ⟨iff_of_true rfl h, fun hnot => absurd h hnot⟩
    · rw [submitted, submit_of_not_instructs h]
      exact ⟨iff_of_false (by simp) h, fun _ => ⟨rfl, fun _ => rfl⟩⟩
  case report =>
    have hreport (pace : Nat) (stdin : Stdin) :
        submit pace s text = some (execute pace none (Request.readless s core) stdin) := by
      rw [submit_of_instructs h, Request.ofSubmission_eq_readless hcore]
      rfl
    refine ⟨hreport, fun pace pace' stdin stdin' ht ht' => ?_⟩
    rw [hreport pace stdin]
    exact congrArg some (execute_eq_of_inTime (fun _ => rfl) ht ht' none)
  case reads =>
    intro m
    constructor
    · intro pace stdin
      exact Request.exists_after_conduct pace _ _
    · intro n
      exact ⟨Machine.cursor_after_load_empty _ _ n, Machine.getElem?_read_of_load_empty _ _ n⟩
  case blanks =>
    intro front back hfront hback pace
    exact submit_surrounded hfront hback pace s text

/-- Blanks of four kinds stand around the program. The tab within it stays, and so the fault keeps its
place. What is read is a zero, at a terminal as before bytes that are no text, and is put out. -/
theorem submissions_ignore_blanks_around_them_but_not_within :
    let s : Settings := ⟨0, some 5, 1⟩
    let request := Request.readless s ",.\t<"
    let broken : Stdin := .piped ⟨#[0xff]⟩
    let m := Machine.load #[.input, .output, .moveLeft] (Tape.blank 0) ""
    Instructs ",.\t<\n" ∧ request.InTime 4 broken ∧ request.InTime 5 .terminal ∧
      submit 4 s ",.\t<\n" = some (execute 5 none request .terminal) ∧
      submit 4 s "\u2003\x0b,.\t<\n\u00a0" = submit 4 s ",.\t<\n" ∧
      (m.after 0).Reads ∧ (m.after (0 + 1)).tape.cells[(m.after 0).tape.head]? = some 0 ∧
      (submitted 4 s "é\n").stdout = .empty ∧ (submitted 4 s ",.\t<\n").exitCode = 1 ∧
      (submitted 4 s ",.\t<\n").stdout = "\x00\n".toUTF8 ∧
      (submitted 4 s ",.\t<\n").notices.getLast? = some (.text
        "Runtime error: data pointer out of bounds (ptr=-1) at position 3\n  ,. <\n     ^\n") := by
  have hp : Program.parse ",.\t<" = .ok ⟨#[.input, .output, .moveLeft], #[0, 1, 3]⟩ := by rfl
  have hspells : Instructs ",.\t<\n" := ⟨',', by decide, by decide⟩
  have hsilent : ¬ Instructs "é\n" := instructionChars_eq_nil_iff.mp (by decide)
  have hin : (Request.readless ⟨0, some 5, 1⟩ ",.\t<").InTime 4 (.piped ⟨#[0xff]⟩) :=
    Request.inTime_of_parse hp (by decide)
  have hin' : (Request.readless ⟨0, some 5, 1⟩ ",.\t<").InTime 5 .terminal :=
    Request.inTime_of_parse hp (by decide)
  have htrimmed : Text.Trimmed ",.\t<\n".toList ",.\t<".toList := Text.trimmed_iff.mpr (by decide)
  obtain ⟨-, hcore, hblanks⟩ := submissions_ignore_blanks_around_them ⟨0, some 5, 1⟩ ",.\t<\n"
  obtain ⟨hran, -, -⟩ := submissions_ignore_blanks_around_them ⟨0, some 5, 1⟩ "é\n"
  obtain ⟨hreport, hprogram⟩ := hcore _ htrimmed
  refine ⟨hspells, hin, hin', (hreport hspells).2 4 5 _ _ hin hin', ?blanks, by decide, ?read,
    ((hran 4).2 hsilent).1, by decide +kernel, by decide +kernel, by decide +kernel⟩
  case blanks =>
    have hfront : ∀ c ∈ ['\u2003', '\x0b'], Text.isBlank c = true :=
      List.forall_mem_cons.mpr ⟨rfl, List.forall_mem_singleton.mpr rfl⟩
    exact hblanks _ ['\u00a0'] hfront (List.forall_mem_singleton.mpr rfl) 4
  case read => exact ((hprogram _ hp).2 0).2 (by decide)

end TapeMachine
