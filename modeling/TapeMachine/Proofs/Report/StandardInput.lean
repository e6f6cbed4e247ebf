import TapeMachine.Proofs.Execution.Stream
import TapeMachine.Proofs.Report.Answer
import TapeMachine.Proofs.Trace.Simulation

/-!
# Standard input that is not read

A request for a program without an instruction that reads leaves standard input alone. Nobody can
tell: no step of such a program looks at its feed, so it would do the same with any text to read.
-/
namespace TapeMachine

namespace Machine
open Trace

/-- The machines run the same code, which never reads, and differ at most in their feeds. -/
inductive Refed (m : Machine) : Machine → Prop where
  | refeed (h : .input ∉ m.code) (f : Feed) : Refed m (m.withInput f)

variable {m m' : Machine}

theorem not_reads_of_not_mem (h : .input ∉ m.code) : ¬ m.Reads := by
  intro hreads
  exact h (Array.mem_of_getElem? hreads)

theorem step_refed (h : .input ∉ m.code) (f : Feed) :
    (m.withInput f).step = m.step.withInput f := by
  have hnot := not_reads_of_not_mem h
  rw [step_withInput f fun hreads => absurd hreads hnot, if_neg hnot]

/-- Only the action of an instruction that reads depends on the feed. -/
theorem action_refed (m : Machine) (f : Feed) (s : Stepped) {i : Instruction} (hi : i ≠ .input) :
    Action.of (Snapshot.of (m.withInput f)) i (s.withInput f) = Action.of (Snapshot.of m) i s := by
  rcases s with ⟨m', _ | fault⟩
  · cases i with
    | input => exact absurd rfl hi
    | _ => rfl
  · rfl

theorem simulation_refed : Simulation Refed where
  current? h := by
    cases h
    rfl
  row h executed i hi := by
    obtain ⟨hcode, f⟩ := h
    have hother : i ≠ .input := by
      rintro rfl
      exact not_reads_of_not_mem hcode hi
    rw [row, row, step_refed hcode, Row.text, Row.text, action_refed _ _ _ hother]
    rfl
  fault? h := by
    obtain ⟨hcode, f⟩ := h
    rw [step_refed hcode]
    rfl
  step {m m'} h := by
    obtain ⟨hcode, f⟩ := h
    rw [step_refed hcode]
    exact .refeed (m.step_effect.code ▸ hcode) f

end Machine

/-- A report shows nothing of what is left to read. -/
theorem conclude_refed {t t' : Traced} (h : Machine.Simulated Machine.Refed t t')
    (program? : Option String) (r : Request) (p : Program) :
    conclude program? r p t = conclude program? r p t' := by
  obtain ⟨hending, hmachine, hsink⟩ := h
  obtain ⟨ending, m, sink⟩ := t
  obtain ⟨ending', m', sink'⟩ := t'
  obtain rfl : ending = ending' := hending
  obtain rfl : sink = sink' := hsink
  obtain ⟨-, f⟩ := hmachine
  rfl

def Notice.text? : Notice → Option String
  | text t => some t
  | record _ _ => none

/-- The texts of a report without its log records: a dump, and what is said of an error. -/
def Report.texts (report : Report) : List String :=
  report.notices.filterMap Notice.text?

theorem Stdin.text_piped (bytes : ByteArray) :
    (piped bytes).text.1 = (String.fromUTF8? bytes).getD "" := by
  rw [text]
  cases String.fromUTF8? bytes <;> rfl

namespace Request

variable {r : Request} {p : Program} {pace pace' : Nat} {stdin stdin' : Stdin}

/-- The request with an input of its own. -/
def withInput (r : Request) (text : String) : Request :=
  { r with input? := some text }

theorem simulated_conduct {m m' : Machine} (h : m.Refed m') (pace : Nat) (r : Request) :
    Machine.Simulated Machine.Refed (r.conduct pace m) (r.conduct pace m') := by
  by_cases hdebug : r.debug = true
  · rw [conduct, conduct, if_pos hdebug, if_pos hdebug]
    exact Machine.simulation_refed.trace h _ _ _
  · rw [conduct, conduct, if_neg hdebug, if_neg hdebug]
    have hdrive := Machine.simulation_refed.drive h r.control (r.patience pace)
    exact ⟨hdrive.1, hdrive.2, rfl⟩

/-- A text that comes with the request does as well as the same text on standard input, whether or
not it is read. -/
theorem conduct_withInput (h : r.input? = none) (bytes : ByteArray) (pace : Nat) (p : Program)
    (stdin : Stdin) :
    let given := r.withInput ((String.fromUTF8? bytes).getD "")
    let t := r.conduct pace (r.start p (.piped bytes))
    let t' := given.conduct pace (given.start p stdin)
    t.ending = t'.ending ∧ ∀ program?, conclude program? r p t = conclude program? given p t' := by
  intro given t t'
  have hpiped : r.start p (.piped bytes) = Machine.load p.code (Tape.blank r.memorySize)
      (if .input ∈ p.code then (String.fromUTF8? bytes).getD "" else "") := by
    rw [start_eq, h, Stdin.text_piped]
    rfl
  by_cases hreads : .input ∈ p.code
  · rw [if_pos hreads] at hpiped
    have hsame : t = t' := congrArg (r.conduct pace) hpiped
    rw [hsame]
    exact ⟨rfl, fun program? => rfl⟩
  · rw [if_neg hreads] at hpiped
    have hrefed : (r.start p (.piped bytes)).Refed (given.start p stdin) := by
      rw [hpiped]
      exact .refeed hreads _
    have hconduct := simulated_conduct hrefed pace r
    exact ⟨hconduct.ending, fun program? => conclude_refed hconduct program? r p⟩

theorem inTime_withInput_iff (h : r.input? = none) (bytes : ByteArray) (pace : Nat)
    (stdin : Stdin) : r.InTime pace (.piped bytes) ↔
      (r.withInput ((String.fromUTF8? bytes).getD "")).InTime pace stdin := by
  apply forall₂_congr
  intro p _
  rw [(conduct_withInput h bytes pace p stdin).1]

/-- What is said of standard input goes to the log. -/
theorem texts_of_complaints (r : Request) (p : Program) (stdin : Stdin) :
    (r.resolveInput p stdin).2.filterMap Notice.text? = [] := by
  unfold resolveInput Stdin.text
  split
  · rfl
  · split
    · split
      · rfl
      · split <;> rfl
    · rfl

theorem complaints_of_text {bytes : ByteArray} (h : String.fromUTF8? bytes ≠ none) (r : Request)
    (p : Program) : (r.resolveInput p (.piped bytes)).2 = [] := by
  obtain ⟨text, htext⟩ := Option.ne_none_iff_exists'.mp h
  have hread : (Stdin.piped bytes).text = (text, []) := by simp [Stdin.text, htext]
  rw [resolveInput, hread]
  split
  · rfl
  · split <;> rfl

theorem texts_after_start (r : Request) (p : Program) (stdin : Stdin) (report : Report) :
    (report.after (r.startNotice p :: (r.resolveInput p stdin).2)).texts = report.texts := by
  rw [Report.texts, Report.after, List.filterMap_append, List.filterMap_cons,
    texts_of_complaints r p stdin]
  rfl

/-- Both reports close alike, behind what the log says of standard input. -/
theorem exists_closing (hp : Program.parse r.code = .ok p) (h : r.input? = none)
    {bytes : ByteArray} (ht : r.InTime pace (.piped bytes))
    (ht' : (r.withInput ((String.fromUTF8? bytes).getD "")).InTime pace' stdin)
    (program? : Option String) : ∃ closing : Report,
      execute pace program? r (.piped bytes) =
        closing.after (r.startNotice p :: (r.resolveInput p (.piped bytes)).2) ∧
      execute pace' program? (r.withInput ((String.fromUTF8? bytes).getD "")) stdin =
        closing.after [r.startNotice p] := by
  let given := r.withInput ((String.fromUTF8? bytes).getD "")
  obtain ⟨hending, hconclude⟩ := conduct_withInput h bytes pace p stdin
  have hpaces := conduct_eq_of_finished (hending ▸ ht p hp) (ht' p hp)
  refine ⟨conclude program? given p (given.conduct pace' (given.start p stdin)), ?_, ?_⟩
  · rw [execute_of_ok hp, hconclude program?, hpaces]
  · exact execute_of_ok (r := given) hp pace' program? stdin

theorem resolveInput_of_not_mem (h : .input ∉ p.code) (r : Request) (stdin stdin' : Stdin) :
    r.resolveInput p stdin = r.resolveInput p stdin' := by
  rw [resolveInput, resolveInput, Program.readsInput, Array.contains_eq_mem]
  simp [h]

end Request

/-- Nobody can tell that standard input is not read when it is not needed. Take a request without an
input of its own, any bytes on standard input, and their text, or the empty one if they have none.
The request ends as in time as the same one with this text for its input, and if both end in time,
with the same exit code, the same output, the same dump and the same error, and with the same log as
well if the bytes have a text. The report on a program that never reads does not depend on standard
input at all. -/
theorem skipped_input_is_unobservable (program? : Option String) (r : Request) :
    (∀ bytes : ByteArray, r.input? = none →
      let given := r.withInput ((String.fromUTF8? bytes).getD "")
      ∀ (pace pace' : Nat) (stdin : Stdin),
        (r.InTime pace (.piped bytes) ↔ given.InTime pace stdin) ∧
        (r.InTime pace (.piped bytes) → given.InTime pace' stdin →
          let report := execute pace program? r (.piped bytes)
          let report' := execute pace' program? given stdin
          report.exitCode = report'.exitCode ∧ report.stdout = report'.stdout ∧
            report.texts = report'.texts ∧
            (String.fromUTF8? bytes ≠ none → report = report'))) ∧
    ∀ p, Program.parse r.code = .ok p → .input ∉ p.code → ∀ (pace pace' : Nat) (stdin stdin' : Stdin),
      r.InTime pace stdin → r.InTime pace' stdin' →
        execute pace program? r stdin = execute pace' program? r stdin' := by
  constructor
  · intro bytes h given pace pace' stdin
    refine ⟨Request.inTime_withInput_iff h bytes pace stdin, fun ht ht' => ?_⟩
    intro report report'
    cases hp : Program.parse r.code with
    | error e =>
      have hsame : report = report' :=
        (execute_of_error hp ..).trans (execute_of_error (r := given) hp ..).symm
      rw [hsame]
      exact ⟨rfl, rfl, rfl, fun _ => rfl⟩
    | ok p =>
      obtain ⟨closing, hreport, hreport'⟩ : ∃ closing : Report, report = closing.after _ ∧
        report' = closing.after _ := Request.exists_closing hp h ht ht' program?
      rw [hreport, hreport']
      refine ⟨rfl, rfl, ?texts, fun htext => ?log⟩
      case texts =>
        rw [Request.texts_after_start]
        exact (Request.texts_after_start given p stdin closing).symm
      case log => rw [Request.complaints_of_text htext]
  · intro p hp hreads pace pace' stdin stdin' ht ht'
    have hinput := Request.resolveInput_of_not_mem hreads r stdin stdin'
    have hstart : r.start p stdin = r.start p stdin' := by
      rw [Request.start, Request.start, hinput]
    have hin := ht p hp
    rw [hstart] at hin
    rw [execute_of_ok hp, execute_of_ok hp, hinput, hstart,
      Request.conduct_eq_of_finished hin (ht' p hp)]

/-- Broken bytes are only logged, also when a fault and a dump are to be shown: the dump and the error
are the texts that are left. A program that does not read gets the same report at a terminal. -/
theorem skipped_input_is_unobservable_of_broken_bytes :
    let r : Request := ⟨",<", none, 0, none, 1, true, true⟩
    let r' : Request := ⟨"+.", none, 0, none, 1, false, false⟩
    let broken : Stdin := .piped ⟨#[0x61, 0xff]⟩
    let report := execute 3 none r broken
    let report' := execute 4 none (r.withInput "") .terminal
    (r.InTime 3 broken ∧ (r.withInput "").InTime 4 .terminal ∧ report.exitCode = report'.exitCode ∧
      report.stdout = report'.stdout ∧ report.texts = report'.texts ∧ report.exitCode = 1 ∧
      report.texts = ["[0]\n ^\n\n, <\n    ^\n\n---\n",
        "Runtime error: data pointer out of bounds (ptr=-1) at position 1\n  ,<\n   ^\n"]) ∧
    r'.InTime 3 broken ∧ r'.InTime 4 .terminal ∧
      execute 3 none r' broken = execute 4 none r' .terminal ∧
      (execute 3 none r' broken).exitCode = 0 ∧
      (execute 3 none r' broken).stdout = "\x01\n".toUTF8 := by
  intro r r' broken report report'
  have hp : Program.parse ",<" = .ok ⟨#[.input, .moveLeft], #[0, 1]⟩ := by rfl
  have hp' : Program.parse "+." = .ok ⟨#[.increment, .output], #[0, 1]⟩ := by rfl
  have hbroken : (String.fromUTF8? ⟨#[0x61, 0xff]⟩).getD "" = "" := by decide
  have hin : r.InTime 3 broken := Request.inTime_of_parse hp (by decide)
  have hin' : r'.InTime 3 broken := Request.inTime_of_parse hp' (by decide)
  have hother' : r'.InTime 4 .terminal := Request.inTime_of_parse hp' (by decide)
  obtain ⟨hgiven, -⟩ := skipped_input_is_unobservable none r
  obtain ⟨-, hnever⟩ := skipped_input_is_unobservable none r'
  have hpair := hgiven ⟨#[0x61, 0xff]⟩ rfl 3 4 .terminal
  rw [hbroken] at hpair
  have hother : (r.withInput "").InTime 4 .terminal := Request.inTime_of_parse hp (by decide)
  obtain ⟨hcode, hstdout, htexts, -⟩ := hpair.2 hin hother
  exact ⟨⟨hin, hother, hcode, hstdout, htexts, by decide +kernel, by decide +kernel⟩, hin', hother',
    hnever _ hp' (by simp) 3 4 broken .terminal hin' hother', by decide +kernel, by decide +kernel⟩

end TapeMachine
