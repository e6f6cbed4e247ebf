import TapeMachine.Execution
import TapeMachine.Proofs.Execution.Safety
import TapeMachine.Proofs.Syntax.Comments
import TapeMachine.Proofs.Trace.Turns

/-!
# How a request is executed

A request whose source is no program is refused with a complaint. Else its program is driven, with or
without a table, and as long as the time is enough it does not matter how much there is. What fails
then is an instruction of the program, or the budget is used up.
-/
namespace TapeMachine

namespace Request

/-- The machine that a program of the request starts on, with what is left to read for it. -/
def start (r : Request) (p : Program) (stdin : Stdin) : Machine :=
  r.machine p (r.resolveInput p stdin).1

/-- Executed at this pace, the request comes to an end before its time is over. -/
def InTime (r : Request) (pace : Nat) (stdin : Stdin) : Prop :=
  ∀ p, Program.parse r.code = .ok p → (r.conduct pace (r.start p stdin)).ending ≠ .unfinished

variable {r : Request} {p : Program} {m : Machine} {pace pace' : Nat}

/-- The table aside, a request drives its machine. -/
theorem conduct_driven (pace : Nat) (r : Request) (m : Machine) :
    (r.conduct pace m).driven = m.drive r.control (r.patience pace) := by
  cases hdebug : r.debug with
  | true =>
    rw [conduct, if_pos hdebug]
    exact m.traceRows_driven r.control (r.patience pace) 0 _
  | false =>
    rw [conduct, hdebug]
    rfl

theorem ending_conduct (pace : Nat) (r : Request) (m : Machine) :
    (r.conduct pace m).ending = (m.drive r.control (r.patience pace)).ending :=
  congrArg Run.ending (conduct_driven pace r m)

theorem inTime_of_parse {stdin : Stdin} (hp : Program.parse r.code = .ok p)
    (h : ((r.start p stdin).drive r.control (r.patience pace)).ending ≠ .unfinished) :
    r.InTime pace stdin := by
  intro p' hp'
  obtain rfl := Except.ok.inj (hp.symm.trans hp')
  rwa [ending_conduct]

theorem conduct_eq_of_finished (h : (r.conduct pace m).ending ≠ .unfinished)
    (h' : (r.conduct pace' m).ending ≠ .unfinished) : r.conduct pace m = r.conduct pace' m := by
  by_cases hdebug : r.debug = true
  · rw [conduct, if_pos hdebug] at h h' ⊢
    rw [conduct, if_pos hdebug]
    exact Machine.trace_eq_of_finished h h'
  · rw [conduct, if_neg hdebug] at h h' ⊢
    rw [conduct, if_neg hdebug]
    rw [Machine.drive_eq_of_finished h h']

/-- A program that is conducted has no faults but the two at the edge of the tape. -/
theorem edgeFault_of_conduct (hp : Program.parse r.code = .ok p) {stdin : Stdin} {f : Fault}
    (h : (r.conduct pace (r.start p stdin)).ending = .failed (.fault f)) :
    Machine.EdgeFault p.code (r.conduct pace (r.start p stdin)).machine.tape f := by
  have hdriven := conduct_driven pace r (r.start p stdin)
  rw [ending_conduct] at h
  have hmachine : (r.conduct pace (r.start p stdin)).machine =
      ((r.start p stdin).drive r.control (r.patience pace)).machine := congrArg Run.machine hdriven
  rw [hmachine]
  have hsound := Machine.sound_load p.code (Array.replicate r.memorySize 0)
    (r.resolveInput p stdin).1
  have hleads := Machine.driveFrom_leadsTo r.control (r.patience pace) 0 (r.start p stdin)
  apply hleads.edgeFault hsound (lands_of_parse hp)
  rw [Machine.drive] at h
  rw [Machine.atEnd, h]
  rfl

/-- It is an instruction of the program that fails, or the budget is used up. -/
theorem failure_of_conduct (hp : Program.parse r.code = .ok p) {stdin : Stdin} {e : Failure}
    (h : (r.conduct pace (r.start p stdin)).ending = .failed e) :
    (∃ f, e = .fault f ∧ f.ip < p.code.size) ∨ ∃ n, r.maxSteps = some n ∧ e = .stepLimit n := by
  have hdrive := h
  rw [ending_conduct, Machine.drive] at hdrive
  rcases Machine.failure_of_driveFrom hdrive with ⟨f, rfl⟩ | ⟨k, hstop⟩
  · exact .inl ⟨f, rfl, (edgeFault_of_conduct hp h).ip_lt⟩
  · exact .inr (Control.exists_limit_of_stop? hstop)

end Request

theorem Failure.report_brackets (e : BracketError) (program? : Option String) (source : String)
    (offsets : Array Nat) : (brackets e).report program? source offsets =
      (Excerpt.around (attributed program? ("Parse error: " ++ e.summary)) source.toList
        e.offset).text := rfl

/-- The place that is reported for a fault is that of the instruction at fault. -/
theorem getElem?_places_of_fault {source : String} {p : Program} {f : Fault}
    (hp : Program.parse source = .ok p) (hf : f.ip < p.code.size) :
    (places source.toList)[f.ip]? = some (f.position p.offsets) := by
  have hsize : f.ip < p.offsets.size := by rwa [size_offsets_of_parse hp]
  rw [← toList_offsets_of_parse hp, Array.getElem?_toList, Fault.position,
    Array.getD_eq_getD_getElem?, Array.getElem?_eq_getElem hsize]
  rfl

variable {r : Request} {p : Program}

theorem execute_of_error {e : BracketError} (h : Program.parse r.code = .error e) (pace : Nat)
    (program? : Option String) (stdin : Stdin) : execute pace program? r stdin =
      Report.complaint 1 ((Failure.brackets e).report program? r.code #[]) := by
  rw [execute, h]

theorem execute_of_ok (h : Program.parse r.code = .ok p) (pace : Nat) (program? : Option String)
    (stdin : Stdin) : execute pace program? r stdin =
      (conclude program? r p (r.conduct pace (r.start p stdin))).after
        (r.startNotice p :: (r.resolveInput p stdin).2) := by
  rw [execute, h]
  rfl

/-- Neither the pace nor standard input matters to a request that comes to an end in time and gets
the same input. -/
theorem execute_eq_of_inTime {pace pace' : Nat} {stdin stdin' : Stdin}
    (hinput : ∀ p, r.resolveInput p stdin = r.resolveInput p stdin') (ht : r.InTime pace stdin)
    (ht' : r.InTime pace' stdin') (program? : Option String) :
    execute pace program? r stdin = execute pace' program? r stdin' := by
  cases hp : Program.parse r.code with
  | error e => rw [execute_of_error hp, execute_of_error hp]
  | ok p =>
    have hstart : r.start p stdin = r.start p stdin' := by
      rw [Request.start, Request.start, hinput]
    have hin := ht p hp
    rw [hstart] at hin
    rw [execute_of_ok hp, execute_of_ok hp, hinput, hstart,
      Request.conduct_eq_of_finished hin (ht' p hp)]

end TapeMachine
