import TapeMachine.Proofs.Report.Execution

/-!
# What an execution answers

The answer to a request that comes to an end in time is read off the driven run of its program. A
table and a dump only add to it: the table goes before the output, and the dump before the error.
-/
namespace TapeMachine

/-- The report of the error that ended a run, if one did. -/
def Run.errorReport? (program? : Option String) (source : String) (p : Program)
    (run : Run Failure) : Option String :=
  run.ending.error?.map fun e => e.report program? source p.offsets

/-- How many steps were made, as a log record. -/
def Machine.finishedNotice (m : Machine) : Notice :=
  .record .debug ("program finished steps=" ++ toString m.steps)

section

variable (write : Level → String → String)

/-- What a list of notices shows. -/
def renderAll (notices : List Notice) : String :=
  String.join (notices.map (Notice.render write))

theorem renderAll_nil : renderAll write [] = "" := rfl

theorem renderAll_append (notices notices' : List Notice) :
    renderAll write (notices ++ notices') = renderAll write notices ++ renderAll write notices' := by
  simp [renderAll]

theorem renderAll_cons (n : Notice) (notices : List Notice) :
    renderAll write (n :: notices) = n.render write ++ renderAll write notices := by
  simp [renderAll]

theorem renderAll_texts (text? : Option String) :
    renderAll write (text?.toList.map .text) = text?.getD "" := by
  cases text? <;> simp [renderAll, Notice.render]

end

namespace Request

/-- The table that comes with a run of so much patience, if the request asks for one. -/
def tableBytes (r : Request) (m : Machine) (patience : Nat) : ByteArray :=
  if r.debug then (m.trace (some r.control) patience {}).sink.bytes else .empty

/-- The answer to a request for the program `p`, read off the driven run of the machine that it
starts on. The complaints are about its input. -/
def answer (program? : Option String) (r : Request) (p : Program) (complaints : List Notice)
    (start : Machine) (patience : Nat) : Report :=
  let run := start.drive r.control patience
  { exitCode := if run.ending = .halted then 0 else 1
    stdout := r.tableBytes start patience ++ (run.machine.outputText ++ "\n").toUTF8
    notices := r.startNotice p :: complaints ++
      (if r.dump then [.text run.machine.dump] else []) ++
      run.machine.finishedNotice :: (run.errorReport? program? r.code p).toList.map .text }

variable {r : Request} {p : Program} {m : Machine} {stdin : Stdin} {pace patience : Nat}

theorem conduct_eq_of_driven (h : (r.conduct pace m).ending ≠ .unfinished)
    (hrun : (m.drive r.control patience).ending ≠ .unfinished) :
    (r.conduct pace m).driven = m.drive r.control patience ∧
      (r.conduct pace m).sink.bytes = r.tableBytes m patience := by
  have hdriven := conduct_driven pace r m
  constructor
  · rw [hdriven]
    rw [ending_conduct] at h
    exact Machine.drive_eq_of_finished h hrun
  · cases hdebug : r.debug with
    | true =>
      rw [conduct, if_pos hdebug] at h ⊢
      rw [tableBytes, if_pos hdebug]
      have htrace : (m.trace (some r.control) patience {}).driven = m.drive r.control patience :=
        m.traceRows_driven r.control patience 0 _
      rw [← htrace] at hrun
      rw [Machine.trace_eq_of_finished h hrun]
    | false =>
      rw [conduct, tableBytes, hdebug]
      rfl

/-- What is reported of a machine that was conducted to an end. -/
theorem conclude_of_ended (program? : Option String) (r : Request) (p : Program) {t : Traced}
    {run : Run Failure} (ht : t.driven = run) (h : run.ending ≠ .unfinished) :
    conclude program? r p t =
      { exitCode := if run.ending = .halted then 0 else 1
        stdout := t.sink.bytes ++ (run.machine.outputText ++ "\n").toUTF8
        notices := (if r.dump then [.text run.machine.dump] else []) ++
          run.machine.finishedNotice :: (run.errorReport? program? r.code p).toList.map .text } := by
  have hclosed : (run.machine.outputText ++ "\n").toUTF8 =
      run.machine.outputText.toUTF8 ++ "\n".toUTF8 := String.toByteArray_append
  rw [hclosed, ← ByteArray.append_assoc]
  obtain rfl := ht
  rcases t with ⟨_ | e | _, m, sink⟩
  · simp [conclude, endNotices, Machine.finishedNotice, Run.errorReport?, Ending.error?, Traced.driven]
  · simp [conclude, endNotices, Machine.finishedNotice, Run.errorReport?, Ending.error?, Traced.driven]
  · exact absurd rfl h

/-- The machine of a request reads the input given with it or else, if its program reads at all,
the text on standard input. -/
theorem start_eq (r : Request) (p : Program) (stdin : Stdin) :
    r.start p stdin = Machine.load p.code (Tape.blank r.memorySize)
      (r.input?.getD (if .input ∈ p.code then stdin.text.1 else "")) := by
  rw [start, machine, resolveInput, Program.readsInput, Array.contains_eq_mem]
  cases r.input? with
  | some text => rfl
  | none =>
    by_cases h : Instruction.input ∈ p.code
    · simp [h]
    · simp [h]

/-- A request that comes to an end in time gets the answer of its driven run. -/
theorem execute_eq_answer (hp : Program.parse r.code = .ok p) (ht : r.InTime pace stdin)
    (hstart : r.start p stdin = m) (hrun : (m.drive r.control patience).ending ≠ .unfinished)
    (program? : Option String) : execute pace program? r stdin =
      r.answer program? p (r.resolveInput p stdin).2 m patience := by
  obtain rfl := hstart
  obtain ⟨hdriven, htable⟩ := conduct_eq_of_driven (ht p hp) hrun
  rw [execute_of_ok hp, conclude_of_ended program? r p hdriven hrun, htable, answer, Report.after]
  simp only [List.cons_append, List.append_assoc]

/-- A dump stands behind the complaints, and before the error. -/
theorem stderrWith_answer_dump (write : Level → String → String) (program? : Option String)
    (r : Request) (p : Program) (complaints : List Notice) (m : Machine) (patience : Nat) :
    let run := m.drive r.control patience
    let before := renderAll write (r.startNotice p :: complaints)
    let after :=
      run.machine.finishedNotice.render write ++ (run.errorReport? program? r.code p).getD ""
    (answer program? { r with dump := false } p complaints m patience).stderrWith write =
        before ++ after ∧
      (answer program? { r with dump := true } p complaints m patience).stderrWith write =
        before ++ run.machine.dump ++ after := by
  intro run before after
  have hparts (dump : Bool) :
      (answer program? { r with dump } p complaints m patience).stderrWith write =
        before ++ renderAll write (if dump then [.text run.machine.dump] else []) ++ after := by
    have hafter : renderAll write (run.machine.finishedNotice ::
        (run.errorReport? program? r.code p).toList.map .text) = after := by
      rw [renderAll_cons, renderAll_texts]
    rw [← hafter, ← renderAll_append, ← renderAll_append]
    rfl
  constructor
  · rw [hparts false, if_neg (by decide), renderAll_nil, String.append_empty]
  · rw [hparts true, if_pos rfl, renderAll_cons, renderAll_nil, String.append_empty]
    rfl

end Request

/-- The answer to a request is determined by the driven run of its program, and a table and a dump
only add text to it. A source that is no program gives exit code 1 and no output, whatever else is
asked for. Otherwise, let the machine be loaded with the program, a blank tape and the input: the one
given with the request, or else the text on standard input if the program reads at all. Its driven
run decides the exit code, and without a table the output of that run and a newline are all that is
shown, even after a failure. Asking for a table puts just the table before the output; asking for a
dump puts just the dump of the machine before the report of the error, however the log writes its
records. -/
theorem execute_answers_as_driven (program? : Option String) (r : Request) (stdin : Stdin) :
    let report (debug dump : Bool) (pace : Nat) :=
      execute pace program? { r with debug, dump } stdin
    let inTime (debug dump : Bool) (pace : Nat) :=
      ({ r with debug, dump } : Request).InTime pace stdin
    (∀ e, Program.parse r.code = .error e → ∀ debug dump pace,
      (report debug dump pace).exitCode = 1 ∧ (report debug dump pace).stdout = .empty) ∧
    ∀ p, Program.parse r.code = .ok p →
      let input := r.input?.getD (if .input ∈ p.code then stdin.text.1 else "")
      let start := Machine.load p.code (Tape.blank r.memorySize) input
      ∀ patience, (start.drive { maxSteps := r.maxSteps } patience).ending ≠ .unfinished →
        let run := start.drive { maxSteps := r.maxSteps } patience
        let table := (start.trace (some { maxSteps := r.maxSteps }) patience {}).sink.bytes
        (∀ dump pace, inTime false dump pace →
          (report false dump pace).exitCode = (if run.ending = .halted then 0 else 1) ∧
          (report false dump pace).stdout = (run.machine.outputText ++ "\n").toUTF8) ∧
        (∀ dump pace pace', inTime false dump pace → inTime true dump pace' →
          (report true dump pace').exitCode = (report false dump pace).exitCode ∧
          (∀ write,
            (report true dump pace').stderrWith write = (report false dump pace).stderrWith write) ∧
          (report true dump pace').stdout = table ++ (report false dump pace).stdout) ∧
        ∀ debug pace pace', inTime debug false pace → inTime debug true pace' →
          (report debug true pace').exitCode = (report debug false pace).exitCode ∧
          (report debug true pace').stdout = (report debug false pace).stdout ∧
          ∀ write, ∃ before, let after :=
              run.machine.finishedNotice.render write ++ (run.errorReport? program? r.code p).getD ""
            (report debug false pace).stderrWith write = before ++ after ∧
            (report debug true pace').stderrWith write = before ++ run.machine.dump ++ after := by
  intro report inTime
  refine ⟨fun e he debug dump pace => ?refused, fun p hp => ?answered⟩
  case refused =>
    have hreport : report debug dump pace = Report.complaint 1 _ :=
      execute_of_error (r := { r with debug, dump }) he pace program? stdin
    rw [hreport]
    exact ⟨rfl, rfl⟩
  case answered =>
    intro input start patience hrun run table
    let complaints := (r.resolveInput p stdin).2
    let answer (debug dump : Bool) :=
      ({ r with debug, dump } : Request).answer program? p complaints start patience
    have hreport {debug dump : Bool} {pace : Nat} (h : inTime debug dump pace) :
        report debug dump pace = answer debug dump := by
      have hstart := Request.start_eq { r with debug, dump } p stdin
      exact Request.execute_eq_answer (r := { r with debug, dump }) hp h hstart hrun program?
    refine ⟨fun dump pace h => ?plain, fun dump pace pace' h h' => ?debug,
      fun debug pace pace' h h' => ?dump⟩
    case plain =>
      rw [hreport h]
      exact ⟨rfl, ByteArray.empty_append⟩
    case debug =>
      rw [hreport h, hreport h']
      refine ⟨rfl, fun write => rfl, ?_⟩
      exact congrArg (table ++ ·) ByteArray.empty_append.symm
    case dump =>
      rw [hreport h, hreport h']
      refine ⟨rfl, rfl, fun write => ⟨renderAll write (r.startNotice p :: complaints), ?_⟩⟩
      exact Request.stderrWith_answer_dump write program? { r with debug } p complaints start patience

/-- Output before a fault is shown, behind the table if there is one. A bracket without a partner
leaves nothing to show. -/
theorem execute_answers_as_driven_after_a_fault :
    let write : Level → String → String := fun _ message => message ++ "\n"
    ∃ (r : Request) (p : Program) (start : Machine),
      Program.parse r.code = .ok p ∧ start = Machine.load p.code (Tape.blank 1) "" ∧
      (start.drive {} 4).ending = .failed (.fault (.cell 2 (-1))) ∧
      (execute 4 none r .terminal).exitCode = 1 ∧
      (execute 4 none r .terminal).stdout = "\x01\n".toUTF8 ∧
      (execute 5 none { r with debug := true } .terminal).stdout =
        (start.trace (some {}) 4 {}).sink.bytes ++ "\x01\n".toUTF8 ∧
      (∃ before after, (execute 4 none r .terminal).stderrWith write = before ++ after ∧
        (execute 4 none { r with dump := true } .terminal).stderrWith write =
          before ++ (start.drive {} 4).machine.dump ++ after) ∧
      (execute 4 none { r with code := "+.[", debug := true } .terminal).stdout = .empty := by
  intro write
  have hp : Program.parse "+.<" = .ok ⟨#[.increment, .output, .moveLeft], #[0, 1, 2]⟩ := by rfl
  have hopen : Program.parse "+.[" = .error (.unmatchedOpen 2) := by rfl
  let r : Request := { code := "+.<", memorySize := 1, maxSteps := none, timeoutMs := 1 }
  obtain ⟨-, hanswer⟩ := execute_answers_as_driven none r .terminal
  obtain ⟨hrefused, -⟩ := execute_answers_as_driven none { r with code := "+.[" } .terminal
  obtain ⟨hplain, hdebug, hdump⟩ := hanswer _ hp 4 (by decide)
  have hin : r.InTime 4 .terminal := Request.inTime_of_parse hp (by decide)
  have hinTable : ({ r with debug := true } : Request).InTime 5 .terminal :=
    Request.inTime_of_parse hp (by decide)
  have hinDump : ({ r with dump := true } : Request).InTime 4 .terminal :=
    Request.inTime_of_parse hp (by decide)
  obtain ⟨hcode, hstdout⟩ := hplain false 4 hin
  obtain ⟨-, -, htable⟩ := hdebug false 4 5 hin hinTable
  obtain ⟨-, -, hstderr⟩ := hdump false 4 4 hin hinDump
  obtain ⟨before, hwithout, hwith⟩ := hstderr write
  have houtput : ((Machine.load #[.increment, .output, .moveLeft] (Tape.blank 1) "").drive {}
      4).machine.outputText ++ "\n" = "\x01\n" := by decide
  have hnewline : (execute 4 none r .terminal).stdout = "\x01\n".toUTF8 := by
    rw [← houtput]
    exact hstdout
  refine ⟨r, _, _, hp, rfl, by decide, hcode, hnewline, ?_, ⟨before, _, hwithout, hwith⟩,
    (hrefused _ hopen true false 4).2⟩
  rw [← hnewline]
  exact htable

end TapeMachine
