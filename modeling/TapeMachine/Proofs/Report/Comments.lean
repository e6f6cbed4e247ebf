import TapeMachine.Proofs.Report.Execution

/-!
# Reports and comments

Two requests that differ in the comments of their source alone get the same report, but for the
excerpt of the source that comes with an error: it shows the same instruction character at its place
in either source.
-/
namespace TapeMachine

/-- The same notices, but for a last one that may show an instruction character of the same rank, at
its place in either text. -/
inductive SameButPlaces (text text' : List Char) : List Notice → List Notice → Prop where
  | same (notices : List Notice) : SameButPlaces text text' notices notices
  | excerpt (earlier : List Notice) (title : String) {k place place' : Nat}
    (h : (places text)[k]? = some place) (h' : (places text')[k]? = some place') :
    SameButPlaces text text' (earlier ++ [.text (Excerpt.around title text place).text])
      (earlier ++ [.text (Excerpt.around title text' place').text])

theorem SameButPlaces.prepend {text text' : List Char} {notices notices' : List Notice}
    (h : SameButPlaces text text' notices notices') (earlier : List Notice) :
    SameButPlaces text text' (earlier ++ notices) (earlier ++ notices') := by
  cases h with
  | same => exact .same _
  | excerpt middle title h h' =>
    rw [← List.append_assoc, ← List.append_assoc]
    exact .excerpt (earlier ++ middle) title h h'

/-- Two reports that differ at most in the place and the piece of source that an error shows. -/
structure Report.Alike (text text' : List Char) (r r' : Report) : Prop where
  exitCode : r.exitCode = r'.exitCode
  stdout : r.stdout = r'.stdout
  notices : SameButPlaces text text' r.notices r'.notices

theorem Report.alike_of_notices {text text' : List Char} {notices notices' : List Notice}
    (h : SameButPlaces text text' notices notices') (exitCode : Nat) (stdout : ByteArray) :
    (Report.mk exitCode stdout notices).Alike text text' ⟨exitCode, stdout, notices'⟩ :=
  ⟨rfl, rfl, h⟩

theorem Report.Alike.after {text text' : List Char} {r r' : Report} (h : r.Alike text text' r')
    (earlier : List Notice) : (r.after earlier).Alike text text' (r'.after earlier) where
  exitCode := h.exitCode
  stdout := h.stdout
  notices := h.notices.prepend earlier

section

variable {source source' : String} {p p' : Program} {e : Failure}

/-- Only a fault is told with its place. -/
theorem sameButPlaces_report (hp : Program.parse source = .ok p)
    (hp' : Program.parse source' = .ok p') (hcode : p.code = p'.code)
    (he : (∃ f, e = .fault f ∧ f.ip < p.code.size) ∨ ∃ n, e = .stepLimit n)
    (program? : Option String) (earlier : List Notice) :
    SameButPlaces source.toList source'.toList
      (earlier ++ [.text (e.report program? source p.offsets)])
      (earlier ++ [.text (e.report program? source' p'.offsets)]) := by
  rcases he with ⟨f, rfl, hf⟩ | ⟨n, rfl⟩
  · have hplace := getElem?_places_of_fault hp hf
    have hplace' := getElem?_places_of_fault hp' (hcode ▸ hf)
    exact .excerpt earlier _ hplace hplace'
  · exact .same _

theorem alike_conclude (hp : Program.parse source = .ok p) (hp' : Program.parse source' = .ok p')
    (hcode : p.code = p'.code) {t : Traced}
    (ht : ∀ e, t.ending = .failed e →
      (∃ f, e = .fault f ∧ f.ip < p.code.size) ∨ ∃ n, e = .stepLimit n)
    (program? : Option String) (r : Request) :
    (conclude program? { r with code := source } p t).Alike source.toList source'.toList
      (conclude program? { r with code := source' } p' t) := by
  unfold conclude
  cases hending : t.ending with
  | halted => exact Report.alike_of_notices (.same _) 0 _
  | unfinished => exact Report.alike_of_notices (.same _) 1 _
  | failed e =>
    apply Report.alike_of_notices
    exact sameButPlaces_report hp hp' hcode (ht e hending) program? _

/-- What a request does with a program is decided by its code. -/
theorem Request.start_congr (hcode : p.code = p'.code) (r : Request) (stdin : Stdin) :
    r.start p stdin = r.start p' stdin ∧
      (r.resolveInput p stdin).2 = (r.resolveInput p' stdin).2 ∧
      r.startNotice p = r.startNotice p' := by
  unfold start machine resolveInput startNotice Program.readsInput
  rw [hcode]
  exact ⟨rfl, rfl, rfl⟩

theorem alike_execute_of_error {e e' : BracketError} {k : Nat}
    (hp : Program.parse source = .error e) (hp' : Program.parse source' = .error e')
    (hbracket : e.bracket = e'.bracket) (hplace : (places source.toList)[k]? = some e.offset)
    (hplace' : (places source'.toList)[k]? = some e'.offset) (r : Request)
    (program? : Option String) (stdin : Stdin) (pace pace' : Nat) :
    (execute pace program? { r with code := source } stdin).Alike source.toList source'.toList
      (execute pace' program? { r with code := source' } stdin) := by
  have hsummary : e.summary = e'.summary := by
    unfold BracketError.summary
    rw [hbracket]
  rw [execute_of_error (r := { r with code := source }) hp,
    execute_of_error (r := { r with code := source' }) hp',
    Failure.report_brackets, Failure.report_brackets, hsummary]
  apply Report.alike_of_notices
  exact .excerpt [] _ hplace hplace'

theorem alike_execute_of_ok (hp : Program.parse source = .ok p)
    (hp' : Program.parse source' = .ok p') (hcode : p.code = p'.code) {r : Request}
    {stdin : Stdin} {pace pace' : Nat}
    (hconduct : r.conduct pace (r.start p stdin) = r.conduct pace' (r.start p stdin))
    (program? : Option String) :
    (execute pace program? { r with code := source } stdin).Alike source.toList source'.toList
      (execute pace' program? { r with code := source' } stdin) := by
  obtain ⟨hstart, hcomplaints, hnotice⟩ := Request.start_congr hcode r stdin
  have hfailure (e : Failure) (he : (r.conduct pace (r.start p stdin)).ending = .failed e) :
      (∃ f, e = .fault f ∧ f.ip < p.code.size) ∨ ∃ n, e = .stepLimit n := by
    rcases Request.failure_of_conduct (r := { r with code := source }) hp he with hf | ⟨n, -, hn⟩
    · exact .inl hf
    · exact .inr ⟨n, hn⟩
  have halike := (alike_conclude hp hp' hcode hfailure program? r).after
    (r.startNotice p :: (r.resolveInput p stdin).2)
  have hright : execute pace' program? { r with code := source' } stdin =
      (conclude program? { r with code := source' } p' (r.conduct pace (r.start p stdin))).after
        (r.startNotice p :: (r.resolveInput p stdin).2) := by
    rw [hconduct, hstart, hcomplaints, hnotice]
    exact execute_of_ok (r := { r with code := source' }) hp' pace' program? stdin
  rw [execute_of_ok (r := { r with code := source }) hp, hright]
  exact halike

/-- Two paces do not matter if the machine is conducted alike at both. -/
theorem alike_execute_of_conduct
    (h : instructionChars source.toList = instructionChars source'.toList) {r : Request}
    {stdin : Stdin} {pace pace' : Nat}
    (hconduct : ∀ p, Program.parse source = .ok p →
      r.conduct pace (r.start p stdin) = r.conduct pace' (r.start p stdin))
    (program? : Option String) :
    (execute pace program? { r with code := source } stdin).Alike source.toList source'.toList
      (execute pace' program? { r with code := source' } stdin) := by
  have hread := readAlike_parse h
  generalize hp : Program.parse source = q, hp' : Program.parse source' = q' at hread
  cases hread with
  | whole hcode => exact alike_execute_of_ok hp hp' hcode (hconduct _ hp) program?
  | unmatched k hbracket hplace hplace' =>
    exact alike_execute_of_error hp hp' hbracket hplace hplace' r program? stdin pace pace'

/-- Both runs come to an end on the same machine. -/
theorem Request.conduct_eq_of_inTime
    (h : instructionChars source.toList = instructionChars source'.toList) {r : Request}
    {stdin : Stdin} {pace pace' : Nat} (ht : Request.InTime { r with code := source } pace stdin)
    (ht' : Request.InTime { r with code := source' } pace' stdin)
    (hp : Program.parse source = .ok p) :
    r.conduct pace (r.start p stdin) = r.conduct pace' (r.start p stdin) := by
  have hread := readAlike_parse h
  rw [hp] at hread
  generalize hp' : Program.parse source' = q' at hread
  cases hread with
  | @whole _ p' hcode =>
    have hin : (r.conduct pace (r.start p stdin)).ending ≠ .unfinished := ht p hp
    have hin' : (r.conduct pace' (r.start p' stdin)).ending ≠ .unfinished := ht' p' hp'
    rw [← (start_congr hcode r stdin).1] at hin'
    exact conduct_eq_of_finished hin hin'

theorem alike_execute
    (h : instructionChars source.toList = instructionChars source'.toList) {r : Request}
    {stdin : Stdin} {pace pace' : Nat} (ht : Request.InTime { r with code := source } pace stdin)
    (ht' : Request.InTime { r with code := source' } pace' stdin) (program? : Option String) :
    (execute pace program? { r with code := source } stdin).Alike source.toList source'.toList
      (execute pace' program? { r with code := source' } stdin) :=
  alike_execute_of_conduct h (fun _ hp => Request.conduct_eq_of_inTime h ht ht' hp) program?

end

/-- Comments never matter. A program has exactly the instructions that its source spells, each with
its place. Two sources with the same instruction characters are read as the same code, or the same
one of these characters is at fault in both. Executed in time, they end with the same exit code,
output and table, the same dump and the same notices, but for the place that an error shows. -/
theorem comments_never_matter :
    (∀ (source : String) (p : Program), Program.parse source = .ok p →
      p.offsets.toList.Pairwise (· < ·) ∧
        (∀ i : Nat, i ∈ p.offsets ↔ ∃ c ∈ "><+-.,[]".toList, source.toList[i]? = some c) ∧
        p.offsets.size = p.code.size ∧ spelling p.code = instructionChars source.toList) ∧
    ∀ source source' : String, instructionChars source.toList = instructionChars source'.toList →
      ReadAlike source.toList source'.toList (Program.parse source) (Program.parse source') ∧
        ∀ (r : Request) (program? : Option String) (stdin : Stdin) (pace pace' : Nat),
          Request.InTime { r with code := source } pace stdin →
          Request.InTime { r with code := source' } pace' stdin →
          (execute pace program? { r with code := source } stdin).Alike source.toList source'.toList
            (execute pace' program? { r with code := source' } stdin) := by
  constructor
  · intro source p hp
    have hplaces := toList_offsets_of_parse hp
    refine ⟨?_, ?_, size_offsets_of_parse hp, spelling_of_parse hp⟩
    · rw [hplaces]
      exact pairwise_places source.toList
    · intro i
      rw [← Array.mem_toList_iff, hplaces, mem_places_iff]
  · intro source source' h
    refine ⟨readAlike_parse h, ?_⟩
    intro r program? stdin pace pace' ht ht'
    exact alike_execute h ht ht' program?

/-- A comment moves the bracket without a partner, and the instruction at fault behind a table. The
place that is told and the caret under the instruction move with it. -/
theorem comments_never_matter_for_errors :
    let report := execute 1 none ⟨"é<", none, 1, none, 1, true, true⟩ .terminal
    let report' := execute 2 none ⟨"<", none, 1, none, 1, true, true⟩ .terminal
    (∃ p, Program.parse "é<" = .ok p ∧ p.offsets = #[1] ∧ spelling p.code = ['<']) ∧
      ReadAlike "é[".toList "[x".toList (.error (.unmatchedOpen 1)) (.error (.unmatchedOpen 0)) ∧
      report.Alike "é<".toList "<".toList report' ∧ report.exitCode = 1 ∧
      report.notices.getLast? = some (.text
        "Runtime error: data pointer out of bounds (ptr=-1) at position 1\n  é<\n   ^\n") ∧
      report'.notices.getLast? = some (.text
        "Runtime error: data pointer out of bounds (ptr=-1) at position 0\n  <\n  ^\n") := by
  intro report report'
  obtain ⟨hkeeps, halike⟩ := comments_never_matter
  have hp : Program.parse "é<" = .ok ⟨#[.moveLeft], #[1]⟩ := by rfl
  have hp' : Program.parse "<" = .ok ⟨#[.moveLeft], #[0]⟩ := by rfl
  have hopen : Program.parse "é[" = .error (.unmatchedOpen 1) := by rfl
  have hopen' : Program.parse "[x" = .error (.unmatchedOpen 0) := by rfl
  have hspelling := (hkeeps _ _ hp).2.2.2
  refine ⟨⟨_, hp, rfl, hspelling⟩, ?read, ?report, by decide +kernel, by decide +kernel,
    by decide +kernel⟩
  case read =>
    rw [← hopen, ← hopen']
    exact (halike "é[" "[x" (by decide)).1
  case report =>
    apply (halike "é<" "<" (by decide)).2 ⟨"", none, 1, none, 1, true, true⟩
    · exact Request.inTime_of_parse hp (by decide)
    · exact Request.inTime_of_parse hp' (by decide)

end TapeMachine
