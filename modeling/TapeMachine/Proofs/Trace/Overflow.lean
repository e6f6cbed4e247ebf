import TapeMachine.Proofs.Trace.Lines

/-!
# Tables that outgrow their sink

A bounded sink takes the rows of a table as long as they fit, and of the first row that does not fit
it takes what it has room for. So it holds the first bytes of the table, and the run ends with the
step that this row tells of.
-/
namespace TapeMachine

namespace Trace

variable {capacity : Nat} {bytes : ByteArray}

theorem extract_of_size_le (h : bytes.size ≤ capacity) : bytes.extract 0 capacity = bytes := by
  rw [← Nat.max_eq_left h, ByteArray.extract_zero_max_size]

theorem extract_append_of_le_size (h : capacity ≤ bytes.size) (rest : ByteArray) :
    (bytes ++ rest).extract 0 capacity = bytes.extract 0 capacity := by
  rw [ByteArray.extract_append, Nat.sub_eq_zero_of_le h, Nat.zero_sub, ByteArray.extract_same,
    ByteArray.append_empty]

theorem size_le_of_append {rest : ByteArray} (h : (bytes ++ rest).size ≤ capacity) :
    bytes.size ≤ capacity := by
  rw [ByteArray.size_append] at h
  exact Nat.le_trans (Nat.le_add_right _ _) h

namespace Sink

variable {text : String}

theorem fits_bounded_iff : ({ capacity := some capacity, bytes } : Sink).fits text = true ↔
    (bytes ++ text.toUTF8).size ≤ capacity := by
  rw [ByteArray.size_append]
  exact decide_eq_true_iff

theorem put_bounded (h : bytes.size ≤ capacity) (text : String) :
    ({ capacity := some capacity, bytes } : Sink).put text =
      { capacity := some capacity, bytes := (bytes ++ text.toUTF8).extract 0 capacity } := by
  rw [ByteArray.extract_append, extract_of_size_le h, Nat.zero_sub]
  rfl

theorem put_of_fits (h : (bytes ++ text.toUTF8).size ≤ capacity) :
    ({ capacity := some capacity, bytes } : Sink).put text =
      { capacity := some capacity, bytes := bytes ++ text.toUTF8 } := by
  rw [put_bounded (size_le_of_append h), extract_of_size_le h]

end Sink

theorem Row.size_pos (r : Row) : 0 < r.text.toUTF8.size := by
  have hnewline : 0 < "\n".utf8ByteSize := by decide
  rw [Row.text_eq]
  simp only [String.toUTF8_eq_toByteArray, String.size_toByteArray, String.utf8ByteSize_append]
  exact Nat.add_pos_right _ hnewline

/-- The bytes of these rows. -/
def rowBytes (rows : List Row) : ByteArray :=
  (String.join (rows.map Row.text)).toUTF8

theorem append_rowBytes_nil (bytes : ByteArray) : bytes ++ rowBytes [] = bytes :=
  ByteArray.append_empty

theorem append_rowBytes_cons (bytes : ByteArray) (r : Row) (rows : List Row) :
    bytes ++ rowBytes (r :: rows) = bytes ++ r.text.toUTF8 ++ rowBytes rows := by
  simp [rowBytes, ByteArray.append_assoc]

theorem toUTF8_table (rows : List Row) :
    (table (rows.map Row.line)).toUTF8 = header.toUTF8 ++ rowBytes rows := by
  have htext : Row.text = fun r => r.line ++ "\n" := funext Row.text_eq
  simp [table, rowBytes, htext, Function.comp_def]

end Trace

/-- The same traced run with its table in a bounded sink. -/
def Traced.within (capacity : Nat) (t : Traced) : Traced :=
  { t with sink := { t.sink with capacity := some capacity } }

namespace Machine
open Trace Control

variable {m : Machine} {i : Instruction} {control? : Option Control}
  {patience executed capacity : Nat} {bytes : ByteArray} {rows : List Row} {s : Stepped}

/-- A traced run adds to its sink. -/
theorem exists_added (control? : Option Control) (patience executed : Nat) (m : Machine)
    (bytes : ByteArray) : ∃ rest, (m.traceRows control? patience executed { bytes }).sink.bytes =
      bytes ++ rest := by
  obtain ⟨rows, -, hbytes⟩ := exists_records control? patience executed m bytes
  exact ⟨_, hbytes⟩

/-- The row of the next step comes first. -/
theorem exists_added_row (hi : m.current? = some i) (hstop : stopIfAny? control? executed = none)
    (patience : Nat) (bytes : ByteArray) : ∃ rest,
      (m.traceRows control? (patience + 1) executed { bytes }).sink.bytes =
        bytes ++ (m.row executed i).text.toUTF8 ++ rest := by
  have hfits := Sink.fits_unbounded bytes (m.row executed i).text
  cases hfault : m.step.fault? with
  | none =>
    rw [traceRows_of_clean hi hstop hfits hfault]
    exact exists_added control? patience (executed + 1) m.step.machine _
  | some f =>
    rw [traceRows_of_fault hi hstop hfits hfault]
    exact ⟨.empty, ByteArray.append_empty.symm⟩

/-- A table that fits is written as if the sink had no bound. -/
theorem traceRows_within
    (h : (m.traceRows control? patience executed { bytes }).sink.bytes.size ≤ capacity) :
    m.traceRows control? patience executed { capacity := some capacity, bytes } =
      (m.traceRows control? patience executed { bytes }).within capacity := by
  induction patience generalizing m executed bytes with
  | zero => rfl
  | succ patience ih =>
    cases hrest : m.halted with
    | true =>
      rw [traceRows_of_halted hrest, traceRows_of_halted hrest]
      rfl
    | false =>
      obtain ⟨i, hi⟩ := exists_current hrest
      cases hstop : stopIfAny? control? executed with
      | some e =>
        rw [traceRows_of_stop hi hstop, traceRows_of_stop hi hstop]
        rfl
      | none =>
        have hsize : (bytes ++ (m.row executed i).text.toUTF8).size ≤ capacity := by
          obtain ⟨rest, hrow⟩ := exists_added_row hi hstop patience bytes
          rw [hrow] at h
          exact size_le_of_append h
        have hfits := Sink.fits_bounded_iff.mpr hsize
        have hunbounded := Sink.fits_unbounded bytes (m.row executed i).text
        have hput := Sink.put_of_fits hsize
        cases hfault : m.step.fault? with
        | none =>
          rw [traceRows_of_clean hi hstop hunbounded hfault] at h ⊢
          rw [traceRows_of_clean hi hstop hfits hfault, hput]
          exact ih h
        | some f =>
          rw [traceRows_of_fault hi hstop hfits hfault,
            traceRows_of_fault hi hstop hunbounded hfault, hput]
          rfl

/-- A run that goes on writes at least one byte in each turn. -/
theorem le_size_of_unfinished
    (h : (m.traceRows control? patience executed { bytes }).ending = .unfinished) :
    bytes.size + patience ≤
      (m.traceRows control? patience executed { bytes }).sink.bytes.size := by
  induction patience generalizing m executed bytes with
  | zero => exact Nat.le_refl _
  | succ patience ih =>
    cases hrest : m.halted with
    | true => simp [traceRows_of_halted hrest] at h
    | false =>
      obtain ⟨i, hi⟩ := exists_current hrest
      have hfits := Sink.fits_unbounded bytes (m.row executed i).text
      cases hstop : stopIfAny? control? executed with
      | some e => simp [traceRows_of_stop hi hstop] at h
      | none =>
        cases hfault : m.step.fault? with
        | some f => simp [traceRows_of_fault hi hstop hfits hfault] at h
        | none =>
          rw [traceRows_of_clean hi hstop hfits hfault] at h ⊢
          have hlater := ih h
          have hrow := (m.row executed i).size_pos
          rw [ByteArray.size_append] at hlater
          simp only [Sink.put_unbounded] at hlater ⊢
          omega

/-- The rows of the first steps of a run, up to the one that a sink with this capacity cannot take
whole, and the step that this row tells of. -/
structure Outgrows (m : Machine) (control? : Option Control) (executed capacity : Nat)
    (bytes : ByteArray) (rows : List Row) (s : Stepped) : Prop where
  records : Records m executed rows s
  fits : ∀ k < rows.length, (bytes ++ rowBytes (rows.take k)).size ≤ capacity
  full : capacity < (bytes ++ rowBytes rows).size
  whole : ∀ n, rows.length ≤ n → ∃ rest,
    (m.traceRows control? n executed { bytes }).sink.bytes = bytes ++ rowBytes rows ++ rest
  cut : ∀ n, rows.length ≤ n →
    m.traceRows control? n executed { capacity := some capacity, bytes } =
      ⟨.failed (.io sinkFull), s.machine,
        { capacity := some capacity, bytes := (bytes ++ rowBytes rows).extract 0 capacity }⟩

theorem outgrows_last (hi : m.current? = some i) (hstop : stopIfAny? control? executed = none)
    (hroom : bytes.size ≤ capacity)
    (hfull : capacity < (bytes ++ (m.row executed i).text.toUTF8).size) :
    m.Outgrows control? executed capacity bytes [m.row executed i] m.step where
  records := by
    cases hfault : m.step.fault? with
    | none =>
      have hstep : ({ machine := m.step.machine } : Stepped) = m.step := by rw [← hfault]
      exact hstep ▸ .clean hi hfault .nil
    | some f => exact .faulty hi hfault
  fits k hk := by
    obtain rfl : k = 0 := Nat.lt_one_iff.mp hk
    rwa [List.take_zero, append_rowBytes_nil]
  full := by rwa [append_rowBytes_cons, append_rowBytes_nil]
  whole n hn := by
    obtain ⟨n, rfl⟩ := Nat.exists_eq_add_of_le' hn
    rw [append_rowBytes_cons, append_rowBytes_nil]
    exact exists_added_row hi hstop n bytes
  cut n hn := by
    obtain ⟨n, rfl⟩ := Nat.exists_eq_add_of_le' hn
    have hfits : ({ capacity := some capacity, bytes } : Sink).fits (m.row executed i).text =
        false := by
      rw [← Bool.not_eq_true, Sink.fits_bounded_iff]
      exact Nat.not_le_of_lt hfull
    rw [append_rowBytes_cons, append_rowBytes_nil]
    exact (traceRows_of_full hi hstop hfits).trans (by rw [Sink.put_bounded hroom])

/-- A row that fits is put before the rows of the later steps. -/
theorem Outgrows.cons (hi : m.current? = some i) (hstop : stopIfAny? control? executed = none)
    (hfault : m.step.fault? = none)
    (hfits : (bytes ++ (m.row executed i).text.toUTF8).size ≤ capacity)
    (h : m.step.machine.Outgrows control? (executed + 1) capacity
      (bytes ++ (m.row executed i).text.toUTF8) rows s) :
    m.Outgrows control? executed capacity bytes (m.row executed i :: rows) s where
  records := .clean hi hfault h.records
  fits k hk := by
    cases k with
    | zero =>
      rw [List.take_zero, append_rowBytes_nil]
      exact size_le_of_append hfits
    | succ k =>
      rw [List.take_succ_cons, append_rowBytes_cons]
      exact h.fits k (Nat.lt_of_succ_lt_succ hk)
  full := by
    rw [append_rowBytes_cons]
    exact h.full
  whole n hn := by
    obtain ⟨n, rfl⟩ := Nat.exists_eq_add_of_le' hn
    have hunbounded := Sink.fits_unbounded bytes (m.row executed i).text
    obtain ⟨rest, hrest⟩ := h.whole (n + rows.length) (Nat.le_add_left _ _)
    refine ⟨rest, ?_⟩
    rw [List.length_cons, ← Nat.add_assoc, traceRows_of_clean hi hstop hunbounded hfault,
      Sink.put_unbounded, hrest, append_rowBytes_cons]
  cut n hn := by
    obtain ⟨n, rfl⟩ := Nat.exists_eq_add_of_le' hn
    have hcut := h.cut (n + rows.length) (Nat.le_add_left _ _)
    rw [List.length_cons, ← Nat.add_assoc,
      traceRows_of_clean hi hstop (Sink.fits_bounded_iff.mpr hfits) hfault, Sink.put_of_fits hfits,
      hcut, append_rowBytes_cons]

/-- By induction on the patience: the first row that does not fit ends the run in the bounded
sink. -/
theorem exists_outgrows (hroom : bytes.size ≤ capacity) (h : capacity <
    (m.traceRows control? patience executed { bytes }).sink.bytes.size) :
    ∃ rows s, m.Outgrows control? executed capacity bytes rows s := by
  induction patience generalizing m executed bytes with
  | zero => exact absurd h (Nat.not_lt_of_le hroom)
  | succ patience ih =>
    cases hrest : m.halted with
    | true =>
      rw [traceRows_of_halted hrest] at h
      exact absurd h (Nat.not_lt_of_le hroom)
    | false =>
      obtain ⟨i, hi⟩ := exists_current hrest
      cases hstop : stopIfAny? control? executed with
      | some e =>
        rw [traceRows_of_stop hi hstop] at h
        exact absurd h (Nat.not_lt_of_le hroom)
      | none =>
        by_cases hfits : (bytes ++ (m.row executed i).text.toUTF8).size ≤ capacity
        · have hunbounded := Sink.fits_unbounded bytes (m.row executed i).text
          cases hfault : m.step.fault? with
          | none =>
            rw [traceRows_of_clean hi hstop hunbounded hfault] at h
            obtain ⟨rows, s, hlater⟩ := ih hfits h
            exact ⟨_, s, hlater.cons hi hstop hfault hfits⟩
          | some f =>
            rw [traceRows_of_fault hi hstop hunbounded hfault] at h
            exact absurd h (Nat.not_lt_of_le hfits)
        · exact ⟨_, _, outgrows_last hi hstop hroom (Nat.lt_of_not_le hfits)⟩

/-! ### The header, and the whole run -/

theorem trace_unbounded (control? : Option Control) (n : Nat) (m : Machine) :
    m.trace control? n {} = m.traceRows control? n 0 { bytes := header.toUTF8 } := by
  rw [← ByteArray.empty_append (b := header.toUTF8)]
  rfl

theorem trace_bounded (h : header.toUTF8.size ≤ capacity) (control? : Option Control) (n : Nat)
    (m : Machine) : m.trace control? n { capacity := some capacity } =
      m.traceRows control? n 0 { capacity := some capacity, bytes := header.toUTF8 } := by
  have hsize : (ByteArray.empty ++ header.toUTF8).size ≤ capacity := by
    rwa [ByteArray.empty_append]
  rw [trace, Sink.fits_bounded_iff.mpr hsize, Sink.put_of_fits hsize, ByteArray.empty_append]
  rfl

theorem trace_of_no_room (h : capacity < header.toUTF8.size) (control? : Option Control) (n : Nat)
    (m : Machine) : m.trace control? n { capacity := some capacity } = ⟨.failed (.io sinkFull), m,
      { capacity := some capacity, bytes := header.toUTF8.extract 0 capacity }⟩ := by
  have hfits : ({ capacity := some capacity } : Sink).fits header = false := by
    rw [← Bool.not_eq_true, Sink.fits_bounded_iff, ByteArray.empty_append]
    exact Nat.not_le_of_lt h
  rw [trace, hfits, Sink.put_bounded (Nat.zero_le capacity), ByteArray.empty_append]
  rfl

/-- A traced run begins with its header. -/
theorem exists_trace_added (control? : Option Control) (n : Nat) (m : Machine) :
    ∃ rest, (m.trace control? n {}).sink.bytes = header.toUTF8 ++ rest := by
  rw [trace_unbounded]
  exact exists_added control? n 0 m _

theorem trace_within {n : Nat} (h : (m.trace control? n {}).sink.bytes.size ≤ capacity) :
    m.trace control? n { capacity := some capacity } =
      (m.trace control? n {}).within capacity := by
  have hheader : header.toUTF8.size ≤ capacity := by
    obtain ⟨rest, hrest⟩ := exists_trace_added control? n m
    rw [hrest] at h
    exact size_le_of_append h
  rw [trace_unbounded] at h ⊢
  rw [trace_bounded hheader]
  exact traceRows_within h

/-- A bounded sink cuts the table of a run in the last of these rows, or in its header if there are
none. They are the rows of the first steps, and the fewest that the sink cannot take. -/
structure CutAt (m : Machine) (control? : Option Control) (capacity : Nat) (rows : List Row) :
    Prop where
  row : ∀ j r, rows[j]? = some r →
    ∃ i, (m.after j).current? = some i ∧ r = (m.after j).row j i
  least : IsLeast {k | capacity < (table ((rows.take k).map Row.line)).toUTF8.size} rows.length
  whole : ∀ n, rows.length ≤ n →
    ∃ rest, (m.trace control? n {}).sink.bytes = (table (rows.map Row.line)).toUTF8 ++ rest
  cut : ∀ n, rows.length ≤ n → m.trace control? n { capacity := some capacity } =
    { ending := .failed (.io sinkFull)
      machine := m.after rows.length
      sink := { capacity := some capacity
                bytes := (m.trace control? n {}).sink.bytes.extract 0 capacity } }

theorem cutAt_header (h : capacity < header.toUTF8.size) (control? : Option Control) (m : Machine) :
    m.CutAt control? capacity [] where
  row j r hr := by simp at hr
  least := by
    refine ⟨?_, fun k _ => Nat.zero_le k⟩
    rw [Set.mem_ofPred_eq, List.take_nil, toUTF8_table, append_rowBytes_nil]
    exact h
  whole n _ := by
    rw [toUTF8_table, append_rowBytes_nil]
    exact exists_trace_added control? n m
  cut n _ := by
    obtain ⟨rest, hrest⟩ := exists_trace_added control? n m
    rw [trace_of_no_room h, hrest, extract_append_of_le_size (Nat.le_of_lt h)]
    rfl

theorem Outgrows.cutAt (hheader : header.toUTF8.size ≤ capacity)
    (h : m.Outgrows control? 0 capacity header.toUTF8 rows s) : m.CutAt control? capacity rows where
  row j r hr := by
    obtain ⟨i, hi, hrow⟩ := h.records.row hr
    rw [Nat.zero_add] at hrow
    exact ⟨i, hi, hrow⟩
  least := by
    refine ⟨?_, fun k hk => Nat.le_of_not_lt fun hlt => ?_⟩
    · rw [Set.mem_ofPred_eq, List.take_length, toUTF8_table]
      exact h.full
    · rw [Set.mem_ofPred_eq, toUTF8_table] at hk
      exact absurd hk (Nat.not_lt_of_le (h.fits k hlt))
  whole n hn := by
    rw [trace_unbounded, toUTF8_table]
    exact h.whole n hn
  cut n hn := by
    obtain ⟨rest, hrest⟩ := h.whole n hn
    rw [trace_bounded hheader, h.cut n hn, trace_unbounded, hrest,
      extract_append_of_le_size (Nat.le_of_lt h.full), h.records.machine]

theorem exists_cutAt {n : Nat} (h : capacity < (m.trace control? n {}).sink.bytes.size) :
    ∃ rows, m.CutAt control? capacity rows := by
  rcases Nat.lt_or_ge capacity header.toUTF8.size with hshort | hheader
  · exact ⟨[], cutAt_header hshort control? m⟩
  · rw [trace_unbounded] at h
    obtain ⟨rows, s, houtgrows⟩ := exists_outgrows hheader h
    exact ⟨rows, houtgrows.cutAt hheader⟩

/-- A run that has no end writes more than any sink can take. -/
theorem exists_finished_or_long (m : Machine) (control? : Option Control) (capacity : Nat) :
    (∃ n, (m.trace control? n {}).ending ≠ .unfinished ∧
        (m.trace control? n {}).sink.bytes.size ≤ capacity) ∨
      ∃ n, capacity < (m.trace control? n {}).sink.bytes.size := by
  rcases Nat.lt_or_ge capacity (m.trace control? (capacity + 1) {}).sink.bytes.size with hlong | hsize
  · exact .inr ⟨_, hlong⟩
  · refine .inl ⟨capacity + 1, fun hunfinished => ?_, hsize⟩
    rw [trace_unbounded] at hunfinished hsize
    have hwritten := le_size_of_unfinished hunfinished
    omega

end Machine

/-- A bounded sink cuts a table cleanly, whatever the machine and the bounds of its run. The whole
table is what the run writes into a sink without a bound; a run without an end has written more and
more of it after each turn. If it is finished and fits, the run does the same with the bounded sink.
Otherwise there are a first few rows that, with the header, are too much for the sink. The run ends
with the complaint of the sink after just as many steps, even if the last of them fails, and the
sink holds the first bytes of the whole table, as many as it can. So every run with a bounded sink
comes to an end. -/
theorem full_sink_cuts_cleanly (m : Machine) (control? : Option Control) (capacity : Nat) :
    let whole (n : Nat) := m.trace control? n {}
    let bounded (n : Nat) := m.trace control? n { capacity := some capacity }
    (∀ n, (whole n).ending ≠ .unfinished → (whole n).sink.bytes.size ≤ capacity →
      bounded n = (whole n).within capacity) ∧
    ((∀ n, (whole n).ending ≠ .unfinished → capacity < (whole n).sink.bytes.size) →
      ∃ rows, m.CutAt control? capacity rows) ∧
    ∃ n, (bounded n).ending ≠ .unfinished := by
  intro whole bounded
  refine ⟨fun n _ hsize => Machine.trace_within hsize, fun h => ?cut, ?ends⟩
  case cut =>
    rcases m.exists_finished_or_long control? capacity with ⟨n, hend, hsize⟩ | ⟨n, hlong⟩
    · exact absurd (h n hend) (Nat.not_lt_of_le hsize)
    · exact Machine.exists_cutAt hlong
  case ends =>
    rcases m.exists_finished_or_long control? capacity with ⟨n, hend, hsize⟩ | ⟨n, hlong⟩
    · exact ⟨n, by rwa [show bounded n = _ from Machine.trace_within hsize]⟩
    · obtain ⟨rows, hcut⟩ := Machine.exists_cutAt hlong
      exact ⟨rows.length, by rw [show bounded _ = _ from hcut.cut _ (Nat.le_refl _)]; simp⟩

open Trace in
/-- The row of a fault is cut, and hides it. A loop without an end is cut somewhere. -/
theorem full_sink_cuts_cleanly_in_an_error_row : ∃ faulty looping : Machine,
    (faulty.trace none 1 {}).ending = .failed (.fault (.cell 0 (-1))) ∧
      (faulty.trace none 1 { capacity := some 150 }).ending = .failed (.io sinkFull) ∧
      (∃ rows, faulty.CutAt none 150 rows) ∧
      faulty.trace none 1 { capacity := some 250 } = (faulty.trace none 1 {}).within 250 ∧
      (∀ n, looping.LiveFor n) ∧
      ∃ n, (looping.trace none n { capacity := some 150 }).ending ≠ .unfinished := by
  let faulty := Machine.load #[.moveLeft] (Tape.blank 1) ""
  let looping := Machine.load #[.loopEnd 0] { cells := #[1] } ""
  obtain ⟨-, hcut, -⟩ := full_sink_cuts_cleanly faulty none 150
  obtain ⟨hfits, -, -⟩ := full_sink_cuts_cleanly faulty none 250
  obtain ⟨-, -, hends⟩ := full_sink_cuts_cleanly looping none 150
  have hone : (faulty.trace none 1 {}).ending ≠ .unfinished := by decide +kernel
  have hlong (n : Nat) (h : (faulty.trace none n {}).ending ≠ .unfinished) :
      150 < (faulty.trace none n {}).sink.bytes.size := by
    rw [Machine.trace_eq_of_finished h hone]
    decide +kernel
  exact ⟨faulty, looping, by decide +kernel, by decide +kernel, hcut hlong,
    hfits 1 hone (by decide +kernel), Machine.liveFor_of_self_jump rfl (by decide), hends⟩

end TapeMachine
