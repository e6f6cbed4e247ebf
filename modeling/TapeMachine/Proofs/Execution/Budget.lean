import TapeMachine.Proofs.Execution.Effect
import Mathlib.Order.Bounds.Basic

/-!
# Steps, runs and budgets

A plain run, a driven run and single steps walk along the same machines. The first machine on the
way that rests or fails decides how a run ends, unless the budget of the run is used up before it.
-/
namespace TapeMachine

/-- An ending with its error told in other words. -/
def Ending.map {ε δ : Type} (f : ε → δ) : Ending ε → Ending δ
  | halted => .halted
  | failed e => .failed (f e)
  | unfinished => .unfinished

theorem Ending.map_eq_unfinished_iff {ε δ : Type} {f : ε → δ} {e : Ending ε} :
    e.map f = .unfinished ↔ e = .unfinished := by
  cases e <;> simp [map]

theorem Ending.map_injective {ε δ : Type} {f : ε → δ} (hf : Function.Injective f) :
    Function.Injective (Ending.map f) := by
  intro e e' h
  cases e <;> cases e' <;> simp_all [map, hf.eq_iff]

/-- A plain run, told as a driven one. -/
def Run.driven (r : Run Fault) : Run Failure where
  ending := r.ending.map .fault
  machine := r.machine

namespace Control

variable {limit executed : Nat}

theorem stop?_of_lt (h : executed < limit) :
    ({ maxSteps := some limit } : Control).stop? executed = none := by
  simp [stop?, h]

theorem stop?_of_le (h : limit ≤ executed) :
    ({ maxSteps := some limit } : Control).stop? executed = some (.stepLimit limit) := by
  simp [stop?, h]

theorem stop?_of_cancelled {control : Control} (h : control.cancelled = true) (executed : Nat) :
    control.stop? executed = some .cancelled := by
  simp [stop?, h]

theorem exists_limit_of_stop? {maxSteps : Option Nat} {e : Failure}
    (h : ({ maxSteps } : Control).stop? executed = some e) :
    ∃ n, maxSteps = some n ∧ e = .stepLimit n := by
  cases maxSteps with
  | none => simp [stop?] at h
  | some n =>
    by_cases hn : executed < n
    · rw [stop?_of_lt hn] at h
      simp at h
    · rw [stop?_of_le (Nat.le_of_not_lt hn)] at h
      exact ⟨n, rfl, (Option.some.inj h).symm⟩

end Control

namespace Machine

variable {m : Machine} {control : Control} {n t patience executed : Nat}

theorem halted_of_fault {f : Fault} (h : m.step.fault? = some f) : m.halted = false := by
  cases hi : m.code[m.ip]? with
  | none => simp [step, current?, hi] at h
  | some i => exact halted_of_current hi

theorem steps_after (h : ∀ k < n, (m.after k).halted = false) :
    (m.after n).steps = m.steps + n := by
  induction n with
  | zero => rfl
  | succ n ih =>
    have hlast := (m.after n).step_effect.steps (h n (Nat.lt_succ_self n))
    rw [after_succ, hlast, ih fun k hk => h k (Nat.lt_succ_of_lt hk), Nat.add_assoc]

/-! ### One turn of a driven run -/

theorem driveFrom_of_halted (h : m.halted = true) :
    m.driveFrom control (patience + 1) executed = ⟨.halted, m⟩ := by
  rw [driveFrom, h]
  rfl

theorem driveFrom_of_stop {e : Failure} (hrest : m.halted = false)
    (hstop : control.stop? executed = some e) :
    m.driveFrom control (patience + 1) executed = ⟨.failed e, m⟩ := by
  rw [driveFrom, hrest, hstop]
  rfl

theorem driveFrom_of_clean (hrest : m.halted = false) (hstop : control.stop? executed = none)
    (hfault : m.step.fault? = none) : m.driveFrom control (patience + 1) executed =
      m.step.machine.driveFrom control patience (executed + 1) := by
  rw [driveFrom, hrest, hstop]
  rcases hstep : m.step with ⟨m', f⟩
  rw [hstep] at hfault
  obtain rfl := hfault
  rfl

theorem driveFrom_of_fault {f : Fault} (hrest : m.halted = false)
    (hstop : control.stop? executed = none) (hfault : m.step.fault? = some f) :
    m.driveFrom control (patience + 1) executed = ⟨.failed (.fault f), m.step.machine⟩ := by
  rw [driveFrom, hrest, hstop]
  rcases hstep : m.step with ⟨m', f'⟩
  rw [hstep] at hfault
  obtain rfl := hfault
  rfl

/-- A run fails by the fault of a step or because something stops it. -/
theorem failure_of_driveFrom {e : Failure}
    (h : (m.driveFrom control patience executed).ending = .failed e) :
    (∃ f, e = .fault f) ∨ ∃ k, control.stop? k = some e := by
  induction patience generalizing m executed with
  | zero => simp [driveFrom] at h
  | succ patience ih =>
    cases hrest : m.halted with
    | true =>
      rw [driveFrom_of_halted hrest] at h
      simp at h
    | false =>
      cases hstop : control.stop? executed with
      | some e' =>
        rw [driveFrom_of_stop hrest hstop] at h
        obtain rfl := Ending.failed.inj h
        exact .inr ⟨executed, hstop⟩
      | none =>
        cases hfault : m.step.fault? with
        | none =>
          rw [driveFrom_of_clean hrest hstop hfault] at h
          exact ih h
        | some f =>
          rw [driveFrom_of_fault hrest hstop hfault] at h
          exact .inl ⟨f, (Ending.failed.inj h).symm⟩

/-- A driven run goes through all steps that succeed, as long as nothing stops it. -/
theorem LiveFor.driveFrom_add (h : LiveFor n m)
    (hstop : ∀ k < n, control.stop? (executed + k) = none) :
    m.driveFrom control (n + patience) executed =
      (m.after n).driveFrom control patience (executed + n) := by
  induction n generalizing m executed with
  | zero => rw [Nat.zero_add, after, Nat.add_zero]
  | succ n ih =>
    obtain ⟨⟨hrest, hfault⟩, hnext⟩ := liveFor_succ_iff.mp h
    have hlater (k : Nat) (hk : k < n) : control.stop? (executed + 1 + k) = none := by
      rw [Nat.add_assoc, Nat.add_comm 1]
      exact hstop (k + 1) (Nat.succ_lt_succ hk)
    have hfirst : control.stop? executed = none := hstop 0 (Nat.zero_lt_succ n)
    rw [Nat.succ_add, driveFrom_of_clean hrest hfirst hfault, ih hnext hlater, after,
      Nat.add_assoc, Nat.add_comm 1]

theorem LiveFor.drive_add (h : LiveFor n m) (hstop : ∀ k < n, control.stop? k = none) :
    m.drive control (n + patience) = (m.after n).driveFrom control patience n := by
  have hwithin (k : Nat) (hk : k < n) : control.stop? (0 + k) = none := by
    rw [Nat.zero_add]
    exact hstop k hk
  rw [drive, h.driveFrom_add hwithin, Nat.zero_add]

/-- Without bounds a driven run is a plain run. -/
theorem driveFrom_unbounded (patience executed : Nat) (m : Machine) :
    m.driveFrom {} patience executed = (m.run patience).driven := by
  induction patience generalizing m executed with
  | zero => rfl
  | succ patience ih =>
    cases hrest : m.halted with
    | true => rw [driveFrom_of_halted hrest, run_of_halted hrest]; rfl
    | false =>
      cases hfault : m.step.fault? with
      | none => rw [driveFrom_of_clean hrest rfl hfault, run_of_clean hrest hfault, ih]
      | some f => rw [driveFrom_of_fault hrest rfl hfault, run_of_fault hrest hfault]; rfl

theorem drive_unbounded (patience : Nat) (m : Machine) :
    m.drive {} patience = (m.run patience).driven :=
  driveFrom_unbounded patience 0 m

/-! ### The turn that decides -/

/-- The machine rests, or its next step fails. -/
def Stops (m : Machine) : Prop :=
  m.halted = true ∨ ∃ f, m.step.fault? = some f

/-- The machine after `t` steps is the first on its way that rests or fails. -/
def StopsAfter (m : Machine) (t : Nat) : Prop :=
  IsLeast {k | (m.after k).Stops} t

theorem not_stops_iff : ¬ m.Stops ↔ m.halted = false ∧ m.step.fault? = none := by
  rw [Stops, not_or, Bool.not_eq_true, not_exists, Option.eq_none_iff_forall_ne_some]

theorem stopsAfter_iff : m.StopsAfter t ↔ m.LiveFor t ∧ (m.after t).Stops := by
  constructor
  · rintro ⟨hstops, hleast⟩
    refine ⟨fun k hk => not_stops_iff.mp fun hk' => ?_, hstops⟩
    exact Nat.not_le_of_lt hk (hleast hk')
  · rintro ⟨hlive, hstops⟩
    refine ⟨hstops, fun k hk => Nat.le_of_not_lt fun hlt => ?_⟩
    exact not_stops_iff.mpr (hlive k hlt) hk

theorem StopsAfter.liveFor (h : m.StopsAfter t) (hn : n ≤ t) : m.LiveFor n :=
  fun k hk => (stopsAfter_iff.mp h).1 k (Nat.lt_of_lt_of_le hk hn)

/-- A machine that never stops is alive for any number of steps. -/
theorem liveFor_of_no_stop (h : ¬ ∃ t, m.StopsAfter t) (n : Nat) : m.LiveFor n := by
  induction n with
  | zero => exact liveFor_zero m
  | succ n ih =>
    intro k hk
    rcases Nat.lt_succ_iff_lt_or_eq.mp hk with hlt | rfl
    · exact ih k hlt
    · exact not_stops_iff.mp fun hstops => h ⟨k, stopsAfter_iff.mpr ⟨ih, hstops⟩⟩

/-! ### How a driven run ends -/

theorem LiveFor.drive_of_halted (h : m.LiveFor t) (hhalted : (m.after t).halted = true)
    (hstop : ∀ k < t, control.stop? k = none) (hp : t < patience) :
    m.drive control patience = ⟨.halted, m.after t⟩ := by
  obtain ⟨p, rfl⟩ := Nat.exists_eq_add_of_lt hp
  rw [Nat.add_assoc, h.drive_add hstop, driveFrom_of_halted hhalted]

theorem LiveFor.drive_of_stop {e : Failure} (h : m.LiveFor t)
    (hrest : (m.after t).halted = false) (hstop : ∀ k < t, control.stop? k = none)
    (hlast : control.stop? t = some e) (hp : t < patience) :
    m.drive control patience = ⟨.failed e, m.after t⟩ := by
  obtain ⟨p, rfl⟩ := Nat.exists_eq_add_of_lt hp
  rw [Nat.add_assoc, h.drive_add hstop, driveFrom_of_stop hrest hlast]

theorem LiveFor.drive_of_fault {f : Fault} (h : m.LiveFor t)
    (hfault : (m.after t).step.fault? = some f) (hstop : ∀ k ≤ t, control.stop? k = none)
    (hp : t < patience) : m.drive control patience = ⟨.failed (.fault f), m.after (t + 1)⟩ := by
  obtain ⟨p, rfl⟩ := Nat.exists_eq_add_of_lt hp
  rw [Nat.add_assoc, h.drive_add fun k hk => hstop k (Nat.le_of_lt hk),
    driveFrom_of_fault (halted_of_fault hfault) (hstop t (Nat.le_refl t)) hfault, after_add]
  rfl

theorem LiveFor.drive_unfinished (h : m.LiveFor n) (hstop : ∀ k < n, control.stop? k = none) :
    m.drive control n = ⟨.unfinished, m.after n⟩ := by
  have hdrive : m.drive control (n + 0) = (m.after n).driveFrom control 0 n := h.drive_add hstop
  exact hdrive

/-- A machine that stops in time comes to the same end under all bounds that let it. -/
theorem StopsAfter.exists_end (h : m.StopsAfter t) : ∃ r : Run Failure, r.ending ≠ .unfinished ∧
    ∀ (control : Control) (patience : Nat), (∀ k ≤ t, control.stop? k = none) → t < patience →
      m.drive control patience = r := by
  obtain ⟨hlive, hhalted | ⟨f, hfault⟩⟩ := stopsAfter_iff.mp h
  · refine ⟨⟨.halted, m.after t⟩, by simp, fun control patience hstop hp => ?_⟩
    exact hlive.drive_of_halted hhalted (fun k hk => hstop k (Nat.le_of_lt hk)) hp
  · refine ⟨⟨.failed (.fault f), m.after (t + 1)⟩, by simp, fun control patience hstop hp => ?_⟩
    exact hlive.drive_of_fault hfault hstop hp

/-- The budget is used up where the machine neither rests nor has failed before. -/
theorem drive_budget_exhausted
    (h : ∀ t, m.StopsAfter t → n < t ∨ t = n ∧ (m.after n).halted = false) (hp : n < patience) :
    m.drive { maxSteps := some n } patience = ⟨.failed (.stepLimit n), m.after n⟩ ∧
      (m.after n).steps = m.steps + n := by
  have hlive : m.LiveFor n := by
    by_cases hstop : ∃ t, m.StopsAfter t
    · obtain ⟨t, ht⟩ := hstop
      have hnt := h t ht
      exact ht.liveFor (by omega)
    · exact liveFor_of_no_stop hstop n
  have hrest : (m.after n).halted = false := by
    cases hhalted : (m.after n).halted with
    | false => rfl
    | true =>
      rcases h n (stopsAfter_iff.mpr ⟨hlive, .inl hhalted⟩) with hlt | ⟨-, hrest⟩
      · exact absurd hlt (Nat.lt_irrefl n)
      · rwa [hhalted] at hrest
  refine ⟨?_, steps_after fun k hk => (hlive k hk).1⟩
  exact hlive.drive_of_stop hrest (fun k hk => Control.stop?_of_lt hk)
    (Control.stop?_of_le (Nat.le_refl n)) hp

theorem run_of_no_stop (h : ¬ ∃ t, m.StopsAfter t) (n : Nat) :
    m.run n = ⟨.unfinished, m.after n⟩ :=
  (liveFor_of_no_stop h n).run_add 0

theorem drive_cancelled (h : control.cancelled = true) (hp : 0 < patience) :
    m.drive control patience = ⟨if m.halted then .halted else .failed .cancelled, m⟩ := by
  cases hrest : m.halted with
  | true => exact (liveFor_zero m).drive_of_halted hrest (by simp) hp
  | false =>
    have hstop : control.stop? 0 = some .cancelled := Control.stop?_of_cancelled h 0
    exact (liveFor_zero m).drive_of_stop hrest (by simp) hstop hp

end Machine

/-- A driven run, a plain run and single steps agree, whatever the machine and the budget. Let the
machine after `t` steps be the first that rests or fails, if there is one. A budget of `n` steps
leads to rest if it comes at `t ≤ n`, to the fault if it comes at `t < n`, and else is used up
after exactly `n` steps. Without a budget the end is that of all budgets beyond `t`, and no end
without a `t`. A cancelled run makes no step, and a machine at rest is never cancelled or out of
budget. -/
theorem run_and_drive_follow_steps (m : Machine) :
    (∀ n patience, n < patience →
      (∀ t ≤ n, m.StopsAfter t → (m.after t).halted = true →
        m.drive { maxSteps := some n } patience = ⟨.halted, m.after t⟩) ∧
      (∀ t < n, ∀ f, m.StopsAfter t → (m.after t).step.fault? = some f →
        m.drive { maxSteps := some n } patience = ⟨.failed (.fault f), m.after (t + 1)⟩) ∧
      ((∀ t, m.StopsAfter t → n < t ∨ t = n ∧ (m.after n).halted = false) →
        m.drive { maxSteps := some n } patience = ⟨.failed (.stepLimit n), m.after n⟩ ∧
          (m.after n).steps = m.steps + n)) ∧
    (∀ t, m.StopsAfter t → ∃ r : Run Failure, r.ending ≠ .unfinished ∧
      ∀ patience, t < patience → (m.run patience).driven = r ∧ m.drive {} patience = r ∧
        ∀ n, t < n → m.drive { maxSteps := some n } patience = r) ∧
    ((¬ ∃ t, m.StopsAfter t) → ∀ patience, m.run patience = ⟨.unfinished, m.after patience⟩ ∧
      m.drive {} patience = ⟨.unfinished, m.after patience⟩) ∧
    (∀ maxSteps patience, 0 < patience → m.drive { maxSteps, cancelled := true } patience =
      ⟨if m.halted then .halted else .failed .cancelled, m⟩) ∧
    ∀ n patience, m.StopsAfter n → (m.after n).halted = true →
      (m.drive { maxSteps := some n } patience).ending ≠ .failed (.stepLimit n) := by
  have hwithin (n t : Nat) (ht : t ≤ n) (k : Nat) (hk : k < t) :
      ({ maxSteps := some n } : Control).stop? k = none :=
    Control.stop?_of_lt (Nat.lt_of_lt_of_le hk ht)
  refine ⟨fun n patience hp => ⟨?halts, ?fails, ?exhausted⟩, ?ends, ?never, ?cancelled, ?exact⟩
  case halts =>
    intro t ht hstops hhalted
    have hlive : m.LiveFor t := hstops.liveFor (Nat.le_refl t)
    exact hlive.drive_of_halted hhalted (hwithin n t ht) (Nat.lt_of_le_of_lt ht hp)
  case fails =>
    intro t ht f hstops hfault
    have hlive : m.LiveFor t := hstops.liveFor (Nat.le_refl t)
    refine hlive.drive_of_fault hfault ?_ (Nat.lt_trans ht hp)
    exact fun k hk => hwithin n (t + 1) ht k (Nat.lt_succ_of_le hk)
  case exhausted => exact fun h => Machine.drive_budget_exhausted h hp
  case ends =>
    intro t hstops
    obtain ⟨r, hr, hend⟩ := hstops.exists_end
    have hunbounded (patience : Nat) (hp : t < patience) : m.drive {} patience = r :=
      hend {} patience (fun _ _ => rfl) hp
    refine ⟨r, hr, fun patience hp => ⟨?_, hunbounded patience hp, fun n hn => ?_⟩⟩
    · rw [← Machine.drive_unbounded]
      exact hunbounded patience hp
    · exact hend _ patience (fun k hk => hwithin n (t + 1) hn k (Nat.lt_succ_of_le hk)) hp
  case never =>
    intro h patience
    have hrun := Machine.run_of_no_stop h patience
    refine ⟨hrun, ?_⟩
    rw [Machine.drive_unbounded, hrun]
    rfl
  case cancelled => exact fun maxSteps patience hp => Machine.drive_cancelled rfl hp
  case exact =>
    intro n patience hstops hhalted
    have hlive : m.LiveFor n := hstops.liveFor (Nat.le_refl n)
    rcases Nat.lt_or_ge n patience with hp | hp
    · simp [hlive.drive_of_halted hhalted (hwithin n n (Nat.le_refl n)) hp]
    · simp [(hstops.liveFor hp).drive_unfinished (hwithin n patience hp)]

open Machine in
/-- A fault and a halt right at the limit, a loop without an end, and a cancelled run. -/
theorem run_and_drive_follow_steps_at_the_limit :
    ∃ faulty halting looping : Machine,
      (faulty.StopsAfter 1 ∧
        faulty.drive { maxSteps := some 2 } 3 =
          ⟨.failed (.fault (.cell 1 (-1))), faulty.after 2⟩ ∧
        faulty.drive { maxSteps := some 1 } 2 = ⟨.failed (.stepLimit 1), faulty.after 1⟩ ∧
        (∃ r, (faulty.run 2).driven = r ∧ faulty.drive { maxSteps := some 9 } 2 = r) ∧
        faulty.drive { maxSteps := some 0, cancelled := true } 1 =
          ⟨.failed .cancelled, faulty⟩) ∧
      (halting.StopsAfter 2 ∧
        halting.drive { maxSteps := some 2 } 3 = ⟨.halted, halting.after 2⟩ ∧
        (halting.drive { maxSteps := some 2 } 2).ending ≠ .failed (.stepLimit 2)) ∧
      (¬ ∃ t, looping.StopsAfter t) ∧ looping.run 7 = ⟨.unfinished, looping.after 7⟩ := by
  let faulty := load #[.increment, .moveLeft, .increment] (Tape.blank 1) ""
  let halting := load #[.increment, .increment] (Tape.blank 1) ""
  let looping := load #[.loopEnd 0] { cells := #[1] } ""
  have hfaulty : faulty.StopsAfter 1 :=
    stopsAfter_iff.mpr ⟨by unfold LiveFor; decide, .inr ⟨.cell 1 (-1), by rfl⟩⟩
  have hhalting : halting.StopsAfter 2 :=
    stopsAfter_iff.mpr ⟨by unfold LiveFor; decide, .inl (by rfl)⟩
  have hloop (n steps : Nat) :
      { looping with steps }.after n = { looping with steps := steps + n } := by
    induction n generalizing steps with
    | zero => rfl
    | succ n ih =>
      rw [Nat.add_comm n 1, ← Nat.add_assoc, Nat.add_comm 1, after]
      exact ih (steps + 1)
  have hlooping : ¬ ∃ t, looping.StopsAfter t := by
    rintro ⟨t, hstops, -⟩
    have hat : looping.after t = { looping with steps := 0 + t } := hloop t 0
    have hstill : ¬ (looping.after t).Stops := by
      rw [hat]
      exact not_stops_iff.mpr ⟨rfl, rfl⟩
    exact hstill hstops
  obtain ⟨hbudget, hends, -, hcancelled, -⟩ := run_and_drive_follow_steps faulty
  obtain ⟨hbudget', -, -, -, hexact⟩ := run_and_drive_follow_steps halting
  obtain ⟨-, -, hnever, -⟩ := run_and_drive_follow_steps looping
  obtain ⟨r, -, hr⟩ := hends 1 hfaulty
  obtain ⟨hrun, -, hlarge⟩ := hr 2 (by decide)
  refine ⟨faulty, halting, looping, ⟨hfaulty, ?_, ?_, ⟨r, hrun, hlarge 9 (by decide)⟩, ?_⟩,
    ⟨hhalting, ?_, ?_⟩, hlooping, (hnever hlooping 7).1⟩
  · exact (hbudget 2 3 (by decide)).2.1 1 (by decide) _ hfaulty (by rfl)
  · refine ((hbudget 1 2 (by decide)).2.2 fun t ht => .inr ⟨?_, by decide⟩).1
    exact ht.unique hfaulty
  · exact hcancelled (some 0) 1 (by decide)
  · exact (hbudget' 2 3 (by decide)).1 2 (by decide) hhalting (by rfl)
  · exact hexact 2 2 hhalting (by rfl)

end TapeMachine
