import Mathlib.Algebra.Ring.Nat
import TapeMachine.Proofs.Execution.Budget

/-!
# Budgets spent in slices

A run that has used up its budget can be resumed with another one. It goes on where it was left, so
a run that is cut into slices does what one run with all of their budgets does.
-/
namespace TapeMachine

/-- Two runs that end alike on the same machine, but for the limit with which a budget that is used
up is reported. -/
inductive SameButLimit (limit limit' : Nat) : Run Failure → Run Failure → Prop where
  | same {r : Run Failure} (h : ∀ n, r.ending ≠ .failed (.stepLimit n)) :
    SameButLimit limit limit' r r
  | exhausted (m : Machine) :
    SameButLimit limit limit' ⟨.failed (.stepLimit limit), m⟩ ⟨.failed (.stepLimit limit'), m⟩

theorem SameButLimit.trans {l l' l'' : Nat} {r r' r'' : Run Failure} (h : SameButLimit l l' r r')
    (h' : SameButLimit l' l'' r' r'') : SameButLimit l l'' r r'' := by
  cases h with
  | same hr =>
    cases h' with
    | same => exact .same hr
    | exhausted m => exact absurd rfl (hr l')
  | exhausted m =>
    cases h' with
    | same hr => exact absurd rfl (hr l')
    | exhausted => exact .exhausted m

theorem SameButLimit.machine {l l' : Nat} {r r' : Run Failure} (h : SameButLimit l l' r r') :
    r'.machine = r.machine := by
  cases h <;> rfl

namespace Machine

/-- A run with a budget of so many steps. It needs one turn more to see that it is used up. -/
def spend (m : Machine) (budget : Nat) : Run Failure :=
  m.drive { maxSteps := some budget } (budget + 1)

/-- Spends the budgets one after the other, as long as each of them is used up. -/
def spendAll (m : Machine) (budget : Nat) : List Nat → Run Failure
  | [] => m.spend budget
  | next :: rest =>
    let r := m.spend budget
    match r.ending with
    | .failed (.stepLimit _) => r.machine.spendAll next rest
    | _ => r

/-- The ways in which a run with a budget of `n` steps ends. -/
inductive Spends (m : Machine) (n : Nat) : Run Failure → Prop where
  | halts {t : Nat} (ht : t ≤ n) (hlive : m.LiveFor t) (hhalted : (m.after t).halted = true) :
    Spends m n ⟨.halted, m.after t⟩
  | fails {t : Nat} {f : Fault} (ht : t < n) (hlive : m.LiveFor t)
    (hfault : (m.after t).step.fault? = some f) :
    Spends m n ⟨.failed (.fault f), m.after (t + 1)⟩
  | exhausts (hlive : m.LiveFor n) (hrest : (m.after n).halted = false) :
    Spends m n ⟨.failed (.stepLimit n), m.after n⟩

variable {m : Machine} {n a b patience : Nat} {r : Run Failure}

theorem Spends.drive (h : m.Spends n r) (hp : n < patience) :
    m.drive { maxSteps := some n } patience = r := by
  cases h with
  | @halts t ht hlive hhalted =>
    refine hlive.drive_of_halted hhalted (fun k hk => ?_) (Nat.lt_of_le_of_lt ht hp)
    exact Control.stop?_of_lt (Nat.lt_of_lt_of_le hk ht)
  | @fails t f ht hlive hfault =>
    refine hlive.drive_of_fault hfault (fun k hk => ?_) (Nat.lt_trans ht hp)
    exact Control.stop?_of_lt (Nat.lt_of_le_of_lt hk ht)
  | exhausts hlive hrest =>
    exact hlive.drive_of_stop hrest (fun k hk => Control.stop?_of_lt hk)
      (Control.stop?_of_le (Nat.le_refl n)) hp

theorem exists_spends (m : Machine) (n : Nat) : ∃ r, m.Spends n r := by
  by_cases hlive : m.LiveFor n
  · cases hrest : (m.after n).halted with
    | true => exact ⟨_, .halts (Nat.le_refl n) hlive hrest⟩
    | false => exact ⟨_, .exhausts hlive hrest⟩
  · obtain ⟨t, hstops⟩ : ∃ t, m.StopsAfter t :=
      Classical.byContradiction fun h => hlive (liveFor_of_no_stop h n)
    have ht : t < n := Nat.lt_of_not_le fun hn => hlive (hstops.liveFor hn)
    obtain ⟨hlive', hhalted | ⟨f, hfault⟩⟩ := stopsAfter_iff.mp hstops
    · exact ⟨_, .halts (Nat.le_of_lt ht) hlive' hhalted⟩
    · exact ⟨_, .fails ht hlive' hfault⟩

theorem Spends.spend_eq (h : m.Spends n r) : m.spend n = r :=
  h.drive (Nat.lt_succ_self n)

theorem spends_spend (m : Machine) (n : Nat) : m.Spends n (m.spend n) := by
  obtain ⟨r, hr⟩ := m.exists_spends n
  rwa [hr.spend_eq]

theorem Spends.ending (h : m.Spends n r) : r.ending = .halted ∨
    (∃ f, r.ending = .failed (.fault f)) ∨ r.ending = .failed (.stepLimit n) := by
  cases h with
  | halts => exact .inl rfl
  | @fails t f => exact .inr (.inl ⟨f, rfl⟩)
  | exhausts => exact .inr (.inr rfl)

/-- A run that ends within its budget does not miss a larger one. -/
theorem Spends.extend (h : m.Spends a r) (hr : r.ending ≠ .failed (.stepLimit a)) (b : Nat) :
    m.Spends (a + b) r := by
  cases h with
  | halts ht hlive hhalted => exact .halts (Nat.le_trans ht (Nat.le_add_right a b)) hlive hhalted
  | fails ht hlive hfault => exact .fails (Nat.lt_of_lt_of_le ht (Nat.le_add_right a b)) hlive hfault
  | exhausts => exact absurd rfl hr

/-- Resumed behind `a` steps, a run makes the steps that it would have made without the stop. -/
theorem Spends.resume (hlive : m.LiveFor a) (h : (m.after a).Spends b r) :
    ∃ r', m.Spends (a + b) r' ∧ SameButLimit b (a + b) r r' := by
  cases h with
  | @halts t ht hlive' hhalted =>
    rw [← after_add] at hhalted ⊢
    exact ⟨_, .halts (Nat.add_le_add_left ht a) (hlive.add hlive') hhalted, .same (by simp)⟩
  | @fails t f ht hlive' hfault =>
    rw [← after_add] at hfault ⊢
    exact ⟨_, .fails (Nat.add_lt_add_left ht a) (hlive.add hlive') hfault, .same (by simp)⟩
  | exhausts hlive' hrest =>
    rw [← after_add] at hrest ⊢
    exact ⟨_, .exhausts (hlive.add hlive') hrest, .exhausted _⟩

theorem spend_extend (h : (m.spend a).ending ≠ .failed (.stepLimit a)) (b : Nat) :
    m.spend (a + b) = m.spend a :=
  ((m.spends_spend a).extend h b).spend_eq

/-- The machine of a run that has used up its budget is alive up to there. -/
theorem Spends.exhausted (h : m.Spends n r) (hr : r.ending = .failed (.stepLimit n)) :
    m.LiveFor n ∧ r.machine = m.after n := by
  cases h with
  | exhausts hlive hrest => exact ⟨hlive, rfl⟩
  | _ => simp at hr

theorem spend_resume (h : (m.spend a).ending = .failed (.stepLimit a)) (b : Nat) :
    SameButLimit b (a + b) ((m.spend a).machine.spend b) (m.spend (a + b)) := by
  obtain ⟨hlive, hmachine⟩ := (m.spends_spend a).exhausted h
  obtain ⟨r, hr, hsame⟩ := Spends.resume hlive ((m.after a).spends_spend b)
  rwa [hmachine, hr.spend_eq]

theorem sameButLimit_spend (m : Machine) (n : Nat) :
    SameButLimit n n (m.spend n) (m.spend n) := by
  have h := m.spends_spend n
  generalize m.spend n = r at h
  cases h with
  | exhausts => exact .exhausted _
  | _ => exact .same (by simp)

theorem spendAll_of_exhausted (h : (m.spend a).ending = .failed (.stepLimit a)) (next : Nat)
    (rest : List Nat) : m.spendAll a (next :: rest) = (m.spend a).machine.spendAll next rest := by
  simp only [spendAll, h]

theorem spendAll_of_ended (h : ∀ n, (m.spend a).ending ≠ .failed (.stepLimit n)) (rest : List Nat) :
    m.spendAll a rest = m.spend a := by
  cases rest with
  | nil => rfl
  | cons next rest =>
    rw [spendAll]
    split
    · rename_i n hn
      exact absurd hn (h n)
    · rfl

/-- By induction on the further budgets: the first one is either used up, or it decides. -/
theorem sameButLimit_spendAll (m : Machine) (first : Nat) (rest : List Nat) :
    SameButLimit (rest.getLastD first) (first + rest.sum) (m.spendAll first rest)
      (m.spend (first + rest.sum)) := by
  induction rest generalizing m first with
  | nil => exact m.sameButLimit_spend first
  | cons next rest ih =>
    rw [List.sum_cons, List.getLastD_cons]
    by_cases hlimit : (m.spend first).ending = .failed (.stepLimit first)
    · rw [spendAll_of_exhausted hlimit]
      exact (ih (m.spend first).machine next).trans (spend_resume hlimit _)
    · have hended (n : Nat) : (m.spend first).ending ≠ .failed (.stepLimit n) := by
        rcases (m.spends_spend first).ending with h | ⟨f, h⟩ | h
        · simp [h]
        · simp [h]
        · exact absurd h hlimit
      rw [spendAll_of_ended hended, spend_extend hlimit]
      exact .same hended

theorem Spends.exists_after (h : m.Spends n r) : ∃ k ≤ n, r.machine = m.after k := by
  cases h with
  | @halts t ht => exact ⟨t, ht, rfl⟩
  | @fails t f ht => exact ⟨t + 1, ht, rfl⟩
  | exhausts => exact ⟨n, Nat.le_refl n, rfl⟩

/-- A larger budget either comes to the same end or goes on where the smaller one was used up. -/
theorem spend_mono (m : Machine) (h : a ≤ b) : m.spend b = m.spend a ∨
    (m.spend a).ending = .failed (.stepLimit a) ∧
      ∃ k ≤ b - a, (m.spend b).machine = (m.spend a).machine.after k := by
  obtain ⟨d, rfl⟩ := Nat.exists_eq_add_of_le h
  by_cases hlimit : (m.spend a).ending = .failed (.stepLimit a)
  · obtain ⟨k, hk, hmachine⟩ := ((m.spend a).machine.spends_spend d).exists_after
    refine .inr ⟨hlimit, k, by rwa [Nat.add_sub_cancel_left], ?_⟩
    rw [← hmachine, (spend_resume hlimit d).machine]
  · exact .inl (spend_extend hlimit d)

end Machine

/-- Budgets compose, whatever the machine. A run with a budget of `n` steps is decided in its first
`n + 1` turns: it comes to rest, fails, or has used up its budget. A budget of `b` that is spent on
the machine which one of `a` has left used up ends as a budget of `a + b` does, on the same machine,
but for the limit that is reported; and if the budget of `a` was not used up, that of `a + b` changes
nothing. So a larger budget goes on where a smaller one ends, and a run that is sliced into budgets
executes what it executes with their sum. -/
theorem budgets_compose (m : Machine) :
    (∀ n patience, n < patience → m.drive { maxSteps := some n } patience = m.spend n) ∧
    (∀ n, (m.spend n).ending = .halted ∨ (∃ f, (m.spend n).ending = .failed (.fault f)) ∨
      (m.spend n).ending = .failed (.stepLimit n)) ∧
    (∀ a b, (m.spend a).ending = .failed (.stepLimit a) →
      SameButLimit b (a + b) ((m.spend a).machine.spend b) (m.spend (a + b))) ∧
    (∀ a b, (m.spend a).ending = .halted ∨ (∃ f, (m.spend a).ending = .failed (.fault f)) →
      m.spend (a + b) = m.spend a) ∧
    (∀ a b, a ≤ b → m.spend b = m.spend a ∨ (m.spend a).ending = .failed (.stepLimit a) ∧
      ∃ k ≤ b - a, (m.spend b).machine = (m.spend a).machine.after k) ∧
    ∀ first rest, SameButLimit (rest.getLastD first) (first + rest.sum) (m.spendAll first rest)
      (m.spend (first + rest.sum)) := by
  refine ⟨fun n patience hp => (m.spends_spend n).drive hp, fun n => (m.spends_spend n).ending,
    fun a b h => Machine.spend_resume h b, fun a b h => ?ended, fun a b h => m.spend_mono h,
    m.sameButLimit_spendAll⟩
  case ended =>
    apply Machine.spend_extend
    rcases h with hhalted | ⟨f, hfault⟩
    · simp [hhalted]
    · simp [hfault]

/-- The first budget is used up right before the instruction that fails. -/
theorem budgets_compose_before_a_fault : ∃ m : Machine,
    m.drive { maxSteps := some 1 } 7 = m.spend 1 ∧
      (m.spend 1).ending = .failed (.stepLimit 1) ∧
      SameButLimit 1 2 ((m.spend 1).machine.spend 1) (m.spend 2) ∧
      (m.spend 2).ending = .failed (.fault (.cell 1 (-1))) ∧ m.spend (2 + 5) = m.spend 2 ∧
      SameButLimit 1 2 (m.spendAll 0 [1, 0, 1]) (m.spend 2) := by
  let m := Machine.load #[.increment, .moveLeft, .increment] (Tape.blank 1) ""
  have hlimit : (m.spend 1).ending = .failed (.stepLimit 1) := by rfl
  have hfault : (m.spend 2).ending = .failed (.fault (.cell 1 (-1))) := by rfl
  obtain ⟨hdrive, -, hresume, hextend, -, hslices⟩ := budgets_compose m
  exact ⟨m, hdrive 1 7 (by decide), hlimit, hresume 1 1 hlimit, hfault,
    hextend 2 5 (.inr ⟨_, hfault⟩), hslices 0 [1, 0, 1]⟩

end TapeMachine
