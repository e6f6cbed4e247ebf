import TapeMachine.Proofs.Execution.Calls
import TapeMachine.Proofs.Execution.Effect
import TapeMachine.Proofs.Syntax.Pairing

/-!
# The faults of a program

A machine never leaves its code, and its head never leaves the tape, unless the tape is empty from
the start. The jumps of a program stay within its code as well. So a program has only two faults: to
move left on the first cell, and to print when there is no cell.
-/
namespace TapeMachine

/-- No jump of the code leads beyond its end. -/
def Lands (code : Array Instruction) : Prop :=
  ∀ i target : Nat, code[i]? = some (.loopStart target) ∨ code[i]? = some (.loopEnd target) →
    target ≤ code.size

theorem lands_of_parse {source : String} {p : Program} (h : Program.parse source = .ok p) :
    Lands p.code := by
  obtain ⟨b, -, hcode⟩ := exists_block_of_parse h
  rw [hcode]
  have hsize : (b.code 0).toArray.size = b.size := by simp
  rintro i target (hi | hi)
  · obtain ⟨x, hx, rfl⟩ := Block.exists_hasLoop_of_loopStart hi
    have hbounds := hx.bounds
    omega
  · obtain ⟨k, x, hx, -, rfl⟩ := Block.exists_hasLoop_of_loopEnd hi
    have hbounds := hx.bounds
    omega

namespace Tape

/-- The head stands on a cell. Only if there is none it waits where the first one will be. -/
def Seated (t : Tape) : Prop :=
  t.head < t.cells.size ∨ t.head = 0 ∧ t.cells = #[]

variable {t t' : Tape}

theorem seated_write (t : Tape) (v : UInt8) : (t.write v).Seated :=
  .inl (t.write_head_lt v)

theorem seated_moveRight (t : Tape) : t.moveRight.Seated :=
  .inl t.moveRight_head_lt

theorem Seated.moveLeft (ht : t.Seated) (h : t.moveLeft? = some t') : t'.Seated := by
  obtain ⟨hcells, hhead⟩ := moveLeft?_eq_some h
  rcases ht with hlt | ⟨hzero, -⟩
  · refine .inl ?_
    rw [hcells]
    omega
  · omega

/-- A head without a cell is found on an empty tape only. -/
theorem Seated.of_cell?_eq_none (ht : t.Seated) (h : t.cell? = none) :
    t.head = 0 ∧ t.cells = #[] := by
  have hsize := t.cell?_eq_none_iff.mp h
  rcases ht with hlt | hempty
  · omega
  · exact hempty

end Tape

namespace Machine

variable {m : Machine} {s : Stepped} {code : Array Instruction} {cells : Array UInt8} {f : Fault}

theorem Effect.seated (h : m.Effect s) (ht : m.tape.Seated) : s.machine.tape.Seated := by
  rcases h.tape with hsame | hright | hleft | ⟨v, hwrite⟩
  · rwa [hsame]
  · rw [hright]
    exact m.tape.seated_moveRight
  · exact ht.moveLeft hleft
  · rw [hwrite]
    exact m.tape.seated_write v

/-- The tape never shrinks. -/
theorem Effect.size_le (h : m.Effect s) : m.tape.cells.size ≤ s.machine.tape.cells.size := by
  rcases h.tape with hsame | hright | hleft | ⟨v, hwrite⟩
  · rw [hsame]
  · rw [hright, Tape.size_moveRight]
    exact Nat.le_max_right _ _
  · rw [(Tape.moveLeft?_eq_some hleft).1]
  · rw [hwrite, Tape.size_write]
    exact Nat.le_max_right _ _

/-- What holds of a machine that was loaded with this code and these cells, after any steps. -/
structure Sound (m : Machine) (code : Array Instruction) (cells : Array UInt8) : Prop where
  code : m.code = code
  ip_le : m.ip ≤ m.code.size
  seated : m.tape.Seated
  grown : cells.size ≤ m.tape.cells.size

theorem sound_load (code : Array Instruction) (cells : Array UInt8) (input : String) :
    (load code { cells } input).Sound code cells where
  code := rfl
  ip_le := Nat.zero_le _
  seated := by
    rcases Nat.eq_zero_or_pos cells.size with hempty | hpos
    · exact .inr ⟨rfl, Array.size_eq_zero_iff.mp hempty⟩
    · exact .inl hpos
  grown := Nat.le_refl _

theorem Sound.step (h : m.Sound code cells) : m.step.machine.Sound code cells where
  code := m.step_effect.code.trans h.code
  ip_le := m.step_effect.ip_le h.ip_le
  seated := m.step_effect.seated h.seated
  grown := Nat.le_trans h.grown m.step_effect.size_le

theorem Sound.after (h : m.Sound code cells) (n : Nat) : (m.after n).Sound code cells := by
  induction n generalizing m with
  | zero => exact h
  | succ n ih => exact ih h.step

theorem Sound.performAll (h : m.Sound code cells) (calls : List Call) :
    (m.performAll calls).Sound code cells := by
  obtain ⟨n, hn⟩ := m.performAll_eq_after calls
  rw [hn]
  exact h.after n

/-- An empty tape was empty from the start. -/
theorem Sound.tape (h : m.Sound code cells) : m.tape.head < m.tape.cells.size ∨
    m.tape.head = 0 ∧ m.tape.cells = #[] ∧ cells = #[] := by
  rcases h.seated with hlt | ⟨hzero, hempty⟩
  · exact .inl hlt
  · have hgrown := h.grown
    rw [hempty] at hgrown
    exact .inr ⟨hzero, hempty, Array.size_eq_zero_iff.mp (Nat.le_zero.mp hgrown)⟩

/-- A fault of code without stray jumps, and the tape that it leaves. -/
inductive EdgeFault (code : Array Instruction) (t : Tape) : Fault → Prop where
  | left {ip : Nat} (hi : code[ip]? = some .moveLeft) (hhead : t.head = 0) :
    EdgeFault code t (.cell ip (-1))
  | output {ip : Nat} (hi : code[ip]? = some .output) (hhead : t.head = 0)
    (hcells : t.cells = #[]) : EdgeFault code t (.cell ip 0)

theorem Effect.edgeFault (he : m.Effect s) (h : m.Sound code cells) (hland : Lands code)
    (hf : s.fault? = some f) : EdgeFault code s.machine.tape f := by
  obtain rfl := h.code
  cases he with
  | leftFails hi ht =>
    obtain rfl := Option.some.inj hf
    exact .left hi ht
  | outputFails hi hv =>
    obtain ⟨hhead, hcells⟩ := h.seated.of_cell?_eq_none hv
    obtain rfl := Option.some.inj hf
    rw [hhead]
    exact .output hi hhead hcells
  | @jumpFails i target hi hv ht =>
    have hle : target ≤ m.code.size := by
      rcases Instruction.bracket_of_jump? hv with rfl | rfl
      · exact hland _ _ (.inl hi)
      · exact hland _ _ (.inr hi)
    omega
  | _ => simp at hf

theorem EdgeFault.exists_instruction {t : Tape} (h : EdgeFault code t f) :
    ∃ i, code[f.ip]? = some i := by
  cases h with
  | left hi => exact ⟨_, hi⟩
  | output hi => exact ⟨_, hi⟩

theorem EdgeFault.ip_lt {t : Tape} (h : EdgeFault code t f) : f.ip < code.size := by
  obtain ⟨i, hi⟩ := h.exists_instruction
  exact (Array.getElem?_eq_some_iff.mp hi).1

/-- A fault that a call reports is that of its last step. -/
theorem LeadsTo.edgeFault (hs : m.LeadsTo s) (h : m.Sound code cells) (hland : Lands code)
    (hf : s.fault? = some f) : EdgeFault code s.machine.tape f := by
  cases hs with
  | clean n => simp at hf
  | @faulty n f' hstep =>
    obtain rfl := Option.some.inj hf
    exact (step_effect _).edgeFault (h.after n) hland hstep

end Machine

open Machine in
/-- Whatever calls are made on a program, one after the other and past all faults, the machine stays
within its code and its head on the tape, unless the tape was empty from the start and still is. The
next call reports no fault but a move to the left on the first cell, or a print on an empty tape. -/
theorem faults_only_at_the_edge {source : String} {p : Program} (h : Program.parse source = .ok p)
    (cells : Array UInt8) (input : String) (calls : List Call) {m : Machine}
    (hm : (Machine.load p.code { cells } input).performAll calls = m) :
    (m.code = p.code ∧ m.ip ≤ p.code.size ∧
      (m.tape.head < m.tape.cells.size ∨
        m.tape.head = 0 ∧ m.tape.cells = #[] ∧ cells = #[])) ∧
      ∀ (call : Call) (f : Fault), (m.perform call).fault? = some f →
        f.ip < p.code.size ∧ EdgeFault p.code (m.perform call).machine.tape f := by
  have hsound : m.Sound p.code cells := hm ▸ (sound_load p.code cells input).performAll calls
  refine ⟨⟨hsound.code, hsound.code ▸ hsound.ip_le, hsound.tape⟩, ?_⟩
  intro call f hf
  have hedge := (m.perform_leadsTo call).edgeFault hsound (lands_of_parse h) hf
  exact ⟨hedge.ip_lt, hedge⟩

/-- Both faults, one after the other: the second call goes on behind the first. -/
theorem faults_only_at_the_edge_resumed :
    ∃ p, Program.parse "<." = .ok p ∧ ∃ m, (Machine.load p.code { cells := #[] } "").performAll
      [.run 1] = m ∧ (m.perform (.drive {} 2)).fault? = some (.cell 1 0) ∧
        m.tape.head = 0 ∧ m.tape.cells = #[] ∧
          Machine.EdgeFault p.code (m.perform (.drive {} 2)).machine.tape (.cell 1 0) := by
  have h : Program.parse "<." = .ok ⟨#[.moveLeft, .output], #[0, 1]⟩ := by rfl
  obtain ⟨-, hfault⟩ := faults_only_at_the_edge h #[] "" [.run 1] rfl
  exact ⟨_, h, _, rfl, by rfl, by rfl, by rfl, (hfault (.drive {} 2) _ (by rfl)).2⟩

end TapeMachine
