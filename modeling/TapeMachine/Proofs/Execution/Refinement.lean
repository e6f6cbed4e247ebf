import TapeMachine.Proofs.Execution.Evaluation
import TapeMachine.Proofs.Execution.Steps
import TapeMachine.Proofs.Execution.Tape
import TapeMachine.Proofs.Syntax.Reading

/-!
# Running code is evaluating its block

A machine whose code holds a block walks through it as the block is evaluated: with the same data at
the end, with the same fault at the same instruction, and for ever if there is no outcome.
-/
namespace TapeMachine

/-- What an evaluation knows of a machine. -/
def Machine.data (m : Machine) : Data where
  cells := m.tape.cells.toList
  head := m.tape.head
  cursor := m.input.cursor
  output := m.output.toList

namespace Machine

theorem data_value (m : Machine) : m.data.value = m.tape.value := by
  rw [Data.value, List.getD_eq_getElem?_getD, Tape.value, Tape.cell?_eq_getElem?]
  rfl

/-- The machine is about to run the instruction at `ip` of this code, with this input and data. -/
structure Stands (m : Machine) (code : Array Instruction) (text : List Char) (ip : Nat) (d : Data) :
    Prop where
  code : m.code = code
  text : m.input.chars.toList = text
  ip : m.ip = ip
  data : m.data = d

theorem data_write (m : Machine) (v : UInt8) :
    { m.advanced with tape := m.tape.write v }.data = m.data.store v := by
  simp [Machine.data, Data.store, Tape.toList_write]

variable {m : Machine} {code : Array Instruction} {text : List Char} {ip target : Nat} {d d' : Data}

theorem Stands.halted (h : m.Stands code text ip d) {i : Instruction} (hi : code[ip]? = some i) :
    m.halted = false := by
  obtain ⟨rfl, -, rfl, -⟩ := h
  exact halted_of_current hi

/-- A plain instruction does to the machine what it does to the data. -/
theorem Stands.step_op (h : m.Stands code text ip d) {o : Op} (hi : code[ip]? = some o.instruction)
    (hact : o.act text d = .ok d') :
    m.step.fault? = none ∧ m.step.machine.Stands code text (ip + 1) d' := by
  obtain ⟨rfl, rfl, rfl, rfl⟩ := h
  rw [step_of_current hi]
  cases o with
  | moveRight =>
    obtain rfl := Except.ok.inj hact
    refine ⟨rfl, rfl, rfl, rfl, ?_⟩
    simp [execute, Op.instruction, Machine.data, Tape.toList_moveRight]
  | moveLeft =>
    simp only [Op.act] at hact
    split at hact
    · simp at hact
    · rename_i hhead
      obtain rfl := Except.ok.inj hact
      cases hleft : m.tape.moveLeft? with
      | none => exact absurd (Tape.moveLeft?_eq_none_iff _ |>.mp hleft) hhead
      | some t =>
        obtain ⟨hcells, hmoved⟩ := Tape.moveLeft?_eq_some hleft
        simp only [execute, Op.instruction, advanced_tape, hleft, true_and]
        refine ⟨rfl, rfl, rfl, ?_⟩
        simp [Machine.data, hcells, hmoved]
  | increment =>
    obtain rfl := Except.ok.inj hact
    rw [data_value]
    exact ⟨rfl, rfl, rfl, rfl, m.data_write _⟩
  | decrement =>
    obtain rfl := Except.ok.inj hact
    rw [data_value]
    exact ⟨rfl, rfl, rfl, rfl, m.data_write _⟩
  | output =>
    have hcell : m.tape.cell? = m.data.cells[m.data.head]? := Tape.cell?_eq_getElem? _
    simp only [Op.act] at hact
    split at hact
    · rename_i v hv
      obtain rfl := Except.ok.inj hact
      simp only [execute, Op.instruction, advanced_tape, hcell, hv, true_and]
      refine ⟨rfl, rfl, rfl, ?_⟩
      simp [Machine.data]
    · simp at hact
  | input =>
    simp only [Op.act] at hact
    have hchar : m.input.chars[m.input.cursor]? = m.input.chars.toList[m.data.cursor]? :=
      Array.getElem?_toList.symm
    split at hact
    · rename_i c hc
      obtain rfl := Except.ok.inj hact
      simp only [execute, Op.instruction, Feed.next, advanced_input, hchar, hc, true_and]
      refine ⟨rfl, rfl, rfl, ?_⟩
      rw [← data_write]
      rfl
    · rename_i hc
      obtain rfl := Except.ok.inj hact
      simp only [execute, Op.instruction, Feed.next, advanced_input, hchar, hc, true_and]
      exact ⟨rfl, rfl, rfl, m.data_write 0⟩

theorem Stands.step_op_fails (h : m.Stands code text ip d) {o : Op} {pointer : Int}
    (hi : code[ip]? = some o.instruction) (hact : o.act text d = .error pointer) :
    m.step.fault? = some (.cell ip pointer) ∧ m.step.machine.data = d := by
  obtain ⟨rfl, rfl, rfl, rfl⟩ := h
  rw [step_of_current hi]
  cases o with
  | moveLeft =>
    simp only [Op.act] at hact
    split at hact
    · rename_i hhead
      obtain rfl := Except.error.inj hact
      have hleft : m.tape.moveLeft? = none := (Tape.moveLeft?_eq_none_iff _).mpr hhead
      simp only [execute, Op.instruction, advanced_tape, hleft, true_and]
      rfl
    · simp at hact
  | output =>
    have hcell : m.tape.cell? = m.data.cells[m.data.head]? := Tape.cell?_eq_getElem? _
    simp only [Op.act] at hact
    split at hact
    · simp at hact
    · rename_i hv
      obtain rfl := Except.error.inj hact
      simp only [execute, Op.instruction, advanced_tape, hcell, hv]
      exact ⟨rfl, rfl⟩
  | input =>
    simp only [Op.act] at hact
    split at hact <;> simp at hact
  | moveRight => simp [Op.act] at hact
  | increment => simp [Op.act] at hact
  | decrement => simp [Op.act] at hact

/-- An opening bracket jumps on zero. -/
theorem Stands.step_loopStart (h : m.Stands code text ip d)
    (hi : code[ip]? = some (.loopStart target)) (ht : target ≤ code.size) :
    m.step.fault? = none ∧
      m.step.machine.Stands code text (if d.value = 0 then target else ip + 1) d := by
  obtain ⟨rfl, rfl, rfl, rfl⟩ := h
  have hjump : m.advanced.jump m.ip target = { machine := { m.advanced with ip := target } } :=
    if_pos ht
  rw [data_value]
  by_cases hzero : m.tape.value = 0
  · rw [step_loopStart_of_zero hi hzero, hjump, if_pos hzero]
    exact ⟨rfl, rfl, rfl, rfl, rfl⟩
  · rw [step_loopStart_of_ne hi hzero, if_neg hzero]
    exact ⟨rfl, rfl, rfl, rfl, rfl⟩

/-- A closing bracket jumps unless on zero. -/
theorem Stands.step_loopEnd (h : m.Stands code text ip d)
    (hi : code[ip]? = some (.loopEnd target)) (ht : target ≤ code.size) :
    m.step.fault? = none ∧
      m.step.machine.Stands code text (if d.value = 0 then ip + 1 else target) d := by
  obtain ⟨rfl, rfl, rfl, rfl⟩ := h
  have hjump : m.advanced.jump m.ip target = { machine := { m.advanced with ip := target } } :=
    if_pos ht
  rw [data_value]
  by_cases hzero : m.tape.value = 0
  · rw [step_loopEnd_of_zero hi hzero, if_pos hzero]
    exact ⟨rfl, rfl, rfl, rfl, rfl⟩
  · rw [step_loopEnd_of_ne hi hzero, hjump, if_neg hzero]
    exact ⟨rfl, rfl, rfl, rfl, rfl⟩

end Machine

/-- The places from which a block may be entered: its first instruction and, if it is a loop, also
the bracket at the end of the body. The two brackets of a loop ask the same question. -/
inductive Block.Entry (base : Nat) : Block → Nat → Prop where
  | first (b : Block) : Entry base b base
  | closing (body rest : Block) : Entry base (.loop body rest) (base + 1 + body.size)

namespace Machine

variable {m : Machine} {code : Array Instruction} {text : List Char} {ip : Nat} {d d' : Data}

/-- From either bracket of a loop a machine goes behind the loop or into its body. -/
theorem Stands.step_loop {body rest : Block} {base : Nat} (h : m.Stands code text ip d)
    (hp : Block.Placed code base (.loop body rest)) (he : Block.Entry base (.loop body rest) ip) :
    m.halted = false ∧ m.step.fault? = none ∧ m.step.machine.Stands code text
      (if d.value = 0 then base + body.size + 2 else base + 1) d := by
  have hsize := hp.le_size
  simp only [Block.size] at hsize
  cases he with
  | first => exact ⟨h.halted hp.loopStart, h.step_loopStart hp.loopStart (by omega)⟩
  | closing =>
    have hstep := h.step_loopEnd hp.loopEnd (by omega)
    rw [show base + 1 + body.size + 1 = base + body.size + 2 by omega] at hstep
    exact ⟨h.halted hp.loopEnd, hstep⟩

/-- What it means for a machine to come to the outcome of a block that ends before index `stop`. -/
def Attains (m : Machine) (code : Array Instruction) (text : List Char) (stop : Nat) :
    Outcome → Prop
  | .done d => ∃ n, m.LiveFor n ∧ (m.after n).Stands code text stop d
  | .failed fault d => ∃ n, m.LiveFor n ∧ (m.after n).halted = false ∧
      (m.after n).step.fault? = some fault ∧ (m.after n).step.machine.data = d

theorem Attains.of_live {n stop : Nat} {out : Outcome} (hlive : m.LiveFor n)
    (h : (m.after n).Attains code text stop out) : m.Attains code text stop out := by
  cases out with
  | done d =>
    obtain ⟨k, hk, hstands⟩ := h
    exact ⟨n + k, hlive.add hk, by rwa [after_add]⟩
  | failed fault d =>
    obtain ⟨k, hk, hfail⟩ := h
    exact ⟨n + k, hlive.add hk, by rwa [after_add]⟩

end Machine

open Machine in
/-- By induction on the evaluation: a machine at an entry of the block comes to the same outcome. -/
theorem Eval.attains {text : List Char} {b : Block} {base : Nat} {d : Data} {out : Outcome}
    (h : Eval text b base d out) {m : Machine} {code : Array Instruction} {ip : Nat}
    (hp : Block.Placed code base b) (he : Block.Entry base b ip) (hm : m.Stands code text ip d) :
    m.Attains code text (base + b.size) out := by
  induction h generalizing m ip with
  | empty =>
    cases he
    exact ⟨0, liveFor_zero m, hm⟩
  | @op o rest base d d' out act next ih =>
    cases he
    obtain ⟨hfault, hnext⟩ := hm.step_op hp.op.1 act
    refine Attains.of_live (n := 1) (liveFor_one (hm.halted hp.op.1) hfault) ?_
    rw [Block.size, Nat.add_comm rest.size, ← Nat.add_assoc]
    exact ih hp.op.2 (.first rest) hnext
  | opFails act =>
    cases he
    obtain ⟨hfault, hdata⟩ := hm.step_op_fails hp.op.1 act
    exact ⟨0, liveFor_zero m, hm.halted hp.op.1, hfault, hdata⟩
  | @loopDone body rest base d out zero next ih =>
    obtain ⟨hrest, hfault, hnext⟩ := hm.step_loop hp he
    rw [if_pos zero] at hnext
    refine Attains.of_live (n := 1) (liveFor_one hrest hfault) ?_
    have hstop : base + (body.size + rest.size + 2) = base + body.size + 2 + rest.size := by omega
    rw [Block.size, hstop]
    exact ih hp.rest (.first rest) hnext
  | @loopAgain body rest base d d' out nonzero once again ihOnce ihAgain =>
    obtain ⟨hrest, hfault, hnext⟩ := hm.step_loop hp he
    rw [if_neg nonzero] at hnext
    obtain ⟨n, hlive, hclosing⟩ := ihOnce hp.body (.first body) hnext
    refine Attains.of_live (n := 1) (liveFor_one hrest hfault) (Attains.of_live hlive ?_)
    exact ihAgain hp (.closing body rest) hclosing
  | @loopFails body rest base d d' fault nonzero once ih =>
    obtain ⟨hrest, hfault, hnext⟩ := hm.step_loop hp he
    rw [if_neg nonzero] at hnext
    refine Attains.of_live (n := 1) (liveFor_one hrest hfault) ?_
    exact ih hp.body (.first body) hnext

/-- By induction on the patience: without an outcome the machine is never seen to stop. Where the
body of a loop has an outcome the machine is followed to the bracket behind it, at least one step
on. -/
theorem run_unfinished_of_no_outcome {text : List Char} (patience : Nat) {b : Block} {base ip : Nat}
    {d : Data} {m : Machine} {code : Array Instruction} (hp : Block.Placed code base b)
    (he : Block.Entry base b ip) (hm : m.Stands code text ip d)
    (hno : ¬ ∃ out, Eval text b base d out) : (m.run patience).ending = .unfinished := by
  induction patience using Nat.strongRecOn generalizing b base ip d m with
  | ind patience ih =>
  cases patience with
  | zero => rfl
  | succ patience =>
  cases b with
  | empty => exact absurd ⟨_, .empty⟩ hno
  | op o rest =>
    cases he
    cases hact : o.act text d with
    | error pointer => exact absurd ⟨_, .opFails hact⟩ hno
    | ok d' =>
      obtain ⟨hfault, hnext⟩ := hm.step_op hp.op.1 hact
      rw [Machine.run_of_clean (hm.halted hp.op.1) hfault]
      refine ih patience (Nat.lt_succ_self _) hp.op.2 (.first rest) hnext ?_
      rintro ⟨out, hout⟩
      exact hno ⟨out, .op hact hout⟩
  | loop body rest =>
    obtain ⟨hrest, hfault, hnext⟩ := hm.step_loop hp he
    rw [Machine.run_of_clean hrest hfault]
    by_cases hzero : d.value = 0
    · rw [if_pos hzero] at hnext
      refine ih patience (Nat.lt_succ_self _) hp.rest (.first rest) hnext ?_
      rintro ⟨out, hout⟩
      exact hno ⟨out, .loopDone hzero hout⟩
    · rw [if_neg hzero] at hnext
      by_cases hbody : ∃ out, Eval text body (base + 1) d out
      · obtain ⟨out, hout⟩ := hbody
        cases out with
        | failed fault d' => exact absurd ⟨_, .loopFails hzero hout⟩ hno
        | done d' =>
          obtain ⟨n, hlive, hclosing⟩ := hout.attains hp.body (.first body) hnext
          rcases Nat.lt_or_ge patience n with hlt | hge
          · exact hlive.run_unfinished (Nat.le_of_lt hlt)
          · obtain ⟨k, rfl⟩ := Nat.exists_eq_add_of_le hge
            rw [hlive.run_add]
            refine ih k (by omega) hp (.closing body rest) hclosing ?_
            rintro ⟨out, hagain⟩
            exact hno ⟨out, .loopAgain hzero hout hagain⟩
      · exact ih patience (Nat.lt_succ_self _) hp.body (.first body) hnext hbody

/-- What is seen of a run, unless it is unfinished. -/
def Run.outcome? (r : Run Fault) : Option Outcome :=
  match r.ending with
  | .halted => some (.done r.machine.data)
  | .failed fault => some (.failed fault r.machine.data)
  | .unfinished => none

theorem Run.outcome?_eq_none_iff (r : Run Fault) : r.outcome? = none ↔ r.ending = .unfinished := by
  unfold outcome?
  split <;> simp_all

namespace Machine

variable {m : Machine} {code : Array Instruction} {text : List Char} {out : Outcome}

theorem Attains.exists_run (h : m.Attains code text code.size out) :
    ∃ n, (m.run n).outcome? = some out := by
  cases out with
  | done d =>
    obtain ⟨n, hlive, hstands⟩ := h
    have hhalted : (m.after n).halted = true := by simp [halted, hstands.code, hstands.ip]
    refine ⟨n + 1, ?_⟩
    rw [hlive.run_add, run_of_halted hhalted, ← hstands.data]
    rfl
  | failed fault d =>
    obtain ⟨n, hlive, hrest, hfault, hdata⟩ := h
    refine ⟨n + 1, ?_⟩
    rw [hlive.run_add, run_of_fault hrest hfault, ← hdata]
    rfl

theorem outcome_unique {out' : Outcome} {n k : Nat} (hn : (m.run n).outcome? = some out)
    (hk : (m.run k).outcome? = some out') : out = out' := by
  have hfinished (j : Nat) (o : Outcome) (h : (m.run j).outcome? = some o) :
      (m.run j).ending ≠ .unfinished := by
    rw [Ne, ← Run.outcome?_eq_none_iff, h]
    simp
  have hrun : m.run n = m.run k := run_eq_of_finished (hfinished n out hn) (hfinished k out' hk)
  rw [hrun, hk] at hn
  exact (Option.some.inj hn).symm

/-- The whole code is one block, and the machine stands at its start. -/
theorem exists_run_iff_eval {b : Block} {d : Data} (hp : Block.Placed code 0 b)
    (hsize : code.size = b.size) (hm : m.Stands code text 0 d) :
    (∃ n, (m.run n).outcome? = some out) ↔ Eval text b 0 d out := by
  have hforward (o : Outcome) (ho : Eval text b 0 d o) : ∃ n, (m.run n).outcome? = some o := by
    have hattains := ho.attains hp (.first b) hm
    rw [Nat.zero_add, ← hsize] at hattains
    exact hattains.exists_run
  constructor
  · rintro ⟨n, hn⟩
    by_cases h : ∃ o, Eval text b 0 d o
    · obtain ⟨o, ho⟩ := h
      obtain ⟨k, hk⟩ := hforward o ho
      rwa [outcome_unique hn hk]
    · have hnone := (Run.outcome?_eq_none_iff _).mpr
        (run_unfinished_of_no_outcome n hp (.first b) hm h)
      rw [hnone] at hn
      simp at hn
  · exact hforward out

theorem run_unfinished_iff_no_eval {b : Block} {d : Data} (hp : Block.Placed code 0 b)
    (hsize : code.size = b.size) (hm : m.Stands code text 0 d) :
    (∀ n, (m.run n).ending = .unfinished) ↔ ¬ ∃ o, Eval text b 0 d o := by
  constructor
  · rintro hnever ⟨o, ho⟩
    obtain ⟨n, hn⟩ := (exists_run_iff_eval hp hsize hm).mpr ho
    rw [(Run.outcome?_eq_none_iff _).mpr (hnever n)] at hn
    simp at hn
  · intro hno n
    exact run_unfinished_of_no_outcome n hp (.first b) hm hno

end Machine

/-- A run of the program of a source and the evaluation of the one block that the source spells have
the same outcome, whatever the cells and the input: they end with the same data, or fail at the same
instruction with the same fault and the same data, and if one has no end, neither has the other. -/
theorem run_iff_eval {source : String} {p : Program} (h : Program.parse source = .ok p) :
    ∃ b : Block, (∀ c : Block, c.chars = instructionChars source.toList ↔ c = b) ∧
      ∀ (cells : Array UInt8) (input : String),
        (∀ out, (∃ n, ((Machine.load p.code { cells } input).run n).outcome? = some out) ↔
          Eval input.toList b 0 { cells := cells.toList } out) ∧
        ((∀ n, ((Machine.load p.code { cells } input).run n).ending = .unfinished) ↔
          ¬ ∃ out, Eval input.toList b 0 { cells := cells.toList } out) := by
  obtain ⟨b, hb, hcode⟩ := exists_block_of_parse h
  refine ⟨b, ?_, ?_⟩
  · intro c
    exact ⟨fun hc => Block.chars_injective (hc.trans hb.symm), fun hc => hc ▸ hb⟩
  · intro cells input
    have hp : Block.Placed p.code 0 b := hcode ▸ Block.placed_code b
    have hsize : p.code.size = b.size := by simp [hcode]
    have hm : (Machine.load p.code { cells } input).Stands p.code input.toList 0
        { cells := cells.toList } := ⟨rfl, rfl, rfl, rfl⟩
    exact ⟨fun out => Machine.exists_run_iff_eval hp hsize hm,
      Machine.run_unfinished_iff_no_eval hp hsize hm⟩

/-- The inner loop fails in its second turn, back on the first cell. -/
theorem run_iff_eval_in_second_turn :
    ∃ p, Program.parse "+[>+[<]]" = .ok p ∧
      ∃ b : Block, b.chars = instructionChars "+[>+[<]]".toList ∧
        Eval [] b 0 { cells := [] } (.failed (.cell 5 (-1)) { cells := [1, 1] }) := by
  have h : Program.parse "+[>+[<]]" = .ok ⟨#[.increment, .loopStart 8, .moveRight, .increment,
      .loopStart 7, .moveLeft, .loopEnd 5, .loopEnd 2], #[0, 1, 2, 3, 4, 5, 6, 7]⟩ := by rfl
  obtain ⟨b, hb, hrun⟩ := run_iff_eval h
  exact ⟨_, h, b, (hb b).mpr rfl, ((hrun #[] "").1 _).mp ⟨10, by rfl⟩⟩

end TapeMachine
