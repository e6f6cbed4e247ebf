import Mathlib.Algebra.Ring.Int.Defs
import Mathlib.Data.Finset.Lattice.Fold
import TapeMachine.Proofs.Execution.Calls
import TapeMachine.Proofs.Execution.Tape

/-!
# Straight code

A stretch of code that only moves the head and changes cells. Where each of its instructions finds
the head is known from the stretch alone, and so is how often a cell is raised and lowered. A machine
walks through it with one step for each instruction, unless the head would leave the tape.
-/
namespace TapeMachine

/-- The instructions that move the head or change the cell under it. -/
inductive Stroke where
  | right
  | left
  | plus
  | minus
  deriving DecidableEq

namespace Stroke

def instruction : Stroke → Instruction
  | right => .moveRight
  | left => .moveLeft
  | plus => .increment
  | minus => .decrement

/-- How far the head moves. -/
def shift : Stroke → Int
  | right => 1
  | left => -1
  | plus => 0
  | minus => 0

/-- What is added to the cell under the head. -/
def change : Stroke → Int
  | right => 0
  | left => 0
  | plus => 1
  | minus => -1

/-- The tape after a stroke. On the first cell nothing lies to the left. -/
def act (t : Tape) : Stroke → Tape
  | right => t.moveRight
  | left => t.moveLeft?.getD t
  | plus => t.write (t.value + 1)
  | minus => t.write (t.value - 1)

end Stroke

/-- How far the head has moved after all the strokes. -/
def displacement (strokes : List Stroke) : Int :=
  (strokes.map Stroke.shift).sum

/-- How many times the stroke `s` is made at the displacement `d` from the start. -/
def strikes (strokes : List Stroke) (s : Stroke) (d : Int) : Nat :=
  (List.range strokes.length).countP fun k =>
    strokes[k]? = some s ∧ displacement (strokes.take k) = d

/-- By how much the cell at the displacement `d` from the start is raised. -/
def delta (strokes : List Stroke) (d : Int) : Int :=
  strikes strokes .plus d - strikes strokes .minus d

/-- The largest displacement on the way. -/
def peak (strokes : List Stroke) : Int :=
  (Finset.range (strokes.length + 1)).sup' (Finset.nonempty_range_iff.mpr (Nat.succ_ne_zero _))
    fun k => displacement (strokes.take k)

/-- A head that starts here never leaves the tape. -/
def Stays (head : Nat) (strokes : List Stroke) : Prop :=
  ∀ k ≤ strokes.length, 0 ≤ (head : Int) + displacement (strokes.take k)

/-- The tape after all the strokes. -/
def play (strokes : List Stroke) (t : Tape) : Tape :=
  strokes.foldl Stroke.act t

variable {s : Stroke} {strokes : List Stroke} {t : Tape}

/-! ### The first stroke and the others -/

theorem displacement_cons (s : Stroke) (strokes : List Stroke) :
    displacement (s :: strokes) = s.shift + displacement strokes := by
  rw [displacement, List.map_cons, List.sum_cons, displacement]

theorem strikes_cons (x : Stroke) (strokes : List Stroke) (s : Stroke) (d : Int) :
    strikes (x :: strokes) s d =
      (if x = s ∧ d = 0 then 1 else 0) + strikes strokes s (d - x.shift) := by
  have hrest (k : Nat) : displacement ((x :: strokes).take (k + 1)) = d ↔
      displacement (strokes.take k) = d - x.shift := by
    rw [List.take_succ_cons, displacement_cons]
    omega
  have hfirst : displacement ((x :: strokes).take 0) = d ↔ d = 0 := eq_comm
  rw [strikes, List.length_cons, List.range_succ_eq_map, List.countP_cons, List.countP_map,
    Nat.add_comm]
  simp only [Function.comp_def, hrest, hfirst, Nat.succ_eq_add_one, List.getElem?_cons_succ,
    List.getElem?_cons_zero, Option.some.injEq, decide_eq_true_eq, strikes]

theorem delta_cons (s : Stroke) (strokes : List Stroke) (d : Int) :
    delta (s :: strokes) d = (if d = 0 then s.change else 0) + delta strokes (d - s.shift) := by
  rw [delta, strikes_cons, strikes_cons, delta]
  by_cases hd : d = 0
  · cases s <;> simp [hd, Stroke.change] <;> omega
  · simp [hd]

/-- A cell that the head does not visit is left alone. -/
theorem delta_eq_zero {d : Int}
    (h : ∀ k < strokes.length, displacement (strokes.take k) ≠ d) : delta strokes d = 0 := by
  have hnone (s : Stroke) : strikes strokes s d = 0 := by
    apply List.countP_eq_zero.mpr
    intro k hk
    simp [h k (List.mem_range.mp hk)]
  rw [delta, hnone, hnone]
  rfl

theorem peak_le_iff {b : Int} :
    peak strokes ≤ b ↔ ∀ k ≤ strokes.length, displacement (strokes.take k) ≤ b := by
  rw [peak, Finset.sup'_le_iff]
  simp only [Finset.mem_range, Nat.lt_succ_iff]

theorem peak_nonneg (strokes : List Stroke) : 0 ≤ peak strokes :=
  peak_le_iff.mp (Int.le_refl _) 0 (Nat.zero_le _)

theorem peak_cons (s : Stroke) (strokes : List Stroke) :
    peak (s :: strokes) = max 0 (s.shift + peak strokes) := by
  apply eq_of_forall_ge_iff
  intro b
  have hrest : s.shift + peak strokes ≤ b ↔
      ∀ k ≤ strokes.length, s.shift + displacement (strokes.take k) ≤ b := by
    constructor
    · intro hb k hk
      have hk' : displacement (strokes.take k) ≤ b - s.shift := peak_le_iff.mp (by omega) k hk
      omega
    · intro hb
      have hpeak : peak strokes ≤ b - s.shift := peak_le_iff.mpr fun k hk => by
        have hk' := hb k hk
        omega
      omega
  rw [peak_le_iff, max_le_iff, hrest]
  constructor
  · intro h
    refine ⟨h 0 (Nat.zero_le _), fun k hk => ?_⟩
    have hk' := h (k + 1) (Nat.succ_le_succ hk)
    rwa [List.take_succ_cons, displacement_cons] at hk'
  · rintro ⟨hzero, hlater⟩ k hk
    cases k with
    | zero => exact hzero
    | succ k =>
      rw [List.take_succ_cons, displacement_cons]
      exact hlater k (Nat.le_of_succ_le_succ hk)

theorem Stays.first {head : Nat} (h : Stays head (s :: strokes)) : 0 ≤ (head : Int) + s.shift := by
  have hone := h 1 (Nat.succ_le_succ (Nat.zero_le _))
  rwa [List.take_succ_cons, List.take_zero, displacement_cons, displacement, List.map_nil,
    List.sum_nil, Int.add_zero] at hone

theorem Stays.rest {head head' : Nat} (h : Stays head (s :: strokes))
    (hhead : (head' : Int) = head + s.shift) : Stays head' strokes := by
  intro k hk
  have hnext := h (k + 1) (Nat.succ_le_succ hk)
  rw [List.take_succ_cons, displacement_cons] at hnext
  omega

/-! ### The tape -/

namespace Stroke

theorem moveLeft?_eq_some_act (h : 0 ≤ (t.head : Int) + left.shift) :
    t.moveLeft? = some (act t left) := by
  rw [act]
  cases hleft : t.moveLeft? with
  | none =>
    have hhead := t.moveLeft?_eq_none_iff.mp hleft
    rw [hhead, shift] at h
    contradiction
  | some u => rfl

theorem head_act (h : 0 ≤ (t.head : Int) + s.shift) :
    ((s.act t).head : Int) = t.head + s.shift := by
  cases s with
  | right => exact congrArg Int.ofNat t.moveRight_head
  | left =>
    have hhead := (Tape.moveLeft?_eq_some (moveLeft?_eq_some_act h)).2
    rw [shift]
    omega
  | plus => rw [act, Tape.write_head, shift, Int.add_zero]
  | minus => rw [act, Tape.write_head, shift, Int.add_zero]

theorem byteAt_left (t : Tape) (k : Nat) : (act t left).byteAt k = t.byteAt k := by
  rw [act]
  cases hleft : t.moveLeft? with
  | none => rfl
  | some u => rw [Option.getD_some, Tape.byteAt, (Tape.moveLeft?_eq_some hleft).1, Tape.byteAt]

theorem byteAt_act (s : Stroke) (t : Tape) (k : Nat) :
    (((s.act t).byteAt k).toNat : Int) =
      ((t.byteAt k).toNat + if (k : Int) - t.head = 0 then s.change else 0) % 256 := by
  have hbyte := (t.byteAt k).toNat_lt
  have hhead : (k : Int) - t.head = 0 ↔ k = t.head := by omega
  cases s with
  | right =>
    rw [act, Tape.byteAt_moveRight, change, ite_self]
    omega
  | left =>
    rw [byteAt_left, change, ite_self]
    omega
  | plus =>
    rw [act, Tape.byteAt_write, change, Tape.value_eq_byteAt]
    simp only [hhead]
    split
    · rename_i hk
      rw [hk, UInt8.toNat_add]
      rfl
    · omega
  | minus =>
    rw [act, Tape.byteAt_write, change, Tape.value_eq_byteAt]
    simp only [hhead]
    split
    · rename_i hk
      rw [hk] at hbyte ⊢
      rw [UInt8.toNat_sub, UInt8.toNat_one]
      omega
    · omega

/-- The row reaches as far as the head has come. -/
theorem size_act (hseat : t.head < t.cells.size) (h : 0 ≤ (t.head : Int) + s.shift) :
    (s.act t).cells.size = max t.cells.size ((s.act t).head + 1) := by
  cases s with
  | right => rw [act, Tape.size_moveRight, Tape.moveRight_head, Nat.max_comm]
  | left =>
    obtain ⟨hcells, hhead⟩ := Tape.moveLeft?_eq_some (moveLeft?_eq_some_act h)
    rw [hcells]
    omega
  | plus => rw [act, Tape.size_write, Tape.write_head, Nat.max_comm]
  | minus => rw [act, Tape.size_write, Tape.write_head, Nat.max_comm]

end Stroke

theorem play_cons (s : Stroke) (strokes : List Stroke) (t : Tape) :
    play (s :: strokes) t = play strokes (s.act t) :=
  rfl

theorem head_play (h : Stays t.head strokes) :
    ((play strokes t).head : Int) = t.head + displacement strokes := by
  induction strokes generalizing t with
  | nil => exact (Int.add_zero _).symm
  | cons s strokes ih =>
    have hhead := Stroke.head_act h.first
    rw [play_cons, ih (h.rest hhead), hhead, displacement_cons, Int.add_assoc]

theorem byteAt_play (h : Stays t.head strokes) (k : Nat) :
    (((play strokes t).byteAt k).toNat : Int) =
      ((t.byteAt k).toNat + delta strokes (k - t.head)) % 256 := by
  induction strokes generalizing t with
  | nil =>
    have hbyte := (t.byteAt k).toNat_lt
    have hdelta : delta [] (k - t.head) = 0 := rfl
    rw [hdelta, play, List.foldl_nil]
    omega
  | cons s strokes ih =>
    have hhead := Stroke.head_act h.first
    rw [play_cons, ih (h.rest hhead), Stroke.byteAt_act, Int.emod_add_emod, hhead, delta_cons,
      Int.add_assoc, Int.sub_sub]

/-- A row that holds the head at the start grows as far as the head comes. -/
theorem size_play (hseat : t.head < t.cells.size) (h : Stays t.head strokes) :
    ((play strokes t).cells.size : Int) = max (t.cells.size : Int) (t.head + peak strokes + 1) := by
  induction strokes generalizing t with
  | nil =>
    have hpeak : peak [] = 0 := rfl
    rw [play, List.foldl_nil, hpeak]
    omega
  | cons s strokes ih =>
    have hhead := Stroke.head_act h.first
    have hsize := Stroke.size_act hseat h.first
    have hpeak := peak_nonneg strokes
    rw [play_cons, ih (by omega) (h.rest hhead), peak_cons]
    omega

/-! ### The machine -/

/-- The strokes stand in the code from index `start` on. -/
def Written (code : Array Instruction) (start : Nat) (strokes : List Stroke) : Prop :=
  ∀ k : Nat, ∀ s ∈ strokes[k]?, code[start + k]? = some s.instruction

theorem Written.first {code : Array Instruction} {start : Nat}
    (h : Written code start (s :: strokes)) : code[start]? = some s.instruction :=
  h 0 s rfl

theorem Written.rest {code : Array Instruction} {start : Nat}
    (h : Written code start (s :: strokes)) : Written code (start + 1) strokes := by
  intro k x hx
  rw [Nat.add_right_comm]
  exact h (k + 1) x hx

namespace Machine

/-- The machine `n` steps further on, at another place of its code and with another tape. -/
def further (m : Machine) (n ip : Nat) (t : Tape) : Machine :=
  { m with ip := ip, steps := m.steps + n, tape := t }

@[simp] theorem further_code (m : Machine) (n ip : Nat) (t : Tape) :
    (m.further n ip t).code = m.code := rfl
@[simp] theorem further_ip (m : Machine) (n ip : Nat) (t : Tape) : (m.further n ip t).ip = ip := rfl
@[simp] theorem further_tape (m : Machine) (n ip : Nat) (t : Tape) :
    (m.further n ip t).tape = t := rfl

theorem further_further (m : Machine) (n k ip ip' : Nat) (t t' : Tape) :
    (m.further n ip t).further k ip' t' = m.further (n + k) ip' t' := by
  simp only [further, Nat.add_assoc]

/-- `n` steps, which all succeed and start before index `bound` of the code, lead from `m` to
`m'`. -/
structure Walks (bound n : Nat) (m m' : Machine) : Prop where
  live : m.LiveFor n
  inside : ∀ k < n, (m.after k).ip < bound
  arrives : m.after n = m'

variable {m m' m'' : Machine} {bound n k : Nat}

theorem Walks.refl (bound : Nat) (m : Machine) : Walks bound 0 m m where
  live := liveFor_zero m
  inside _ hk := absurd hk (Nat.not_lt_zero _)
  arrives := rfl

theorem Walks.trans (h : Walks bound n m m') (h' : Walks bound k m' m'') :
    Walks bound (n + k) m m'' := by
  obtain rfl := h.arrives
  refine ⟨h.live.add h'.live, fun i hi => ?_, by rw [after_add, h'.arrives]⟩
  rcases Nat.lt_or_ge i n with hlt | hge
  · exact h.inside i hlt
  · obtain ⟨d, rfl⟩ := Nat.exists_eq_add_of_le hge
    rw [after_add]
    exact h'.inside d (by omega)

theorem Walks.of_step (hrest : m.halted = false) (hstep : m.step = { machine := m' })
    (hip : m.ip < bound) : Walks bound 1 m m' where
  live := liveFor_one hrest (by rw [hstep])
  inside k hk := by
    obtain rfl := Nat.lt_one_iff.mp hk
    exact hip
  arrives := by rw [after, after, hstep]

theorem step_stroke (hi : m.code[m.ip]? = some s.instruction)
    (hstay : 0 ≤ (m.tape.head : Int) + s.shift) :
    m.step = { machine := m.further 1 (m.ip + 1) (s.act m.tape) } := by
  rw [step_of_current hi]
  cases s with
  | left =>
    simp only [Stroke.instruction, execute, advanced_tape, Stroke.moveLeft?_eq_some_act hstay]
    rfl
  | _ => rfl

/-- One step for each stroke, as long as the head stays on the tape. -/
theorem walks_play (hcode : Written m.code m.ip strokes) (hstay : Stays m.tape.head strokes)
    (hbound : m.ip + strokes.length ≤ bound) : Walks bound strokes.length m
      (m.further strokes.length (m.ip + strokes.length) (play strokes m.tape)) := by
  induction strokes generalizing m with
  | nil => exact .refl bound m
  | cons s strokes ih =>
    rw [List.length_cons] at hbound ⊢
    have hfirst : Walks bound 1 m (m.further 1 (m.ip + 1) (s.act m.tape)) :=
      .of_step (halted_of_current hcode.first) (step_stroke hcode.first hstay.first) (by omega)
    have hrest := ih (m := m.further 1 (m.ip + 1) (s.act m.tape)) hcode.rest
      (hstay.rest (Stroke.head_act hstay.first)) (by rw [further_ip]; omega)
    have hall := hfirst.trans hrest
    rw [further_further, further_ip, further_tape, ← play_cons] at hall
    rwa [Nat.add_comm 1, show m.ip + 1 + strokes.length = m.ip + (strokes.length + 1) by omega]
      at hall

end Machine

end TapeMachine
