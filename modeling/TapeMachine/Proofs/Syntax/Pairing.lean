import Mathlib.Data.Set.Function
import TapeMachine.Proofs.Syntax.Reading

/-!
# The pairs of brackets in a program

The loops of a block are found in its code with both jumps resolved, and the code has no other
brackets than theirs. So in every program each bracket leads behind its partner, the instructions
between the two are balanced, and two loops are nested or apart.
-/
namespace TapeMachine

/-- The characters that spell a piece of code. -/
def spelling (code : Array Instruction) : List Char :=
  code.toList.map Instruction.toChar

namespace Block

/-- `b.HasLoop base i body` says that the block `b`, whose code starts at index `base`, has a loop
with this body whose opening bracket stands at index `i`. -/
inductive HasLoop : Block → Nat → Nat → Block → Prop where
  | here {body rest : Block} {base : Nat} : HasLoop (loop body rest) base base body
  | inBody {body rest x : Block} {base i : Nat} (h : HasLoop body (base + 1) i x) :
    HasLoop (loop body rest) base i x
  | behindLoop {body rest x : Block} {base i : Nat} (h : HasLoop rest (base + body.size + 2) i x) :
    HasLoop (loop body rest) base i x
  | behindOp {o : Op} {rest x : Block} {base i : Nat} (h : HasLoop rest (base + 1) i x) :
    HasLoop (op o rest) base i x

variable {b x y : Block} {base i j : Nat} {code : Array Instruction}

theorem HasLoop.bounds (h : b.HasLoop base i x) : base ≤ i ∧ i + x.size + 2 ≤ base + b.size := by
  induction h with
  | here => simp only [size]; omega
  | inBody _ ih => simp only [size]; omega
  | behindLoop _ ih => simp only [size]; omega
  | behindOp _ ih => simp only [size]; omega

theorem HasLoop.placed (h : b.HasLoop base i x) (hp : Placed code base b) :
    ∃ rest, Placed code i (loop x rest) := by
  induction h with
  | here => exact ⟨_, hp⟩
  | inBody _ ih => exact ih hp.body
  | behindLoop _ ih => exact ih hp.rest
  | behindOp _ ih => exact ih hp.op.2

/-- Each index inside a block holds a plain instruction or one of the two brackets of a loop. -/
theorem Placed.cases_at (hp : Placed code base b) (hlo : base ≤ i) (hhi : i < base + b.size) :
    (∃ o : Op, code[i]? = some o.instruction) ∨ (∃ x, b.HasLoop base i x) ∨
      ∃ k x, b.HasLoop base k x ∧ i = k + 1 + x.size := by
  induction b generalizing base with
  | empty => simp only [size] at hhi; omega
  | op o rest ih =>
    simp only [size] at hhi
    rcases Nat.eq_or_lt_of_le hlo with rfl | hlt
    · exact .inl ⟨o, hp.op.1⟩
    · rcases ih hp.op.2 hlt (by omega) with ho | ⟨x, hx⟩ | ⟨k, x, hx, hk⟩
      · exact .inl ho
      · exact .inr (.inl ⟨x, .behindOp hx⟩)
      · exact .inr (.inr ⟨k, x, .behindOp hx, hk⟩)
  | loop body rest ihBody ihRest =>
    simp only [size] at hhi
    rcases Nat.eq_or_lt_of_le hlo with rfl | hlt
    · exact .inr (.inl ⟨body, .here⟩)
    rcases Nat.lt_trichotomy i (base + 1 + body.size) with hin | rfl | hbehind
    · rcases ihBody hp.body hlt hin with ho | ⟨x, hx⟩ | ⟨k, x, hx, hk⟩
      · exact .inl ho
      · exact .inr (.inl ⟨x, .inBody hx⟩)
      · exact .inr (.inr ⟨k, x, .inBody hx, hk⟩)
    · exact .inr (.inr ⟨base, body, .here, rfl⟩)
    · rcases ihRest hp.rest (by omega) (by omega) with ho | ⟨x, hx⟩ | ⟨k, x, hx, hk⟩
      · exact .inl ho
      · exact .inr (.inl ⟨x, .behindLoop hx⟩)
      · exact .inr (.inr ⟨k, x, .behindLoop hx, hk⟩)

/-- A loop that starts later stands behind an earlier one or inside it. -/
theorem HasLoop.apart_or_nested (hi : b.HasLoop base i x) (hj : b.HasLoop base j y) (hij : i < j) :
    i + x.size + 2 ≤ j ∨ j + y.size + 2 < i + x.size + 2 := by
  induction hi with
  | here =>
    cases hj with
    | here => omega
    | inBody hj => have hbounds := hj.bounds; omega
    | behindLoop hj => have hbounds := hj.bounds; omega
  | inBody hi ih =>
    have hbounds := hi.bounds
    cases hj with
    | here => omega
    | inBody hj => exact ih hj hij
    | behindLoop hj => have hbounds' := hj.bounds; omega
  | behindLoop hi ih =>
    have hbounds := hi.bounds
    cases hj with
    | here => omega
    | inBody hj => have hbounds' := hj.bounds; omega
    | behindLoop hj => exact ih hj hij
  | behindOp hi ih =>
    cases hj with
    | behindOp hj => exact ih hj hij

/-- What is found at the two ends of a loop, in the whole code of a block. -/
theorem HasLoop.brackets (h : b.HasLoop 0 i x) :
    (b.code 0).toArray[i]? = some (.loopStart (i + x.size + 2)) ∧
      (b.code 0).toArray[i + 1 + x.size]? = some (.loopEnd (i + 1)) := by
  obtain ⟨rest, hp⟩ := h.placed (placed_code b)
  exact ⟨hp.loopStart, hp.loopEnd⟩

theorem exists_hasLoop_of_loopStart {target : Nat}
    (h : (b.code 0).toArray[i]? = some (.loopStart target)) :
    ∃ x, b.HasLoop 0 i x ∧ target = i + x.size + 2 := by
  have hlt : i < 0 + b.size := by simpa using (Array.getElem?_eq_some_iff.mp h).1
  rcases (placed_code b).cases_at (Nat.zero_le i) hlt with ⟨o, ho⟩ | ⟨x, hx⟩ | ⟨k, x, hx, rfl⟩
  · rw [ho] at h
    cases o <;> simp [Op.instruction] at h
  · rw [hx.brackets.1] at h
    simp only [Option.some.injEq, Instruction.loopStart.injEq] at h
    exact ⟨x, hx, h.symm⟩
  · rw [hx.brackets.2] at h
    simp at h

theorem exists_hasLoop_of_loopEnd {target : Nat}
    (h : (b.code 0).toArray[j]? = some (.loopEnd target)) :
    ∃ i x, b.HasLoop 0 i x ∧ j = i + 1 + x.size ∧ target = i + 1 := by
  have hlt : j < 0 + b.size := by simpa using (Array.getElem?_eq_some_iff.mp h).1
  rcases (placed_code b).cases_at (Nat.zero_le j) hlt with ⟨o, ho⟩ | ⟨x, hx⟩ | ⟨k, x, hx, rfl⟩
  · rw [ho] at h
    cases o <;> simp [Op.instruction] at h
  · rw [hx.brackets.1] at h
    simp at h
  · rw [hx.brackets.2] at h
    simp only [Option.some.injEq, Instruction.loopEnd.injEq] at h
    exact ⟨k, x, hx, rfl, h.symm⟩

theorem Placed.spelling_extract (h : Placed code base b) :
    spelling (code.extract base (base + b.size)) = b.chars := by
  rw [spelling, Array.toList_extract, List.extract_eq_take_drop, Nat.add_sub_cancel_left,
    h.drop_take, map_toChar_code]

/-- What stands between the two brackets of a loop is balanced. -/
theorem HasLoop.balanced_between (h : b.HasLoop 0 i x) :
    Balanced (spelling ((b.code 0).toArray.extract (i + 1) (i + 1 + x.size))) := by
  obtain ⟨rest, hp⟩ := h.placed (placed_code b)
  rw [hp.body.spelling_extract]
  exact x.balanced_chars

end Block

/-- The indices that hold an opening bracket. -/
def openings (code : Array Instruction) : Set Nat :=
  {i | ∃ target, code[i]? = some (.loopStart target)}

/-- The indices that hold a closing bracket. -/
def closings (code : Array Instruction) : Set Nat :=
  {j | ∃ target, code[j]? = some (.loopEnd target)}

/-- The index of the other bracket of a pair, told by the jump target alone. -/
def partner (code : Array Instruction) (i : Nat) : Nat :=
  match code[i]? with
  | some (.loopStart target) => target - 1
  | some (.loopEnd target) => target - 1
  | _ => i

namespace Block

variable {b x : Block} {i : Nat}

theorem HasLoop.partner_open (h : b.HasLoop 0 i x) :
    partner (b.code 0).toArray i = i + 1 + x.size := by
  rw [partner, h.brackets.1]
  simp only
  omega

theorem HasLoop.partner_close (h : b.HasLoop 0 i x) :
    partner (b.code 0).toArray (i + 1 + x.size) = i := by
  rw [partner, h.brackets.2]
  simp

theorem partner_bijOn (b : Block) :
    Set.BijOn (partner (b.code 0).toArray) (openings (b.code 0).toArray)
      (closings (b.code 0).toArray) := by
  have hinverse : Set.InvOn (partner (b.code 0).toArray) (partner (b.code 0).toArray)
      (openings (b.code 0).toArray) (closings (b.code 0).toArray) := by
    constructor
    · rintro i ⟨target, hi⟩
      obtain ⟨x, hx, -⟩ := exists_hasLoop_of_loopStart hi
      rw [hx.partner_open, hx.partner_close]
    · rintro j ⟨target, hj⟩
      obtain ⟨i, x, hx, rfl, -⟩ := exists_hasLoop_of_loopEnd hj
      rw [hx.partner_close, hx.partner_open]
  apply hinverse.bijOn
  · rintro i ⟨target, hi⟩
    obtain ⟨x, hx, -⟩ := exists_hasLoop_of_loopStart hi
    rw [hx.partner_open]
    exact ⟨_, hx.brackets.2⟩
  · rintro j ⟨target, hj⟩
    obtain ⟨i, x, hx, rfl, -⟩ := exists_hasLoop_of_loopEnd hj
    rw [hx.partner_close]
    exact ⟨_, hx.brackets.1⟩

end Block

/-- Every jump of a program leads behind the partner of its bracket, which leads back, and what
stands between the two is balanced. So no target is left open, the pairs make a bijection, and two
loops are apart or nested. -/
theorem parse_resolves_jumps {source : String} {p : Program} (h : Program.parse source = .ok p) :
    (∀ i target : Nat, p.code[i]? = some (.loopStart target) →
      i + 2 ≤ target ∧ target ≤ p.code.size ∧ p.code[target - 1]? = some (.loopEnd (i + 1)) ∧
        Balanced (spelling (p.code.extract (i + 1) (target - 1)))) ∧
      (∀ i target : Nat, p.code[i]? = some (.loopEnd target) →
        1 ≤ target ∧ target ≤ i ∧ p.code[target - 1]? = some (.loopStart (i + 1)) ∧
          Balanced (spelling (p.code.extract target i))) ∧
      (∀ i : Nat, p.code[i]? ≠ some (.loopStart 0) ∧ p.code[i]? ≠ some (.loopEnd 0)) ∧
      Set.BijOn (partner p.code) (openings p.code) (closings p.code) ∧
      ∀ i s j t : Nat, p.code[i]? = some (.loopStart s) → p.code[j]? = some (.loopStart t) → i < j →
        s ≤ j ∨ t < s := by
  obtain ⟨b, -, hcode⟩ := exists_block_of_parse h
  rw [hcode]
  refine ⟨?_, ?_, ?_, b.partner_bijOn, ?_⟩
  · intro i target hi
    obtain ⟨x, hx, rfl⟩ := Block.exists_hasLoop_of_loopStart hi
    have hbounds := hx.bounds
    rw [show i + x.size + 2 - 1 = i + 1 + x.size by omega]
    refine ⟨by omega, ?_, hx.brackets.2, hx.balanced_between⟩
    simp
    omega
  · intro j target hj
    obtain ⟨i, x, hx, rfl, rfl⟩ := Block.exists_hasLoop_of_loopEnd hj
    refine ⟨by omega, by omega, ?_, hx.balanced_between⟩
    rw [Nat.add_sub_cancel, hx.brackets.1]
    simp only [Option.some.injEq, Instruction.loopStart.injEq]
    omega
  · intro i
    constructor
    · intro hi
      obtain ⟨x, -, hx⟩ := Block.exists_hasLoop_of_loopStart hi
      omega
    · intro hi
      obtain ⟨k, x, -, -, hx⟩ := Block.exists_hasLoop_of_loopEnd hi
      omega
  · intro i s j t hi hj hij
    obtain ⟨x, hx, rfl⟩ := Block.exists_hasLoop_of_loopStart hi
    obtain ⟨y, hy, rfl⟩ := Block.exists_hasLoop_of_loopStart hj
    exact hx.apart_or_nested hy hij

theorem parse_resolves_jumps_nested :
    ∃ p, Program.parse "+[>[-]]" = .ok p ∧ p.code = #[.increment, .loopStart 7, .moveRight,
      .loopStart 6, .decrement, .loopEnd 4, .loopEnd 2] ∧
      Set.BijOn (partner p.code) (openings p.code) (closings p.code) := by
  have h : Program.parse "+[>[-]]" = .ok ⟨#[.increment, .loopStart 7, .moveRight, .loopStart 6,
      .decrement, .loopEnd 4, .loopEnd 2], #[0, 1, 2, 3, 4, 5, 6]⟩ := by rfl
  exact ⟨_, h, rfl, (parse_resolves_jumps h).2.2.2.1⟩

end TapeMachine
