import TapeMachine.Proofs.Syntax.Acceptance

/-!
# Texts put together

Behind a program a text is read as on its own, but for where it stands: its jumps lead further by
the number of instructions before it, and its places are further by the number of characters. The
same goes for a program between the brackets of a loop.
-/
namespace TapeMachine

/-- The instruction with its jump target, if it has one, moved on by `n`. -/
def Instruction.shift (n : Nat) : Instruction → Instruction
  | loopStart target => .loopStart (target + n)
  | loopEnd target => .loopEnd (target + n)
  | i => i

@[simp] theorem Op.shift_instruction (o : Op) (n : Nat) :
    o.instruction.shift n = o.instruction := by
  cases o <;> rfl

/-- The same complaint about a place moved on by `n`. -/
def BracketError.shift (n : Nat) : BracketError → BracketError
  | unmatchedClose offset => .unmatchedClose (offset + n)
  | unmatchedOpen offset => .unmatchedOpen (offset + n)

theorem Block.code_add (b : Block) (base n : Nat) :
    b.code (base + n) = (b.code base).map (Instruction.shift n) := by
  induction b generalizing base with
  | empty => rfl
  | op o rest ih =>
    have hnext : base + n + 1 = base + 1 + n := by omega
    rw [code, code, hnext, ih, List.map_cons, Op.shift_instruction]
  | loop body rest ihBody ihRest =>
    have hnext : base + n + 1 = base + 1 + n := by omega
    have hbehind : base + n + body.size + 2 = base + body.size + 2 + n := by omega
    rw [code, code, hnext, hbehind, ihBody, ihRest]
    simp [Instruction.shift]

/-- Puts a block in front of a nest. -/
def Nest.prepend (b : Block) : Nest → Nest
  | ground block => ground (b.append block)
  | within outer block => within (outer.prepend b) block

theorem Nest.chars_prepend (b : Block) (n : Nest) : (n.prepend b).chars = b.chars ++ n.chars := by
  induction n with
  | ground block => exact b.chars_append block
  | within outer block ih => rw [prepend, chars, chars, ih, List.append_assoc]

theorem places_append (a b : List Char) :
    places (a ++ b) = places a ++ (places b).map (· + a.length) := by
  rw [places, List.findIdxs_append, Nat.zero_add, List.findIdxs_start (s := a.length)]
  rfl

theorem parse_eq_ok_iff {source : String} {p : Program} : Program.parse source = .ok p ↔
    ∃ b : Block, b.chars = instructionChars source.toList ∧
      p = ⟨(b.code 0).toArray, (places source.toList).toArray⟩ := by
  constructor
  · intro hp
    have hreading := reading_parse source
    rw [hp] at hreading
    cases hreading with
    | whole b hb => exact ⟨b, hb, rfl⟩
  · rintro ⟨b, hb, rfl⟩
    exact (Reading.whole b hb).parse_eq

variable {a b : String} {p q : Program}

theorem parse_append (ha : Program.parse a = .ok p) (hb : Program.parse b = .ok q) :
    Program.parse (a ++ b) = .ok ⟨p.code ++ q.code.map (Instruction.shift p.code.size),
      p.offsets ++ q.offsets.map (· + a.length)⟩ := by
  obtain ⟨x, hx, rfl⟩ := parse_eq_ok_iff.mp ha
  obtain ⟨y, hy, rfl⟩ := parse_eq_ok_iff.mp hb
  apply parse_eq_ok_iff.mpr
  refine ⟨x.append y, by simp [hx, hy], ?_⟩
  rw [Block.code_append, Block.code_add, String.toList_append, places_append, ← String.length_toList]
  simp

theorem parse_append_error {e : BracketError} (ha : Program.parse a = .ok p)
    (hb : Program.parse b = .error e) :
    Program.parse (a ++ b) = .error (e.shift a.length) := by
  obtain ⟨x, hx, rfl⟩ := parse_eq_ok_iff.mp ha
  have hreading := reading_parse b
  rw [hb] at hreading
  apply Reading.parse_eq
  rw [String.toList_append, ← String.length_toList]
  cases hreading with
  | unopened before after y hsplit hy =>
    have hbefore : (x.append y).chars = instructionChars (a.toList ++ before) := by simp [hx, hy]
    have h := Reading.unopened (a.toList ++ before) after _ rfl hbefore
    rwa [List.length_append, Nat.add_comm, List.append_assoc, ← hsplit] at h
  | unclosed before after n y hsplit hn hy =>
    have hbefore : (n.prepend x).chars = instructionChars (a.toList ++ before) := by
      simp [Nest.chars_prepend, hx, hn]
    have h := Reading.unclosed (a.toList ++ before) after _ _ rfl hbefore hy
    rwa [List.length_append, Nat.add_comm, List.append_assoc, ← hsplit] at h

/-- What stands behind a bracket without a partner does not matter. -/
theorem parse_append_of_unmatchedClose {offset : Nat}
    (ha : Program.parse a = .error (.unmatchedClose offset)) (b : String) :
    Program.parse (a ++ b) = .error (.unmatchedClose offset) := by
  have hreading := reading_parse a
  rw [ha] at hreading
  apply Reading.parse_eq
  rw [String.toList_append]
  cases hreading with
  | unopened before after x hsplit hx =>
    exact .unopened before (after ++ b.toList) x (by simp [hsplit]) hx

theorem places_enclosed (a : List Char) :
    places ('[' :: (a ++ [']'])) = 0 :: ((places a).map (· + 1) ++ [a.length + 1]) := by
  have hopen : places ['['] = [0] := rfl
  have hclose : places [']'] = [0] := rfl
  rw [← List.singleton_append, places_append, places_append, hopen, hclose]
  simp

theorem parse_enclosed (ha : Program.parse a = .ok p) :
    Program.parse ("[" ++ a ++ "]") = .ok
      ⟨#[.loopStart (p.code.size + 2)] ++ p.code.map (Instruction.shift 1) ++ #[.loopEnd 1],
        #[0] ++ p.offsets.map (· + 1) ++ #[a.length + 1]⟩ := by
  obtain ⟨x, hx, rfl⟩ := parse_eq_ok_iff.mp ha
  apply parse_eq_ok_iff.mpr
  have htext : ("[" ++ a ++ "]").toList = '[' :: (a.toList ++ [']']) := by simp
  have hcode : (Block.loop x .empty).code 0 =
      .loopStart (x.size + 2) :: ((x.code 0).map (Instruction.shift 1) ++ [.loopEnd 1]) := by
    rw [Block.code, Block.code_add x 0 1, Nat.zero_add]
    rfl
  refine ⟨.loop x .empty, ?_, ?_⟩
  · have hopen : instructionChars ['['] = ['['] := rfl
    have hclose : instructionChars [']'] = [']'] := rfl
    rw [htext, ← List.singleton_append, instructionChars_append, instructionChars_append, hopen,
      hclose, ← hx]
    rfl
  · rw [htext, places_enclosed, hcode, String.length_toList]
    simp

/-- Reading is compositional. Two programs, one after the other, are read as one: the code of the
second has its jumps moved on by the number of instructions before it, and its offsets are moved on
by the number of characters. A bracket without a partner behind a program is reported at its place
in the whole, and a closing one is reported whatever follows. Between two brackets a program becomes
the body of a loop. -/
theorem parse_compositional (a b : String) :
    (∀ p q, Program.parse a = .ok p → Program.parse b = .ok q →
      Program.parse (a ++ b) = .ok ⟨p.code ++ q.code.map (Instruction.shift p.code.size),
        p.offsets ++ q.offsets.map (· + a.length)⟩) ∧
    (∀ p e, Program.parse a = .ok p → Program.parse b = .error e →
      Program.parse (a ++ b) = .error (e.shift a.length)) ∧
    (∀ offset, Program.parse a = .error (.unmatchedClose offset) →
      Program.parse (a ++ b) = .error (.unmatchedClose offset)) ∧
    ∀ p, Program.parse a = .ok p → Program.parse ("[" ++ a ++ "]") = .ok
      ⟨#[.loopStart (p.code.size + 2)] ++ p.code.map (Instruction.shift 1) ++ #[.loopEnd 1],
        #[0] ++ p.offsets.map (· + 1) ++ #[a.length + 1]⟩ := by
  refine ⟨?both, ?second, ?first, ?enclosed⟩
  case both =>
    intro p q ha hb
    exact parse_append ha hb
  case second =>
    intro p e ha hb
    exact parse_append_error ha hb
  case first =>
    intro offset ha
    exact parse_append_of_unmatchedClose ha b
  case enclosed =>
    intro p ha
    exact parse_enclosed ha

/-- A loop behind a comment and a program, an open bracket in its place, and a closing bracket that
hides what follows. -/
theorem parse_compositional_at_the_seam : ∃ p q,
    (Program.parse "é+" = .ok p ∧ Program.parse "[-]" = .ok q ∧
      Program.parse ("é+" ++ "[-]") = .ok ⟨p.code ++ #[.loopStart 4, .decrement, .loopEnd 2],
        p.offsets ++ #[2, 3, 4]⟩) ∧
    (Program.parse "a[" = .error (.unmatchedOpen 1) ∧
      Program.parse ("é+" ++ "a[") = .error (.unmatchedOpen 3)) ∧
    (Program.parse "]" = .error (.unmatchedClose 0) ∧
      Program.parse ("]" ++ "[") = .error (.unmatchedClose 0)) ∧
    Program.parse ("[" ++ "é+" ++ "]") = .ok
      ⟨#[.loopStart 3, .increment, .loopEnd 1], #[0, 2, 3]⟩ := by
  have hp : Program.parse "é+" = .ok ⟨#[.increment], #[1]⟩ := by rfl
  have hq : Program.parse "[-]" = .ok ⟨#[.loopStart 3, .decrement, .loopEnd 1], #[0, 1, 2]⟩ := by
    rfl
  have hopen : Program.parse "a[" = .error (.unmatchedOpen 1) := by rfl
  have hclose : Program.parse "]" = .error (.unmatchedClose 0) := by rfl
  have hlength : "é+".length = 2 := by rfl
  obtain ⟨hboth, -, -, henclosed⟩ := parse_compositional "é+" "[-]"
  obtain ⟨-, herror, -⟩ := parse_compositional "é+" "a["
  obtain ⟨-, -, hclosing, -⟩ := parse_compositional "]" "["
  refine ⟨_, _, ⟨hp, hq, ?_⟩, ⟨hopen, herror _ _ hp hopen⟩, ⟨hclose, hclosing 0 hclose⟩, ?_⟩
  · simpa [Instruction.shift, hlength] using hboth _ _ hp hq
  · simpa [Instruction.shift, hlength] using henclosed _ hp

end TapeMachine
