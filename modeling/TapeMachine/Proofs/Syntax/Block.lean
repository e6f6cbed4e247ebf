import TapeMachine.Proofs.Syntax.Balance

/-!
# Blocks

A block is the syntax tree of a text whose brackets pair: a plain instruction or a loop, followed by
a block, or nothing. A block spells a text of instruction characters, no other block spells the same
text, and from the index of its first instruction all its jump targets are known.
-/
namespace TapeMachine

/-- The instructions that never jump. -/
inductive Op where
  | moveRight
  | moveLeft
  | increment
  | decrement
  | output
  | input

namespace Op

def instruction : Op → Instruction
  | moveRight => .moveRight
  | moveLeft => .moveLeft
  | increment => .increment
  | decrement => .decrement
  | output => .output
  | input => .input

def char (o : Op) : Char :=
  o.instruction.toChar

theorem char_ne_open (o : Op) : o.char ≠ '[' := by
  cases o <;> decide

theorem char_ne_close (o : Op) : o.char ≠ ']' := by
  cases o <;> decide

theorem char_injective {o o' : Op} (h : o.char = o'.char) : o = o' := by
  cases o <;> cases o' <;> first | rfl | exact absurd h (by decide)

end Op

inductive Block where
  | empty
  | op (o : Op) (rest : Block)
  | loop (body rest : Block)

namespace Block

def chars : Block → List Char
  | empty => []
  | op o rest => o.char :: rest.chars
  | loop body rest => '[' :: (body.chars ++ ']' :: rest.chars)

/-- The number of instructions of a block. -/
def size : Block → Nat
  | empty => 0
  | op _ rest => rest.size + 1
  | loop body rest => body.size + rest.size + 2

/-- The instructions of a block whose first one stands at index `base`. -/
def code : Block → Nat → List Instruction
  | empty, _ => []
  | op o rest, base => o.instruction :: rest.code (base + 1)
  | loop body rest, base =>
    .loopStart (base + body.size + 2) ::
      (body.code (base + 1) ++ .loopEnd (base + 1) :: rest.code (base + body.size + 2))

@[simp] theorem length_code (b : Block) (base : Nat) : (b.code base).length = b.size := by
  induction b generalizing base with
  | empty => rfl
  | op o rest ih => simp [code, size, ih]
  | loop body rest ihBody ihRest =>
    simp [code, size, ihBody, ihRest]
    omega

theorem map_toChar_code (b : Block) (base : Nat) :
    (b.code base).map Instruction.toChar = b.chars := by
  induction b generalizing base with
  | empty => rfl
  | op o rest ih => simp [code, chars, ih, Op.char]
  | loop body rest ihBody ihRest => simp [code, chars, ihBody, ihRest, Instruction.toChar]

@[simp] theorem length_chars (b : Block) : b.chars.length = b.size := by
  rw [← map_toChar_code b 0, List.length_map, length_code]

theorem balanced_chars (b : Block) : Balanced b.chars := by
  induction b with
  | empty => exact balanced_nil
  | op o rest ih => exact (balanced_singleton o.char_ne_open o.char_ne_close).append ih
  | loop body rest ihBody ihRest =>
    have h := ihBody.enclosed.append ihRest
    rwa [List.cons_append, List.append_assoc, List.singleton_append] at h

/-- One block after the other. -/
def append : Block → Block → Block
  | empty, c => c
  | op o rest, c => op o (rest.append c)
  | loop body rest, c => loop body (rest.append c)

@[simp] theorem chars_append (b c : Block) : (b.append c).chars = b.chars ++ c.chars := by
  induction b with
  | empty => rfl
  | op o rest ih => simp [append, chars, ih]
  | loop body rest _ ih => simp [append, chars, ih]

@[simp] theorem size_append (b c : Block) : (b.append c).size = b.size + c.size := by
  rw [← length_chars, chars_append, List.length_append, length_chars, length_chars]

theorem code_append (b c : Block) (base : Nat) :
    (b.append c).code base = b.code base ++ c.code (base + b.size) := by
  induction b generalizing base with
  | empty => rfl
  | op o rest ih =>
    simp only [append, code, size, ih, List.cons_append]
    rw [show base + 1 + rest.size = base + (rest.size + 1) by omega]
  | loop body rest _ ih =>
    simp only [append, code, size, ih, List.cons_append, List.append_assoc]
    rw [show base + body.size + 2 + rest.size = base + (body.size + rest.size + 2) by omega]

/-- Where a block ends, the text is over or a closing bracket follows. -/
theorem chars_append_inj {b c : Block} {x y : List Char} (h : b.chars ++ x = c.chars ++ y)
    (hx : ∀ a ∈ x.head?, a = ']') (hy : ∀ a ∈ y.head?, a = ']') : b = c ∧ x = y := by
  induction b generalizing c x y with
  | empty =>
    cases c with
    | empty => exact ⟨rfl, h⟩
    | op o rest =>
      subst h
      exact absurd (hx o.char rfl) o.char_ne_close
    | loop body rest =>
      subst h
      exact absurd (hx '[' rfl) (by decide)
  | op o rest ih =>
    cases c with
    | empty =>
      subst h
      exact absurd (hy o.char rfl) o.char_ne_close
    | op o' rest' =>
      obtain ⟨ho, hrest⟩ := List.cons.inj h
      obtain ⟨rfl, rfl⟩ := ih hrest hx hy
      rw [Op.char_injective ho]
      exact ⟨rfl, rfl⟩
    | loop body rest' => exact absurd (List.cons.inj h).1 o.char_ne_open
  | loop body rest ihBody ihRest =>
    cases c with
    | empty =>
      subst h
      exact absurd (hy '[' rfl) (by decide)
    | op o rest' => exact absurd (List.cons.inj h).1.symm o.char_ne_open
    | loop body' rest' =>
      simp only [chars, List.cons_append, List.append_assoc] at h
      obtain ⟨rfl, hclose⟩ := ihBody (List.cons.inj h).2 (by simp) (by simp)
      obtain ⟨rfl, rfl⟩ := ihRest (List.cons.inj hclose).2 hx hy
      exact ⟨rfl, rfl⟩

/-- A text spells at most one block. -/
theorem chars_injective {b c : Block} (h : b.chars = c.chars) : b = c :=
  (chars_append_inj (x := []) (y := []) (by simpa using h) (by simp) (by simp)).1

/-- The instructions of a block are found in the code from index `base` on. -/
def Placed (program : Array Instruction) (base : Nat) (b : Block) : Prop :=
  ∃ before after, program.toList = before ++ b.code base ++ after ∧ before.length = base

variable {program : Array Instruction} {base : Nat}

theorem placed_code (b : Block) : Placed (b.code 0).toArray 0 b :=
  ⟨[], [], by simp, rfl⟩

theorem Placed.le_size {b : Block} (h : Placed program base b) : base + b.size ≤ program.size := by
  obtain ⟨before, after, hlist, rfl⟩ := h
  rw [← Array.length_toList, hlist]
  simp

/-- The instructions from the first one of a block to its last one. -/
theorem Placed.drop_take {b : Block} (h : Placed program base b) :
    (program.toList.drop base).take b.size = b.code base := by
  obtain ⟨before, after, hlist, rfl⟩ := h
  rw [hlist, List.append_assoc, List.drop_left, List.take_left' (length_code ..)]

theorem Placed.op {o : Op} {rest : Block} (h : Placed program base (.op o rest)) :
    program[base]? = some o.instruction ∧ Placed program (base + 1) rest := by
  obtain ⟨before, after, hlist, rfl⟩ := h
  constructor
  · rw [← Array.getElem?_toList, hlist]
    simp [code]
  · exact ⟨before ++ [o.instruction], after, by simp [hlist, code], by simp⟩

theorem Placed.body {body rest : Block} (h : Placed program base (.loop body rest)) :
    Placed program (base + 1) body := by
  obtain ⟨before, after, hlist, rfl⟩ := h
  exact ⟨before ++ [.loopStart (before.length + body.size + 2)],
    .loopEnd (before.length + 1) :: rest.code (before.length + body.size + 2) ++ after,
    by simp [hlist, code], by simp⟩

theorem Placed.rest {body rest : Block} (h : Placed program base (.loop body rest)) :
    Placed program (base + body.size + 2) rest := by
  obtain ⟨before, after, hlist, rfl⟩ := h
  exact ⟨before ++ .loopStart (before.length + body.size + 2) ::
      (body.code (before.length + 1) ++ [.loopEnd (before.length + 1)]), after,
    by simp [hlist, code], by simp; omega⟩

theorem Placed.loopStart {body rest : Block} (h : Placed program base (.loop body rest)) :
    program[base]? = some (.loopStart (base + body.size + 2)) := by
  obtain ⟨before, after, hlist, rfl⟩ := h
  rw [← Array.getElem?_toList, hlist]
  simp [code]

theorem Placed.loopEnd {body rest : Block} (h : Placed program base (.loop body rest)) :
    program[base + 1 + body.size]? = some (.loopEnd (base + 1)) := by
  obtain ⟨before, after, hlist, rfl⟩ := h
  have hbefore : program.toList = (before ++ .loopStart (before.length + body.size + 2) ::
      body.code (before.length + 1)) ++ .loopEnd (before.length + 1) ::
        (rest.code (before.length + body.size + 2) ++ after) := by
    simp [hlist, code]
  rw [← Array.getElem?_toList, hbefore, List.getElem?_append_right (by simp; omega)]
  simp [show before.length + 1 + body.size - (before.length + (body.size + 1)) = 0 by omega]

end Block

end TapeMachine
