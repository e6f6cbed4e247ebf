import Mathlib.Data.List.Basic
import TapeMachine.Program
import TapeMachine.Proofs.Syntax.Block

/-!
# What a scan has read

A scan that has read a part of a text stands for a nest: closed blocks, parted by the opening
brackets that still wait for their partner. Each character read takes a nest to a nest, or closes a
bracket that was never opened. So reading a whole text ends in one of three ways, and the text tells
which.
-/
namespace TapeMachine

/-- The places of a text that hold instruction characters, in their order. -/
def places (text : List Char) : List Nat :=
  text.findIdxs fun c => (Instruction.ofChar? c).isSome

@[simp] theorem instructionChars_append (a b : List Char) :
    instructionChars (a ++ b) = instructionChars a ++ instructionChars b :=
  List.filter_append ..

theorem length_places (text : List Char) :
    (places text).length = (instructionChars text).length := by
  rw [places, List.length_findIdxs, instructionChars, List.countP_eq_length_filter]

theorem instructionChars_singleton {c : Char} {i : Instruction}
    (h : Instruction.ofChar? c = some i) : instructionChars [c] = [c] := by
  simp [instructionChars, h]

theorem instructionChars_comment {c : Char} (h : Instruction.ofChar? c = none) :
    instructionChars [c] = [] := by
  simp [instructionChars, h]

theorem places_concat {c : Char} {i : Instruction} (text : List Char)
    (h : Instruction.ofChar? c = some i) : places (text ++ [c]) = places text ++ [text.length] := by
  simp [places, h]

theorem places_concat_comment {c : Char} (text : List Char) (h : Instruction.ofChar? c = none) :
    places (text ++ [c]) = places text := by
  simp [places, h]

/-- The rank of an instruction character is the number of those before it. -/
theorem getElem?_places {before after : List Char} {c : Char}
    (h : (Instruction.ofChar? c).isSome) :
    (places (before ++ c :: after))[(instructionChars before).length]? = some before.length := by
  rw [places, List.findIdxs_append, List.findIdxs_cons, if_pos h, ← places,
    List.getElem?_append_right (Nat.le_of_eq (length_places before)), length_places]
  simp

/-- An instruction character has a place in the text, and the text parts there as its instruction
characters do. -/
theorem exists_split_of_instructionChars {text xs ys : List Char} {c : Char}
    (h : instructionChars text = xs ++ c :: ys) :
    ∃ before after, text = before ++ c :: after ∧ instructionChars before = xs ∧
      instructionChars after = ys ∧ (places text)[xs.length]? = some before.length := by
  obtain ⟨left, right, rfl, hleft, hright⟩ := List.filter_eq_append_iff.mp h
  obtain ⟨gap, after, rfl, hgap, hc, hafter⟩ := List.filter_eq_cons_iff.mp hright
  have hbefore : instructionChars (left ++ gap) = xs := by
    rw [instructionChars_append, instructionChars, hleft, instructionChars,
      List.filter_eq_nil_iff.mpr hgap, List.append_nil]
  have hplace : (places (left ++ gap ++ c :: after))[xs.length]? = some (left ++ gap).length := by
    rw [← hbefore]
    exact getElem?_places hc
  rw [List.append_assoc] at hplace
  exact ⟨left ++ gap, after, (List.append_assoc ..).symm, hbefore, hafter, hplace⟩

namespace Instruction

/-- A character is a comment, spells a plain instruction or is a bracket. -/
theorem ofChar?_cases (c : Char) :
    ofChar? c = none ∨ (∃ o : Op, c = o.char ∧ ofChar? c = some o.instruction) ∨
      c = '[' ∨ c = ']' := by
  unfold ofChar?
  split
  · exact .inr (.inl ⟨.moveRight, rfl, rfl⟩)
  · exact .inr (.inl ⟨.moveLeft, rfl, rfl⟩)
  · exact .inr (.inl ⟨.increment, rfl, rfl⟩)
  · exact .inr (.inl ⟨.decrement, rfl, rfl⟩)
  · exact .inr (.inl ⟨.output, rfl, rfl⟩)
  · exact .inr (.inl ⟨.input, rfl, rfl⟩)
  · exact .inr (.inr (.inl rfl))
  · exact .inr (.inr (.inr rfl))
  · exact .inl rfl

end Instruction

/-- A block, or what stands around an open bracket and the block behind it. -/
inductive Nest where
  | ground (block : Block)
  | within (outer : Nest) (block : Block)

namespace Nest

def chars : Nest → List Char
  | ground block => block.chars
  | within outer block => outer.chars ++ '[' :: block.chars

def size : Nest → Nat
  | ground block => block.size
  | within outer block => outer.size + block.size + 1

/-- The brackets that wait have no target yet. -/
def code : Nest → List Instruction
  | ground block => block.code 0
  | within outer block => outer.code ++ .loopStart 0 :: block.code (outer.size + 1)

/-- The indices of the brackets that wait, the innermost first. -/
def pending : Nest → List Nat
  | ground _ => []
  | within outer _ => outer.size :: outer.pending

/-- Adds a block at the end. -/
def extend : Nest → Block → Nest
  | ground block, b => ground (block.append b)
  | within outer block, b => within outer (block.append b)

@[simp] theorem length_code (n : Nest) : n.code.length = n.size := by
  induction n with
  | ground block => simp [code, size]
  | within outer block ih =>
    simp [code, size, ih]
    omega

@[simp] theorem length_chars (n : Nest) : n.chars.length = n.size := by
  induction n with
  | ground block => simp [chars, size]
  | within outer block ih =>
    simp [chars, size, ih]
    omega

@[simp] theorem chars_extend (n : Nest) (b : Block) : (n.extend b).chars = n.chars ++ b.chars := by
  cases n <;> simp [extend, chars]

@[simp] theorem pending_extend (n : Nest) (b : Block) : (n.extend b).pending = n.pending := by
  cases n <;> rfl

@[simp] theorem code_extend (n : Nest) (b : Block) :
    (n.extend b).code = n.code ++ b.code n.size := by
  cases n with
  | ground block => simp [extend, code, size, Block.code_append]
  | within outer block =>
    simp only [extend, code, size, Block.code_append, List.append_assoc, List.cons_append]
    rw [show outer.size + 1 + block.size = outer.size + block.size + 1 by omega]

theorem noExcess_chars (n : Nest) : NoExcess n.chars := by
  induction n with
  | ground block => exact block.balanced_chars.noExcess
  | within outer block ih => exact ih.append block.balanced_chars.noExcess.cons_open

end Nest

/-- The scan `s` has read `text`, and `n` is the nest of it. -/
structure Scan.Holds (s : Scan) (text : List Char) (n : Nest) : Prop where
  chars : n.chars = instructionChars text
  code : s.code.toList = n.code
  pending : s.pending = n.pending
  offsets : s.offsets.toList = places text
  position : s.position = text.length

namespace Scan

variable {s : Scan} {text : List Char} {n : Nest}

theorem holds_start : Holds {} [] (.ground .empty) :=
  ⟨rfl, rfl, rfl, rfl, rfl⟩

theorem Holds.size (h : s.Holds text n) : s.code.size = n.size := by
  rw [← Array.length_toList, h.code, Nest.length_code]

theorem Holds.skip (h : s.Holds text n) {c : Char} (hc : Instruction.ofChar? c = none) :
    s.skip.Holds (text ++ [c]) n where
  chars := by rw [h.chars, instructionChars_append, instructionChars_comment hc, List.append_nil]
  code := h.code
  pending := h.pending
  offsets := by rw [places_concat_comment text hc, ← h.offsets, Scan.skip]
  position := by simp [Scan.skip, h.position]

theorem Holds.emit (h : s.Holds text n) (o : Op)
    (hc : Instruction.ofChar? o.char = some o.instruction) :
    (s.emit o.instruction).Holds (text ++ [o.char]) (n.extend (.op o .empty)) where
  chars := by simp [h.chars, instructionChars_singleton hc, Block.chars]
  code := by simp [Scan.emit, h.code, Block.code]
  pending := by simp [Scan.emit, h.pending]
  offsets := by simp [Scan.emit, h.offsets, h.position, places_concat text hc]
  position := by simp [Scan.emit, h.position]

theorem Holds.openLoop (h : s.Holds text n) :
    s.openLoop.Holds (text ++ ['[']) (.within n .empty) where
  chars := by simp [Nest.chars, h.chars, instructionChars_singleton (c := '[') rfl, Block.chars]
  code := by simp [Scan.openLoop, Scan.emit, Nest.code, h.code, Block.code]
  pending := by simp [Scan.openLoop, Scan.emit, Nest.pending, h.pending, h.size]
  offsets := by
    simp [Scan.openLoop, Scan.emit, h.offsets, h.position, places_concat (c := '[') text rfl]
  position := by simp [Scan.openLoop, Scan.emit, h.position]

/-- A closing bracket makes the innermost block into a loop of the block around it. -/
theorem Holds.closeLoop {outer : Nest} {block : Block} (h : s.Holds text (.within outer block)) :
    (s.closeLoop outer.size outer.pending).Holds (text ++ [']'])
      (outer.extend (.loop block .empty)) where
  chars := by
    rw [instructionChars_append, ← h.chars, instructionChars_singleton (c := ']') rfl]
    simp [Nest.chars, Block.chars]
  code := by
    have hset : s.code.toList.set outer.size (.loopStart (s.code.size + 1)) =
        outer.code ++ .loopStart (s.code.size + 1) :: block.code (outer.size + 1) := by
      rw [h.code, Nest.code, List.set_append_right _ _ (by simp)]
      simp
    have hsize : s.code.size + 1 = outer.size + block.size + 2 := by rw [h.size, Nest.size]
    rw [Scan.closeLoop, Scan.emit, Array.toList_push, Array.toList_setIfInBounds, hset, hsize]
    simp [Block.code]
  pending := by simp [Scan.closeLoop, Scan.emit]
  offsets := by
    simp [Scan.closeLoop, Scan.emit, h.offsets, h.position, places_concat (c := ']') text rfl]
  position := by simp [Scan.closeLoop, Scan.emit, h.position]

theorem read_close_of_nil (h : s.pending = []) :
    s.read ']' = .error (.unmatchedClose s.position) := by
  have hc : Instruction.ofChar? ']' = some (.loopEnd 0) := rfl
  simp only [Scan.read, hc, h]

theorem read_close_of_cons {start : Nat} {rest : List Nat} (h : s.pending = start :: rest) :
    s.read ']' = .ok (s.closeLoop start rest) := by
  have hc : Instruction.ofChar? ']' = some (.loopEnd 0) := rfl
  simp only [Scan.read, hc, h]

theorem Holds.read (h : s.Holds text n) (c : Char) :
    (∃ s' n', s.read c = .ok s' ∧ s'.Holds (text ++ [c]) n') ∨
      (c = ']' ∧ (∃ b, n = .ground b) ∧ s.read c = .error (.unmatchedClose text.length)) := by
  rcases Instruction.ofChar?_cases c with hc | ⟨o, rfl, hc⟩ | rfl | rfl
  · exact .inl ⟨s.skip, n, by simp [Scan.read, hc], h.skip hc⟩
  · refine .inl ⟨s.emit o.instruction, n.extend (.op o .empty), ?_, h.emit o hc⟩
    cases o <;> rfl
  · exact .inl ⟨s.openLoop, .within n .empty, rfl, h.openLoop⟩
  · cases n with
    | ground b =>
      have hread := read_close_of_nil h.pending
      rw [h.position] at hread
      exact .inr ⟨rfl, ⟨b, rfl⟩, hread⟩
    | within outer block => exact .inl ⟨_, _, read_close_of_cons h.pending, h.closeLoop⟩

/-- Reading on either reaches the end of the text or stops at a closing bracket behind a block. -/
theorem Holds.readAll (h : s.Holds text n) (rest : List Char) :
    (∃ s' n', s.readAll rest = .ok s' ∧ s'.Holds (text ++ rest) n') ∨
      (∃ (before after : List Char) (b : Block), rest = before ++ ']' :: after ∧
        b.chars = instructionChars (text ++ before) ∧
        s.readAll rest = .error (.unmatchedClose (text ++ before).length)) := by
  induction rest generalizing s text n with
  | nil => exact .inl ⟨s, n, rfl, by rwa [List.append_nil]⟩
  | cons c rest ih =>
    rcases h.read c with ⟨s', n', hread, h'⟩ | ⟨rfl, ⟨b, rfl⟩, hread⟩
    · rw [Scan.readAll, hread]
      rcases ih h' with ⟨s'', n'', hall, h''⟩ | ⟨before, after, b, rfl, hb, hall⟩
      · exact .inl ⟨s'', n'', hall, by simpa using h''⟩
      · refine .inr ⟨c :: before, after, b, rfl, ?_, ?_⟩
        · simpa using hb
        · simpa using hall
    · refine .inr ⟨[], rest, b, rfl, ?_, ?_⟩
      · rw [List.append_nil]
        exact h.chars
      · rw [Scan.readAll, hread, List.append_nil]

end Scan

/-- The three ways in which reading a text ends. -/
inductive Reading (text : List Char) : Except BracketError Program → Prop where
  | whole (b : Block) (h : b.chars = instructionChars text) :
    Reading text (.ok ⟨(b.code 0).toArray, (places text).toArray⟩)
  | unopened (before after : List Char) (b : Block) (split : text = before ++ ']' :: after)
      (h : b.chars = instructionChars before) :
    Reading text (.error (.unmatchedClose before.length))
  | unclosed (before after : List Char) (n : Nest) (b : Block)
      (split : text = before ++ '[' :: after) (hn : n.chars = instructionChars before)
      (hb : b.chars = instructionChars after) :
    Reading text (.error (.unmatchedOpen before.length))

theorem Scan.Holds.finish {s : Scan} {text : List Char} {n : Nest} (h : s.Holds text n) :
    Reading text s.finish := by
  cases n with
  | ground b =>
    have hfinish : s.finish = .ok ⟨(b.code 0).toArray, (places text).toArray⟩ := by
      rw [Scan.finish, h.pending, ← h.offsets, ← Nest.code, ← h.code]
      rfl
    rw [hfinish]
    exact .whole b h.chars
  | within outer b =>
    have hchars : instructionChars text = outer.chars ++ '[' :: b.chars := h.chars.symm
    obtain ⟨before, after, hsplit, hbefore, hafter, hplace⟩ :=
      exists_split_of_instructionChars hchars
    have hfinish : s.finish = .error (.unmatchedOpen before.length) := by
      rw [Nest.length_chars] at hplace
      rw [Scan.finish, h.pending]
      simp [Nest.pending, Array.getD_eq_getD_getElem?, ← Array.getElem?_toList, h.offsets, hplace]
    rw [hfinish]
    exact .unclosed before after outer b hsplit hbefore.symm hafter.symm

theorem reading_parseChars (text : List Char) : Reading text (Program.parseChars text) := by
  rcases Scan.holds_start.readAll text with ⟨s, n, hall, h⟩ | ⟨before, after, b, hsplit, hb, hall⟩
  · rw [Program.parseChars, hall]
    exact h.finish
  · rw [Program.parseChars, hall]
    exact .unopened before after b hsplit hb

theorem reading_parse (source : String) : Reading source.toList (Program.parse source) :=
  reading_parseChars source.toList

/-- A program is the code of the one block that its source spells. -/
theorem exists_block_of_parse {source : String} {p : Program} (h : Program.parse source = .ok p) :
    ∃ b : Block, b.chars = instructionChars source.toList ∧ p.code = (b.code 0).toArray := by
  have hreading := reading_parse source
  rw [h] at hreading
  cases hreading with
  | whole b hb => exact ⟨b, hb, rfl⟩

end TapeMachine
