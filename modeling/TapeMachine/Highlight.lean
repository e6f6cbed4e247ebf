import TapeMachine.Instruction

/-!
# Highlighting

Each kind of characters has a style. A line is read once from left to right, and the characters read
wait in a buffer as long as they have one style. The buffer goes out as a segment when a character of
another style comes, and what is left in it goes out at the end of the line.
-/
namespace TapeMachine

inductive CharKind where
  | movement
  | data
  | exchange
  | flow
  | comment
  deriving DecidableEq

def CharKind.ofChar (c : Char) : CharKind :=
  match Instruction.ofChar? c with
  | some .moveRight => .movement
  | some .moveLeft => .movement
  | some .increment => .data
  | some .decrement => .data
  | some .output => .exchange
  | some .input => .exchange
  | some (.loopStart _) => .flow
  | some (.loopEnd _) => .flow
  | none => .comment

structure Color where
  red : UInt8
  green : UInt8
  blue : UInt8
  deriving DecidableEq

structure Style where
  color : Color
  bold : Bool
  deriving DecidableEq

def CharKind.style : CharKind → Style
  | movement => ⟨⟨137, 220, 235⟩, true⟩
  | data => ⟨⟨166, 227, 161⟩, true⟩
  | exchange => ⟨⟨249, 226, 175⟩, true⟩
  | flow => ⟨⟨203, 166, 247⟩, true⟩
  | comment => ⟨⟨108, 112, 134⟩, false⟩

/-- The style of a character is that of its kind. -/
def Style.ofChar (c : Char) : Style :=
  (CharKind.ofChar c).style

structure Segment where
  style : Style
  text : List Char

/-- What is kept while a line is read: the segments that are out, the style of the last character,
if there was one, and the buffer. -/
structure Highlighter where
  out : Array Segment := #[]
  style? : Option Style := none
  buffer : Array Char := #[]

namespace Highlighter

/-- The buffer goes out before a character of another style. -/
def turn (h : Highlighter) (style : Style) : Highlighter :=
  match h.style? with
  | some current =>
    if current ≠ style then { h with out := h.out.push ⟨current, h.buffer.toList⟩, buffer := #[] }
    else h
  | none => h

def read (h : Highlighter) (c : Char) : Highlighter :=
  let turned := h.turn (.ofChar c)
  { turned with style? := some (.ofChar c), buffer := turned.buffer.push c }

/-- The segments, once the line has ended. An empty buffer is none. -/
def finish (h : Highlighter) : List Segment :=
  match h.style? with
  | some current =>
    if h.buffer.isEmpty then h.out.toList else (h.out.push ⟨current, h.buffer.toList⟩).toList
  | none => h.out.toList

end Highlighter

def highlight (line : List Char) : List Segment :=
  (line.foldl Highlighter.read {}).finish

end TapeMachine
