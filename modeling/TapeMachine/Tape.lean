/-!
# The tape

A row of byte cells with a head. The row starts at index zero and grows to the right when the head
works on a cell beyond its end; a cell beyond the end reads as zero.
-/
namespace TapeMachine

structure Tape where
  cells : Array UInt8
  head : Nat := 0

namespace Tape

def blank (size : Nat) : Tape :=
  { cells := Array.replicate size 0 }

/-- The cell under the head, unless the head is beyond the end. -/
def cell? (t : Tape) : Option UInt8 :=
  t.cells[t.head]?

def value (t : Tape) : UInt8 :=
  t.cell?.getD 0

/-- Grows the row, if it has to, until it holds the cell under the head. -/
def reach (t : Tape) : Tape :=
  if t.head < t.cells.size then t
  else { t with cells := t.cells ++ Array.replicate (t.head + 1 - t.cells.size) 0 }

def write (t : Tape) (v : UInt8) : Tape :=
  let r := t.reach
  { r with cells := r.cells.setIfInBounds r.head v }

def moveRight (t : Tape) : Tape :=
  { t with head := t.head + 1 }.reach

/-- There is nothing to the left of cell zero. -/
def moveLeft? (t : Tape) : Option Tape :=
  match t.head with
  | 0 => none
  | n + 1 => some { t with head := n }

end Tape

end TapeMachine
