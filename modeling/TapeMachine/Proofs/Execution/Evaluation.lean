import TapeMachine.Machine
import TapeMachine.Proofs.Syntax.Block

/-!
# Evaluating blocks

What a block does to the data of a machine, told along its tree: a loop runs its body while the
current cell is not zero. There is no code and there are no jumps here. An evaluation ends with data
or at the instruction that fails; a block that runs for ever has no outcome.
-/
namespace TapeMachine

/-- All that instructions work on: the cells of the tape, the head, how many characters of the input
have been taken, and the output. -/
structure Data where
  cells : List UInt8
  head : Nat := 0
  cursor : Nat := 0
  output : List UInt8 := []

namespace Data

/-- The byte under the head. Beyond the end of the tape it is zero. -/
def value (d : Data) : UInt8 :=
  d.cells.getD d.head 0

/-- Puts a byte under the head. A tape that ends before it is first filled up with zeros. -/
def store (d : Data) (v : UInt8) : Data :=
  { d with cells := (d.cells.rightpad (d.head + 1) 0).set d.head v }

end Data

/-- What a plain instruction makes of the data, or the pointer it cannot work with. -/
def Op.act (text : List Char) (d : Data) : Op → Except Int Data
  | moveRight => .ok { d with head := d.head + 1, cells := d.cells.rightpad (d.head + 2) 0 }
  | moveLeft => if d.head = 0 then .error (-1) else .ok { d with head := d.head - 1 }
  | increment => .ok (d.store (d.value + 1))
  | decrement => .ok (d.store (d.value - 1))
  | output =>
    match d.cells[d.head]? with
    | some v => .ok { d with output := d.output ++ [v] }
    | none => .error d.head
  | input =>
    match text[d.cursor]? with
    | some c => .ok { d.store (asciiByte c) with cursor := d.cursor + 1 }
    | none => .ok (d.store 0)

inductive Outcome where
  | done (data : Data)
  /-- The fault tells which instruction of the text failed. -/
  | failed (fault : Fault) (data : Data)

/-- `Eval text b base d out` says that the block `b`, evaluated on the data `d` with the input
`text`, ends in `out`. The instructions of the block are counted from `base`. -/
inductive Eval (text : List Char) : Block → Nat → Data → Outcome → Prop where
  | empty {base : Nat} {d : Data} : Eval text .empty base d (.done d)
  | op {o : Op} {rest : Block} {base : Nat} {d d' : Data} {out : Outcome}
    (act : o.act text d = .ok d') (next : Eval text rest (base + 1) d' out) :
    Eval text (.op o rest) base d out
  | opFails {o : Op} {rest : Block} {base : Nat} {d : Data} {pointer : Int}
    (act : o.act text d = .error pointer) :
    Eval text (.op o rest) base d (.failed (.cell base pointer) d)
  | loopDone {body rest : Block} {base : Nat} {d : Data} {out : Outcome} (zero : d.value = 0)
    (next : Eval text rest (base + body.size + 2) d out) : Eval text (.loop body rest) base d out
  | loopAgain {body rest : Block} {base : Nat} {d d' : Data} {out : Outcome} (nonzero : d.value ≠ 0)
    (once : Eval text body (base + 1) d (.done d'))
    (again : Eval text (.loop body rest) base d' out) : Eval text (.loop body rest) base d out
  | loopFails {body rest : Block} {base : Nat} {d d' : Data} {fault : Fault} (nonzero : d.value ≠ 0)
    (once : Eval text body (base + 1) d (.failed fault d')) :
    Eval text (.loop body rest) base d (.failed fault d')

end TapeMachine
