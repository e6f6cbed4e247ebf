/-!
# Sinks

A sink receives the bytes of a table. A bounded sink stores what fits and refuses the rest.
-/
namespace TapeMachine.Trace

structure Sink where
  /-- How many bytes the sink can store, if it is bounded. -/
  capacity : Option Nat := none
  bytes : ByteArray := .empty

namespace Sink

/-- Whether the whole text can still be stored. -/
def fits (s : Sink) (text : String) : Bool :=
  match s.capacity with
  | none => true
  | some n => s.bytes.size + text.toUTF8.size ≤ n

/-- Stores as much of the text as fits. -/
def put (s : Sink) (text : String) : Sink :=
  match s.capacity with
  | none => { s with bytes := s.bytes ++ text.toUTF8 }
  | some n => { s with bytes := s.bytes ++ text.toUTF8.extract 0 (n - s.bytes.size) }

end Sink

/-- The complaint of a sink that is full. -/
def sinkFull : String := "failed to write whole buffer"

end TapeMachine.Trace
