/-!
# The input feed

The characters that a program may read, and how many it has taken. A cell holds a byte, so a
character that is not ASCII is taken as zero; an exhausted feed gives zero for ever.
-/
namespace TapeMachine

structure Feed where
  chars : Array Char
  cursor : Nat := 0

/-- The byte that a cell receives for a character. -/
def asciiByte (c : Char) : UInt8 :=
  if c.toNat < 128 then c.toNat.toUInt8 else 0

namespace Feed

def ofString (text : String) : Feed :=
  { chars := text.toList.toArray }

/-- The next byte, and the feed without it. -/
def next (f : Feed) : UInt8 × Feed :=
  match f.chars[f.cursor]? with
  | none => (0, f)
  | some c => (asciiByte c, { f with cursor := f.cursor + 1 })

end Feed

end TapeMachine
