/-!
# Quoted characters

A byte shown as a character between single quotes, so that it always takes one line and can be told
from every other byte: a character that would not be seen is written by its number.
-/
namespace TapeMachine.Text

/-- The control characters of the first 256 code points, the hard blank and the soft hyphen. -/
def isUnseen (n : Nat) : Bool :=
  n < 32 || (127 ≤ n && n ≤ 160) || n == 173

/-- A number in hexadecimal, in small letters and without leading zeros. -/
def hexadecimal (n : Nat) : String :=
  String.ofList (Nat.toDigits 16 n)

def escaped (b : UInt8) : String :=
  let n := b.toNat
  if n == 0 then "\\0"
  else if n == 9 then "\\t"
  else if n == 10 then "\\n"
  else if n == 13 then "\\r"
  else if n == 39 then "\\'"
  else if n == 92 then "\\\\"
  else if isUnseen n then "\\u\x7b" ++ hexadecimal n ++ "\x7d"
  else String.singleton (Char.ofNat n)

def quoted (b : UInt8) : String :=
  "'" ++ escaped b ++ "'"

end TapeMachine.Text
