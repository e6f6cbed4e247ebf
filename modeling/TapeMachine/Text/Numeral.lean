/-!
# Unsigned numerals

A numeral is an optional plus sign and at least one decimal digit; its value has to fit into 64
bits. The characters are looked at from the left, and the first one that is no digit or makes the
value too large decides what is wrong.
-/
namespace TapeMachine.Text

inductive NumeralError where
  | empty
  | badDigit
  | tooLarge
  deriving DecidableEq

def NumeralError.message : NumeralError → String
  | empty => "cannot parse integer from empty string"
  | badDigit => "invalid digit found in string"
  | tooLarge => "number too large to fit in target type"

/-- The first number that does not fit. -/
def numeralBound : Nat := Nat.pow 2 64

def digit? (c : Char) : Option Nat :=
  if '0' ≤ c ∧ c ≤ '9' then some (c.toNat - '0'.toNat) else none

/-- Reads digits behind those whose value is `value`. -/
def readDigits (value : Nat) : List Char → Except NumeralError Nat
  | [] => .ok value
  | c :: rest =>
    match digit? c with
    | none => .error .badDigit
    | some d =>
      if value * 10 + d < numeralBound then readDigits (value * 10 + d) rest
      else .error .tooLarge

/-- A sign alone is no numeral. -/
def readNumeral : List Char → Except NumeralError Nat
  | [] => .error .empty
  | ['+'] => .error .badDigit
  | '+' :: digits => readDigits 0 digits
  | digits => readDigits 0 digits

end TapeMachine.Text
