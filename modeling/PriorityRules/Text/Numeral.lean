/-! # Signed decimal numerals of a fixed width

A numeral is an optional sign and then ASCII digits, read from the left into the two's complement
range of a width. Reading stops at the first fault: at each character a wrong digit is noticed
before a value that leaves the range.
-/

namespace PriorityRules.Text

inductive NumeralFault where
  | empty
  | invalidDigit
  | tooLarge
  | tooSmall
  deriving DecidableEq, Repr

def NumeralFault.message : NumeralFault → String
  | .empty => "cannot parse integer from empty string"
  | .invalidDigit => "invalid digit found in string"
  | .tooLarge => "number too large to fit in target type"
  | .tooSmall => "number too small to fit in target type"

def digitValue? (c : Char) : Option Nat :=
  if c.isDigit then some (c.toNat - '0'.toNat) else none

/-- Append digits to the magnitude `n`, which must not pass `limit`. -/
def readMagnitude (limit : Nat) (passed : NumeralFault) (n : Nat) :
    List Char → Except NumeralFault Nat
  | [] => .ok n
  | c :: rest =>
    match digitValue? c with
    | none => .error .invalidDigit
    | some d =>
      if 10 * n + d ≤ limit then readMagnitude limit passed (10 * n + d) rest else .error passed

/-- The number of magnitudes that a non-negative integer of `width` bits may have. -/
def halfRange (width : Nat) : Nat := Nat.pow 2 (width - 1)

/-- Read a whole text as an integer of `width` bits, the sign bit included. -/
def readSigned (width : Nat) : List Char → Except NumeralFault Int
  | [] => .error .empty
  | ['+'] => .error .invalidDigit
  | ['-'] => .error .invalidDigit
  | '+' :: digits => (readMagnitude (halfRange width - 1) .tooLarge 0 digits).map fun n => n
  | '-' :: digits => (readMagnitude (halfRange width) .tooSmall 0 digits).map fun n => -n
  | digits => (readMagnitude (halfRange width - 1) .tooLarge 0 digits).map fun n => n

example : (readSigned 64 "9223372036854775807x".toList).toOption = none := by decide
example : (readSigned 32 "-2147483648".toList).toOption = some (-2147483648) := by decide

end PriorityRules.Text
