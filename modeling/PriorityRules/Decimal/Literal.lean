/-! # Decimal literals of binary64 numbers

A literal is an optional sign followed by `inf`, `infinity` or `nan` in any case, or by digits
with an optional point and an optional exponent. At least one digit stands before the exponent.
Its value is the double nearest to the decimal number, and infinity beyond the largest one.
-/

namespace PriorityRules.Decimal

def nan : Float := 0.0 / 0.0
def infinity : Float := 1.0 / 0.0

def ofDigits (digits : List Char) : Nat :=
  digits.foldl (fun n c => 10 * n + (c.toNat - '0'.toNat)) 0

def scaled (mantissa : Nat) (exponent : Int) : Float :=
  if 0 ≤ exponent then Float.ofScientific mantissa false exponent.toNat
  else Float.ofScientific mantissa true (-exponent).toNat

def exponentValue? : List Char → Option Int
  | '+' :: digits => unsigned? digits
  | '-' :: digits => (unsigned? digits).map fun n => -n
  | digits => unsigned? digits
where
  unsigned? (digits : List Char) : Option Int :=
    if !digits.isEmpty && digits.all Char.isDigit then some (ofDigits digits) else none

/-- What follows the digits: nothing, or `e` and an exponent. -/
def exponentPart? : List Char → Option Int
  | [] => some 0
  | 'e' :: rest => exponentValue? rest
  | 'E' :: rest => exponentValue? rest
  | _ => none

/-- The digits after a point, if there is one, and the rest. -/
def fractionPart : List Char → List Char × List Char
  | '.' :: rest => (rest.takeWhile Char.isDigit, rest.dropWhile Char.isDigit)
  | rest => ([], rest)

def readUnsigned? (text : List Char) : Option Float :=
  let word := text.map Char.toLower
  if word = ['i', 'n', 'f'] || word = ['i', 'n', 'f', 'i', 'n', 'i', 't', 'y'] then some infinity
  else if word = ['n', 'a', 'n'] then some nan
  else
    let whole := text.takeWhile Char.isDigit
    let (fraction, rest) := fractionPart (text.dropWhile Char.isDigit)
    if whole.isEmpty && fraction.isEmpty then none
    else
      (exponentPart? rest).map fun e => scaled (ofDigits (whole ++ fraction)) (e - fraction.length)

def read? : List Char → Option Float
  | '+' :: rest => readUnsigned? rest
  | '-' :: rest => (readUnsigned? rest).map fun x => -x
  | text => readUnsigned? text

example : read? "2.5".toList = some 2.5 := by decide
example : [".", "1e", "1_0"].map (fun t => read? t.toList) = [none, none, none] := by decide

end PriorityRules.Decimal
