/-! # The shortest decimal text of a double

A finite double is written with the fewest digits that read back as the same double. Of the
candidates with that many digits the nearest one is written, and of two equally near ones the
larger. The notation is always positional: there is no exponent, and a whole number has no point.
-/

namespace PriorityRules.Decimal

/-- A positive binary number `mantissa * 2 ^ exponent`. -/
structure Binary where
  mantissa : Nat
  exponent : Int
  deriving DecidableEq, Repr

/-- An encoding has a fraction in its 52 lowest bits. -/
def fractionSize : Nat := Nat.pow 2 52

/-- Eleven bits of exponent follow the fraction. -/
def exponentSize : Nat := Nat.pow 2 11

/-- The highest bit of an encoding is its sign. -/
def signWeight : Nat := exponentSize * fractionSize

/-- The exponent field of infinities and of all that is no number is full. -/
def infinityBits : Nat := (exponentSize - 1) * fractionSize

def Binary.ofBits (bits : Nat) : Binary :=
  let fraction : Nat := bits % fractionSize
  let biased : Nat := bits / fractionSize % exponentSize
  if biased = 0 then ⟨fraction, -1074⟩ else ⟨fractionSize + fraction, biased - 1075⟩

/-- A quarter of the last place of `x`, measured in steps of `10 ^ k`, as a fraction. -/
def Binary.quarter (x : Binary) (k : Int) : Nat × Nat :=
  let q := x.exponent - 2
  (Nat.pow 2 q.toNat * Nat.pow 10 (-k).toNat, Nat.pow 2 (-q).toNat * Nat.pow 10 k.toNat)

/-- Whether `digits * 10 ^ k` rounds to `x`. The lower half gap is shorter at a power of two, and
the ends of the interval belong to it exactly when the mantissa is even. -/
def Binary.admits (x : Binary) (k : Int) (digits : Nat) : Bool :=
  let (num, den) := x.quarter k
  let below := if x.mantissa = fractionSize && x.exponent ≠ -1074 then 1 else 2
  let low := (4 * x.mantissa - below) * num
  let high := (4 * x.mantissa + 2) * num
  let point := digits * den
  if x.mantissa % 2 = 0 then low ≤ point && point ≤ high else low < point && point < high

/-- The neighbour of `x` on the grid of multiples of `10 ^ k` that rounds to `x`, the nearer one
if both do and the upper one if they are equally near. -/
def Binary.onGrid? (x : Binary) (k : Int) : Option Nat :=
  let (num, den) := x.quarter k
  let floor := 4 * x.mantissa * num / den
  let remainder := 4 * x.mantissa * num % den
  match x.admits k floor, x.admits k (floor + 1) with
  | true, true => some (if 2 * remainder < den then floor else floor + 1)
  | true, false => some floor
  | false, true => some (floor + 1)
  | false, false => none

/-- The coarsest grid with a hit, among `10 ^ (n - 326)` and finer ones. -/
def Binary.shortestFrom (x : Binary) : Nat → Nat × Int
  | 0 => (0, 0)
  | n + 1 =>
    let k : Int := n - 325
    match x.onGrid? k with
    | some digits => (digits, k)
    | none => x.shortestFrom n

/-- Fewest digits `d` and scale `k` such that `d * 10 ^ k` reads back as `x`. No double reaches
`10 ^ 309`, and `10 ^ -324` is finer than the last place of every double. -/
def Binary.shortest (x : Binary) : Nat × Int := x.shortestFrom 635

/-- Write `d * 10 ^ k` without an exponent. -/
def positional (d : Nat) (k : Int) : List Char :=
  let digits := Nat.toDigits 10 d
  if 0 ≤ k then digits ++ List.replicate k.toNat '0'
  else
    let places := (-k).toNat
    if places < digits.length then
      digits.take (digits.length - places) ++ '.' :: digits.drop (digits.length - places)
    else '0' :: '.' :: (List.replicate (places - digits.length) '0' ++ digits)

/-- The text of an encoding without its sign bit. -/
def magnitudeText (bits : Nat) : List Char :=
  if bits = infinityBits then ['i', 'n', 'f']
  else if bits = 0 then ['0']
  else
    let (d, k) := (Binary.ofBits bits).shortest
    positional d k

def render (x : Float) : String :=
  let bits := x.toBits.toNat
  let magnitude := bits % signWeight
  if infinityBits < magnitude then "NaN"
  else String.ofList ((if bits < signWeight then [] else ['-']) ++ magnitudeText magnitude)

example : render 2.5 = "2.5" ∧ render (-0.0) = "-0" := by decide +kernel

end PriorityRules.Decimal
