import PriorityRules.Decimal.Literal

/-! # Comparisons

A comparison holds one of the host's numbers against a constant. The order is that of IEEE
numbers: nothing but `!=` holds of a NaN, and a number that is missing counts as one.
-/

namespace PriorityRules

inductive Operator where
  | atLeast
  | atMost
  | differs
  | above
  | below
  | equals
  deriving DecidableEq, Repr

namespace Operator

/-- The order in which operators are looked for: one that contains another comes first. -/
def searchOrder : List Operator := [.atLeast, .atMost, .differs, .above, .below, .equals]

def symbol : Operator → List Char
  | .atLeast => ['>', '=']
  | .atMost => ['<', '=']
  | .differs => ['!', '=']
  | .above => ['>']
  | .below => ['<']
  | .equals => ['=']

def render (op : Operator) : String := String.ofList op.symbol

def holds : Operator → Float → Float → Bool
  | .atLeast, value, constant => constant ≤ value
  | .atMost, value, constant => value ≤ constant
  | .differs, value, constant => value != constant
  | .above, value, constant => constant < value
  | .below, value, constant => value < constant
  | .equals, value, constant => value == constant

end Operator

/-- The number at a position, an operator and a constant. -/
structure Comparison where
  position : Nat
  operator : Operator
  constant : Float
  deriving DecidableEq

def Comparison.holds (c : Comparison) (numbers : List Float) : Bool :=
  c.operator.holds (numbers[c.position]?.getD Decimal.nan) c.constant

example : Operator.searchOrder.filter (·.holds Decimal.nan 0) = [.differs] := by decide

end PriorityRules
