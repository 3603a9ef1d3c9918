/-! # Blank characters

The characters that separate tokens are those of the Unicode property `White_Space`. The class
is wider than the blanks of `Char.isWhitespace`, and it leaves out the zero-width characters and
the information separators.
-/

namespace PriorityRules.Text

/-- First and last code points of the runs that make up the property `White_Space`. -/
def blankRanges : List (Nat × Nat) :=
  [(0x09, 0x0D), (0x20, 0x20), (0x85, 0x85), (0xA0, 0xA0), (0x1680, 0x1680), (0x2000, 0x200A),
   (0x2028, 0x2029), (0x202F, 0x202F), (0x205F, 0x205F), (0x3000, 0x3000)]

def inRanges (ranges : List (Nat × Nat)) (n : Nat) : Bool :=
  ranges.any fun r => decide (r.1 ≤ n) && decide (n ≤ r.2)

def isBlank (c : Char) : Bool := inRanges blankRanges c.toNat

/-- The property has twenty-five members. -/
example : (blankRanges.map fun r => r.2 + 1 - r.1).sum = 25 := by decide

end PriorityRules.Text
