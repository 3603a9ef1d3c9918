import PriorityRules.Ruleset
import PriorityRules.Text.Numeral

/-! # A sample context

The sample context is a record with a 64-bit value, a label, flags, further numbers and a log.
Its atoms ask about divisibility, flags and the label; a probe asks nothing and answers by its own
text. Its changes act on the value, the label or the log, and arithmetic wraps.
-/

namespace PriorityRules.Sample

structure Record where
  value : Int64 := 0
  label : Option String := none
  flags : List String := []
  numbers : List Float := []
  log : List String := []

def Record.readings (r : Record) : List Float := r.value.toFloat :: r.numbers

inductive Atom where
  | divisor (n : Int64)
  | flag (name : String)
  | label (name : String)
  | probe (text : String)
  deriving DecidableEq, Repr

/-- The value has a remainder for a divisor unless the divisor is zero or the quotient would leave
the range. -/
def Atom.holds : Atom → Record → Bool
  | .divisor n, r => n ≠ 0 && !(n = -1 && r.value = Int64.minValue) && r.value % n = 0
  | .flag name, r => r.flags.contains name
  | .label name, r => r.label = some name
  | .probe text, _ => text.toList.getLast? ≠ some '-'

inductive Change where
  | relabel (name : String)
  | multiply (n : Int64)
  | assign (n : Int64)
  | append (text : String)
  | add (n : Int64)
  deriving DecidableEq, Repr

def Change.perform : Change → Record → Record
  | .relabel name, r => { r with label := some name }
  | .multiply n, r => { r with value := r.value * n }
  | .assign n, r => { r with value := n }
  | .append text, r => { r with log := r.log ++ [text] }
  | .add n, r => { r with value := r.value + n }

end PriorityRules.Sample
