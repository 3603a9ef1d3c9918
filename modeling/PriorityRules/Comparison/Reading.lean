import PriorityRules.Comparison
import PriorityRules.LoadError
import PriorityRules.Variables

/-! # Reading a comparison

The body of a comparison is cut around an operator. The operator is the first one in search order
that has a cut with text on both sides, and the cut is its last such one. The left side must then
name a variable and the right side must be a number.
-/

namespace PriorityRules.Comparison

/-- The last cut of a body around a symbol that leaves text on both sides. -/
def lastCut? (symbol : List Char) : List Char → Option (List Char × List Char)
  | [] => none
  | c :: rest =>
    match lastCut? symbol rest with
    | some (left, right) => some (c :: left, right)
    | none =>
      match symbol.isPrefixOf? rest with
      | some (d :: right) => some ([c], d :: right)
      | _ => none

def cut? (body : List Char) : Option (Operator × List Char × List Char) :=
  Operator.searchOrder.findSome? fun op => (lastCut? op.symbol body).map (op, ·)

def ofBody (declared : Variables) (body : List Char) : Except PredicateFault Comparison :=
  match cut? body with
  | none => .error (.noOperator (String.ofList body))
  | some (op, left, right) =>
    match declared.position? (String.ofList left) with
    | none => .error (.unknownVariable (String.ofList left))
    | some position =>
      match Decimal.read? right with
      | none => .error (.invalidNumber (String.ofList right))
      | some constant => .ok ⟨position, op, constant⟩

example : cut? "a>b>=c>=".toList = some (.atLeast, "a>b".toList, "c>=".toList) := by decide
example : cut? "it==3".toList = some (.equals, "it=".toList, "3".toList) := by decide
example : cut? ">3".toList = none := by decide

end PriorityRules.Comparison
