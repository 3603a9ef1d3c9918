/-! # Reports

A verdict says which rule filled a slot. A report lists the verdicts in ascending slot order and
says of how many rules the conditions were tested.
-/

namespace PriorityRules

structure Verdict where
  slot : Int
  level : Int
  line : Nat
  deriving DecidableEq, Repr

def Verdict.render (v : Verdict) : String :=
  "slot " ++ toString v.slot ++ " <- level " ++ toString v.level ++
    " (line " ++ toString v.line ++ ")"

structure Report where
  verdicts : List Verdict
  examined : Nat
  deriving DecidableEq, Repr

namespace Report

def verdict? (r : Report) (slot : Int) : Option Verdict := r.verdicts.find? (·.slot = slot)

def render (r : Report) : String :=
  let verdicts :=
    match r.verdicts with
    | [] => "none"
    | verdicts => "[" ++ String.intercalate ", " (verdicts.map Verdict.render) ++ "]"
  "verdicts: " ++ verdicts ++ ", examined: " ++ toString r.examined

end Report

end PriorityRules
