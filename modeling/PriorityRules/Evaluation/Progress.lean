import PriorityRules.Ruleset

/-! # The progress of an evaluation

An evaluation asks questions about a fixed situation: which atoms hold, and what the numbers are.
Its progress is what it has found out about tags, together with a trail of all that it looked at.
The trail is also kept by an evaluation that fails.
-/

namespace PriorityRules

/-- Why an evaluation has no outcome: the path of tags that led back to itself. -/
inductive EvaluationFault where
  | circularTag (path : List String)
  deriving DecidableEq, Repr

def EvaluationFault.message : EvaluationFault → String
  | .circularTag path =>
    "tag evaluation aborted due to circular reference: " ++ String.intercalate " -> " path

/-- What an evaluation may look at. -/
structure Situation (A : Type) where
  tags : List (Tag A)
  holds : A → Bool
  numbers : List Float

namespace Evaluation

inductive Question (A : Type) where
  | atom (a : A)
  | comparison (c : Comparison)
  deriving DecidableEq

/-- A place in a ruleset where a predicate stands. -/
inductive Site where
  | condition (rule index : Nat)
  | member (tag group index : Nat)
  deriving DecidableEq, Repr

inductive Visit (A : Type) where
  | entered (tag : Nat)
  | reached (site : Site)
  | asked (question : Question A) (answer : Bool)
  deriving DecidableEq

structure Progress (A : Type) where
  /-- The tags that are decided already. -/
  known : List (Nat × Bool) := []
  /-- The visits made, the latest first. -/
  trail : List (Visit A) := []

namespace Progress

variable {A : Type}

def visit (p : Progress A) (v : Visit A) : Progress A := { p with trail := v :: p.trail }

def learn (p : Progress A) (tag : Nat) (truth : Bool) : Progress A :=
  { p with known := (tag, truth) :: p.known }

def answers (p : Progress A) : List (Question A × Bool) :=
  p.trail.reverse.filterMap fun
    | .asked question answer => some (question, answer)
    | _ => none

end Progress

end Evaluation

end PriorityRules
