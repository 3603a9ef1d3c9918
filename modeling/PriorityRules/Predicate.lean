import PriorityRules.Comparison

/-! # Predicates

A predicate is what a condition token has been read as. Atoms belong to the host; the other forms
belong to the rule language. A tag is referred to by its position in the ruleset.
-/

namespace PriorityRules

inductive Predicate (A : Type) where
  | atom (a : A)
  | not (p : Predicate A)
  | tag (id : Nat)
  | compare (c : Comparison)
  deriving DecidableEq

/-- Predicates that must all hold. -/
abbrev Group (A : Type) := List (Predicate A)

/-- A named condition: it holds when one of its groups does. -/
structure Tag (A : Type) where
  name : String
  groups : List (Group A)
  deriving DecidableEq

end PriorityRules
