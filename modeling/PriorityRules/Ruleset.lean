import PriorityRules.Predicate

/-! # Rules and rulesets

A rule carries effects, each for one slot, under a conjunction of predicates. A ruleset holds its
rules in evaluation order: higher levels first, and within a level the order of the text.
-/

namespace PriorityRules

/-- A change of the context that competes for one slot. -/
structure Effect (M : Type) where
  slot : Int
  change : M
  deriving DecidableEq, Repr

structure Rule (A M : Type) where
  level : Int
  /-- The line of the text that declares the rule, counted from one. -/
  line : Nat
  conditions : Group A
  effects : List (Effect M)
  deriving DecidableEq

structure Ruleset (A M : Type) where
  rules : List (Rule A M)
  /-- The tags at the positions by which predicates refer to them. -/
  tags : List (Tag A)
  /-- The text that the ruleset was read from. -/
  source : Option String
  deriving DecidableEq

namespace Ruleset

variable {A M : Type}

def empty : Ruleset A M := ⟨[], [], none⟩

/-- Bring rules from text order into evaluation order. -/
def inOrder (rules : List (Rule A M)) : List (Rule A M) :=
  rules.mergeSort fun a b => b.level ≤ a.level

def size (r : Ruleset A M) : Nat := r.rules.length

def levels (r : Ruleset A M) : List Int := (r.rules.map (·.level)).eraseReps

def order (r : Ruleset A M) : List (Int × Nat) := r.rules.map fun rule => (rule.level, rule.line)

def tagNames (r : Ruleset A M) : List String := r.tags.map (·.name)

end Ruleset

end PriorityRules
