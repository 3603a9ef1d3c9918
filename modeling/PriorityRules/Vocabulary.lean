import PriorityRules.Ruleset
import PriorityRules.Variables

/-! # Vocabularies

A vocabulary is what the host adds to the rule language: a reader for the predicates that begin
with a certain character (the mark), one for those that begin with no mark, one for effects, and
the names of the numbers. A reader answers with a message when it refuses a text.
-/

namespace PriorityRules

abbrev Reader (A : Type) := String → Except String A

structure Vocabulary (A M : Type) where
  /-- The reader of each mark; a mark has one reader. -/
  marks : List (Char × Reader A)
  /-- The reader of the tokens that begin with no mark, if there is one. -/
  fallback : Option (Reader A)
  effects : Reader (List (Effect M))
  declared : Variables

/-- One use of a reader during a load. -/
inductive Call where
  /-- The reader of a mark got what follows the mark. -/
  | marked (mark : Char) (text : String)
  /-- The fallback got a whole token. -/
  | unmarked (token : String)
  | effect (token : String)
  deriving DecidableEq, Repr

end PriorityRules
