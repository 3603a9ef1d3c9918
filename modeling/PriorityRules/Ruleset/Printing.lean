import PriorityRules.Decimal.Shortest
import PriorityRules.Ruleset
import PriorityRules.Text.Outline
import PriorityRules.Text.Quoted

/-! # Rulesets as text

The summary of a ruleset counts its parts. Its outline shows the structure of every rule and tag;
of an atom, which belongs to the host, and of the changes of effects it shows nothing.
-/

namespace PriorityRules

open Text (commaSeparated inBrackets fields quotedString)

variable {A M : Type}

def Comparison.outline (c : Comparison) : String :=
  "Compare(#" ++ toString c.position ++ " " ++ c.operator.render ++ " " ++
    Decimal.render c.constant ++ ")"

def Predicate.outline : Predicate A → String
  | .atom _ => "Domain(..)"
  | .not p => "Not(" ++ p.outline ++ ")"
  | .tag id => "Tag(" ++ toString id ++ ")"
  | .compare c => c.outline

def Group.outline (g : Group A) : String := inBrackets (g.map Predicate.outline)

def Tag.outline (t : Tag A) : String :=
  fields "Tag" [("name", quotedString t.name), ("groups", inBrackets (t.groups.map Group.outline))]

def Rule.outline (r : Rule A M) : String :=
  fields "Rule" [("level", toString r.level), ("line", toString r.line),
    ("predicates", Group.outline r.conditions),
    ("slots", inBrackets (r.effects.map fun e => toString e.slot))]

def Ruleset.outline (r : Ruleset A M) : String :=
  fields "Ruleset" [("rules", inBrackets (r.rules.map Rule.outline)),
    ("tags", inBrackets (r.tags.map Tag.outline))]

def Ruleset.summary (r : Ruleset A M) : String :=
  "Ruleset(" ++ commaSeparated [toString r.size ++ " rules", toString r.levels.length ++ " levels",
    toString r.tags.length ++ " tags"] ++ ")"

end PriorityRules
