import PriorityRules.Engine
import PriorityRules.Ruleset.Printing

/-! # Engines and events as text

The outline of an engine shows its host without the readers, the active ruleset and the path of
the rules file. An event is written as its severity, its message and its fields.
-/

namespace PriorityRules

open Text (inBrackets inBraces fields quotedString quotedChar)

variable {C A M : Type}

def Variables.outline (v : Variables) : String :=
  fields "VariableRegistry" [("names", inBrackets (v.names.map quotedString)),
    ("indices", inBraces (v.names.zipIdx.map fun (name, i) =>
      quotedString name ++ ": " ++ toString i))]

/-- The marks are listed in the order of their code points. -/
def Host.outline (h : Host C A M) : String :=
  let marks := (h.marks.map (·.1)).mergeSort fun a b => a.toNat ≤ b.toNat
  fields "Domain" [("prefixes", inBrackets (marks.map quotedChar)),
    ("fallback", toString h.fallback.isSome),
    ("slots", inBraces (h.slots.ids.map toString)),
    ("variables", h.declared.outline)]

def Engine.outline (e : Engine C A M) : String :=
  fields "RulesEngine" [("domain", e.host.outline), ("active", e.active.outline),
    ("rules_file", match e.rulesFile with
      | none => "None"
      | some path => "Some(" ++ quotedString path ++ ")")]

def Event.render : Event → String
  | .loaded rules tags =>
    "DEBUG rules loaded rules=" ++ toString rules ++ " tags=" ++ toString tags
  | .rejected error => "DEBUG rules rejected err=" ++ error.message
  | .aborted fault => "DEBUG evaluation aborted err=" ++ fault.message
  | .unchanged path => "DEBUG rules file unchanged path=" ++ path
  | .fileLoaded path rules => "INFO " ++ path ++ ": Loaded " ++ toString rules ++ " rules."
  | .fileFailed path message => "ERROR " ++ path ++ ": " ++ message

end PriorityRules
