/-! # Outlines of values

An outline names a value with its fields and writes its parts between brackets or braces, with
commas between them.
-/

namespace PriorityRules.Text

def commaSeparated (items : List String) : String := String.intercalate ", " items

def inBrackets (items : List String) : String := "[" ++ commaSeparated items ++ "]"

def inBraces (items : List String) : String := "\x7b" ++ commaSeparated items ++ "\x7d"

def fields (name : String) (items : List (String × String)) : String :=
  name ++ " \x7b " ++ commaSeparated (items.map fun item => item.1 ++ ": " ++ item.2) ++ " \x7d"

end PriorityRules.Text
