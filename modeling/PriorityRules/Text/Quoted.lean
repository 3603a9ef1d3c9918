import PriorityRules.Text.Hidden

/-! # Quoted text

A quoted string or character shows every hidden character: the usual short escapes where there is
one, and otherwise the code point in hexadecimal between braces. A backslash is doubled, and only
the quote that surrounds the text is escaped inside it.
-/

namespace PriorityRules.Text

def hexadecimal (n : Nat) : List Char := Nat.toDigits 16 n

/-- One character as it stands between two quotes. -/
def escaped (quote c : Char) : List Char :=
  if c = '\x00' then ['\\', '0']
  else if c = '\t' then ['\\', 't']
  else if c = '\r' then ['\\', 'r']
  else if c = '\n' then ['\\', 'n']
  else if c = '\\' || c = quote then ['\\', c]
  else if isHidden c then ['\\', 'u', '\x7b'] ++ hexadecimal c.toNat ++ ['\x7d']
  else [c]

def quotedString (s : String) : String :=
  String.ofList (['\x22'] ++ s.toList.flatMap (escaped '\x22') ++ ['\x22'])

def quotedChar (c : Char) : String :=
  String.ofList (['\x27'] ++ escaped '\x27' c ++ ['\x27'])

end PriorityRules.Text
