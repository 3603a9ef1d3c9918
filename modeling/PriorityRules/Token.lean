import PriorityRules.Text.Blank
import PriorityRules.Text.Lines
import PriorityRules.Text.Numeral

/-! # Tokens and the kinds of line

A token is one of the delimiters `[`, `]`, `,` or a maximal run of characters that are neither
blank nor delimiters. The first token of a line decides what the line is: a comment, a rule with
its level, the opening of a tag block, or nothing known. No token falls under two of these.
-/

namespace PriorityRules

abbrev Token := List Char

namespace Token

def isDelimiter (c : Char) : Bool := c = '[' || c = ']' || c = ','

def isWordChar (c : Char) : Bool := !Text.isBlank c && !isDelimiter c

def closeWord (word : Token) (rest : List Token) : List Token :=
  if word.isEmpty then rest else word :: rest

/-- Put one character in front of a word under way and the tokens after it. -/
def consChar (c : Char) (tokens : Token × List Token) : Token × List Token :=
  if isWordChar c then (c :: tokens.1, tokens.2)
  else if isDelimiter c then ([], [c] :: closeWord tokens.1 tokens.2)
  else ([], closeWord tokens.1 tokens.2)

def split (line : Text.Line) : List Token :=
  let (word, rest) := line.foldr consChar ([], [])
  closeWord word rest

def isComment (token : Token) : Bool := token.head? = some '#'

/-- A level is a numeral of 32 bits without leading zeros; zero has no sign. -/
def level? : Token → Option Int
  | ['0'] => some 0
  | '0' :: _ => none
  | '+' :: '0' :: _ => none
  | '-' :: '0' :: _ => none
  | token => (Text.readSigned 32 token).toOption

/-- A tag name is a letter followed by at least one letter or digit, all of them ASCII. -/
def isTagName : Token → Bool
  | first :: second :: rest => first.isAlpha && (second :: rest).all Char.isAlphanum
  | _ => false

def arrow : Token := ['-', '>']

end Token

inductive Line where
  | skipped
  | rule (level : Int) (body : List Token)
  | block (name : Token) (body : List Token)
  | unknown (first : Token)
  deriving DecidableEq, Repr

def Line.ofTokens : List Token → Line
  | [] => .skipped
  | first :: body =>
    if first.isComment then .skipped
    else
      match first.level? with
      | some level => .rule level body
      | none => if first.isTagName then .block first body else .unknown first

example : Token.split "night[!/2 %day,(it>3)]".toList =
    ["night", "[", "!/2", "%day", ",", "(it>3)", "]"].map String.toList := by decide
example : ["0", "-12", "+3", "007", "-0", "2147483648", "5a"].map (fun t => Token.level? t.toList) =
    [some 0, some (-12), some 3, none, none, none, none] := by decide

end PriorityRules
