/-! # Lines of a text

A line ends at a line feed, and one carriage return right before the line feed belongs to the
ending. What follows the last line feed is a line of its own unless it is empty; it keeps its
carriage returns.
-/

namespace PriorityRules.Text

/-- A line is held without its ending. -/
abbrev Line := List Char

def consLine (c : Char) : List Line → List Line
  | [] => [[c]]
  | line :: rest => (c :: line) :: rest

def lines : List Char → List Line
  | [] => []
  | '\n' :: rest => [] :: lines rest
  | '\r' :: '\n' :: rest => [] :: lines rest
  | c :: rest => consLine c (lines rest)

example : lines "a\r\r\n\nb\r".toList = ["a\r".toList, [], "b\r".toList] := by decide

end PriorityRules.Text
