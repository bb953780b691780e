/-! Lines of a text. -/
namespace WireCut.Text

/-- The lines between the line feeds of a text. A text without one has a single line. -/
def lines (cs : List Char) : List (List Char) :=
  cs.splitOn '\n'

def lineCount (cs : List Char) : Nat :=
  cs.count '\n' + 1

/-- A text in which every carriage return, and every pair of a carriage return and a line feed, is one line
feed. -/
def unifyLineEnds : List Char → List Char
  | '\r' :: '\n' :: cs => '\n' :: unifyLineEnds cs
  | '\r' :: cs => '\n' :: unifyLineEnds cs
  | c :: cs => c :: unifyLineEnds cs
  | [] => []

end WireCut.Text
