/-!
# Lines

A line ends at a line feed, and a carriage return before the line feed belongs
to the end of the line.
-/

namespace GraphInterval

namespace Lines

/-- Ends a line, given by its characters in reverse. -/
def finish : List Char → String
  | '\r' :: line => String.ofList line.reverse
  | line => String.ofList line.reverse

/-- The lines of the rest of a text, where `line` is read already, in reverse. -/
def linesFrom (line : List Char) : List Char → List String
  | [] => [finish line]
  | '\n' :: rest => finish line :: linesFrom [] rest
  | c :: rest => linesFrom (c :: line) rest

/-- The lines of a text that a line feed follows. -/
def ofText (text : String) : List String := linesFrom [] text.toList

end Lines

end GraphInterval
