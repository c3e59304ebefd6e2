/-!
# Lines of a text

A line ends at a line feed, which is not part of it, nor is one carriage return directly before
it. A text that does not end with a line feed ends with a line that is not terminated, which is
kept as it is. No other character ends a line.
-/

namespace GuidedGrammar.Text

/-- The text of a terminated line, given its characters last character first. -/
def terminated (reversed : List Char) : String :=
  match reversed with
  | '\r' :: rest => String.ofList rest.reverse
  | _ => String.ofList reversed.reverse

/-- The lines of a text that continues a line, whose characters so far are given last character
first. -/
def linesFrom (reversed : List Char) : List Char → List String
  | [] => if reversed.isEmpty then [] else [String.ofList reversed.reverse]
  | c :: rest =>
    if c = '\n' then terminated reversed :: linesFrom [] rest else linesFrom (c :: reversed) rest

/-- **The lines of a text.** -/
def lines (s : String) : List String :=
  linesFrom [] s.toList

/-- What follows `start` in a text that starts with it. -/
def after? (start s : String) : Option String :=
  (start.toList.isPrefixOf? s.toList).map String.ofList

end GuidedGrammar.Text
