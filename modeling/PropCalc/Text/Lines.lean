/-!
# Lines of a text

A text as the list of its lines. A line end at the very end of the text starts no further line.
-/

namespace PropCalc.Text

/-- The lines of a text, as characters. -/
def charLines : List Char → List (List Char)
  | [] => []
  | c :: cs =>
    if c = '\n' then [] :: charLines cs
    else match charLines cs with
      | [] => [[c]]
      | line :: lines => (c :: line) :: lines

/-- The lines of a text. -/
def lines (s : String) : List String := (charLines s.toList).map String.ofList

end PropCalc.Text
