/-!
# Finding and replacing

Occurrences of a word in a text, from left to right and without overlap.
-/

namespace PropCalc.Text

/-- Whether a word occurs in a text. -/
def occurs (word : List Char) : List Char → Bool
  | [] => word.isEmpty
  | c :: cs => word.isPrefixOf (c :: cs) || occurs word cs

/-- Replaces every occurrence of a word that is not empty. -/
def replaceAll (word new : List Char) : List Char → List Char
  | [] => []
  | c :: cs =>
    if word.isPrefixOf (c :: cs) then new ++ replaceAll word new (cs.drop (word.length - 1))
    else c :: replaceAll word new cs
termination_by cs => cs.length
decreasing_by
  · simp only [List.length_drop, List.length_cons]
    omega
  · simp

end PropCalc.Text
