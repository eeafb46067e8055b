import PropCalc.Dialect
import PropCalc.Text.Replace
/-!
# Canonical sums of products

A sum of products as text: literals joined by one word into terms, terms joined by another into a
sum, and a word with a blank before a negated name. Rewriting such a text in a dialect replaces the
three words, in that order and wherever they occur.
-/

namespace PropCalc.Canonical

/-- The word that joins the literals of a term. -/
def andWord : String := "AND"

/-- The word that joins the terms of a sum. -/
def orWord : String := "OR"

/-- The word before a negated name, with its blank. -/
def notWord : String := "NOT "

/-- A literal: a name and whether it is negated. -/
def literal (name : String) (negated : Bool) : String :=
  if negated then notWord ++ name else name

/-- A product of literals. -/
def product (literals : List String) : String := (" " ++ andWord ++ " ").intercalate literals

/-- Puts a term in parentheses if it reads as a product of several literals. -/
def grouped (term : String) : String :=
  if Text.occurs (" " ++ andWord ++ " ").toList term.toList then "(" ++ term ++ ")" else term

/-- A sum of terms. A term that is not alone is grouped. -/
def sum (terms : List String) : String :=
  (" " ++ orWord ++ " ").intercalate (if terms.length > 1 then terms.map grouped else terms)

/-- Replaces a canonical word by the spelling of an operator. -/
def spellOut (word : String) (o : Operator) (d : Dialect) (cs : List Char) : List Char :=
  Text.replaceAll word.toList (o.spelling d).toList cs

/-- A canonical text in a dialect. -/
def render (canonical : String) (d : Dialect) : String :=
  let cs := spellOut andWord (.binary .and) d canonical.toList
  let cs := spellOut orWord (.binary .or) d cs
  String.ofList (spellOut notWord .not d cs)

end PropCalc.Canonical
