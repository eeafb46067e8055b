import PropCalc.Operator
/-!
# Dialects

The four notations in which a formula may be written, and how each of them spells the operators in
print. A dialect never changes what a formula means.
-/

namespace PropCalc

/-- A notation. -/
inductive Dialect where
  /-- Words: `not a and b`. -/
  | pseudo
  /-- Symbols of logic: `~a ^ b`. -/
  | logic
  /-- Symbols of program code: `!a && b`. -/
  | code
  /-- Symbols of algebra: `-a * b`. -/
  | boolean
deriving DecidableEq, Repr

namespace Dialect

/-- The full name of a dialect. -/
def title : Dialect → String
  | pseudo => "pseudo-English"
  | logic => "logic-symbol"
  | code => "code-symbol"
  | boolean => "Boolean-algebra"

/-- All dialects. -/
def all : List Dialect := [pseudo, logic, code, boolean]

end Dialect

/-- How an operator is printed. The word for negation brings its own blank. -/
def Operator.spelling : Operator → Dialect → String
  | not, .pseudo => "not "
  | not, .logic => "~"
  | not, .code => "!"
  | not, .boolean => "-"
  | binary .and, .pseudo => "and"
  | binary .and, .logic => "^"
  | binary .and, .code => "&&"
  | binary .and, .boolean => "*"
  | binary .or, .pseudo => "or"
  | binary .or, .logic => "v"
  | binary .or, .code => "||"
  | binary .or, .boolean => "+"
  | binary .implies, .pseudo => "implies"
  | binary .implies, _ => "->"
  | binary .iff, .pseudo => "iff"
  | binary .iff, _ => "<->"
  | binary .nand, .pseudo => "nand"
  | binary .nand, .boolean => "-*"
  | binary .nand, _ => "|"
  | binary .nor, .pseudo => "nor"
  | binary .nor, .boolean => "-+"
  | binary .nor, _ => "↓"

end PropCalc
