/-!
# Operators

Negation and the six binary connectives of the calculus: their truth functions, their names and
the one-character symbols of the canonical form.

Negation is kept apart from the connectives by type, so that a formula cannot join two parts with it.
-/

namespace PropCalc

/-! ## Connectives -/

/-- A binary connective. -/
inductive Connective where
  | and
  | or
  | implies
  | iff
  | nand
  | nor
deriving DecidableEq, Repr

namespace Connective

/-- The truth function of a connective. -/
def apply : Connective → Bool → Bool → Bool
  | and, x, y => x && y
  | or, x, y => x || y
  | implies, x, y => !x || y
  | iff, x, y => x == y
  | nand, x, y => !(x && y)
  | nor, x, y => !(x || y)

/-- Chains of an associative connective are printed without parentheses. -/
def isAssociative : Connective → Bool
  | and | or => true
  | implies | iff | nand | nor => false

end Connective

/-! ## Operators -/

/-- An operator of the notation: negation or a connective. -/
inductive Operator where
  | not
  | binary (connective : Connective)
deriving DecidableEq, Repr

namespace Operator

/-- The name under which messages speak of an operator. -/
def name : Operator → String
  | not => "NOT"
  | binary .and => "AND"
  | binary .or => "OR"
  | binary .implies => "IMPLIES"
  | binary .iff => "BICONDITIONAL"
  | binary .nand => "NAND"
  | binary .nor => "NOR"

/-- The symbol of an operator in the canonical form. -/
def symbol : Operator → Char
  | not => '~'
  | binary .and => '^'
  | binary .or => 'v'
  | binary .implies => '>'
  | binary .iff => '='
  | binary .nand => '|'
  | binary .nor => ':'

/-- Only connectives can be associative. -/
def isAssociative : Operator → Bool
  | not => false
  | binary c => c.isAssociative

/-- All operators. -/
def all : List Operator :=
  [not, binary .and, binary .or, binary .implies, binary .iff, binary .nand, binary .nor]

end Operator

/-- Negation was used where a binary connective is needed. -/
inductive ConnectiveError where
  /-- As the operator that joins two formulas. -/
  | joining
  /-- As the operator that combines two truth values. -/
  | applying
deriving DecidableEq, Repr

/-- The wording of a misuse of negation. -/
def ConnectiveError.message : ConnectiveError → String
  | joining => "NOT is a node flag, not a binary operator"
  | applying => "NOT is not a binary operator"

/-- Combines two truth values; negation takes only one and is refused. -/
def Operator.apply (o : Operator) (x y : Bool) : Except ConnectiveError Bool :=
  match o with
  | not => .error .applying
  | binary c => .ok (c.apply x y)

end PropCalc
