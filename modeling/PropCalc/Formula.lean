import PropCalc.Ascending
import PropCalc.Dialect
/-!
# Formulas

Syntax trees of two kinds of node: variables, and two formulas joined by a connective. Negation is
no node of its own; every node carries a mark that says whether it is negated.

Each joined node remembers the dialect in which it was written. The dialect takes no part in the
comparison of formulas.
-/

namespace PropCalc

/-- A formula. -/
inductive Formula where
  | var (name : String) (negated : Bool)
  | binary (left : Formula) (connective : Connective) (right : Formula) (negated : Bool)
      (dialect : Dialect)
deriving DecidableEq, Repr

namespace Formula

/-- Joins two formulas with an operator; negation does not join and is refused. -/
def join (left : Formula) (o : Operator) (right : Formula) (negated : Bool) (d : Dialect) :
    Except ConnectiveError Formula :=
  match o with
  | .not => .error .joining
  | .binary c => .ok (binary left c right negated d)

/-! ## Parts and marks -/

/-- Whether the outermost node is negated. -/
def isNegated : Formula → Bool
  | var _ n => n
  | binary _ _ _ n _ => n

/-- Whether the formula is a variable, negated or not. -/
def isVariable : Formula → Bool
  | var .. => true
  | binary .. => false

/-- Turns the negation of the outermost node around. -/
def negate : Formula → Formula
  | var x n => var x !n
  | binary l c r n d => binary l c r (!n) d

/-- All nodes, each behind the nodes inside it, from left to right. -/
def postorder : Formula → List Formula
  | f@(var ..) => [f]
  | f@(binary l _ r _ _) => l.postorder ++ r.postorder ++ [f]

/-- The names at the leaves, from left to right, as often as they occur. -/
def leaves : Formula → List String
  | var x _ => [x]
  | binary l _ r _ _ => l.leaves ++ r.leaves

/-- The names that occur, in ascending order. -/
def names (f : Formula) : List String := Ascending.ofList f.leaves

/-! ## Comparison -/

/-- Equality up to the dialects of the nodes. -/
def same : Formula → Formula → Bool
  | var x m, var y n => x == y && m == n
  | binary l c r m _, binary l' c' r' n _ => l.same l' && c == c' && r.same r' && m == n
  | _, _ => false

/-! ## Printing -/

/-- A part of a joined formula needs parentheses when it is itself joined and not negated: a negated
part brings its own, and the left part of a chain of one associative connective needs none. -/
def needsParentheses (outer : Connective) (isLeft : Bool) : Formula → Bool
  | var .. => false
  | binary _ c _ n _ => !n && !(isLeft && c == outer && outer.isAssociative)

/-- A text in parentheses, if they are needed. -/
def parenthesized (needed : Bool) (s : String) : String :=
  if needed then "(" ++ s ++ ")" else s

/-- The formula in a dialect. -/
def text (d : Dialect) : Formula → String
  | var x n => if n then Operator.not.spelling d ++ x else x
  | binary l c r n _ =>
    let body := parenthesized (l.needsParentheses c true) (l.text d)
      ++ " " ++ (Operator.binary c).spelling d ++ " "
      ++ parenthesized (r.needsParentheses c false) (r.text d)
    if n then Operator.not.spelling d ++ "(" ++ body ++ ")" else body

end Formula

/-- Something was asked of a formula that is not there. -/
inductive FormulaError where
  | absent
deriving DecidableEq, Repr

/-- The wording for an absent formula. -/
def FormulaError.message : FormulaError → String
  | absent => "Unsupported syntax node: NoneType"

end PropCalc
