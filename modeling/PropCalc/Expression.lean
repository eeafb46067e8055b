import PropCalc.Grammar
import PropCalc.Placement
/-!
# Expressions

A formula together with the dialect in which it was written, and the reading of a text as an
expression. A text is rejected by the first of these that fails: its characters, the balance of its
parentheses, the placement of operators and operands, the grammar.
-/

namespace PropCalc

/-- A formula and the dialect in which to print it. -/
structure Expression where
  root : Formula
  dialect : Dialect
deriving DecidableEq, Repr

namespace Expression

/-- The names that occur, in ascending order. -/
def names (e : Expression) : List String := e.root.names

/-- Whether the expression is a variable, negated or not. -/
def isSingle (e : Expression) : Bool := e.root.isVariable

/-- The expression in its own dialect. -/
def text (e : Expression) : String := e.root.text e.dialect

/-- The expression that tokens form. -/
def ofTokens (d : Dialect) (ts : List Token) : Except ParseError Expression := do
  checkBalance ts
  checkPlacement ts
  let root ← Formula.ofTokens d ts
  return ⟨root, d⟩

/-- Reads a text. -/
def parse (text : String) : Except ParseError Expression := do
  let (tokens, d) ← tokenize text
  ofTokens d tokens

/-- Reads a text that may be absent. -/
def parse? : Option String → Except ParseError Expression
  | none => .error .absent
  | some text => parse text

end Expression

/-- What can be asked about: an expression, or a bare formula without dialect and variables of its
own. -/
inductive Subject where
  | expression (e : Expression)
  | formula (f : Formula)
deriving DecidableEq, Repr

namespace Subject

/-- The formula in question. -/
def root : Subject → Formula
  | expression e => e.root
  | formula f => f

/-- The variables that the subject brings with it. -/
def names? : Subject → Option (List String)
  | expression e => some e.names
  | formula _ => none

/-- The dialect that the subject brings with it. -/
def dialect? : Subject → Option Dialect
  | expression e => some e.dialect
  | formula _ => none

end Subject

end PropCalc
