import PropCalc.Evaluation
import PropCalc.Minimize
/-!
# Simplification

The minimal form of an expression, printed like any other expression: the rows on which it is true
are minimized, the sum of products is rewritten in the dialect asked for and read again, and what was
read is printed.
-/

namespace PropCalc

/-- Why an expression cannot be simplified. -/
inductive SimplifyError where
  /-- A bare formula was given without variables. -/
  | noVariables
  | missing (m : MissingValue)
  | minimize (e : MinimizeError)
  | parse (e : ParseError)
deriving DecidableEq, Repr

/-- The wording of an error. -/
def SimplifyError.message : SimplifyError → String
  | noVariables => "variables are required when simplifying a bare syntax tree"
  | missing m => m.message
  | minimize e => e.message
  | parse e => e.message

namespace Subject

/-- What is printed for an expression that is always true. -/
def alwaysTrueText : String := "Always True"

/-- What is printed for an expression that is never true. -/
def alwaysFalseText : String := "Always False"

/-- The dialect of the result: the one asked for, else the subject's own, else logic. -/
def outputDialect (s : Subject) (dialect? : Option Dialect) : Dialect :=
  (dialect? <|> s.dialect?).getD .logic

/-- The canonical minimal form over the given names. -/
def minimized (s : Subject) (names : List String) : Except SimplifyError String := do
  let rows ← (s.trueRows (some names)).mapError .missing
  (minimize names (.ofList (rows.map Int.ofNat))).mapError .minimize

/-- A canonical minimal form as it is printed in a dialect. -/
def printMinimized (canonical : String) (d : Dialect) : Except ParseError String :=
  if canonical = Canonical.alwaysTrue then .ok alwaysTrueText
  else if canonical = Canonical.alwaysFalse then .ok alwaysFalseText
  else do
    let e ← Expression.parse (Canonical.render canonical d)
    return e.root.text d

/-- The minimal form of the subject. -/
def simplify (s : Subject) (names? : Option (List String)) (dialect? : Option Dialect) :
    Except SimplifyError String := do
  match names? <|> s.names? with
  | none => throw .noVariables
  | some names =>
    let canonical ← s.minimized names
    (printMinimized canonical (s.outputDialect dialect?)).mapError .parse

end Subject

end PropCalc
