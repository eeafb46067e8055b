import PropCalc.Assignment
import PropCalc.Expression
/-!
# Evaluation

The truth value of a formula under an assignment, and its values on all rows of a table. Both sides
of a connective are always evaluated, so a variable without a value is reported even where the other
side decides.
-/

namespace PropCalc

/-- A variable of the formula has no truth value. -/
structure MissingValue where
  name : String
deriving DecidableEq, Repr

/-- The wording for a missing value. -/
def MissingValue.message (m : MissingValue) : String :=
  "Required truth value for the variable \"" ++ m.name ++ "\"."

namespace Formula

/-- The truth value of a formula. -/
def evaluate (a : Assignment) : Formula → Except MissingValue Bool
  | var x n =>
    match a.get? x with
    | none => .error ⟨x⟩
    | some value => .ok (value ^^ n)
  | binary l c r n _ => do
    let x ← l.evaluate a
    let y ← r.evaluate a
    return c.apply x y ^^ n

end Formula

namespace Subject

/-- The variables asked for, else the subject's own, else none. -/
def namesOr (s : Subject) (names? : Option (List String)) : List String :=
  names?.getD (s.names?.getD [])

/-- The value of the subject on every row. -/
def truths (s : Subject) (names? : Option (List String)) : Except MissingValue (List Bool) :=
  (Assignment.enumerate (s.namesOr names?)).mapM fun a => s.root.evaluate a

/-- The rows on which the subject is true. -/
def trueRows (s : Subject) (names? : Option (List String)) : Except MissingValue (List Nat) := do
  let values ← s.truths names?
  return values.zipIdx.filterMap fun (value, row) => if value then some row else none

end Subject

end PropCalc
