import PropCalc.Assignment
import PropCalc.Cover
import PropCalc.Primes
/-!
# Minimization

From the rows on which a function is true to a short sum of products in canonical words: the prime
implicants of the rows, a choice of them that covers the rows, and the text of the chosen terms.
-/

namespace PropCalc

/-- Why a function cannot be minimized. -/
inductive MinimizeError where
  /-- Some rows lie outside the table, which has rows below `domain`. -/
  | outside (rows : List Int) (domain : Nat)
  /-- Some rows belong to no implicant. -/
  | uncovered (u : UncoveredRows)
deriving DecidableEq, Repr

/-- The wording of an error. -/
def MinimizeError.message : MinimizeError → String
  | outside rows domain =>
    "Minterms [" ++ rowsText rows ++ "] outside 0.." ++ toString ((domain : Int) - 1)
  | uncovered u => u.message

namespace Canonical

/-- The function that is always true. -/
def alwaysTrue : String := "1"

/-- The function that is never true. -/
def alwaysFalse : String := "0"

end Canonical

/-- The chosen terms of a function that is neither always nor never true. -/
def minimalTerms (names : List String) (minterms : RowSet) :
    Except UncoveredRows (List String) := do
  let cover ← selectCover (primeImplicants names.length minterms) minterms
  return cover.map (·.term names)

/-- The rows of a set that lie outside a table with the given number of rows. -/
def RowSet.outside (minterms : RowSet) (domain : Nat) : RowSet :=
  minterms.filter fun row => !(0 ≤ row && row < domain)

/-- A short sum of products, in canonical words, of the function that is true on the given rows. -/
def minimize (names : List String) (minterms : RowSet) : Except MinimizeError String :=
  let domain := rowCount names.length
  let bad := minterms.outside domain
  if bad.rows ≠ [] then .error (.outside bad.rows domain)
  else if minterms.rows = [] then .ok Canonical.alwaysFalse
  else if minterms.size = domain then .ok Canonical.alwaysTrue
  else match minimalTerms names minterms with
    | .error u => .error (.uncovered u)
    | .ok terms => .ok (Canonical.sum terms)

end PropCalc
