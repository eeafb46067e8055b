/-!
# Assignments

Truth values for named variables, and the numbering of all assignments over a list of names. Row 0
makes every variable true; the first name is the most significant bit of the row number, and a bit
that is set means *false*.
-/

namespace PropCalc

/-- The number of rows of a table over `n` variables: two to the power of `n`. -/
def rowCount (n : Nat) : Nat := Nat.pow 2 n

/-- Names with their truth values, in order. Of several values for one name the first counts. -/
structure Assignment where
  pairs : List (String × Bool)
deriving DecidableEq, Repr

namespace Assignment

/-- Gives names their values one by one; the shorter list decides how many. -/
def ofLists (names : List String) (values : List Bool) : Assignment := ⟨names.zip values⟩

/-- The value of a name. -/
def get? (a : Assignment) (name : String) : Option Bool := a.pairs.lookup name

/-- The names that are bound, in order. -/
def names (a : Assignment) : List String := a.pairs.map (·.1)

/-- A truth value as one letter. -/
def letter (value : Bool) : Char := if value then 'T' else 'F'

/-- The assignment as a list of equations. -/
def text (a : Assignment) : String :=
  ", ".intercalate (a.pairs.map fun (name, value) => name ++ "=" ++ (letter value).toString)

/-! ## Rows -/

/-- The value in a row of the variable that has `power` variables behind it: its bit weighs as much as
the number of rows over those. -/
def truthValue (row : Int) (power : Nat) : Bool := row / rowCount power % 2 == 0

/-- The assignment in a row of the table over the given names. -/
def ofRow (names : List String) (row : Nat) : Assignment :=
  ofLists names ((List.range names.length).map fun j => truthValue row (names.length - j - 1))

/-- All assignments over the given names, in the order of their rows. -/
def enumerate (names : List String) : List Assignment :=
  (List.range (rowCount names.length)).map (ofRow names)

end Assignment

end PropCalc
