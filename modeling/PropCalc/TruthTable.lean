import PropCalc.Labeled
/-!
# Truth tables

A table is a list of columns, one for every variable and one for every labeled part, ordered by the
length of their labels and then by the labels themselves.
-/

namespace PropCalc

/-- A label and the truth values below it. -/
structure Column where
  label : String
  values : List Bool
deriving DecidableEq, Repr

namespace Column

/-- The order of columns: shorter labels first, labels of one length by code points. -/
def precedes (a b : Column) : Bool :=
  a.label.length < b.label.length
    || a.label.length == b.label.length && !decide (b.label < a.label)

/-- The column of a variable. -/
def ofVariable (rows : List Assignment) (name : String) : Column :=
  ⟨name, rows.map fun row => (row.get? name).getD false⟩

/-- Adds the columns of the variables that have none yet. -/
def withVariables (rows : List Assignment) (columns : List Column) : List String → List Column
  | [] => columns
  | name :: names =>
    if columns.any (·.label == name) then withVariables rows columns names
    else withVariables rows (columns ++ [ofVariable rows name]) names

end Column

/-- The truth table of a subject. -/
def Subject.truthTable (s : Subject) (names? : Option (List String)) (intermediate : Bool)
    (dialect? : Option Dialect) : Except MissingValue (List Column) := do
  let names := s.namesOr names?
  let rows := Assignment.enumerate names
  let d := (dialect? <|> s.dialect?).getD s.root.dialect
  let columns ← (s.root.labeledParts d intermediate).mapM fun (label, part) => do
    return (⟨label, ← part.valuesOn rows⟩ : Column)
  return (Column.withVariables rows columns names).mergeSort Column.precedes

end PropCalc
