import PropCalc.TruthTable
/-!
# Layout of tables

Columns side by side as lines of text, each value centred under its label.
-/

namespace PropCalc.TableLayout

/-- A column ends before the first one does. -/
inductive RaggedTable where
  | shortColumn
deriving DecidableEq, Repr

/-- The wording for a column that is too short. -/
def RaggedTable.message : RaggedTable → String
  | shortColumn => "list index out of range"

/-- A text several times in a row. -/
def times (n : Nat) (s : String) : String := String.join (List.replicate n s)

/-- Centres a text in a field; an odd remainder goes to the right. -/
def center (text : String) (width : Nat) (fill : String) : String :=
  if width ≤ text.length then text
  else
    let left := (width - text.length) / 2
    times left fill ++ text ++ times (width - text.length - left) fill

/-- Cells between bars. -/
def row (cells : List String) : String := "| " ++ " | ".intercalate cells ++ " |"

/-- The line below the labels. -/
def rule (columns : List Column) : String :=
  "+" ++ "+".intercalate (columns.map fun c => times (c.label.length + 2) "-") ++ "+"

/-- The cell of a column in a row. -/
def cell (i : Nat) (c : Column) : Except RaggedTable String :=
  match c.values[i]? with
  | none => .error .shortColumn
  | some value => .ok (center (Assignment.letter value).toString c.label.length " ")

/-- The lines of a table: labels, a rule, and as many rows as the first column has. -/
def lines : List Column → Except RaggedTable (List String)
  | [] => .ok []
  | first :: others => do
    let columns := first :: others
    let body ← (List.range first.values.length).mapM fun i => do
      return row (← columns.mapM (cell i))
    return row (columns.map fun c => center c.label c.label.length " ") :: rule columns :: body

/-- The lines of a table, each with its line end. -/
def text (columns : List Column) : Except RaggedTable String := do
  return String.join ((← lines columns).map (· ++ "\n"))

end PropCalc.TableLayout
