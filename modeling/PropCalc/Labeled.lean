import PropCalc.Evaluation
/-!
# Labeled parts

The parts of a formula that get a column of their own in a truth table: the whole, every negated
part and, if intermediate steps are wanted, every joined part, where a negated one also counts
without its negation. A part is labeled by its text, and comes before the parts that contain it.
-/

namespace PropCalc

/-- The value of a labeled part under one assignment. -/
structure LabeledValue where
  label : String
  assignment : Assignment
  value : Bool
deriving DecidableEq, Repr

namespace Formula

/-- All nodes but the outermost, each behind the nodes inside it. -/
def innerParts : Formula → List Formula
  | var .. => []
  | binary l _ r _ _ => l.postorder ++ r.postorder

/-- The parts to be labeled at a node, in order. -/
def partsAt (intermediate isRoot : Bool) (f : Formula) : List Formula :=
  let step := intermediate && !f.isVariable
  let body := if step && f.isNegated then [f.negate] else []
  let whole := if isRoot || f.isNegated || step then [f] else []
  body ++ whole

/-- All parts to be labeled, in order, as often as they occur. -/
def parts (intermediate : Bool) (f : Formula) : List Formula :=
  f.innerParts.flatMap (partsAt intermediate false) ++ f.partsAt intermediate true

/-- Of several entries with one label keeps the first. -/
def firstOfLabel : List (String × Formula) → List (String × Formula)
  | [] => []
  | e :: es => e :: (firstOfLabel es).filter fun e' => e'.1 != e.1

/-- The labels of a formula with the part that each of them stands for. -/
def labeledParts (d : Dialect) (intermediate : Bool) (f : Formula) : List (String × Formula) :=
  firstOfLabel ((f.parts intermediate).map fun part => (part.text d, part))

/-- The dialect of the outermost node; a variable counts as logic. -/
def dialect : Formula → Dialect
  | var .. => .logic
  | binary _ _ _ _ d => d

/-- The values of a part on the given rows. -/
def valuesOn (rows : List Assignment) (f : Formula) : Except MissingValue (List Bool) :=
  rows.mapM fun row => f.evaluate row

/-- The values of all labeled parts, label by label, on every different row. -/
def labeledValues (d : Dialect) (intermediate : Bool) (rows : List Assignment) (f : Formula) :
    Except MissingValue (List LabeledValue) := do
  let rows := rows.eraseDups
  let columns ← (f.labeledParts d intermediate).mapM fun (label, part) => do
    let values ← part.valuesOn rows
    return (rows.zip values).map fun (row, value) => (⟨label, row, value⟩ : LabeledValue)
  return columns.flatten

end Formula

end PropCalc
