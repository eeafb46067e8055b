import PropCalc.Canonical
import PropCalc.Pattern
/-!
# Implicants

A product term of a function: its pattern, and the rows of the truth table that it covers.
-/

namespace PropCalc

/-- A product term with the rows it covers. -/
structure Implicant where
  pattern : Pattern
  minterms : RowSet
deriving DecidableEq, Repr

namespace Implicant

/-- The term of a single row. -/
def ofRow (width : Nat) (row : Int) : Implicant := ⟨.ofRow width row, .ofList [row]⟩

/-- Merges two terms whose patterns merge; the result covers what either of them covers. -/
def merge? (s t : Implicant) : Option Implicant :=
  (s.pattern.merge? t.pattern).map fun p => ⟨p, s.minterms.union t.minterms⟩

/-- Whether the term covers a row. -/
def covers (t : Implicant) (row : Int) : Bool := row ∈ t.minterms

/-- The term in canonical words. -/
def term (names : List String) (t : Implicant) : String :=
  Canonical.product ((t.pattern.literals names).map fun (name, negated) =>
    Canonical.literal name negated)

theorem fixed_of_merge? {s t r : Implicant} (h : s.merge? t = some r) :
    r.pattern.fixed + 1 = s.pattern.fixed := by
  obtain ⟨p, hp, rfl⟩ := Option.map_eq_some_iff.1 h
  exact Pattern.fixed_of_merge? hp

/-- Of several terms with one pattern keeps the first. -/
def firstOfPattern : List Implicant → List Implicant
  | [] => []
  | t :: ts => t :: (firstOfPattern ts).filter fun t' => t'.pattern != t.pattern

theorem mem_of_mem_firstOfPattern {t : Implicant} {ts : List Implicant}
    (h : t ∈ firstOfPattern ts) : t ∈ ts := by
  induction ts with
  | nil => exact h
  | cons s ts ih =>
    rcases List.mem_cons.1 h with rfl | h
    · exact List.mem_cons_self
    · exact List.mem_cons_of_mem _ (ih (List.mem_filter.1 h).1)

end Implicant

end PropCalc
