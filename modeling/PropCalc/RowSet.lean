import PropCalc.Ascending
/-!
# Sets of rows

Finite sets of row numbers, kept in ascending order. Rows may be any integers: whether they lie within
a table is for the table to say. The order is part of the type, so two sets with the same rows are
equal.
-/

namespace PropCalc

/-- A finite set of row numbers. -/
structure RowSet where
  rows : List Int
  ascending : rows.Pairwise (· < ·)
deriving DecidableEq, Repr

namespace RowSet

instance : Membership Int RowSet where
  mem s row := row ∈ s.rows

instance (row : Int) (s : RowSet) : Decidable (row ∈ s) :=
  inferInstanceAs (Decidable (row ∈ s.rows))

/-- The set of the rows in a list. -/
def ofList (rows : List Int) : RowSet := ⟨Ascending.ofList rows, Ascending.pairwise_ofList rows⟩

/-- Adds a row. -/
def insert (row : Int) (s : RowSet) : RowSet :=
  ⟨Ascending.insert row s.rows, Ascending.pairwise_insert s.ascending⟩

/-- The rows of either set. -/
def union (s t : RowSet) : RowSet := t.rows.foldr insert s

/-- The rows with a property. -/
def filter (p : Int → Bool) (s : RowSet) : RowSet := ⟨s.rows.filter p, s.ascending.filter p⟩

/-- The rows of the first set that are not in the second. -/
def diff (s t : RowSet) : RowSet := s.filter fun row => row ∉ t

/-- The number of rows. -/
def size (s : RowSet) : Nat := s.rows.length

/-- The number of common rows. -/
def sizeInter (s t : RowSet) : Nat := s.rows.countP fun row => row ∈ t

theorem mem_def {row : Int} {s : RowSet} : row ∈ s ↔ row ∈ s.rows := Iff.rfl

@[simp] theorem mem_ofList {row : Int} {l : List Int} : row ∈ ofList l ↔ row ∈ l :=
  Ascending.mem_ofList

@[simp] theorem mem_insert {row new : Int} {s : RowSet} : row ∈ insert new s ↔ row = new ∨ row ∈ s :=
  Ascending.mem_insert

@[simp] theorem mem_union {row : Int} {s t : RowSet} : row ∈ s.union t ↔ row ∈ s ∨ row ∈ t := by
  obtain ⟨l, h⟩ := t
  simp only [union, mem_def (s := ⟨l, h⟩)]
  clear h
  induction l with
  | nil => simp
  | cons a l ih => simp [ih, or_left_comm]

@[simp] theorem mem_diff {row : Int} {s t : RowSet} : row ∈ s.diff t ↔ row ∈ s ∧ row ∉ t := by
  simp [diff, filter, mem_def]

/-- Taking a set away removes as many rows as there are common ones. -/
theorem size_diff (s t : RowSet) : (s.diff t).size + s.sizeInter t = s.size := by
  have h := List.length_eq_countP_add_countP (fun row => decide (row ∈ t)) (l := s.rows)
  simp only [diff, filter, size, sizeInter, List.countP_eq_length_filter] at h ⊢
  simp only [decide_not, Bool.decide_eq_true] at h ⊢
  omega

end RowSet

/-- Row numbers as messages list them. -/
def rowsText (rows : List Int) : String := ", ".intercalate (rows.map toString)

end PropCalc
