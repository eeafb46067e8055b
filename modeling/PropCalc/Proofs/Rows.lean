import PropCalc.Assignment
import PropCalc.Pattern
import PropCalc.RowSet
/-!
# Rows and truth values

A row of a table over `n` variables stands for a list of `n` truth values. `rowTruths` and
`rowNumber` go from one to the other and back, and both ways of reading a row in the library, as an
assignment and as a pattern, come down to `rowTruths`.
-/

namespace PropCalc

/-! ## Counting rows -/

@[simp] theorem rowCount_zero : rowCount 0 = 1 := rfl

theorem rowCount_succ (n : Nat) : rowCount (n + 1) = rowCount n + rowCount n := by
  simp only [rowCount, Nat.pow_eq, Nat.pow_succ]
  omega

theorem rowCount_pos (n : Nat) : 0 < rowCount n := Nat.two_pow_pos n

theorem rowCount_add (m n : Nat) : rowCount (m + n) = rowCount m * rowCount n :=
  Nat.pow_add 2 m n

/-- The row lies in the table over `n` variables. -/
def IsRow (n : Nat) (row : Int) : Prop := 0 ≤ row ∧ row < rowCount n

instance (n : Nat) (row : Int) : Decidable (IsRow n row) :=
  inferInstanceAs (Decidable (0 ≤ row ∧ row < rowCount n))

/-! ## Truth values of a row -/

/-- The truth values in a row of the table over `n` variables, first variable first. -/
def rowTruths (n : Nat) (row : Int) : List Bool :=
  (List.range n).map fun j => Assignment.truthValue row (n - j - 1)

@[simp] theorem length_rowTruths (n : Nat) (row : Int) : (rowTruths n row).length = n := by
  simp [rowTruths]

@[simp] theorem rowTruths_zero (row : Int) : rowTruths 0 row = [] := rfl

theorem rowTruths_succ (n : Nat) (row : Int) :
    rowTruths (n + 1) row = Assignment.truthValue row n :: rowTruths n row := by
  simp only [rowTruths, List.range_succ_eq_map, List.map_cons, List.map_map]
  congr 1
  refine List.map_congr_left fun j _ => ?_
  simp only [Function.comp_apply, Nat.succ_eq_add_one, Nat.add_sub_add_right]

/-- A row assigns its truth values to the names. -/
theorem ofRow_eq_ofLists (names : List String) (row : Nat) :
    Assignment.ofRow names row = .ofLists names (rowTruths names.length row) := rfl

/-- Shifting a row number and dividing it name the same bit. -/
theorem shiftRight_beq_eq_truthValue (row : Int) (k : Nat) :
    (row >>> k % 2 == 0) = Assignment.truthValue row k := by
  rw [Assignment.truthValue, Int.shiftRight_eq_div_pow]
  rfl

/-- The pattern of a row asks for its truth values. -/
theorem pattern_ofRow_eq_map (n : Nat) (row : Int) :
    Pattern.ofRow n row = (rowTruths n row).map Cell.ofBool := by
  simp only [Pattern.ofRow, rowTruths, List.map_map, shiftRight_beq_eq_truthValue]
  rfl

/-! ## Rows from truth values -/

/-- The number of the row with the given truth values. -/
def rowNumber : List Bool → Nat
  | [] => 0
  | b :: bs => (if b then 0 else rowCount bs.length) + rowNumber bs

theorem rowNumber_lt (bs : List Bool) : rowNumber bs < rowCount bs.length := by
  induction bs with
  | nil => simp [rowNumber]
  | cons b bs ih =>
    have hsucc := rowCount_succ bs.length
    cases b <;> simp [rowNumber] <;> omega

theorem isRow_rowNumber (bs : List Bool) : IsRow bs.length (rowNumber bs) :=
  ⟨by omega, by exact_mod_cast rowNumber_lt bs⟩

/-- The highest bit of a row below half the table is not set. -/
theorem truthValue_of_lt {n : Nat} {row : Int} (h : IsRow n row) :
    Assignment.truthValue row n = true := by
  simp [Assignment.truthValue, Int.ediv_eq_zero_of_lt h.1 h.2]

/-- The highest bit of a row in the other half is set. -/
theorem truthValue_add_rowCount {n : Nat} {row : Int} (h : IsRow n row) :
    Assignment.truthValue (row + rowCount n) n = false := by
  have hpos : (rowCount n : Int) ≠ 0 := by exact_mod_cast Nat.ne_of_gt (rowCount_pos n)
  have hdiv : (row + rowCount n) / (rowCount n : Int) = 1 := by
    have hadd := Int.add_mul_ediv_right row 1 hpos
    rw [Int.one_mul, Int.ediv_eq_zero_of_lt h.1 h.2] at hadd
    exact hadd
  simp [Assignment.truthValue, hdiv]

/-- The highest bit does not show in the others. -/
theorem truthValue_add_of_lt {n k : Nat} (row : Int) (h : k < n) :
    Assignment.truthValue (row + rowCount n) k = Assignment.truthValue row k := by
  obtain ⟨m, rfl⟩ : ∃ m, n = m + 1 + k := ⟨n - k - 1, by omega⟩
  have hpos : (rowCount k : Int) ≠ 0 := by exact_mod_cast Nat.ne_of_gt (rowCount_pos k)
  -- the table is an even number of times as large as the bit weighs
  have hcount : (rowCount (m + 1 + k) : Int) = 2 * rowCount m * rowCount k := by
    have hsucc := rowCount_succ m
    rw [rowCount_add, hsucc]
    push_cast
    rw [Int.two_mul]
  rw [Assignment.truthValue, Assignment.truthValue, hcount, Int.add_mul_ediv_right _ _ hpos]
  simp

theorem rowTruths_add {n : Nat} (row : Int) {k : Nat} (h : k ≤ n) :
    rowTruths k (row + rowCount n) = rowTruths k row := by
  refine List.map_congr_left fun j hj => truthValue_add_of_lt row ?_
  have hj := List.mem_range.1 hj
  omega

/-- Numbering truth values and reading them off again changes nothing. -/
theorem rowTruths_rowNumber (bs : List Bool) : rowTruths bs.length (rowNumber bs) = bs := by
  induction bs with
  | nil => rfl
  | cons b bs ih =>
    rw [List.length_cons, rowTruths_succ]
    cases b with
    | true =>
      simp only [rowNumber, if_pos, Nat.zero_add]
      rw [truthValue_of_lt (isRow_rowNumber bs), ih]
    | false =>
      -- a false value leads into the upper half of the table
      have hnum : ((rowNumber (false :: bs) : Nat) : Int) = rowNumber bs + rowCount bs.length := by
        simp [rowNumber]
        omega
      rw [hnum, truthValue_add_rowCount (isRow_rowNumber bs), rowTruths_add _ (Nat.le_refl _), ih]

theorem rowTruths_rowNumber_of_length {n : Nat} {bs : List Bool} (h : bs.length = n) :
    rowTruths n (rowNumber bs) = bs := by
  subst h
  exact rowTruths_rowNumber bs

theorem isRow_rowNumber_of_length {n : Nat} {bs : List Bool} (h : bs.length = n) :
    IsRow n (rowNumber bs) := by
  subst h
  exact isRow_rowNumber bs

/-- A row of the table has the number of its truth values. -/
theorem rowNumber_rowTruths {n : Nat} {row : Int} (h : IsRow n row) :
    (rowNumber (rowTruths n row) : Int) = row := by
  induction n generalizing row with
  | zero =>
    have h0 : row = 0 := by
      have h1 := h.1
      have h2 := h.2
      simp at h2
      omega
    subst h0
    rfl
  | succ n ih =>
    have hsucc := rowCount_succ n
    rcases h with ⟨h0, hlt⟩
    rw [hsucc] at hlt
    rw [rowTruths_succ, rowNumber, length_rowTruths]
    by_cases hlow : row < rowCount n
    · -- in the lower half the first variable is true and adds nothing
      rw [truthValue_of_lt ⟨h0, hlow⟩]
      simpa using ih ⟨h0, hlow⟩
    · -- the upper half of the table repeats the lower one
      obtain ⟨r, rfl⟩ : ∃ r, row = r + rowCount n := ⟨row - rowCount n, by omega⟩
      have hr : IsRow n r := ⟨by omega, by push_cast at hlt; omega⟩
      rw [truthValue_add_rowCount hr, rowTruths_add _ (Nat.le_refl _)]
      have hih := ih hr
      simp
      omega

/-- Rows of one table with the same truth values are the same. -/
theorem eq_of_rowTruths_eq {n : Nat} {r s : Int} (hr : IsRow n r) (hs : IsRow n s)
    (h : rowTruths n r = rowTruths n s) : r = s := by
  rw [← rowNumber_rowTruths hr, ← rowNumber_rowTruths hs, h]

/-! ## Strict orders -/

/-- To compare by one thing first, and by another one where the first is equal, is as strict as both
comparisons are. -/
theorem asymm_of_first {α : Type} {R : α → α → Prop} {a b : α} {P Q : Prop}
    (hfirst : ∀ a b, R a b → ¬ R b a) (hsecond : a = b → P → ¬ Q) (h : R a b ∨ a = b ∧ P) :
    ¬ (R b a ∨ b = a ∧ Q) := by
  intro h'
  rcases h with hab | ⟨heq, hp⟩
  · rcases h' with hba | ⟨rfl, -⟩
    · exact hfirst a b hab hba
    · exact hfirst _ _ hab hab
  · rcases h' with hba | ⟨-, hq⟩
    · -- an order by the second thing needs the first to be equal
      rw [heq] at hba
      exact hfirst _ _ hba hba
    · exact hsecond heq hp hq

theorem nodup_of_asymm {α : Type} {R : α → α → Prop} {l : List α}
    (hasymm : ∀ a b, R a b → ¬ R b a) (h : l.Pairwise R) : l.Nodup := by
  refine h.imp ?_
  intro a b hab heq
  subst heq
  exact hasymm a a hab hab

/-- Lists in one strict order with the same members are the same. -/
theorem eq_of_asymm {α : Type} {R : α → α → Prop} {l l' : List α}
    (hasymm : ∀ a b, R a b → ¬ R b a) (h : l.Pairwise R) (h' : l'.Pairwise R)
    (hmem : ∀ a, a ∈ l ↔ a ∈ l') : l = l' := by
  have hperm : l.Perm l' :=
    (List.perm_ext_iff_of_nodup (nodup_of_asymm hasymm h) (nodup_of_asymm hasymm h')).2 hmem
  exact hperm.eq_of_pairwise (fun a b _ _ hab hba => absurd hba (hasymm a b hab)) h h'

/-! ## Sets of rows -/

theorem RowSet.nodup (s : RowSet) : s.rows.Nodup :=
  nodup_of_asymm (fun _ _ => Int.lt_asymm) s.ascending

/-- Sets with the same rows are the same, as both list them in ascending order. -/
theorem RowSet.ext_mem {s t : RowSet} (h : ∀ row, row ∈ s ↔ row ∈ t) : s = t := by
  rcases s with ⟨l, hl⟩
  rcases t with ⟨m, hm⟩
  have heq : l = m := eq_of_asymm (fun _ _ => Int.lt_asymm) hl hm h
  subst heq
  rfl

@[simp] theorem RowSet.mem_filter {p : Int → Bool} {s : RowSet} {row : Int} :
    row ∈ s.filter p ↔ row ∈ s ∧ p row = true :=
  List.mem_filter

/-- The rows of the table over `n` variables with a property. -/
def rowsWhere (n : Nat) (p : Int → Bool) : RowSet :=
  .ofList (((List.range (rowCount n)).filter fun row : Nat => p row).map Int.ofNat)

@[simp] theorem mem_rowsWhere {n : Nat} {p : Int → Bool} {row : Int} :
    row ∈ rowsWhere n p ↔ IsRow n row ∧ p row = true := by
  simp only [rowsWhere, RowSet.mem_ofList, List.mem_map, List.mem_filter, List.mem_range, IsRow]
  constructor
  · intro h
    rcases h with ⟨r, ⟨hr, hp⟩, rfl⟩
    exact ⟨⟨Int.natCast_nonneg r, Int.ofNat_lt.2 hr⟩, hp⟩
  · intro h
    rcases h with ⟨⟨h0, hlt⟩, hp⟩
    rcases Int.eq_ofNat_of_zero_le h0 with ⟨r, rfl⟩
    exact ⟨r, ⟨by exact_mod_cast hlt, hp⟩, rfl⟩

end PropCalc
