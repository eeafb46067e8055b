import PropCalc.Proofs.Rows
/-!
# Rows of a wider table

How the rows of a table relate to those of the table with one more variable, at any place among the
others. Dropping the variable takes every row of the wider table to a row of the narrower one, and
adding it with either value leads back. Both keep the order of rows, as far as the new variable
allows (`addVariable_lt`, `addVariable_true_le`). In numbers, dropping a variable takes out its bit
(`dropVariable_eq_withoutBit`).
-/

namespace PropCalc

/-! ## Inserting into lists -/

/-- Inserting right behind the first part of a list. -/
theorem insertIdx_append {α : Type} (u w : List α) (a : α) :
    (u ++ w).insertIdx u.length a = u ++ a :: w := by
  induction u with
  | nil => rfl
  | cons b u ih => rw [List.cons_append, List.length_cons, List.insertIdx_succ_cons, ih,
      List.cons_append]

theorem eraseIdx_append_cons {α : Type} (u w : List α) (a : α) :
    (u ++ a :: w).eraseIdx u.length = u ++ w := by
  rw [List.eraseIdx_append_of_length_le (Nat.le_refl _), Nat.sub_self, List.eraseIdx_zero,
    List.tail_cons]

theorem exists_append_of_le {α : Type} {k : Nat} {l : List α} (h : k ≤ l.length) :
    ∃ u w, l = u ++ w ∧ u.length = k :=
  ⟨l.take k, l.drop k, (List.take_append_drop k l).symm, List.length_take_of_le h⟩

/-- A list with a place for the inserted value was a list into which it was inserted. -/
theorem exists_insertIdx_eraseIdx {α : Type} {k : Nat} {l : List α} (h : k < l.length) :
    ∃ a, l = (l.eraseIdx k).insertIdx k a := by
  rcases exists_append_of_le (Nat.le_of_lt h) with ⟨u, w, rfl, rfl⟩
  cases w with
  | nil => simp at h
  | cons a w =>
    refine ⟨a, ?_⟩
    rw [eraseIdx_append_cons, insertIdx_append]

/-! ## Numbers with one more bit -/

/-- Numbers that get the same bit at the same place keep their order. -/
theorem rowNumber_insert_lt_iff {as as' bs bs' : List Bool} (has : as.length = as'.length)
    (hbs : bs.length = bs'.length) (b : Bool) :
    rowNumber (as ++ b :: bs) < rowNumber (as' ++ b :: bs') ↔
      rowNumber (as ++ bs) < rowNumber (as' ++ bs') := by
  induction as generalizing as' with
  | nil =>
    obtain rfl := List.length_eq_zero_iff.1 has.symm
    simp [rowNumber, hbs]
  | cons a as ih =>
    rcases List.exists_cons_of_length_pos (l := as') (by simp [← has]) with ⟨a', as', rfl⟩
    have hlen : as.length = as'.length := by simpa using has
    have hih := ih hlen
    -- below the first bit, numbers are smaller than its weight
    have hlt := rowNumber_lt (as ++ bs)
    have hlt' := rowNumber_lt (as' ++ bs')
    have hltb := rowNumber_lt (as ++ b :: bs)
    have hltb' := rowNumber_lt (as' ++ b :: bs')
    simp only [List.length_append, List.length_cons, hlen, hbs] at hlt hlt' hltb hltb'
    cases a <;> cases a' <;>
      simp only [List.cons_append, rowNumber, List.length_append, List.length_cons, hlen, hbs,
        if_true, Bool.false_eq_true, if_false] <;> omega

/-- A bit that is not set makes the smaller number. -/
theorem rowNumber_insert_true_le (as bs : List Bool) (b : Bool) :
    rowNumber (as ++ true :: bs) ≤ rowNumber (as ++ b :: bs) := by
  induction as with
  | nil => cases b <;> simp [rowNumber]
  | cons a as ih =>
    simp only [List.cons_append, rowNumber, List.length_append, List.length_cons]
    omega

/-- Truth values in front weigh as much as the rows over those behind them. -/
theorem rowNumber_append (as bs : List Bool) :
    rowNumber (as ++ bs) = rowNumber as * rowCount bs.length + rowNumber bs := by
  induction as with
  | nil => simp [rowNumber]
  | cons a as ih =>
    rw [List.cons_append, rowNumber, rowNumber, ih, List.length_append, rowCount_add, Nat.add_mul,
      Nat.add_assoc]
    cases a <;> simp

/-- A row number without the bit that has `power` bits below it: the bits above it move down. -/
def withoutBit (power : Nat) (row : Int) : Int :=
  row / rowCount (power + 1) * rowCount power + row % rowCount power

theorem withoutBit_rowNumber (as bs : List Bool) (b : Bool) :
    withoutBit bs.length (rowNumber (as ++ b :: bs)) = rowNumber (as ++ bs) := by
  have hlow := rowNumber_lt (b :: bs)
  rw [List.length_cons] at hlow
  -- the bits above and below the place, by division and remainder
  have habove : rowNumber (as ++ b :: bs) / rowCount (bs.length + 1) = rowNumber as := by
    rw [rowNumber_append, List.length_cons, Nat.mul_comm, Nat.mul_add_div (rowCount_pos _),
      Nat.div_eq_of_lt hlow, Nat.add_zero]
  have hbelow : rowNumber (as ++ b :: bs) % rowCount bs.length = rowNumber bs := by
    rw [List.append_cons, rowNumber_append (as ++ [b]), Nat.mul_add_mod_of_lt (rowNumber_lt bs)]
  rw [withoutBit]
  norm_cast
  rw [habove, hbelow, ← rowNumber_append]

/-! ## Dropping and adding a variable -/

/-- What remains of a row without variable `k`, over `n` other variables. -/
def dropVariable (n k : Nat) (row : Int) : Int := rowNumber ((rowTruths (n + 1) row).eraseIdx k)

/-- The row over `n` variables with a value for one more, which becomes variable `k`. -/
def addVariable (n k : Nat) (b : Bool) (row : Int) : Int :=
  rowNumber ((rowTruths n row).insertIdx k b)

variable {n k : Nat} {row : Int}

theorem length_eraseIdx_rowTruths (hk : k ≤ n) (row : Int) :
    ((rowTruths (n + 1) row).eraseIdx k).length = n := by
  rw [List.length_eraseIdx_of_lt (by rw [length_rowTruths]; omega), length_rowTruths,
    Nat.add_sub_cancel]

theorem length_insertIdx_rowTruths (hk : k ≤ n) (b : Bool) (row : Int) :
    ((rowTruths n row).insertIdx k b).length = n + 1 := by
  rw [List.length_insertIdx_of_le_length (by rwa [length_rowTruths]), length_rowTruths]

theorem isRow_dropVariable (hk : k ≤ n) (row : Int) : IsRow n (dropVariable n k row) :=
  isRow_rowNumber_of_length (length_eraseIdx_rowTruths hk row)

theorem isRow_addVariable (hk : k ≤ n) (b : Bool) (row : Int) :
    IsRow (n + 1) (addVariable n k b row) :=
  isRow_rowNumber_of_length (length_insertIdx_rowTruths hk b row)

theorem rowTruths_addVariable (hk : k ≤ n) (b : Bool) (row : Int) :
    rowTruths (n + 1) (addVariable n k b row) = (rowTruths n row).insertIdx k b :=
  rowTruths_rowNumber_of_length (length_insertIdx_rowTruths hk b row)

theorem rowTruths_dropVariable (hk : k ≤ n) (row : Int) :
    rowTruths n (dropVariable n k row) = (rowTruths (n + 1) row).eraseIdx k :=
  rowTruths_rowNumber_of_length (length_eraseIdx_rowTruths hk row)

/-- A row falls into the truth values before and behind the place of a new variable. -/
theorem exists_rowTruths_append (hk : k ≤ n) (row : Int) :
    ∃ as bs, rowTruths n row = as ++ bs ∧ as.length = k := by
  have hlen : k ≤ (rowTruths n row).length := by rwa [length_rowTruths]
  exact exists_append_of_le hlen

/-- Dropping a variable takes its bit out of the row number. -/
theorem dropVariable_eq_withoutBit (hk : k ≤ n) (hrow : IsRow (n + 1) row) :
    dropVariable n k row = withoutBit (n - k) row := by
  have hlen := length_rowTruths (n + 1) row
  rcases exists_rowTruths_append (Nat.le_succ_of_le hk) row with ⟨as, bs, hbits, rfl⟩
  rw [hbits, List.length_append] at hlen
  rcases List.exists_cons_of_length_pos (l := bs) (by omega) with ⟨b, bs, rfl⟩
  -- the bit weighs as much as the truth values behind it
  have hbehind : n - as.length = bs.length := by
    rw [List.length_cons] at hlen
    omega
  rw [dropVariable, hbits, eraseIdx_append_cons, hbehind, ← withoutBit_rowNumber as bs b, ← hbits,
    rowNumber_rowTruths hrow]

/-- Dropping the variable that was added gives the row back. -/
theorem dropVariable_addVariable (hk : k ≤ n) (b : Bool) (hrow : IsRow n row) :
    dropVariable n k (addVariable n k b row) = row := by
  rw [dropVariable, rowTruths_addVariable hk, List.eraseIdx_insertIdx_self,
    rowNumber_rowTruths hrow]

/-- Every row of the wider table comes from the narrower one. -/
theorem exists_addVariable (hk : k ≤ n) (hrow : IsRow (n + 1) row) :
    ∃ b, row = addVariable n k b (dropVariable n k row) := by
  have hlt : k < (rowTruths (n + 1) row).length := by
    rw [length_rowTruths]
    omega
  rcases exists_insertIdx_eraseIdx hlt with ⟨b, hb⟩
  refine ⟨b, eq_of_rowTruths_eq hrow (isRow_addVariable hk b _) ?_⟩
  rw [rowTruths_addVariable hk, rowTruths_dropVariable hk]
  exact hb

/-- Rows that get the same value keep their order. -/
theorem addVariable_lt {r s : Int} (hk : k ≤ n) (b : Bool) (hr : IsRow n r) (hs : IsRow n s)
    (h : r < s) : addVariable n k b r < addVariable n k b s := by
  rw [← rowNumber_rowTruths hr, ← rowNumber_rowTruths hs, Int.ofNat_lt] at h
  rcases exists_rowTruths_append hk r with ⟨as, bs, hr', has⟩
  rcases exists_rowTruths_append hk s with ⟨as', bs', hs', has'⟩
  have hbs : bs.length = bs'.length := by
    have hlenr := congrArg List.length hr'
    have hlens := congrArg List.length hs'
    simp only [length_rowTruths, List.length_append] at hlenr hlens
    omega
  rw [hr', hs'] at h
  rw [addVariable, addVariable, Int.ofNat_lt, hr', hs']
  subst has
  rw [insertIdx_append, ← has', insertIdx_append]
  exact (rowNumber_insert_lt_iff has'.symm hbs b).2 h

/-- The row where the new variable is true is the lower one. -/
theorem addVariable_true_le (hk : k ≤ n) (b : Bool) (row : Int) :
    addVariable n k true row ≤ addVariable n k b row := by
  rcases exists_rowTruths_append hk row with ⟨as, bs, hrow, rfl⟩
  rw [addVariable, addVariable, hrow, insertIdx_append, insertIdx_append, Int.ofNat_le]
  exact rowNumber_insert_true_le as bs b

/-! ## Sets of rows -/

/-- The rows of the wider table that come from rows of a set. -/
def RowSet.widen (n k : Nat) (S : RowSet) : RowSet :=
  rowsWhere (n + 1) fun row => dropVariable n k row ∈ S

theorem RowSet.mem_widen {S : RowSet} :
    row ∈ S.widen n k ↔ IsRow (n + 1) row ∧ dropVariable n k row ∈ S := by
  rw [RowSet.widen, mem_rowsWhere, decide_eq_true_eq]

theorem addVariable_mem_widen {S : RowSet} (hk : k ≤ n) (b : Bool) (hrow : IsRow n row) :
    addVariable n k b row ∈ S.widen n k ↔ row ∈ S := by
  rw [RowSet.mem_widen, dropVariable_addVariable hk b hrow]
  exact and_iff_right (isRow_addVariable hk b row)

theorem addVariable_true_ne_false {r s : Int} (hk : k ≤ n) (hr : IsRow n r) (hs : IsRow n s) :
    addVariable n k true r ≠ addVariable n k false s := by
  intro heq
  have hrs : r = s := by
    rw [← dropVariable_addVariable hk true hr, heq, dropVariable_addVariable hk false hs]
  subst hrs
  have htruths := congrArg (rowTruths (n + 1)) heq
  have hlen : k ≤ (rowTruths n r).length := by rwa [length_rowTruths]
  rw [rowTruths_addVariable hk, rowTruths_addVariable hk] at htruths
  -- the truth values differ at the place of the new variable
  have hvalue := congrArg (·[k]?) htruths
  simp only [List.getElem?_insertIdx_self] at hvalue
  rw [if_pos hlen, if_pos hlen] at hvalue
  cases hvalue

/-- Widening doubles a set: every row comes back twice. -/
theorem size_widen {S : RowSet} (hk : k ≤ n) (hS : ∀ row ∈ S, IsRow n row) :
    (S.widen n k).size = 2 * S.size := by
  have hnodup : ∀ b, (S.rows.map (addVariable n k b)).Nodup := by
    intro b
    have hasc : (S.rows.map (addVariable n k b)).Pairwise (· < ·) := by
      rw [List.pairwise_map]
      exact S.ascending.imp_of_mem fun hr hs hlt => addVariable_lt hk b (hS _ hr) (hS _ hs) hlt
    exact nodup_of_asymm (fun _ _ => Int.lt_asymm) hasc
  -- each row has one copy in which the variable is true and one in which it is false
  have hperm : (S.widen n k).rows.Perm
      (S.rows.map (addVariable n k true) ++ S.rows.map (addVariable n k false)) := by
    refine (List.perm_ext_iff_of_nodup (S.widen n k).nodup ?_).2 fun row => ?_
    · refine List.nodup_append.2 ⟨hnodup true, hnodup false, fun r' hr' s' hs' => ?_⟩
      rcases List.mem_map.1 hr' with ⟨r, hr, rfl⟩
      rcases List.mem_map.1 hs' with ⟨s, hs, rfl⟩
      exact addVariable_true_ne_false hk (hS r hr) (hS s hs)
    · rw [← RowSet.mem_def, RowSet.mem_widen, List.mem_append, List.mem_map, List.mem_map]
      constructor
      · intro h
        rcases h with ⟨hrow, hdrop⟩
        rcases exists_addVariable hk hrow with ⟨b, hb⟩
        cases b with
        | true => exact .inl ⟨_, hdrop, hb.symm⟩
        | false => exact .inr ⟨_, hdrop, hb.symm⟩
      · intro h
        rcases h with ⟨r, hr, rfl⟩ | ⟨r, hr, rfl⟩
        · exact RowSet.mem_widen.1 ((addVariable_mem_widen hk true (hS r hr)).2 hr)
        · exact RowSet.mem_widen.1 ((addVariable_mem_widen hk false (hS r hr)).2 hr)
  rw [RowSet.size, hperm.length_eq, List.length_append, List.length_map, List.length_map,
    RowSet.size, Nat.two_mul]

end PropCalc
