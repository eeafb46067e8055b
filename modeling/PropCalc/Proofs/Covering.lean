import PropCalc.Cover
/-!
# Covers that cover

What a choice of implicants leaves uncovered. A choice picks implicants from the list only
(`mem_chosen`), and what it leaves are the rows that no implicant of the list covers
(`mem_uncovered`). So a cover is found exactly when every row has an implicant.
-/

namespace PropCalc

namespace Cover

variable {primes chosen : List Implicant} {p : Implicant} {rows : RowSet} {row : Int}

/-! ## Essential implicants -/

theorem sole?_eq_some_iff :
    sole? primes row = some p ↔ primes.filter (·.covers row) = [p] := by
  unfold sole?
  split
  · next q heq => simp [heq]
  · next hne =>
    constructor
    · intro h
      cases h
    · intro h
      exact absurd h (hne p)

theorem mem_of_sole? (h : sole? primes row = some p) : p ∈ primes ∧ row ∈ p.minterms := by
  have hmem : p ∈ primes.filter (·.covers row) := by
    rw [sole?_eq_some_iff.1 h]
    exact List.mem_singleton.2 rfl
  rcases List.mem_filter.1 hmem with ⟨hp, hcovers⟩
  exact ⟨hp, of_decide_eq_true hcovers⟩

theorem mem_essentials {l : List Int} :
    p ∈ essentials primes chosen l ↔ p ∈ chosen ∨ ∃ row ∈ l, sole? primes row = some p := by
  induction l generalizing chosen with
  | nil => simp [essentials]
  | cons row l ih =>
    rw [essentials]
    cases hsole : sole? primes row with
    | none => simp [ih, hsole]
    | some q =>
      -- an implicant that was chosen before is not added again
      have hadd : p ∈ (if chosen.contains q then chosen else chosen ++ [q]) ↔
          p ∈ chosen ∨ q = p := by
        split
        · next hmem =>
          constructor
          · exact .inl
          · intro h
            rcases h with h | rfl
            · exact h
            · simpa using hmem
        · simp [eq_comm]
      rw [ih, hadd, or_assoc]
      simp [hsole]

theorem mem_of_mem_essentials {l : List Int} (h : p ∈ essentials primes [] l) : p ∈ primes := by
  rcases mem_essentials.1 h with hnil | ⟨row, -, hsole⟩
  · simp at hnil
  · exact (mem_of_sole? hsole).1

/-! ## What remains -/

theorem mem_remaining :
    row ∈ remaining rows chosen ↔ row ∈ rows ∧ ∀ p ∈ chosen, row ∉ p.minterms := by
  unfold remaining
  induction chosen generalizing rows with
  | nil => simp
  | cons q chosen ih =>
    rw [List.foldl_cons, ih, RowSet.mem_diff, List.forall_mem_cons, and_assoc]

theorem gain_eq_zero_iff : gain rows p = 0 ↔ ∀ row ∈ rows, row ∉ p.minterms := by
  simp only [gain, RowSet.sizeInter, List.countP_eq_zero, decide_eq_true_eq]
  rfl

theorem gain_pos_iff : 0 < gain rows p ↔ ∃ row ∈ rows, row ∈ p.minterms := by
  simp only [gain, RowSet.sizeInter, List.countP_pos_iff, decide_eq_true_eq]
  rfl

/-! ## Greedy choices -/

theorem mem_of_best? (h : best? rows primes = some p) : p ∈ primes := by
  induction primes generalizing p with
  | nil => simp [best?] at h
  | cons q primes ih =>
    simp only [best?] at h
    split at h
    · next r hr =>
      split at h
      · -- the best of the others stays the best
        cases h
        exact List.mem_cons_of_mem q (ih hr)
      · cases h
        exact List.mem_cons_self
    · split at h
      · cases h
        exact List.mem_cons_self
      · cases h

/-- There is no choice left when nothing gains. -/
theorem best?_eq_none_iff : best? rows primes = none ↔ ∀ p ∈ primes, gain rows p = 0 := by
  induction primes with
  | nil => simp [best?]
  | cons q primes ih =>
    rw [List.forall_mem_cons, ← ih]
    simp only [best?]
    split
    · next r hr =>
      -- some later implicant gains, so there is a choice whichever is better
      simp only [hr, reduceCtorEq, and_false, iff_false]
      split <;> simp
    · next hnone =>
      simp only [hnone, and_true]
      split
      · next hpos => simp [Nat.ne_of_gt hpos]
      · next hpos => simp [Nat.eq_zero_of_not_pos hpos]

theorem choose_of_none (h : best? rows primes = none) : choose primes rows = ([], rows) := by
  -- the match keeps its equation for termination, so it is split and not rewritten with `h`
  rw [choose]
  split
  · rfl
  · next p hp =>
    rw [h] at hp
    cases hp

theorem choose_of_some (h : best? rows primes = some p) :
    choose primes rows = (p :: (choose primes (rows.diff p.minterms)).1,
      (choose primes (rows.diff p.minterms)).2) := by
  rw [choose]
  split
  · next hnone =>
    rw [h] at hnone
    cases hnone
  · next q hq =>
    rw [h] at hq
    cases hq
    rfl

theorem mem_choose (h : p ∈ (choose primes rows).1) : p ∈ primes := by
  induction rows using choose.induct primes with
  | case1 rows hnone =>
    rw [choose_of_none hnone] at h
    simp at h
  | case2 rows q hq ps left hrest ih =>
    rw [choose_of_some hq] at h
    rcases List.mem_cons.1 h with rfl | h
    · exact mem_of_best? hq
    · exact ih h

/-- The choice leaves the rows that no choice covers, -/
theorem mem_choose_left : row ∈ (choose primes rows).2 ↔
    row ∈ rows ∧ ∀ p ∈ (choose primes rows).1, row ∉ p.minterms := by
  induction rows using choose.induct primes with
  | case1 rows hnone => simp [choose_of_none hnone]
  | case2 rows q hq ps left hrest ih =>
    rw [choose_of_some hq, ih, RowSet.mem_diff, List.forall_mem_cons, and_assoc]

/-- and it goes on until nothing gains any more. -/
theorem gain_choose_left (hp : p ∈ primes) : gain (choose primes rows).2 p = 0 := by
  induction rows using choose.induct primes with
  | case1 rows hnone =>
    rw [choose_of_none hnone]
    exact best?_eq_none_iff.1 hnone p hp
  | case2 rows q hq ps left hrest ih =>
    rw [choose_of_some hq]
    exact ih

/-! ## The whole choice -/

theorem mem_chosen (h : p ∈ (search primes rows).chosen) : p ∈ primes := by
  rcases List.mem_append.1 h with h | h
  · exact mem_of_mem_essentials h
  · exact mem_choose h

/-- The choice leaves the rows that no implicant of the list covers. -/
theorem mem_uncovered : row ∈ (search primes rows).uncovered ↔
    row ∈ rows ∧ ∀ p ∈ primes, row ∉ p.minterms := by
  constructor
  · -- an implicant that covers a row which is left would still gain
    intro h
    refine ⟨(mem_remaining.1 (mem_choose_left.1 h).1).1, fun p hp => ?_⟩
    exact gain_eq_zero_iff.1 (gain_choose_left hp) row h
  · intro h
    rcases h with ⟨hrow, hnone⟩
    refine mem_choose_left.2 ⟨mem_remaining.2 ⟨hrow, fun p hp => ?_⟩, fun p hp => ?_⟩
    · exact hnone p (mem_chosen (List.mem_append_left _ hp))
    · exact hnone p (mem_choose hp)

/-- A row that is not left belongs to a chosen implicant. -/
theorem exists_chosen (hrow : row ∈ rows) (h : row ∉ (search primes rows).uncovered) :
    ∃ p ∈ (search primes rows).chosen, row ∈ p.minterms := by
  refine Classical.byContradiction fun hnone => h ?_
  -- otherwise the row would have survived both parts of the choice
  refine mem_choose_left.2 ⟨mem_remaining.2 ⟨hrow, fun p hp hcovers => ?_⟩, fun p hp hcovers => ?_⟩
  · exact hnone ⟨p, List.mem_append_left _ hp, hcovers⟩
  · exact hnone ⟨p, List.mem_append_right _ hp, hcovers⟩

end Cover

/-- When every row has an implicant, the selection succeeds. -/
theorem selectCover_eq_ok {primes : List Implicant} {rows : RowSet}
    (h : ∀ row ∈ rows, ∃ p ∈ primes, row ∈ p.minterms) :
    selectCover primes rows = .ok (Cover.search primes rows).chosen := by
  have hnone : (Cover.search primes rows).uncovered.rows = [] := by
    refine List.eq_nil_iff_forall_not_mem.2 fun row hrow => ?_
    rcases Cover.mem_uncovered.1 hrow with ⟨hmem, hleft⟩
    rcases h row hmem with ⟨p, hp, hcovers⟩
    exact hleft p hp hcovers
  simp only [selectCover]
  rw [if_pos hnone]

end PropCalc
