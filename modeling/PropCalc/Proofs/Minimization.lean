import PropCalc.Proofs.Simplification
/-!
# Minimization

What minimization answers for any collection of numbers. Numbers outside the table are the only
error (`minimize_eq_error`). Otherwise the two constants stand for no rows and for all rows, and any
other text is read, in every dialect, as a formula that is true exactly on the given rows
(`minimize_realizes`).
-/

namespace PropCalc

variable {names : List String} {S : RowSet}

/-! ## Rows outside the table -/

theorem RowSet.mem_outside {n : Nat} {row : Int} :
    row ∈ S.outside (rowCount n) ↔ row ∈ S ∧ ¬ IsRow n row := by
  rw [outside, mem_filter, Bool.not_eq_true', ← Bool.not_eq_true, Bool.and_eq_true,
    decide_eq_true_eq, decide_eq_true_eq]
  rfl

/-- One row outside the table is enough for an error, which names all of them. -/
theorem minimize_eq_error (h : ∃ row ∈ S, ¬ IsRow names.length row) :
    minimize names S =
      .error (.outside (S.outside (rowCount names.length)).rows (rowCount names.length)) := by
  rcases h with ⟨row, hrow, hout⟩
  have hne : (S.outside (rowCount names.length)).rows ≠ [] :=
    List.ne_nil_of_mem (RowSet.mem_outside.2 ⟨hrow, hout⟩)
  unfold minimize
  rw [if_pos hne]

theorem minimize_eq_error_iff {err : MinimizeError} :
    minimize names S = .error err ↔ (∃ row ∈ S, ¬ IsRow names.length row) ∧
      err = .outside (S.outside (rowCount names.length)).rows (rowCount names.length) := by
  by_cases h : ∃ row ∈ S, ¬ IsRow names.length row
  · rw [minimize_eq_error h, and_iff_right h, Except.error.injEq]
    exact eq_comm
  · -- inside the table there is no error, as the primes always have a cover
    have hS : ∀ row ∈ S, IsRow names.length row := by simpa using h
    rw [minimize_eq_ok hS]
    exact iff_of_false (by simp) fun h' => h h'.1

/-! ## Rows inside the table -/

/-- On a row of the table the formula of a minimal sum is true when the row belongs to the set. -/
theorem evaluate_minimalSum (hnodup : names.Nodup) (hS : ∀ row ∈ S, IsRow names.length row)
    {s : Canonical.Sum} (hs : IsMinimalSum names S s) {r : Nat} (hr : r < rowCount names.length)
    (d : Dialect) :
    ∃ v, (s.formula.marked d).evaluate (.ofRow names r) = .ok v ∧ (v = true ↔ (r : Int) ∈ S) := by
  have hleaves : ∀ x ∈ (s.formula.marked d).leaves, x ∈ names := by
    rw [Formula.leaves_marked]
    exact leaf_mem_of_minimalSum hs
  refine ⟨_, Formula.evaluate_ofRow hleaves r, ?_⟩
  have hrow : IsRow names.length r := ⟨by omega, by exact_mod_cast hr⟩
  -- the valuation of a row has the number of this row
  rw [Formula.value_marked, value_minimalSum hS hs, map_rowValuation hnodup,
    rowNumber_rowTruths hrow]

/-- Between the constants there is a minimal sum, and minimization answers with its text. -/
theorem minimize_cases (hlettered : ∀ x ∈ names, IsVariableName x)
    (hS : ∀ row ∈ S, IsRow names.length row) :
    S.rows = [] ∧ minimize names S = .ok Canonical.alwaysFalse ∨
      S.rows ≠ [] ∧ (∀ row, IsRow names.length row → row ∈ S) ∧
        minimize names S = .ok Canonical.alwaysTrue ∨
      S.rows ≠ [] ∧ ¬ (∀ row, IsRow names.length row → row ∈ S) ∧
        ∃ s, IsMinimalSum names S s ∧ s.IsLettered ∧ minimize names S = .ok s.text := by
  by_cases hempty : S.rows = []
  · exact .inl ⟨hempty, by rw [minimize_eq_ok hS, if_pos hempty]⟩
  rw [← size_eq_rowCount_iff hS]
  by_cases hfull : S.size = rowCount names.length
  · exact .inr (.inl ⟨hempty, hfull, by rw [minimize_eq_ok hS, if_neg hempty, if_pos hfull]⟩)
  · rcases exists_minimalSum hS hempty hfull with ⟨s, hs⟩
    refine .inr (.inr ⟨hempty, hfull, s, hs, ?_, minimize_eq_text hS hempty hfull hs⟩)
    intro p hp l hl
    exact hlettered l.1 (name_mem_of_minimalSum hs hp hl)

/-- Minimization realizes every function. It fails exactly for numbers outside the table, and says
which; otherwise its text is a constant exactly for a function that is constant, and else it is read
in every dialect as a formula that is true on the given rows and on no other row of the table. -/
theorem minimize_realizes (names : List String) (hnodup : names.Nodup)
    (hlettered : ∀ x ∈ names, IsVariableName x) (M : List Int) :
    ((∃ err, minimize names (.ofList M) = .error err) ↔ ∃ m ∈ M, ¬ IsRow names.length m) ∧
    (∀ err, minimize names (.ofList M) = .error err → ∃ rows,
      err = .outside rows (rowCount names.length) ∧ rows.Pairwise (· < ·) ∧
        ∀ m, m ∈ rows ↔ m ∈ M ∧ ¬ IsRow names.length m) ∧
    ((∀ m ∈ M, IsRow names.length m) → ∃ c, minimize names (.ofList M) = .ok c ∧
      (c = Canonical.alwaysFalse ↔ M = []) ∧
      (c = Canonical.alwaysTrue ↔ ∀ row, IsRow names.length row → row ∈ M) ∧
      (c ≠ Canonical.alwaysFalse → c ≠ Canonical.alwaysTrue → ∀ d, ∃ e,
        Expression.parse (Canonical.render c d) = .ok e ∧
        ∀ r < rowCount names.length, ∃ a v, (Assignment.enumerate names)[r]? = some a ∧
          e.root.evaluate a = .ok v ∧ (v = true ↔ (r : Int) ∈ M))) := by
  have hmem : ∀ row, row ∈ RowSet.ofList M ↔ row ∈ M := fun row => RowSet.mem_ofList
  have hnil : (RowSet.ofList M).rows = [] ↔ M = [] := by
    simp only [List.eq_nil_iff_forall_not_mem, ← RowSet.mem_def, hmem]
  refine ⟨?_, ?_, ?_⟩
  · simp only [minimize_eq_error_iff, hmem, exists_and_left, exists_eq, and_true]
  · intro err herr
    rcases minimize_eq_error_iff.1 herr with ⟨-, rfl⟩
    refine ⟨_, rfl, RowSet.ascending _, fun m => ?_⟩
    rw [← RowSet.mem_def, RowSet.mem_outside, hmem]
  · intro hM
    have hS : ∀ row ∈ RowSet.ofList M, IsRow names.length row := fun row hrow =>
      hM row ((hmem row).1 hrow)
    -- the first row of the table tells no rows from all rows
    have hzero : IsRow names.length 0 :=
      ⟨Int.le_refl 0, by exact_mod_cast rowCount_pos names.length⟩
    have hcases := minimize_cases hlettered hS
    simp only [ne_eq, hnil, hmem] at hcases
    -- no rows, all rows, or a sum whose text is neither constant
    rcases hcases with ⟨hempty, heq⟩ | ⟨hempty, hfull, heq⟩ | ⟨hempty, hfull, s, hs, hs', heq⟩
    · refine ⟨_, heq, iff_of_true rfl hempty, iff_of_false (by decide) fun hfull => ?_,
        fun hne => absurd rfl hne⟩
      have hrow := hfull 0 hzero
      rw [hempty] at hrow
      simp at hrow
    · exact ⟨_, heq, iff_of_false (by decide) hempty, iff_of_true rfl hfull,
        fun _ hne => absurd rfl hne⟩
    · rcases s.text_ne_constant hs' with ⟨hneTrue, hneFalse⟩
      refine ⟨_, heq, iff_of_false hneFalse hempty, iff_of_false hneTrue hfull, fun _ _ d => ?_⟩
      refine ⟨_, s.parse_render hs' d, fun r hr => ?_⟩
      rcases evaluate_minimalSum hnodup hS hs hr (s.formula.readDialect d) with ⟨v, hv, hiff⟩
      exact ⟨_, v, Assignment.getElem?_enumerate hr, hv, hiff.trans (hmem r)⟩

/-- Three names in no order, rows with repetitions, and numbers outside the table on both sides. -/
theorem minimize_realizes_unordered :
    let names := ["q", "n", "a"]
    let M : List Int := [6, 1, 5, 0, 2, 6, 7]
    names.Nodup ∧ (∀ x ∈ names, IsVariableName x) ∧ (∀ m ∈ M, IsRow names.length m) ∧
    (∃ err, minimize names (.ofList (8 :: -1 :: M)) = .error err) ∧
    ∃ c, minimize names (.ofList M) = .ok c ∧
      (c = Canonical.alwaysFalse ↔ M = []) ∧
      (c = Canonical.alwaysTrue ↔ ∀ row, IsRow names.length row → row ∈ M) ∧
      (c ≠ Canonical.alwaysFalse → c ≠ Canonical.alwaysTrue → ∀ d, ∃ e,
        Expression.parse (Canonical.render c d) = .ok e ∧
        ∀ r < rowCount names.length, ∃ a v, (Assignment.enumerate names)[r]? = some a ∧
          e.root.evaluate a = .ok v ∧ (v = true ↔ (r : Int) ∈ M)) :=
  ⟨by decide, by decide, by decide,
    (minimize_realizes _ (by decide) (by decide) _).1.2 ⟨8, by decide, by decide⟩,
    (minimize_realizes _ (by decide) (by decide) _).2.2 (by decide)⟩

end PropCalc
