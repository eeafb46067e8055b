import PropCalc.Proofs.MinimalForm
import PropCalc.Proofs.WiderCover
/-!
# Variables that do not matter

A variable on which a function does not depend leaves no trace in its minimal form, wherever it
stands among the others (`minimize_insert`, and in numbers `minimize_insertIdx`). So a formula has one
minimal form over all lists of names that contain its own in the same order (`minimize_sublist`).
-/

namespace PropCalc

variable {S : RowSet} {x : String}

/-! ## One variable -/

/-- An open position has no literal. -/
theorem Pattern.literals_widen {pre post : List String} {p : Pattern}
    (hlen : p.length = (pre ++ post).length) :
    (p.widen pre.length).literals (pre ++ x :: post) = p.literals (pre ++ post) := by
  rw [List.length_append] at hlen
  rcases exists_append_of_le (l := p) (k := pre.length) (by omega) with ⟨u, w, rfl, hu⟩
  rw [← hu, widen_append, literals, literals, List.zip_append hu.symm, List.zip_append hu.symm,
    List.zip_cons_cons, List.filterMap_append, List.filterMap_append, List.filterMap_cons]

/-- A variable on which the set of rows does not depend does not change the minimal form. -/
theorem minimize_insert (pre post : List String) (x : String)
    (hS : ∀ row ∈ S, IsRow (pre ++ post).length row) :
    minimize (pre ++ x :: post) (S.widen (pre ++ post).length pre.length) =
      minimize (pre ++ post) S := by
  have hk : pre.length ≤ (pre ++ post).length := (List.prefix_append pre post).length_le
  have hlen : (pre ++ x :: post).length = (pre ++ post).length + 1 := List.perm_middle.length_eq
  have hwide : ∀ row ∈ S.widen (pre ++ post).length pre.length,
      IsRow (pre ++ x :: post).length row := by
    rw [hlen]
    exact isRow_of_mem_widen
  -- both constants are decided alike, as the table and the set double together
  have hsize := size_widen hk hS
  have hempty : (S.widen (pre ++ post).length pre.length).rows = [] ↔ S.rows = [] := by
    rw [← List.length_eq_zero_iff, ← List.length_eq_zero_iff]
    simp only [RowSet.size] at hsize
    omega
  have hfull : (S.widen (pre ++ post).length pre.length).size = rowCount (pre ++ x :: post).length ↔
      S.size = rowCount (pre ++ post).length := by
    rw [hlen, rowCount_succ, hsize]
    omega
  -- the terms have the same literals, as the new position is open in all of them
  have hterms : (minimalCover (pre ++ x :: post).length
        (S.widen (pre ++ post).length pre.length)).map (·.term (pre ++ x :: post)) =
      (minimalCover (pre ++ post).length S).map (·.term (pre ++ post)) := by
    rw [hlen, minimalCover_widen hk hS, List.map_map]
    refine List.map_congr_left fun t ht => ?_
    have hprime := (isPrime_of_mem_minimalCover hS ht).2
    have hliterals := Pattern.literals_widen (x := x) hprime.length_eq
    simp only [Function.comp_apply, Implicant.term, Implicant.widen, Implicant.pattern_ofPattern,
      hliterals]
  simp only [minimize_eq_ok hwide, minimize_eq_ok hS, hempty, hfull, hterms]

/-- A variable that does not matter never changes the minimal form, wherever it is inserted: the
rows from which taking its bit out leaves one of the given rows have the minimal form of the given
ones. -/
theorem minimize_insertIdx (names : List String) (j : Nat) (hj : j ≤ names.length) (x : String)
    (M M' : List Int) (hM : ∀ m ∈ M, IsRow names.length m)
    (hM' : ∀ row, row ∈ M' ↔
      IsRow (names.length + 1) row ∧ withoutBit (names.length - j) row ∈ M) :
    ∃ text, minimize names (.ofList M) = .ok text ∧
      minimize (names.insertIdx j x) (.ofList M') = .ok text := by
  have hS : ∀ row ∈ RowSet.ofList M, IsRow names.length row := fun row hrow =>
    hM row (RowSet.mem_ofList.1 hrow)
  -- taking out the bit of a row is dropping the variable
  have hwide : RowSet.ofList M' = (RowSet.ofList M).widen names.length j := by
    refine RowSet.ext_mem fun row => ?_
    rw [RowSet.mem_ofList, RowSet.mem_widen, RowSet.mem_ofList, hM']
    refine and_congr_right fun hrow => ?_
    rw [dropVariable_eq_withoutBit hj hrow]
  rcases exists_append_of_le hj with ⟨pre, post, rfl, rfl⟩
  refine ⟨_, minimize_eq_ok hS, ?_⟩
  rw [hwide, insertIdx_append, minimize_insert pre post x hS, minimize_eq_ok hS]

/-- A variable between two others, on rows in no order and with a repetition. -/
theorem minimize_insertIdx_between :
    let names := ["q", "a"]
    let M : List Int := [3, 0]
    let M' : List Int := [7, 0, 5, 2, 0]
    1 ≤ names.length ∧ (∀ m ∈ M, IsRow names.length m) ∧
    (∀ row, row ∈ M' ↔ IsRow (names.length + 1) row ∧ withoutBit (names.length - 1) row ∈ M) ∧
    ∃ text, minimize names (.ofList M) = .ok text ∧
      minimize (names.insertIdx 1 "m") (.ofList M') = .ok text := by
  intro names M M'
  have hM' : ∀ row, row ∈ M' ↔
      IsRow (names.length + 1) row ∧ withoutBit (names.length - 1) row ∈ M := by
    intro row
    show row ∈ M' ↔ (0 ≤ row ∧ row < 8) ∧ row / 4 * 2 + row % 2 ∈ M
    simp only [M, M', List.mem_cons, List.not_mem_nil, or_false]
    omega
  exact ⟨by decide, by decide, hM', minimize_insertIdx names 1 (by decide) "m" M M' (by decide) hM'⟩

/-! ## Formulas -/

/-- Without a name a row gives the other names the same values. -/
theorem rowValuation_insert (pre post : List String) (row : Int) {y : String} (hy : y ≠ x) :
    rowValuation (pre ++ x :: post) row y =
      rowValuation (pre ++ post) (dropVariable (pre ++ post).length pre.length row) y := by
  have hk : pre.length ≤ (pre ++ post).length := (List.prefix_append pre post).length_le
  have hlen : (pre ++ x :: post).length = (pre ++ post).length + 1 := List.perm_middle.length_eq
  rw [rowValuation, rowValuation, rowTruths_dropVariable hk, hlen]
  have htruths := length_rowTruths ((pre ++ post).length + 1) row
  rcases exists_rowTruths_append (Nat.le_succ_of_le hk) row with ⟨as, bs, hbits, has⟩
  rw [hbits] at htruths ⊢
  -- the truth value of the new name stands between the two parts
  cases bs with
  | nil =>
    simp only [List.length_append, List.length_nil] at htruths
    omega
  | cons b bs =>
    rw [← has, eraseIdx_append_cons, List.zip_append has.symm, List.zip_append has.symm,
      List.zip_cons_cons, List.lookup_append, List.lookup_append, List.lookup_cons,
      beq_eq_false_iff_ne.2 hy]

/-- A formula that does not mention a name is true on the rows that come from its rows without the
name. -/
theorem Formula.trueRowSet_insert {f : Formula} (pre post : List String)
    (hx : x ∉ f.leaves) :
    f.trueRowSet (pre ++ x :: post) =
      (f.trueRowSet (pre ++ post)).widen (pre ++ post).length pre.length := by
  have hk : pre.length ≤ (pre ++ post).length := (List.prefix_append pre post).length_le
  have hlen : (pre ++ x :: post).length = (pre ++ post).length + 1 := List.perm_middle.length_eq
  refine RowSet.ext_mem fun row => ?_
  have hvalue : f.value (rowValuation (pre ++ x :: post) row) = f.value
      (rowValuation (pre ++ post) (dropVariable (pre ++ post).length pre.length row)) := by
    refine f.value_congr fun y hy => rowValuation_insert pre post row ?_
    rintro rfl
    exact hx hy
  rw [RowSet.mem_widen, Formula.trueRowSet, Formula.trueRowSet, mem_rowsWhere, mem_rowsWhere, hlen,
    hvalue]
  have hdrop := isRow_dropVariable hk row
  exact and_congr_right fun _ => (and_iff_right hdrop).symm

/-- A formula has the same minimal form over a longer list of names, whatever stands in front. -/
theorem minimize_sublist_behind {f : Formula} {names names' : List String}
    (h : names.Sublist names') (pre : List String)
    (hnodup : (pre ++ names').Nodup) (hleaves : ∀ x ∈ f.leaves, x ∈ pre ++ names) :
    minimize (pre ++ names') (f.trueRowSet (pre ++ names')) =
      minimize (pre ++ names) (f.trueRowSet (pre ++ names)) := by
  induction h generalizing pre with
  | slnil => rfl
  | @cons names names' x hsub ih =>
    -- a name that only the longer list has does not matter
    rcases List.nodup_cons.1 (List.perm_middle.nodup_iff.1 hnodup) with ⟨hmem, hrest⟩
    have hx : x ∉ f.leaves := by
      intro hx
      rcases List.mem_append.1 (hleaves x hx) with hx | hx
      · exact hmem (List.mem_append_left _ hx)
      · exact hmem (List.mem_append_right _ (hsub.subset hx))
    rw [Formula.trueRowSet_insert pre names' hx,
      minimize_insert pre names' x (isRow_of_mem_trueRowSet f _)]
    exact ih pre hrest hleaves
  | @cons_cons names names' x hsub ih =>
    -- a common name moves to the front part
    rw [List.append_cons] at hnodup
    rw [List.append_cons pre x names', List.append_cons pre x names]
    refine ih (pre ++ [x]) hnodup fun y hy => ?_
    rw [← List.append_cons]
    exact hleaves y hy

/-- A formula has the same minimal form over a longer list of names. -/
theorem minimize_sublist {f : Formula} {names names' : List String} (h : names.Sublist names')
    (hnodup : names'.Nodup) (hleaves : ∀ x ∈ f.leaves, x ∈ names) :
    minimize names' (f.trueRowSet names') = minimize names (f.trueRowSet names) :=
  minimize_sublist_behind h [] hnodup hleaves

end PropCalc
