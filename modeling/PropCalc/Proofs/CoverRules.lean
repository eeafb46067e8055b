import PropCalc.Proofs.CoverOrder
/-!
# The rules of a cover

Which implicants a cover consists of, said by rules that do not mention how they are found.
`FollowsRules` has the rules: first the implicants that are alone on some row, by the lowest such row,
then one next choice after the other, each of them the earliest of the best that are left.

The best choice is the earliest that no other one beats (`best?_eq_some`), and every choice of the run
is the best for the rows that the choices before it leave (`best?_of_choose`). Each of them covers a
new row, so there are no more of them than rows (`length_add_size_remaining_le`).
`selectCover_follows_rules` is the result.
-/

namespace PropCalc.Cover

variable {primes chosen ps u w : List Implicant} {p q r : Implicant} {rows : RowSet} {row : Int}

/-! ## The rules -/

/-- The implicant is the only entry of the list that covers the row. -/
def IsSole (primes : List Implicant) (p : Implicant) (row : Int) : Prop :=
  ∃ u w, primes = u ++ p :: w ∧ row ∈ p.minterms ∧ ∀ q ∈ u ++ w, row ∉ q.minterms

/-- The number of rows that an implicant covers and no chosen one does. -/
def newRows (rows : RowSet) (chosen : List Implicant) (p : Implicant) : Nat :=
  rows.rows.countP fun row => row ∈ p.minterms ∧ ∀ q ∈ chosen, row ∉ q.minterms

/-- The first implicant covers more new rows than the second, or as many and leaves fewer positions
open. -/
def Beats (rows : RowSet) (chosen : List Implicant) (p q : Implicant) : Prop :=
  newRows rows chosen q < newRows rows chosen p ∨
    newRows rows chosen q = newRows rows chosen p ∧ p.pattern.dontCares < q.pattern.dontCares

/-- The implicant covers a new row, and among those that are not chosen yet it is the earliest that no
other one beats. -/
structure IsNextChoice (primes : List Implicant) (rows : RowSet) (chosen : List Implicant)
    (p : Implicant) : Prop where
  notMem : p ∉ chosen
  pos : 0 < newRows rows chosen p
  best : ∃ u w, primes = u ++ p :: w ∧ (∀ q ∈ u, q ∉ chosen → Beats rows chosen p q) ∧
    ∀ q ∈ w, q ∉ chosen → ¬ Beats rows chosen q p

/-- The implicants are chosen by the rules. -/
structure FollowsRules (primes : List Implicant) (rows : RowSet) (essential greedy : List Implicant) :
    Prop where
  mem_essential_iff : ∀ p, p ∈ essential ↔ ∃ row ∈ rows, IsSole primes p row
  ordered : essential.Pairwise fun p q =>
    ∃ row ∈ rows, IsSole primes p row ∧ ∀ row' ∈ rows, IsSole primes q row' → row < row'
  next : ∀ u p w, greedy = u ++ p :: w → IsNextChoice primes rows (essential ++ u) p

/-! ## Essential implicants -/

theorem sole?_eq_some_iff_isSole : sole? primes row = some p ↔ IsSole primes p row := by
  rw [sole?_eq_some_iff, List.filter_eq_cons_iff]
  apply exists_congr
  intro u
  apply exists_congr
  intro w
  rw [List.filter_eq_nil_iff, List.forall_mem_append]
  simp only [Implicant.covers, decide_eq_true_eq]
  exact and_congr_right fun _ => and_left_comm

theorem IsSole.eq (h : IsSole primes p row) (hq : q ∈ primes) (hrow : row ∈ q.minterms) : q = p := by
  rcases h with ⟨u, w, rfl, -, hothers⟩
  rcases List.mem_append.1 hq with hq | hq
  · exact absurd hrow (hothers q (List.mem_append_left w hq))
  · rcases List.mem_cons.1 hq with rfl | hq
    · rfl
    · exact absurd hrow (hothers q (List.mem_append_right u hq))

theorem mem_essentials_iff_isSole :
    p ∈ essentials primes [] rows.rows ↔ ∃ row ∈ rows, IsSole primes p row := by
  rw [mem_essentials]
  simp only [List.not_mem_nil, false_or, sole?_eq_some_iff_isSole]
  rfl

/-! ## New rows -/

theorem remaining_append (rows : RowSet) (u w : List Implicant) :
    remaining rows (u ++ w) = remaining (remaining rows u) w := List.foldl_append

/-- What an implicant gains from the remaining rows are the rows that it covers and no chosen one
does. -/
theorem gain_remaining (rows : RowSet) (chosen : List Implicant) (p : Implicant) :
    gain (remaining rows chosen) p = newRows rows chosen p := by
  -- what remains is a filter of the rows, and gains are counts, so one count joins the two
  have hfilter : remaining rows chosen =
      rows.filter fun row => ∀ q ∈ chosen, row ∉ q.minterms := by
    refine RowSet.ext_mem fun row => ?_
    rw [mem_remaining, RowSet.mem_filter, decide_eq_true_eq]
  rw [hfilter, gain, RowSet.sizeInter, RowSet.filter, List.countP_filter, newRows]
  simp only [Bool.decide_and]

/-- A chosen implicant gains nothing any more. -/
theorem gain_remaining_of_mem (h : p ∈ chosen) : gain (remaining rows chosen) p = 0 :=
  gain_eq_zero_iff.2 fun _ hrow => (mem_remaining.1 hrow).2 p h

/-! ## The best choice -/

theorem better_iff : better rows p q = true ↔
    gain rows q < gain rows p ∨
      gain rows q = gain rows p ∧ p.pattern.dontCares < q.pattern.dontCares := by
  simp only [better, Bool.or_eq_true, Bool.and_eq_true, beq_iff_eq, decide_eq_true_eq]
  omega

theorem better_remaining_iff :
    better (remaining rows chosen) p q = true ↔ Beats rows chosen p q := by
  rw [better_iff, gain_remaining, gain_remaining]
  rfl

theorem better_asymm (h : better rows p q = true) : ¬ better rows q p = true := by
  rw [better_iff] at h ⊢
  omega

theorem not_better_trans (hpq : ¬ better rows p q = true) (hqr : ¬ better rows q r = true) :
    ¬ better rows p r = true := by
  rw [better_iff] at hpq hqr ⊢
  omega

/-- The best choice is better than all implicants before it, and none behind it is better. -/
theorem best?_eq_some (h : best? rows primes = some p) : ∃ u w, primes = u ++ p :: w ∧
    (∀ q ∈ u, better rows p q = true) ∧ ∀ q ∈ w, ¬ better rows q p = true := by
  induction primes generalizing p with
  | nil => simp [best?] at h
  | cons q primes ih =>
    cases hrest : best? rows primes with
    | none =>
      -- the others gain nothing
      simp only [best?, hrest] at h
      split at h
      · next hpos =>
        obtain rfl := Option.some.inj h
        refine ⟨[], primes, rfl, by simp, fun x hx => ?_⟩
        rw [better_iff, best?_eq_none_iff.1 hrest x hx]
        omega
      · cases h
    | some r =>
      simp only [best?, hrest] at h
      rcases ih hrest with ⟨u, w, rfl, hbefore, hbehind⟩
      split at h
      · next hbetter =>
        obtain rfl := Option.some.inj h
        refine ⟨q :: u, w, rfl, ?_, hbehind⟩
        exact List.forall_mem_cons.2 ⟨hbetter, hbefore⟩
      · next hnot =>
        -- no other one is better than the best of them, and that one is not better than the first
        obtain rfl := Option.some.inj h
        refine ⟨[], u ++ r :: w, rfl, by simp, fun x hx => ?_⟩
        rcases List.mem_append.1 hx with hx | hx
        · exact not_better_trans (better_asymm (hbefore x hx)) hnot
        · rcases List.mem_cons.1 hx with rfl | hx
          · exact hnot
          · exact not_better_trans (hbehind x hx) hnot

/-- The best choice for the rows that are left is the next choice. -/
theorem isNextChoice_of_best? (h : best? (remaining rows chosen) primes = some p) :
    IsNextChoice primes rows chosen p := by
  have hpos := gain_pos_of_best? h
  constructor
  · intro hmem
    exact Nat.ne_of_gt hpos (gain_remaining_of_mem hmem)
  · rw [← gain_remaining]
    exact hpos
  · rcases best?_eq_some h with ⟨u, w, heq, hbefore, hbehind⟩
    simp only [better_remaining_iff] at hbefore hbehind
    exact ⟨u, w, heq, fun q hq _ => hbefore q hq, fun q hq _ => hbehind q hq⟩

/-! ## The greedy run -/

/-- The first choice of a run is the best one, and the others are chosen for what it leaves. -/
theorem choose_eq_cons (h : (choose primes rows).1 = p :: ps) :
    best? rows primes = some p ∧ (choose primes (rows.diff p.minterms)).1 = ps := by
  cases hbest : best? rows primes with
  | none =>
    rw [choose_of_none hbest] at h
    cases h
  | some q =>
    rw [choose_of_some hbest] at h
    rcases List.cons.inj h with ⟨rfl, hrest⟩
    exact ⟨rfl, hrest⟩

/-- Every choice of a run is the best one for the rows that the choices before it leave. -/
theorem best?_of_choose (h : (choose primes rows).1 = u ++ p :: w) :
    best? (remaining rows u) primes = some p := by
  induction u generalizing rows with
  | nil => exact (choose_eq_cons h).1
  -- behind its first choice the run is one for the rows that this leaves
  | cons q u ih => exact ih (choose_eq_cons h).2

/-! ## The number of choices -/

/-- Implicants each of which covers a row that those before it leave are no more than the rows that
they cover together. -/
theorem length_add_size_remaining_le
    (h : ∀ u p w, ps = u ++ p :: w → 0 < gain (remaining rows u) p) :
    ps.length + (remaining rows ps).size ≤ rows.size := by
  induction ps generalizing rows with
  | nil => simp [remaining]
  | cons p ps ih =>
    have hpos : 0 < gain rows p := h [] p ps rfl
    -- the first implicant takes at least one row away
    have hsize := rows.size_diff p.minterms
    have hrest : ps.length + (remaining (rows.diff p.minterms) ps).size ≤
        (rows.diff p.minterms).size := by
      refine ih fun u q w heq => h (p :: u) q w ?_
      rw [heq]
      rfl
    simp only [remaining, List.foldl_cons, List.length_cons, gain] at hpos hrest ⊢
    omega

/-- An essential implicant covers a row that the others leave. -/
theorem gain_pos_of_essentials (h : essentials primes [] rows.rows = u ++ p :: w) :
    0 < gain (remaining rows u) p := by
  have hmem : ∀ q ∈ u ++ p :: w, q ∈ primes := by
    intro q hq
    rw [← h] at hq
    exact mem_of_mem_essentials hq
  have hnodup : (u ++ p :: w).Nodup := by
    rw [← h]
    exact nodup_essentials primes rows
  have hp : p ∈ essentials primes [] rows.rows := by simp [h]
  rcases mem_essentials_iff_isSole.1 hp with ⟨row, hrow, hsole⟩
  have hcovers : row ∈ p.minterms := (mem_of_sole? (sole?_eq_some_iff_isSole.2 hsole)).2
  refine gain_pos_iff.2 ⟨row, mem_remaining.2 ⟨hrow, fun q hq hcovers' => ?_⟩, hcovers⟩
  -- it is alone on this row, so an earlier one with the row would be the same
  obtain rfl := hsole.eq (hmem q (List.mem_append_left _ hq)) hcovers'
  exact (List.nodup_append.1 hnodup).2.2 q hq q List.mem_cons_self rfl

/-- There are no more choices than rows. -/
theorem length_chosen_le (primes : List Implicant) (rows : RowSet) :
    (search primes rows).chosen.length ≤ rows.size := by
  have hessential : (essentials primes [] rows.rows).length + (leftByEssentials primes rows).size ≤
      rows.size :=
    length_add_size_remaining_le fun _ _ _ h => gain_pos_of_essentials h
  -- the greedy run shares what the essential implicants leave
  have hgreedy : (choose primes (leftByEssentials primes rows)).1.length +
      (remaining (leftByEssentials primes rows)
        (choose primes (leftByEssentials primes rows)).1).size ≤
      (leftByEssentials primes rows).size :=
    length_add_size_remaining_le fun _ _ _ h => gain_pos_of_best? (best?_of_choose h)
  rw [chosen_search, List.length_append]
  omega

/-! ## The whole choice -/

/-- The choice is made by the rules. -/
theorem followsRules_search (primes : List Implicant) (rows : RowSet) :
    FollowsRules primes rows (search primes rows).essential (search primes rows).greedy := by
  constructor
  · intro p
    exact mem_essentials_iff_isSole
  · refine (pairwise_essentials rows).imp fun {p q} hbefore => ?_
    simp only [SoleBefore, sole?_eq_some_iff_isSole] at hbefore
    exact hbefore
  · intro u p w heq
    apply isNextChoice_of_best?
    rw [remaining_append]
    exact best?_of_choose heq

end Cover

open Cover

theorem selectCover_eq_error_iff {primes : List Implicant} {rows : RowSet} {err : UncoveredRows} :
    selectCover primes rows = .error err ↔
      (search primes rows).uncovered.rows ≠ [] ∧ err = ⟨(search primes rows).uncovered.rows⟩ := by
  simp only [selectCover]
  split
  · next hnil => simp [hnil]
  · next hne =>
    rw [Except.error.injEq, and_iff_right hne]
    exact eq_comm

/-- A cover is selected by the rules, unless some row belongs to no implicant. Then the error lists
exactly these rows, in ascending order. Otherwise the selected implicants are different entries of the
list, cover all rows, and are no more than these: first those that are alone on some row, by the lowest
such row, then always the earliest of the best that are left. -/
theorem selectCover_follows_rules (primes : List Implicant) (M : List Int) :
    ((∃ err, selectCover primes (.ofList M) = .error err) ↔
      ∃ m ∈ M, ∀ p ∈ primes, m ∉ p.minterms) ∧
    (∀ err, selectCover primes (.ofList M) = .error err →
      err.message = "Minterms [" ++ ", ".intercalate (err.rows.map toString) ++
        "] are not covered by any implicant" ∧
      err.rows.Pairwise (· < ·) ∧
      ∀ m, m ∈ err.rows ↔ m ∈ M ∧ ∀ p ∈ primes, m ∉ p.minterms) ∧
    ((∀ m ∈ M, ∃ p ∈ primes, m ∈ p.minterms) → ∃ essential greedy,
      selectCover primes (.ofList M) = .ok (essential ++ greedy) ∧
      (essential ++ greedy).Nodup ∧ (∀ p ∈ essential ++ greedy, p ∈ primes) ∧
      (∀ m ∈ M, ∃ p ∈ essential ++ greedy, m ∈ p.minterms) ∧
      (essential ++ greedy).length ≤ (RowSet.ofList M).size ∧
      FollowsRules primes (.ofList M) essential greedy) := by
  have hmem : ∀ m, m ∈ RowSet.ofList M ↔ m ∈ M := fun m => RowSet.mem_ofList
  have hleft : ∀ m, m ∈ (search primes (.ofList M)).uncovered.rows ↔
      m ∈ M ∧ ∀ p ∈ primes, m ∉ p.minterms := by
    intro m
    rw [← hmem]
    exact mem_uncovered
  refine ⟨?_, ?_, ?_⟩
  · constructor
    · intro h
      rcases h with ⟨err, herr⟩
      rcases selectCover_eq_error_iff.1 herr with ⟨hne, -⟩
      rcases List.exists_mem_of_ne_nil _ hne with ⟨m, hm⟩
      exact ⟨m, (hleft m).1 hm⟩
    · intro h
      rcases h with ⟨m, hm⟩
      exact ⟨_, selectCover_eq_error_iff.2 ⟨List.ne_nil_of_mem ((hleft m).2 hm), rfl⟩⟩
  · intro err herr
    rcases selectCover_eq_error_iff.1 herr with ⟨-, rfl⟩
    exact ⟨rfl, RowSet.ascending _, hleft⟩
  · intro hM
    have hcovers : ∀ row ∈ RowSet.ofList M, ∃ p ∈ primes, row ∈ p.minterms := by
      intro row hrow
      exact hM row ((hmem row).1 hrow)
    refine ⟨_, _, selectCover_eq_ok hcovers, nodup_chosen primes _, fun p hp => mem_chosen hp,
      fun m hm => ?_, length_chosen_le primes _, followsRules_search primes _⟩
    refine exists_chosen ((hmem m).2 hm) fun hm' => ?_
    rcases hM m hm with ⟨p, hp, hrow⟩
    exact ((hleft m).1 hm').2 p hp hrow

/-- An implicant that the list repeats is not alone on its rows. -/
theorem selectCover_follows_rules_repeated :
    let a : Implicant := ⟨[.one, .dontCare], .ofList [1, 2]⟩
    let b : Implicant := ⟨[.zero, .one], .ofList [2, 3]⟩
    let c : Implicant := ⟨[.dontCare, .zero], .ofList [4, 5]⟩
    (∀ m ∈ [4, 2, 1, 3, 4], ∃ p ∈ [a, a, b, c], m ∈ p.minterms) ∧
    (∃ essential greedy,
      selectCover [a, a, b, c] (.ofList [4, 2, 1, 3, 4]) = .ok (essential ++ greedy) ∧
      FollowsRules [a, a, b, c] (.ofList [4, 2, 1, 3, 4]) essential greedy) ∧
    ∃ err, selectCover [a, a, b, c] (.ofList [6, 4, 2, 1]) = .error err ∧
      ∀ m, m ∈ err.rows ↔ m ∈ [6, 4, 2, 1] ∧ ∀ p ∈ [a, a, b, c], m ∉ p.minterms := by
  intro a b c
  have hcovers : ∀ m ∈ [4, 2, 1, 3, 4], ∃ p ∈ [a, a, b, c], m ∈ p.minterms := by decide
  rcases (selectCover_follows_rules [a, a, b, c] [4, 2, 1, 3, 4]).2.2 hcovers with
    ⟨essential, greedy, hcover, -, -, -, -, hrules⟩
  rcases selectCover_follows_rules [a, a, b, c] [6, 4, 2, 1] with ⟨hiff, herror, -⟩
  rcases hiff.2 (by decide) with ⟨err, herr⟩
  exact ⟨hcovers, ⟨essential, greedy, hcover, hrules⟩, err, herr, (herror err herr).2.2⟩

end PropCalc
