import PropCalc.Proofs.Covering
import PropCalc.Proofs.Rows
/-!
# The order of a cover

In which order implicants are chosen. The essential ones come by the lowest row that each of them
covers alone (`pairwise_essentials`): `IsChosen` says so of the first rows, and one more row keeps
it (`IsChosen.skip`, `IsChosen.add`). The greedy choice depends on those implicants only that gain
anything (`choose_filter`), and on the order of their gains and open positions (`best?_map`). No
implicant is chosen twice (`nodup_chosen`).
-/

namespace PropCalc.Cover

variable {primes primes' chosen : List Implicant} {p q : Implicant} {rows : RowSet} {row : Int}

/-! ## Essential implicants -/

/-- Which implicant is alone on a row does not depend on the order of the list. -/
theorem sole?_perm (h : primes.Perm primes') (row : Int) :
    sole? primes row = sole? primes' row := by
  apply Option.ext
  intro p
  have hfilter := h.filter (·.covers row)
  rw [sole?_eq_some_iff, sole?_eq_some_iff]
  constructor
  · intro heq
    rw [heq] at hfilter
    exact List.singleton_perm.1 hfilter |>.symm
  · intro heq
    rw [heq] at hfilter
    exact List.perm_singleton.1 hfilter

/-- Some row is covered by the first implicant alone and lies before all rows that are covered by the
second alone. -/
def SoleBefore (primes : List Implicant) (l : List Int) (p q : Implicant) : Prop :=
  ∃ row ∈ l, sole? primes row = some p ∧ ∀ s ∈ l, sole? primes s = some q → row < s

theorem SoleBefore.asymm {l : List Int} (h : SoleBefore primes l p q) :
    ¬ SoleBefore primes l q p := by
  intro h
  -- each of the two rows would lie before the other
  rcases h with ⟨s, hs, hq, hs'⟩
  rcases h with ⟨r, hr, hp, hr'⟩
  exact Int.lt_irrefl r (Int.lt_trans (hr' s hs hq) (hs' r hr hp))

/-- What is chosen on the first rows of a list: the implicants that are alone on one of them, in
order. -/
structure IsChosen (primes : List Implicant) (l before : List Int) (chosen : List Implicant) :
    Prop where
  mem_iff : ∀ p, p ∈ chosen ↔ ∃ row ∈ before, sole? primes row = some p
  ordered : chosen.Pairwise (SoleBefore primes l)

/-- A row chooses nothing when no implicant is alone on it, or one that was chosen before. -/
theorem IsChosen.skip {l before : List Int} (h : IsChosen primes l before chosen) (row : Int)
    (hold : ∀ p, sole? primes row = some p → p ∈ chosen) :
    IsChosen primes l (before ++ [row]) chosen := by
  refine ⟨fun p => ?_, h.ordered⟩
  constructor
  · intro hp
    rcases (h.mem_iff p).1 hp with ⟨r, hr, hrp⟩
    exact ⟨r, List.mem_append_left _ hr, hrp⟩
  · intro hex
    rcases hex with ⟨r, hr, hrp⟩
    rcases List.mem_append.1 hr with hr | hr
    · exact (h.mem_iff p).2 ⟨r, hr, hrp⟩
    · rw [List.mem_singleton.1 hr] at hrp
      exact hold p hrp

/-- Else the implicant that is alone on it comes last. -/
theorem IsChosen.add {before after : List Int} (h : IsChosen primes (before ++ row :: after) before
    chosen) (hasc : (before ++ row :: after).Pairwise (· < ·)) (hsole : sole? primes row = some q)
    (hnew : q ∉ chosen) :
    IsChosen primes (before ++ row :: after) (before ++ [row]) (chosen ++ [q]) := by
  constructor
  · intro p
    simp [h.mem_iff, or_and_right, exists_or, hsole, eq_comm]
  · rw [List.pairwise_append]
    refine ⟨h.ordered, List.pairwise_singleton _ _, fun p hp q' hq' => ?_⟩
    obtain rfl := List.mem_singleton.1 hq'
    rcases (h.mem_iff p).1 hp with ⟨r, hr, hrp⟩
    refine ⟨r, List.mem_append_left _ hr, hrp, fun s hs hsq => ?_⟩
    -- the new implicant is alone on no row before this one
    rcases List.mem_append.1 hs with hs | hs
    · exact absurd ((h.mem_iff q').2 ⟨s, hs, hsq⟩) hnew
    · exact (List.pairwise_append.1 hasc).2.2 r hr s hs

/-- From any row on, the essential implicants are those that are alone on a row, in order. -/
theorem IsChosen.essentials {before after : List Int} (h : IsChosen primes (before ++ after) before
    chosen) (hasc : (before ++ after).Pairwise (· < ·)) :
    IsChosen primes (before ++ after) (before ++ after) (essentials primes chosen after) := by
  induction after generalizing before chosen with
  | nil =>
    rw [List.append_nil] at h ⊢
    exact h
  | cons row after ih =>
    have happend : before ++ row :: after = (before ++ [row]) ++ after := by simp
    rw [Cover.essentials]
    cases hsole : sole? primes row with
    | none =>
      -- several implicants cover the row, or none does
      have hskip := h.skip row (by simp [hsole])
      rw [happend] at hskip hasc ⊢
      exact ih hskip hasc
    | some q =>
      by_cases hq : q ∈ chosen
      · -- the row belongs to an implicant that an earlier row has chosen
        have hskip := h.skip row fun p hp => by
          rw [hsole] at hp
          exact Option.some.inj hp ▸ hq
        simp only [List.contains_eq_mem, hq, decide_true, if_true]
        rw [happend] at hskip hasc ⊢
        exact ih hskip hasc
      · -- this is the first row of the implicant
        have hadd := h.add hasc hsole hq
        simp only [List.contains_eq_mem, hq, decide_false, Bool.false_eq_true, if_false]
        rw [happend] at hadd hasc ⊢
        exact ih hadd hasc

/-- Essential implicants come by the lowest row that they cover alone. -/
theorem pairwise_essentials (rows : RowSet) :
    (essentials primes [] rows.rows).Pairwise (SoleBefore primes rows.rows) := by
  have hstart : IsChosen primes ([] ++ rows.rows) [] [] := ⟨by simp, .nil⟩
  exact (hstart.essentials rows.ascending).ordered

theorem nodup_essentials (primes : List Implicant) (rows : RowSet) :
    (essentials primes [] rows.rows).Nodup :=
  nodup_of_asymm (fun _ _ => SoleBefore.asymm) (pairwise_essentials rows)

/-- The rows that the essential implicants leave to the greedy choice. -/
def leftByEssentials (primes : List Implicant) (rows : RowSet) : RowSet :=
  remaining rows (essentials primes [] rows.rows)

theorem mem_leftByEssentials : row ∈ leftByEssentials primes rows ↔
    row ∈ rows ∧ ∀ p ∈ essentials primes [] rows.rows, row ∉ p.minterms := mem_remaining

theorem chosen_search (primes : List Implicant) (rows : RowSet) : (search primes rows).chosen =
    essentials primes [] rows.rows ++ (choose primes (leftByEssentials primes rows)).1 := rfl

/-! ## Greedy choices -/

theorem gain_diff_eq_zero (h : gain rows p = 0) (t : RowSet) : gain (rows.diff t) p = 0 := by
  rw [gain_eq_zero_iff] at h ⊢
  intro row hrow
  exact h row (RowSet.mem_diff.1 hrow).1

/-- Implicants that gain nothing do not influence the best choice, -/
theorem best?_filter {keep : Implicant → Bool}
    (h : ∀ p ∈ primes, keep p = false → gain rows p = 0) :
    best? rows (primes.filter keep) = best? rows primes := by
  induction primes with
  | nil => rfl
  | cons p primes ih =>
    have hrest := ih fun q hq => h q (List.mem_cons_of_mem p hq)
    cases hkeep : keep p with
    | true =>
      rw [List.filter_cons_of_pos hkeep, best?, best?, hrest]
    | false =>
      have hgain := h p List.mem_cons_self hkeep
      rw [List.filter_cons_of_neg (by simp [hkeep]), hrest, best?]
      cases hbest : best? rows primes with
      | none => simp [hgain]
      | some q =>
        -- the best choice gains something, so it beats an implicant that does not
        have hpos := gain_pos_of_best? hbest
        have hbetter : better rows q p = true := by simp [better, hgain, hpos]
        simp [hbetter]

/-- nor any later choice. -/
theorem choose_filter {keep : Implicant → Bool}
    (h : ∀ p ∈ primes, keep p = false → gain rows p = 0) :
    choose (primes.filter keep) rows = choose primes rows := by
  induction rows using choose.induct primes with
  | case1 rows hnone =>
    rw [choose_of_none hnone, choose_of_none]
    rw [best?_filter h, hnone]
  | case2 rows q hq ps left hrest ih =>
    have hbest : best? rows (primes.filter keep) = some q := by rw [best?_filter h, hq]
    have hlater := ih fun p hp hkeep => gain_diff_eq_zero (h p hp hkeep) q.minterms
    rw [choose_of_some hq, choose_of_some hbest, hlater]

/-- A change of all implicants that keeps the order of gains and of open positions keeps the best
choice. -/
theorem best?_map {f : Implicant → Implicant} {rows' : RowSet}
    (hgain : ∀ p ∈ primes, gain rows' (f p) = 2 * gain rows p)
    (hopen : ∀ p ∈ primes, (f p).pattern.dontCares = p.pattern.dontCares + 1) :
    best? rows' (primes.map f) = (best? rows primes).map f := by
  induction primes with
  | nil => rfl
  | cons p primes ih =>
    have hrest := ih (fun q hq => hgain q (List.mem_cons_of_mem p hq))
      (fun q hq => hopen q (List.mem_cons_of_mem p hq))
    have hp := hgain p List.mem_cons_self
    have hp' := hopen p List.mem_cons_self
    rw [List.map_cons, best?, best?, hrest]
    cases hbest : best? rows primes with
    | none =>
      have hpos : 0 < gain rows' (f p) ↔ 0 < gain rows p := by omega
      simp only [Option.map_none, hpos]
      split <;> rfl
    | some q =>
      have hq := hgain q (List.mem_cons_of_mem p (mem_of_best? hbest))
      have hq' := hopen q (List.mem_cons_of_mem p (mem_of_best? hbest))
      -- both gains are doubled and both numbers grow by one, which compares them as before
      have hbetter : better rows' (f q) (f p) = better rows q p := by
        have hlt : 2 * gain rows p < 2 * gain rows q ↔ gain rows p < gain rows q := by omega
        have heq : (2 * gain rows q == 2 * gain rows p) = (gain rows q == gain rows p) := by
          rw [Bool.eq_iff_iff, beq_iff_eq, beq_iff_eq]
          omega
        simp only [better, hp, hp', hq, hq', hlt, Nat.add_lt_add_iff_right, heq]
      simp only [Option.map_some, hbetter]
      split <;> rfl

/-! ## Repetitions -/

/-- A greedy choice covers one of the rows that were left. -/
theorem exists_row_of_mem_choose (h : p ∈ (choose primes rows).1) :
    ∃ row ∈ rows, row ∈ p.minterms := by
  induction rows using choose.induct primes with
  | case1 rows hnone =>
    rw [choose_of_none hnone] at h
    simp at h
  | case2 rows q hq ps left hrest ih =>
    rw [choose_of_some hq] at h
    rcases List.mem_cons.1 h with rfl | h
    · exact gain_pos_iff.1 (gain_pos_of_best? hq)
    · rcases ih h with ⟨row, hrow, hcovers⟩
      exact ⟨row, (RowSet.mem_diff.1 hrow).1, hcovers⟩

theorem nodup_choose (primes : List Implicant) (rows : RowSet) : (choose primes rows).1.Nodup := by
  induction rows using choose.induct primes with
  | case1 rows hnone =>
    rw [choose_of_none hnone]
    exact .nil
  | case2 rows q hq ps left hrest ih =>
    rw [choose_of_some hq]
    refine List.nodup_cons.2 ⟨fun hmem => ?_, ih⟩
    -- a later choice covers a row that this one does not
    rcases exists_row_of_mem_choose hmem with ⟨row, hrow, hcovers⟩
    exact (RowSet.mem_diff.1 hrow).2 hcovers

/-- No implicant is chosen twice. -/
theorem nodup_chosen (primes : List Implicant) (rows : RowSet) :
    (search primes rows).chosen.Nodup := by
  rw [chosen_search, List.nodup_append]
  refine ⟨nodup_essentials primes rows, nodup_choose primes _, fun p hp q hq heq => ?_⟩
  subst heq
  -- the essential implicants leave none of their rows to the greedy choice
  rcases exists_row_of_mem_choose hq with ⟨row, hrow, hcovers⟩
  exact (mem_leftByEssentials.1 hrow).2 p hp hcovers

end PropCalc.Cover
