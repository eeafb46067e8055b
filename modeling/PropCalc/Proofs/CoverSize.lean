import Mathlib.Algebra.BigOperators.Field
import Mathlib.Algebra.Order.BigOperators.Group.Finset
import Mathlib.Algebra.Order.Field.Basic
import Mathlib.NumberTheory.Harmonic.Defs
import Mathlib.Order.Lattice.Nat
import Mathlib.Tactic.GCongr
import Mathlib.Tactic.Linarith
import Mathlib.Tactic.Ring
import PropCalc.Proofs.CoverRules
/-!
# The size of a cover

A cover is not always the smallest one, but it is not much larger. Every greedy choice is charged to
the implicants of some other cover, each of which pays for the rows that it covers itself. The choice
gains at least as many rows as any of them could, so an implicant that covers `k` of the rows pays no
more than the `k`-th harmonic number in all (`length_choose_le_sum_harmonic`). Essential implicants
belong to every cover (`mem_of_isSole`) and leave the others nothing to pay for their rows.
`selectCover_within_harmonic` is the result.
-/

namespace PropCalc

open Finset

/-! ## Harmonic numbers -/

/-- From one harmonic number to another every step adds at least the smallest of the fractions. -/
theorem div_le_harmonic_sub {a b g : ℕ} (hab : a ≤ b) (hbg : b ≤ g) :
    ((b : ℚ) - a) / g ≤ harmonic b - harmonic a := by
  induction b, hab using Nat.le_induction with
  | base => simp
  | succ b hab ih =>
    have hrest := ih (Nat.le_of_succ_le hbg)
    -- no denominator on the way is larger than the last
    have hstep : (1 : ℚ) / g ≤ ((b + 1 : ℕ) : ℚ)⁻¹ := by
      rw [one_div]
      apply inv_anti₀
      · exact_mod_cast Nat.succ_pos b
      · exact_mod_cast hbg
    have hsplit : (((b + 1 : ℕ) : ℚ) - a) / g = ((b : ℚ) - a) / g + 1 / g := by
      push_cast
      ring
    rw [harmonic_succ, hsplit]
    linarith

theorem harmonic_mono {a b : ℕ} (h : a ≤ b) : harmonic a ≤ harmonic b := by
  have hdiff := div_le_harmonic_sub h (Nat.le_refl b)
  have hnonneg : (0 : ℚ) ≤ ((b : ℚ) - a) / b := by
    apply div_nonneg
    · rw [sub_nonneg]
      exact_mod_cast h
    · exact_mod_cast Nat.zero_le b
  linarith

namespace Cover

variable {primes chosen : List Implicant} {p q : Implicant} {rows : RowSet} {row : Int}
  {C : Finset Implicant}

/-! ## Gains -/

/-- The best choice gains as much as any other one could. -/
theorem gain_le_of_best? (h : best? rows primes = some p) (hq : q ∈ primes) :
    gain rows q ≤ gain rows p := by
  rcases best?_eq_some h with ⟨u, w, rfl, hbefore, hbehind⟩
  rcases List.mem_append.1 hq with hq | hq
  · have hbetter := better_iff.1 (hbefore q hq)
    omega
  · rcases List.mem_cons.1 hq with rfl | hq
    · exact Nat.le_refl _
    · have hnot := hbehind q hq
      rw [better_iff] at hnot
      omega

/-- What an implicant gains is what it still gains behind a choice, and what it shares with it. -/
theorem gain_eq_add (rows : RowSet) (p q : Implicant) : gain rows q =
    gain (rows.diff p.minterms) q + gain (rows.filter fun row => row ∈ p.minterms) q := by
  have hsplit := List.countP_eq_countP_filter_add rows.rows (fun row => decide (row ∈ q.minterms))
    fun row => decide (row ∈ p.minterms)
  rw [gain, gain, gain, RowSet.sizeInter, hsplit, Nat.add_comm]
  simp only [RowSet.sizeInter, RowSet.diff, RowSet.filter, decide_not]

/-- The implicants of a cover gain at least all rows together. -/
theorem size_le_sum_gain (hcovers : ∀ row ∈ rows, ∃ q ∈ C, row ∈ q.minterms) :
    rows.size ≤ ∑ q ∈ C, gain rows q := by
  have hlist : ∀ l : List Int, (∀ row ∈ l, ∃ q ∈ C, row ∈ q.minterms) →
      l.length ≤ ∑ q ∈ C, l.countP fun row => row ∈ q.minterms := by
    intro l hl
    induction l with
    | nil => simp
    | cons row l ih =>
      have hrest := ih fun r hr => hl r (List.mem_cons_of_mem row hr)
      rcases hl row List.mem_cons_self with ⟨q, hq, hrow⟩
      -- one of the implicants counts the first row
      have hfirst : 1 ≤ ∑ q ∈ C, if row ∈ q.minterms then 1 else 0 := by
        have hsingle := single_le_sum (f := fun q : Implicant => if row ∈ q.minterms then 1 else 0)
          (fun _ _ => Nat.zero_le _) hq
        simpa [hrow] using hsingle
      simp only [List.countP_cons, decide_eq_true_eq, sum_add_distrib, List.length_cons]
      omega
  exact hlist rows.rows hcovers

/-! ## Charging a run -/

/-- One choice: the implicants of a cover lose at least one whole charge together. -/
theorem one_le_sum_harmonic_sub (h : best? rows primes = some p) (hC : ∀ q ∈ C, q ∈ primes)
    (hcovers : ∀ row ∈ rows, ∃ q ∈ C, row ∈ q.minterms) :
    (1 : ℚ) ≤ ∑ q ∈ C, (harmonic (gain rows q) - harmonic (gain (rows.diff p.minterms) q)) := by
  have hpos : (0 : ℚ) < gain rows p := by exact_mod_cast gain_pos_of_best? h
  -- the rows of the choice, and what the cover gains of them
  have hshared : gain rows p ≤
      ∑ q ∈ C, gain (rows.filter fun row => row ∈ p.minterms) q := by
    have hsize : gain rows p = (rows.filter fun row => row ∈ p.minterms).size :=
      List.countP_eq_length_filter
    rw [hsize]
    apply size_le_sum_gain
    intro row hrow
    exact hcovers row (RowSet.mem_filter.1 hrow).1
  -- no implicant of the cover could gain more than the choice, which bounds its denominators
  have hcharge : ∀ q ∈ C, (gain (rows.filter fun row => row ∈ p.minterms) q : ℚ) / gain rows p ≤
      harmonic (gain rows q) - harmonic (gain (rows.diff p.minterms) q) := by
    intro q hq
    have hsum := gain_eq_add rows p q
    have hle := div_le_harmonic_sub (a := gain (rows.diff p.minterms) q) (by omega)
      (gain_le_of_best? h (hC q hq))
    have hdiff : (gain rows q : ℚ) - gain (rows.diff p.minterms) q =
        gain (rows.filter fun row => row ∈ p.minterms) q := by
      rw [hsum]
      push_cast
      ring
    rw [hdiff] at hle
    exact hle
  calc (1 : ℚ) = gain rows p / gain rows p := (div_self hpos.ne').symm
    _ ≤ (∑ q ∈ C, (gain (rows.filter fun row => row ∈ p.minterms) q : ℚ)) / gain rows p := by
      gcongr
      exact_mod_cast hshared
    _ = ∑ q ∈ C, (gain (rows.filter fun row => row ∈ p.minterms) q : ℚ) / gain rows p :=
      sum_div ..
    _ ≤ _ := sum_le_sum hcharge

/-- The whole run: an implicant of a cover pays no more than the harmonic number of what it gains. -/
theorem length_choose_le_sum_harmonic (hC : ∀ q ∈ C, q ∈ primes)
    (hcovers : ∀ row ∈ rows, ∃ q ∈ C, row ∈ q.minterms) :
    ((choose primes rows).1.length : ℚ) ≤ ∑ q ∈ C, harmonic (gain rows q) := by
  induction rows using choose.induct primes with
  | case1 rows hnone =>
    rw [choose_of_none hnone]
    refine sum_nonneg fun q _ => ?_
    exact harmonic_zero ▸ harmonic_mono (Nat.zero_le _)
  | case2 rows p hp ps left hrest ih =>
    rw [choose_of_some hp]
    have hlater := ih fun row hrow => hcovers row (RowSet.mem_diff.1 hrow).1
    have hfirst := one_le_sum_harmonic_sub hp hC hcovers
    -- the charges of all choices telescope
    rw [sum_sub_distrib] at hfirst
    push_cast [List.length_cons]
    linarith

/-! ## Essential implicants -/

/-- What is alone on a row belongs to every cover. -/
theorem mem_of_isSole (h : IsSole primes p row) (hC : ∀ q ∈ C, q ∈ primes)
    (hrow : ∃ q ∈ C, row ∈ q.minterms) : p ∈ C := by
  rcases hrow with ⟨q, hq, hcovers⟩
  obtain rfl := h.eq (hC q hq) hcovers
  exact hq

theorem essentials_subset (hC : ∀ q ∈ C, q ∈ primes)
    (hcovers : ∀ row ∈ rows, ∃ q ∈ C, row ∈ q.minterms) :
    ∀ p ∈ essentials primes [] rows.rows, p ∈ C := by
  intro p hp
  rcases mem_essentials_iff_isSole.1 hp with ⟨row, hrow, hsole⟩
  exact mem_of_isSole hsole hC (hcovers row hrow)

theorem length_essentials_le (hC : ∀ q ∈ C, q ∈ primes)
    (hcovers : ∀ row ∈ rows, ∃ q ∈ C, row ∈ q.minterms) :
    (essentials primes [] rows.rows).length ≤ C.card := by
  rw [← List.toFinset_card_of_nodup (nodup_essentials primes rows)]
  exact card_le_card fun p hp => essentials_subset hC hcovers p (List.mem_toFinset.1 hp)

theorem newRows_eq_zero (h : ∀ row ∈ rows, ∃ q ∈ chosen, row ∈ q.minterms) (p : Implicant) :
    newRows rows chosen p = 0 := by
  rw [newRows, List.countP_eq_zero]
  intro row hrow
  rcases h row hrow with ⟨q, hq, hcovers⟩
  simp only [decide_eq_true_eq, not_and, not_forall, not_not]
  exact fun _ => ⟨q, hq, hcovers⟩

/-- An essential implicant of a cover pays nothing for the rows that the essential ones leave, and each
of the others no more than the harmonic number of the most that any of them gains. -/
theorem sum_harmonic_le {m : ℕ} (hC : ∀ q ∈ C, q ∈ primes)
    (hcovers : ∀ row ∈ rows, ∃ q ∈ C, row ∈ q.minterms)
    (hm : ∀ q ∈ primes, gain (leftByEssentials primes rows) q ≤ m) :
    ∑ q ∈ C, harmonic (gain (leftByEssentials primes rows) q) ≤
      harmonic m * (C.card - (essentials primes [] rows.rows).length) := by
  have hsubset : (essentials primes [] rows.rows).toFinset ⊆ C := by
    intro p hp
    exact essentials_subset hC hcovers p (List.mem_toFinset.1 hp)
  have hcard := List.toFinset_card_of_nodup (nodup_essentials primes rows)
  -- the cover splits into the essential implicants and the others
  have hessential : ∑ q ∈ (essentials primes [] rows.rows).toFinset,
      harmonic (gain (leftByEssentials primes rows) q) = 0 := by
    refine sum_eq_zero fun q hq => ?_
    rw [leftByEssentials, gain_remaining_of_mem (List.mem_toFinset.1 hq), harmonic_zero]
  have hothers : ∑ q ∈ C \ (essentials primes [] rows.rows).toFinset,
      harmonic (gain (leftByEssentials primes rows) q) ≤
      (C \ (essentials primes [] rows.rows).toFinset).card • harmonic m := by
    refine sum_le_card_nsmul _ _ _ fun q hq => ?_
    exact harmonic_mono (hm q (hC q (mem_sdiff.1 hq).1))
  rw [← sum_sdiff hsubset, hessential, add_zero, mul_comm]
  rw [card_sdiff_of_subset hsubset, hcard, nsmul_eq_mul,
    Nat.cast_sub (length_essentials_le hC hcovers)] at hothers
  exact hothers

/-! ## The whole choice -/

theorem length_chosen_le_harmonic {m : ℕ} (hC : ∀ q ∈ C, q ∈ primes)
    (hcovers : ∀ row ∈ rows, ∃ q ∈ C, row ∈ q.minterms)
    (hm : ∀ q ∈ primes, newRows rows (essentials primes [] rows.rows) q ≤ m) :
    ((search primes rows).chosen.length : ℚ) ≤ (essentials primes [] rows.rows).length +
      harmonic m * (C.card - (essentials primes [] rows.rows).length) := by
  have hleft : ∀ row ∈ leftByEssentials primes rows, ∃ q ∈ C, row ∈ q.minterms := by
    intro row hrow
    exact hcovers row (mem_leftByEssentials.1 hrow).1
  have hgreedy := length_choose_le_sum_harmonic hC hleft
  have hpaid := sum_harmonic_le hC hcovers fun q hq => by
    rw [leftByEssentials, gain_remaining]
    exact hm q hq
  rw [chosen_search, List.length_append, Nat.cast_add]
  linarith

/-- If each implicant covers at most one of the rows that the essential ones leave, then no cover is
smaller. -/
theorem length_chosen_le_card (hC : ∀ q ∈ C, q ∈ primes)
    (hcovers : ∀ row ∈ rows, ∃ q ∈ C, row ∈ q.minterms)
    (hone : ∀ q ∈ primes, newRows rows (essentials primes [] rows.rows) q ≤ 1) :
    (search primes rows).chosen.length ≤ C.card := by
  have hle := length_chosen_le_harmonic hC hcovers hone
  rw [harmonic_succ, harmonic_zero, Nat.cast_one, inv_one, zero_add, one_mul,
    add_sub_cancel] at hle
  exact_mod_cast hle

end Cover

open Cover

/-- A cover is at most a harmonic factor larger than any other one. The factor concerns the implicants
that are not essential, and the most new rows that any of them covers. If the essential implicants
cover all rows, or none covers more than one new row, then no cover is smaller. -/
theorem selectCover_within_harmonic (primes : List Implicant) (rows : RowSet)
    (hcovers : ∀ row ∈ rows, ∃ p ∈ primes, row ∈ p.minterms) :
    let essential := (search primes rows).essential
    let m := primes.toFinset.sup (newRows rows essential)
    ∃ cover, selectCover primes rows = .ok cover ∧
      ∀ C : Finset Implicant, (∀ p ∈ C, p ∈ primes) → (∀ row ∈ rows, ∃ p ∈ C, row ∈ p.minterms) →
        (∀ p ∈ essential, p ∈ C) ∧
        (cover.length : ℚ) ≤ essential.length + harmonic m * (C.card - essential.length) ∧
        ((∀ row ∈ rows, ∃ p ∈ essential, row ∈ p.minterms) ∨ m ≤ 1 → cover.length ≤ C.card) := by
  intro essential m
  have hm : ∀ q ∈ primes, newRows rows essential q ≤ m := by
    intro q hq
    exact le_sup (List.mem_toFinset.2 hq)
  refine ⟨_, selectCover_eq_ok hcovers, fun C hC hcoversC => ?_⟩
  refine ⟨essentials_subset hC hcoversC, length_chosen_le_harmonic hC hcoversC hm, fun hsmall => ?_⟩
  apply length_chosen_le_card hC hcoversC
  intro q hq
  rcases hsmall with hall | hone
  · -- nothing is left to cover
    exact (newRows_eq_zero hall q).trans_le (Nat.zero_le 1)
  · exact (hm q hq).trans hone

/-- The widest of these implicants takes two rows from each of two others, which would be enough
without it. -/
theorem selectCover_within_harmonic_widest :
    let primes := [[0, 1, 2], [1, 2, 3, 4], [3, 4, 5], [0], [5], [6]].map fun l : List Int =>
      Implicant.mk [] (.ofList l)
    let C := ([[0, 1, 2], [3, 4, 5], [6]].map fun l : List Int =>
      Implicant.mk [] (.ofList l)).toFinset
    let rows := RowSet.ofList [0, 1, 2, 3, 4, 5, 6]
    (∀ row ∈ rows, ∃ p ∈ primes, row ∈ p.minterms) ∧
    (∀ p ∈ C, p ∈ primes) ∧ (∀ row ∈ rows, ∃ p ∈ C, row ∈ p.minterms) ∧
    ∃ cover, selectCover primes rows = .ok cover ∧
      (cover.length : ℚ) ≤ 1 + harmonic 4 * (C.card - 1) := by
  intro primes C rows
  have hcovers : ∀ row ∈ rows.rows, ∃ p ∈ primes, row ∈ p.minterms := by decide
  have hC : ∀ p ∈ C, p ∈ primes := by decide
  have hcoversC : ∀ row ∈ rows.rows, ∃ p ∈ C, row ∈ p.minterms := by decide
  rcases selectCover_within_harmonic primes rows hcovers with ⟨cover, hcover, hall⟩
  rcases hall C hC hcoversC with ⟨-, hbound, -⟩
  -- the last implicant is the only essential one, and the widest covers four new rows
  have hessential : (search primes rows).essential = [⟨[], .ofList [6]⟩] := by decide
  have hm : primes.toFinset.sup (newRows rows [⟨[], .ofList [6]⟩]) = 4 := by decide
  rw [hessential, hm] at hbound
  refine ⟨hcovers, hC, hcoversC, cover, hcover, ?_⟩
  simpa using hbound

end PropCalc
