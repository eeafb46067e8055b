import PropCalc.Minimize
import PropCalc.Proofs.Covering
import PropCalc.Proofs.PrimeSearch
/-!
# The minimal cover of a set of rows

Every row of a set lies in a prime, so the primes that the search returns make up the set
(`primeImplicants_exact`) and have a cover: `minimalCover`, whose terms are primes and together cover
exactly the set (`mem_iff_exists_minimalCover`). `minimize_eq_ok` says what becomes of it: one of
the two constants, or the sum of its terms.
-/

namespace PropCalc

variable {n : Nat} {S : RowSet}

/-! ## Primes above a cube -/

/-- Every cube inside the set lies in a prime. -/
theorem Pattern.Implies.exists_isPrime {p : Pattern} (h : p.Implies n S) :
    ∃ q : Pattern, q.IsPrime n S ∧ ∀ row ∈ p.rows, row ∈ q.rows := by
  obtain ⟨k, hk⟩ : ∃ k, p.dontCares + k = n := by
    have hle : p.dontCares ≤ p.length := List.count_le_length
    rw [h.length_eq] at hle
    exact ⟨n - p.dontCares, by omega⟩
  -- on the number of closed positions: a cube that is not prime can be opened once more
  induction k generalizing p with
  | zero =>
    -- all positions are open already
    refine ⟨p, ⟨h, fun u c w heq hc _ => ?_⟩, fun row hrow => hrow⟩
    have hall : ∀ c ∈ p, Cell.dontCare = c := List.count_eq_length.1 (hk.trans h.length_eq.symm)
    exact hc (hall c (by simp [heq])).symm
  | succ k ih =>
    by_cases hprime : p.IsPrime n S
    · exact ⟨p, hprime, fun row hrow => hrow⟩
    · rcases h.exists_open hprime with ⟨u, c, w, rfl, hc, hopen⟩
      have hcount : Pattern.dontCares (u ++ .dontCare :: w) + k = n := by
        rw [Pattern.dontCares_open hc]
        omega
      rcases ih hopen hcount with ⟨q, hq, hrows⟩
      refine ⟨q, hq, fun row hrow => hrows row ?_⟩
      rw [Pattern.mem_rows_open]
      -- the cube is one of the halves of what it is opened to
      rcases h.proper c (by simp) with rfl | rfl | rfl
      · exact .inr hrow
      · exact .inl hrow
      · exact absurd rfl hc

/-- Every row of the set lies in a prime. -/
theorem exists_primeImplicant (hS : ∀ row ∈ S, IsRow n row) {row : Int} (hrow : row ∈ S) :
    ∃ t ∈ primeImplicants n S, row ∈ t.minterms := by
  rcases (Pattern.implies_ofRow (hS row hrow) hrow).exists_isPrime with ⟨q, hq, hrows⟩
  refine ⟨.ofPattern q, (mem_primeImplicants hS).2 ⟨rfl, hq⟩, hrows row ?_⟩
  exact (Pattern.mem_rows_ofRow (hS row hrow)).2 rfl

/-- The search returns the primes of the set and nothing else, each pattern once and each with exactly
the rows that it covers. A pattern is among them when it covers at least one row and rows of the set
only, and when opening any other position lets a row from outside in. -/
theorem primeImplicants_exact (n : Nat) (S : RowSet) (hS : ∀ row ∈ S, IsRow n row) :
    ((primeImplicants n S).map (·.pattern)).Nodup ∧
    (∀ p : Pattern, p.length = n → p.IsProper →
      (p ∈ (primeImplicants n S).map (·.pattern) ↔
        (∀ row ∈ p.rows, row ∈ S) ∧ (∃ row, row ∈ p.rows) ∧
          ∀ u c w, p = u ++ c :: w → c ≠ .dontCare →
            ∃ row ∈ Pattern.rows (u ++ .dontCare :: w), row ∉ S)) ∧
    (∀ t ∈ primeImplicants n S, t.pattern.length = n ∧ t.pattern.IsProper ∧
      ∀ row, row ∈ t.minterms ↔ row ∈ t.pattern.rows) ∧
    ∀ row, row ∈ S ↔ ∃ t ∈ primeImplicants n S, row ∈ t.minterms := by
  have hcube : ∀ t ∈ primeImplicants n S, t.minterms = t.pattern.rows ∧ t.pattern.IsPrime n S := by
    intro t ht
    rcases (mem_primeImplicants hS).1 ht with ⟨heq, hprime⟩
    exact ⟨congrArg Implicant.minterms heq, hprime⟩
  refine ⟨nodup_patterns_primeImplicants hS, ?_, ?_, ?_⟩
  · intro p hlen hp
    have hmem : p ∈ (primeImplicants n S).map (·.pattern) ↔ p.IsPrime n S := by
      rw [List.mem_map]
      constructor
      · intro h
        rcases h with ⟨t, ht, rfl⟩
        exact (hcube t ht).2
      · intro h
        exact ⟨.ofPattern p, (mem_primeImplicants hS).2 ⟨rfl, h⟩, rfl⟩
    rw [hmem, Pattern.isPrime_iff hlen hp, and_iff_right hp.exists_mem_rows]
  · intro t ht
    rcases hcube t ht with ⟨hrows, hprime⟩
    exact ⟨hprime.length_eq, hprime.proper, fun row => by rw [hrows]⟩
  · intro row
    constructor
    · exact exists_primeImplicant hS
    · intro h
      rcases h with ⟨t, ht, hrow⟩
      rcases hcube t ht with ⟨hrows, hprime⟩
      rw [hrows] at hrow
      exact hprime.rows_subset row hrow

/-- The six primes of a cycle: each of the six rows lies in two of them. -/
theorem primeImplicants_exact_cycle :
    let S := RowSet.ofList [6, 1, 5, 0, 2, 6, 7]
    (∀ row ∈ S, IsRow 3 row) ∧
    ((primeImplicants 3 S).map (·.pattern)).Nodup ∧
    (∀ p : Pattern, p.length = 3 → p.IsProper →
      (p ∈ (primeImplicants 3 S).map (·.pattern) ↔
        (∀ row ∈ p.rows, row ∈ S) ∧ (∃ row, row ∈ p.rows) ∧
          ∀ u c w, p = u ++ c :: w → c ≠ .dontCare →
            ∃ row ∈ Pattern.rows (u ++ .dontCare :: w), row ∉ S)) ∧
    (∀ t ∈ primeImplicants 3 S, t.pattern.length = 3 ∧ t.pattern.IsProper ∧
      ∀ row, row ∈ t.minterms ↔ row ∈ t.pattern.rows) ∧
    ∀ row, row ∈ S ↔ ∃ t ∈ primeImplicants 3 S, row ∈ t.minterms := by
  intro S
  have hS : ∀ row ∈ S.rows, IsRow 3 row := by decide
  exact ⟨hS, primeImplicants_exact 3 S hS⟩

/-! ## The cover -/

/-- The primes chosen to cover a set of rows. -/
def minimalCover (n : Nat) (S : RowSet) : List Implicant :=
  (Cover.search (primeImplicants n S) S).chosen

theorem selectCover_primeImplicants (hS : ∀ row ∈ S, IsRow n row) :
    selectCover (primeImplicants n S) S = .ok (minimalCover n S) :=
  selectCover_eq_ok fun _ hrow => exists_primeImplicant hS hrow

theorem isPrime_of_mem_minimalCover (hS : ∀ row ∈ S, IsRow n row) {t : Implicant}
    (ht : t ∈ minimalCover n S) : t = .ofPattern t.pattern ∧ t.pattern.IsPrime n S :=
  (mem_primeImplicants hS).1 (Cover.mem_chosen ht)

/-- The chosen primes cover the set and nothing else. -/
theorem mem_iff_exists_minimalCover (hS : ∀ row ∈ S, IsRow n row) {row : Int} :
    row ∈ S ↔ ∃ t ∈ minimalCover n S, row ∈ t.pattern.rows := by
  constructor
  · intro hrow
    -- no row is left, as every row lies in a prime
    have hleft : row ∉ (Cover.search (primeImplicants n S) S).uncovered := by
      intro hleft
      rcases exists_primeImplicant hS hrow with ⟨t, ht, hcovers⟩
      exact (Cover.mem_uncovered.1 hleft).2 t ht hcovers
    rcases Cover.exists_chosen hrow hleft with ⟨t, ht, hcovers⟩
    rw [(isPrime_of_mem_minimalCover hS ht).1] at hcovers
    exact ⟨t, ht, hcovers⟩
  · intro h
    rcases h with ⟨t, ht, hcovers⟩
    exact (isPrime_of_mem_minimalCover hS ht).2.rows_subset row hcovers

/-! ## Minimization -/

/-- All rows of the table over `n` variables. -/
def allRows (n : Nat) : RowSet := rowsWhere n fun _ => true

theorem mem_allRows {row : Int} : row ∈ allRows n ↔ IsRow n row := by
  simp [allRows]

theorem size_allRows (n : Nat) : (allRows n).size = rowCount n := by
  have hasc : ((List.range (rowCount n)).map Int.ofNat).Pairwise (· < ·) := by
    rw [List.pairwise_map]
    exact List.pairwise_lt_range.imp fun hlt => Int.ofNat_lt.2 hlt
  have heq : allRows n = ⟨(List.range (rowCount n)).map Int.ofNat, hasc⟩ := by
    refine RowSet.ext_mem fun row => ?_
    have hfilter : (List.range (rowCount n)).filter (fun _ => true) = List.range (rowCount n) := by
      simp
    rw [allRows, rowsWhere, hfilter, RowSet.mem_ofList]
    rfl
  rw [heq, RowSet.size, List.length_map, List.length_range]

/-- A set has as many rows as the table exactly if it has them all. -/
theorem size_eq_rowCount_iff (hS : ∀ row ∈ S, IsRow n row) :
    S.size = rowCount n ↔ ∀ row, IsRow n row → row ∈ S := by
  -- the set is a part of the table, and equally large if no row is missing
  have hpart : S = (allRows n).filter fun row => row ∈ S := by
    refine RowSet.ext_mem fun row => ?_
    rw [RowSet.mem_filter, decide_eq_true_eq]
    exact ⟨fun hrow => ⟨mem_allRows.2 (hS row hrow), hrow⟩, fun hrow => hrow.2⟩
  have hcount : S.size = (allRows n).rows.countP fun row => row ∈ S := by
    rw [List.countP_eq_length_filter]
    exact congrArg RowSet.size hpart
  rw [hcount, ← size_allRows n, RowSet.size, List.countP_eq_length]
  simp only [decide_eq_true_eq]
  exact ⟨fun hall row hrow => hall row (mem_allRows.2 hrow),
    fun hall row hrow => hall row (mem_allRows.1 hrow)⟩

theorem outside_rows_eq_nil (hS : ∀ row ∈ S, IsRow n row) :
    (S.outside (rowCount n)).rows = [] := by
  refine List.eq_nil_iff_forall_not_mem.2 fun row hrow => ?_
  rcases List.mem_filter.1 hrow with ⟨hmem, hout⟩
  rcases hS row hmem with ⟨h0, hlt⟩
  simp [h0, hlt] at hout

/-- Within the table minimization succeeds: with a constant, or with the sum of the chosen primes. -/
theorem minimize_eq_ok {names : List String} (hS : ∀ row ∈ S, IsRow names.length row) :
    minimize names S = .ok
      (if S.rows = [] then Canonical.alwaysFalse
      else if S.size = rowCount names.length then Canonical.alwaysTrue
      else Canonical.sum ((minimalCover names.length S).map (·.term names))) := by
  unfold minimize
  -- neither of the two errors can occur
  rw [if_neg (by simp [outside_rows_eq_nil hS]), minimalTerms, selectCover_primeImplicants hS]
  split
  · rfl
  · split <;> rfl

end PropCalc
