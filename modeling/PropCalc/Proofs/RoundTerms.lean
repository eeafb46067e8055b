import Mathlib.Data.List.Perm.Subperm
import Mathlib.Logic.Function.Iterate
import PropCalc.Proofs.AllPairs
/-!
# The terms of a round

What holds of the terms in each round of a search, whatever rows it starts from: they may be negative
or lie beyond the table, so that several of them have one pattern.

* `roundTerms_succ` — each round goes on with what the one before merged, and
  `roundTerms_eq_nil_iff` says when the search ends;
* `IsRoundTerm.merge` — merging two terms of a round gives a term of the next;
* `isRoundTerm_roundTerms` — so every term of a round has as many open positions as there were rounds
  before it, and `mem_patterns_roundTerms` says which cubes they are;
* `rounds_end_within_width` — and there are at most as many rounds as that allows.
-/

namespace PropCalc

/-- Two sets together have at most as many rows as both of them. -/
theorem RowSet.size_union_le (s t : RowSet) : (s.union t).size ≤ s.size + t.size := by
  have hsubset : (s.union t).rows ⊆ s.rows ++ t.rows := by
    intro row hrow
    exact List.mem_append.2 (mem_union.1 hrow)
  -- the union lists every row once, and each comes from one of the two lists
  have hle := ((s.union t).nodup.subperm hsubset).length_le
  rwa [List.length_append] at hle

/-- What is kept of several terms has different patterns. -/
theorem Implicant.nodup_patterns_firstOfPattern (ts : List Implicant) :
    ((firstOfPattern ts).map (·.pattern)).Nodup := by
  induction ts with
  | nil => exact .nil
  | cons t ts ih =>
    rw [firstOfPattern, List.map_cons, List.nodup_cons]
    constructor
    · intro hmem
      rcases List.mem_map.1 hmem with ⟨s, hs, heq⟩
      exact bne_iff_ne.1 (List.mem_filter.1 hs).2 heq
    · exact ih.sublist (List.filter_sublist.map _)

namespace Primes

variable {n r : Nat} {S : RowSet} {found terms : List Implicant}

/-! ## Rounds -/

/-- The terms that a search from the given ones has in each round; the first round has number zero.
There are none behind the last round. -/
def termsFrom (found terms : List Implicant) : Nat → List Implicant
  | 0 => terms
  | r + 1 => ((roundsFrom found terms)[r]?.map (·.merged)).getD []

/-- The terms in each round of the search over a set of rows. -/
def roundTerms (n : Nat) (S : RowSet) (r : Nat) : List Implicant :=
  termsFrom [] (S.rows.map (Implicant.ofRow n)) r

theorem merged_nil : merged [] = [] := rfl

theorem termsFrom_eq_iterate (found terms : List Implicant) (r : Nat) :
    termsFrom found terms r = merged^[r] terms := by
  cases r with
  | zero => rfl
  | succ r =>
    rw [termsFrom]
    -- along the rounds; where no terms are left, to merge once more changes nothing
    induction found, terms using roundsFrom.induct generalizing r with
    | case1 found =>
      rw [roundsFrom, dif_pos rfl, Function.iterate_fixed merged_nil]
      rfl
    | case2 found terms hne next found' ih =>
      rw [roundsFrom, dif_neg hne, Function.iterate_succ_apply]
      cases r with
      | zero => rfl
      | succ r => exact ih r

/-- The search goes on for as long as there are terms. -/
theorem iterate_merged_eq_nil_iff (found terms : List Implicant) (r : Nat) :
    merged^[r] terms = [] ↔ (roundsFrom found terms).length ≤ r := by
  induction found, terms using roundsFrom.induct generalizing r with
  | case1 found =>
    rw [roundsFrom, dif_pos rfl, Function.iterate_fixed merged_nil]
    exact iff_of_true rfl (Nat.zero_le r)
  | case2 found terms hne next found' ih =>
    rw [roundsFrom, dif_neg hne, List.length_cons]
    cases r with
    | zero => exact iff_of_false hne (Nat.not_succ_le_zero _)
    | succ r =>
      rw [Function.iterate_succ_apply, Nat.succ_le_succ_iff]
      exact ih r

/-- A round goes on with what the one before merged. -/
theorem roundTerms_succ (n : Nat) (S : RowSet) (r : Nat) :
    roundTerms n S (r + 1) = merged (roundTerms n S r) := by
  rw [roundTerms, roundTerms, termsFrom_eq_iterate, termsFrom_eq_iterate,
    Function.iterate_succ_apply']

theorem roundTerms_eq_nil_iff : roundTerms n S r = [] ↔ (rounds n S).length ≤ r := by
  rw [roundTerms, termsFrom_eq_iterate]
  exact iterate_merged_eq_nil_iff [] _ r

/-! ## Terms -/

/-- What a term of a round looks like: it has as many open positions as there were rounds before,
and its rows, at most as many as a table over the open positions has, are rows of the set whose
patterns lie in its own. -/
structure IsRoundTerm (n : Nat) (S : RowSet) (r : Nat) (t : Implicant) : Prop where
  isOver : t.pattern.IsOver n
  dontCares_eq : t.pattern.dontCares = r
  size_le : t.minterms.size ≤ rowCount r
  mem_of_mem : ∀ row ∈ t.minterms, row ∈ S
  within : ∀ row ∈ t.minterms, (Pattern.ofRow n row).Within t.pattern

theorem isRoundTerm_ofRow {row : Int} (h : row ∈ S) : IsRoundTerm n S 0 (.ofRow n row) where
  isOver := ⟨Pattern.length_ofRow n row, Pattern.isProper_ofRow n row⟩
  dontCares_eq := Pattern.dontCares_ofRow n row
  size_le := Nat.le_refl 1
  mem_of_mem r hr := by
    obtain rfl := List.mem_singleton.1 (RowSet.mem_ofList.1 hr)
    exact h
  within r hr := by
    obtain rfl := List.mem_singleton.1 (RowSet.mem_ofList.1 hr)
    exact Pattern.Within.refl _

/-- Merging opens one more position and at most doubles the rows. -/
theorem IsRoundTerm.merge {s t m : Implicant} (hs : IsRoundTerm n S r s) (ht : IsRoundTerm n S r t)
    (h : s.merge? t = some m) : IsRoundTerm n S (r + 1) m := by
  rcases (Implicant.merge?_eq_some_iff_isJoin hs.isOver ht.isOver).1 h with ⟨hjoin, hminterms⟩
  -- the merged term has the rows of both and a cube around both
  have hrows : ∀ row ∈ m.minterms, row ∈ s.minterms ∨ row ∈ t.minterms := by
    intro row hrow
    rwa [hminterms, RowSet.mem_union] at hrow
  refine ⟨hjoin.isOver, ?_, ?_, fun row hrow => ?_, fun row hrow => ?_⟩
  · rw [hjoin.dontCares_left, hs.dontCares_eq]
  · have hunion := RowSet.size_union_le s.minterms t.minterms
    have hsize := hs.size_le
    have hsize' := ht.size_le
    rw [hminterms, rowCount_succ]
    omega
  · exact (hrows row hrow).elim (hs.mem_of_mem row) (ht.mem_of_mem row)
  · rcases hrows row hrow with hrow | hrow
    · exact (hs.within row hrow).trans (hjoin.within hs.isOver)
    · exact (ht.within row hrow).trans (hjoin.symm.within ht.isOver)

theorem isRoundTerm_merged (h : ∀ t ∈ terms, IsRoundTerm n S r t) :
    ∀ t ∈ merged terms, IsRoundTerm n S (r + 1) t := by
  intro t ht
  rcases List.mem_map.1 (Implicant.mem_of_mem_firstOfPattern ht) with ⟨m, hm, rfl⟩
  rcases mem_of_mem_merges hm with ⟨hl, hu, hr⟩
  exact (h _ hl).merge (h _ hu) hr

theorem isRoundTerm_roundTerms (n : Nat) (S : RowSet) (r : Nat) :
    ∀ t ∈ roundTerms n S r, IsRoundTerm n S r t := by
  induction r with
  | zero =>
    intro t ht
    rcases List.mem_map.1 ht with ⟨row, hrow, rfl⟩
    exact isRoundTerm_ofRow hrow
  | succ r ih =>
    rw [roundTerms_succ]
    exact isRoundTerm_merged ih

/-- A term cannot have more open positions than positions. -/
theorem roundTerms_eq_nil (h : n < r) : roundTerms n S r = [] := by
  refine List.eq_nil_iff_forall_not_mem.2 fun t ht => ?_
  have hterm := isRoundTerm_roundTerms n S r t ht
  have hle : t.pattern.dontCares ≤ t.pattern.length := List.count_le_length
  rw [hterm.dontCares_eq, hterm.isOver.length_eq] at hle
  omega

/-! ## Patterns -/

/-- The cube is over `n` variables, and every row in it has the pattern of some row of the set. -/
structure IsSpanned (n : Nat) (S : RowSet) (p : Pattern) : Prop where
  isOver : p.IsOver n
  exists_mem : ∀ row : Int, (Pattern.ofRow n row).Within p →
    ∃ given ∈ S, Pattern.ofRow n given = Pattern.ofRow n row

/-- The cubes without open positions that are spanned are the patterns of the set. -/
theorem isSpanned_closed_iff {p : Pattern} :
    (IsSpanned n S p ∧ p.dontCares = 0) ↔ ∃ row ∈ S, Pattern.ofRow n row = p := by
  constructor
  · intro h
    rcases h with ⟨hspanned, hclosed⟩
    -- a closed cube is the pattern of a row, which has the pattern of some given row
    rcases hspanned.isOver.proper.eq_ofRow hclosed with ⟨row, -, heq⟩
    rw [hspanned.isOver.length_eq] at heq
    rw [heq]
    refine hspanned.exists_mem row ?_
    rw [← heq]
    exact Pattern.Within.refl p
  · intro h
    rcases h with ⟨row, hrow, rfl⟩
    have hclosed := Pattern.dontCares_ofRow n row
    refine ⟨⟨⟨Pattern.length_ofRow n row, Pattern.isProper_ofRow n row⟩, fun r hr => ?_⟩, hclosed⟩
    exact ⟨row, hrow, (hr.eq_of_dontCares_le (by omega)).symm⟩

/-- An open cube is spanned when both of its halves are. -/
theorem isSpanned_open_iff {u w : Pattern} : IsSpanned n S (u ++ .dontCare :: w) ↔
    IsSpanned n S (u ++ .zero :: w) ∧ IsSpanned n S (u ++ .one :: w) := by
  constructor
  · intro h
    refine ⟨⟨h.isOver.replace (by decide), fun row hrow => ?_⟩,
      h.isOver.replace (by decide), fun row hrow => ?_⟩
    · exact h.exists_mem row (hrow.trans (Pattern.within_open u .zero w))
    · exact h.exists_mem row (hrow.trans (Pattern.within_open u .one w))
  · intro h
    refine ⟨h.1.isOver.replace (by decide), fun row hrow => ?_⟩
    -- the row lies in one of the halves
    rw [Pattern.ofRow_within_iff, Pattern.meets_open, ← Pattern.ofRow_within_iff,
      ← Pattern.ofRow_within_iff] at hrow
    exact hrow.elim (h.1.exists_mem row) (h.2.exists_mem row)

/-- A round leads to the open cubes both of whose halves it has. -/
theorem mem_patterns_merged_iff (h : ∀ t ∈ terms, t.pattern.IsOver n) {p : Pattern} :
    p ∈ (merged terms).map (·.pattern) ↔ ∃ u w, p = u ++ .dontCare :: w ∧
      u ++ .zero :: w ∈ terms.map (·.pattern) ∧ u ++ .one :: w ∈ terms.map (·.pattern) := by
  rw [mem_patterns_merged, exists_merge_iff h fun m => Iff.rfl]
  constructor
  · intro hex
    rcases hex with ⟨m, hm, rfl⟩
    rcases mem_allMerges.1 hm with ⟨hl, hu, hr⟩
    rcases Option.map_eq_some_iff.1 hr with ⟨p, hp, hresult⟩
    rcases (Pattern.merge?_eq_some_iff_ofBool (h _ hl) (h _ hu)).1 hp with ⟨u, b, w, hlw, huw, rfl⟩
    have hlower := List.mem_map_of_mem (f := (·.pattern)) hl
    have hupper := List.mem_map_of_mem (f := (·.pattern)) hu
    rw [hlw] at hlower
    rw [huw] at hupper
    refine ⟨u, w, by rw [← hresult], ?_⟩
    -- either of the two terms may be the false half
    cases b with
    | false => exact ⟨hlower, hupper⟩
    | true => exact ⟨hupper, hlower⟩
  · intro hex
    rcases hex with ⟨u, w, rfl, hzero, hone⟩
    rcases List.mem_map.1 hzero with ⟨s, hs, hsw⟩
    rcases List.mem_map.1 hone with ⟨t, ht, htw⟩
    have hp : s.pattern.merge? t.pattern = some (u ++ .dontCare :: w) :=
      (Pattern.merge?_eq_some_iff_ofBool (h s hs) (h t ht)).2 ⟨u, false, w, hsw, htw, rfl⟩
    refine ⟨⟨s, t, ⟨u ++ .dontCare :: w, s.minterms.union t.minterms⟩⟩, mem_allMerges.2 ?_, rfl⟩
    exact ⟨hs, ht, Option.map_eq_some_iff.2 ⟨_, hp, rfl⟩⟩

/-- The patterns of a round are the cubes with its number of open positions that the set spans. -/
theorem mem_patterns_roundTerms {p : Pattern} :
    p ∈ (roundTerms n S r).map (·.pattern) ↔ IsSpanned n S p ∧ p.dontCares = r := by
  induction r generalizing p with
  | zero =>
    rw [isSpanned_closed_iff, roundTerms, termsFrom, List.map_map, List.mem_map]
    exact Iff.rfl
  | succ r ih =>
    have hover : ∀ t ∈ roundTerms n S r, t.pattern.IsOver n :=
      fun t ht => (isRoundTerm_roundTerms n S r t ht).isOver
    rw [roundTerms_succ, mem_patterns_merged_iff hover]
    constructor
    · intro h
      rcases h with ⟨u, w, rfl, hzero, hone⟩
      rcases ih.1 hzero with ⟨hzero, hopen⟩
      refine ⟨isSpanned_open_iff.2 ⟨hzero, (ih.1 hone).1⟩, ?_⟩
      rw [Pattern.dontCares_open (c := .zero) (by decide), hopen]
    · intro h
      rcases h with ⟨hspanned, hopen⟩
      -- any open position would do, as the halves are spanned at each of them
      rcases Pattern.exists_lastOpen (p := p) (by omega) with ⟨u, w, rfl, -⟩
      rcases isSpanned_open_iff.1 hspanned with ⟨hzero, hone⟩
      have hzeroOpen := Pattern.dontCares_open (u := u) (w := w) (c := .zero) (by decide)
      have honeOpen := Pattern.dontCares_open (u := u) (w := w) (c := .one) (by decide)
      exact ⟨u, w, rfl, ih.2 ⟨hzero, by omega⟩, ih.2 ⟨hone, by omega⟩⟩

/-- A search over any rows, also rows outside the table, has at most one round more than there are
variables. It ends as soon as no terms are left. The terms of a round have as many open positions as
there were rounds before, all with different patterns after the first round, and each with rows of
the set whose patterns lie in its own. Their patterns are all cubes with so many open positions that
the set spans. -/
theorem rounds_end_within_width (n : Nat) (S : RowSet) :
    (rounds n S).length ≤ n + 1 ∧
    (∀ r, roundTerms n S r = [] ↔ (rounds n S).length ≤ r) ∧
    (∀ r, n < r → roundTerms n S r = []) ∧
    ∀ r, (r ≠ 0 → ((roundTerms n S r).map (·.pattern)).Nodup) ∧
      (∀ t ∈ roundTerms n S r, IsRoundTerm n S r t) ∧
      ∀ p, p ∈ (roundTerms n S r).map (·.pattern) ↔ IsSpanned n S p ∧ p.dontCares = r := by
  refine ⟨?_, fun r => roundTerms_eq_nil_iff, fun r => roundTerms_eq_nil,
    fun r => ⟨fun hr => ?_, isRoundTerm_roundTerms n S r, fun p => mem_patterns_roundTerms⟩⟩
  · exact roundTerms_eq_nil_iff.1 (roundTerms_eq_nil (Nat.lt_succ_self n))
  · obtain ⟨k, rfl⟩ := Nat.exists_eq_succ_of_ne_zero hr
    rw [roundTerms_succ, merged]
    exact Implicant.nodup_patterns_firstOfPattern _

/-- Rows from outside the table, so that every pattern of the first round comes twice. -/
theorem rounds_end_within_width_outside :
    let S := RowSet.ofList [5, -1, 0, 3, 4, 1]
    let t : Implicant := ⟨.ofString "-0", .ofList [-1, 1]⟩
    (rounds 2 S).length ≤ 3 ∧ 2 < 3 ∧ roundTerms 2 S 3 = [] ∧ 1 ≠ 0 ∧
      ((roundTerms 2 S 1).map (·.pattern)).Nodup ∧ t ∈ roundTerms 2 S 1 ∧ IsRoundTerm 2 S 1 t ∧
      IsSpanned 2 S t.pattern := by
  intro S t
  rcases rounds_end_within_width 2 S with ⟨hlength, -, hend, hround⟩
  rcases hround 1 with ⟨hnodup, hterms, hpatterns⟩
  have ht : t ∈ roundTerms 2 S 1 := by
    rw [roundTerms_succ]
    decide
  exact ⟨hlength, by decide, hend 3 (by decide), by decide, hnodup (by decide), ht, hterms t ht,
    ((hpatterns _).1 (List.mem_map_of_mem ht)).1⟩

end Primes

end PropCalc
