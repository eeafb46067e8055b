import PropCalc.Proofs.MergeOrder
/-!
# The search for primes

What the rounds of the search come to. Every round holds exactly the cubes inside the set with one
more open position than the round before (`isRound_rows`, `IsRound.merged`), and the terms that it
leaves unmerged are the primes among them (`IsRound.mem_unmerged`). So the search finds all primes
and nothing else (`mem_primeImplicants`), in the order of `Pattern.FoundBefore`
(`pairwise_primeImplicants`).
-/

namespace PropCalc.Primes

open Pattern (Implies IsPrime)

variable {n r : Nat} {S : RowSet} {terms found : List Implicant}

/-! ## Rounds -/

/-- The search starts from the rows, which are the cubes without open positions. -/
theorem isRound_rows (hS : ∀ row ∈ S, IsRow n row) :
    IsRound n S 0 (S.rows.map (Implicant.ofRow n)) := by
  constructor
  · intro t ht
    rcases List.mem_map.1 ht with ⟨row, hrow, rfl⟩
    rw [Implicant.ofRow_eq_ofPattern (hS row hrow), Implicant.pattern_ofPattern]
  · intro p
    rw [List.mem_map]
    constructor
    · intro h
      rcases h with ⟨row, hrow, heq⟩
      rw [Implicant.ofRow_eq_ofPattern (hS row hrow)] at heq
      obtain rfl : Pattern.ofRow n row = p := congrArg Implicant.pattern heq
      exact ⟨Pattern.implies_ofRow (hS row hrow) hrow, Pattern.dontCares_ofRow n row⟩
    · intro h
      rcases h with ⟨hp, hopen⟩
      -- a pattern without open positions is that of a row, and this row is covered
      rcases hp.proper.eq_ofRow hopen with ⟨row, hrow, heq⟩
      rw [hp.length_eq] at hrow heq
      subst heq
      have hmem : row ∈ S := hp.rows_subset row ((Pattern.mem_rows_ofRow hrow).2 rfl)
      exact ⟨row, hmem, Implicant.ofRow_eq_ofPattern hrow⟩
  · rw [List.pairwise_map]
    refine S.ascending.imp_of_mem fun {a b} ha hb hlt => ?_
    have hhigh := Pattern.high_ofRow (hS a ha)
    have hhigh' := Pattern.high_ofRow (hS b hb)
    have hlow : (Pattern.ofRow n a).high < (Pattern.ofRow n b).high := by omega
    exact .of_high (Pattern.dontCares_ofRow n a) (Pattern.dontCares_ofRow n b) hlow

/-- One round leads to the cubes with one more open position. -/
theorem IsRound.merged (h : IsRound n S r terms) : IsRound n S (r + 1) (merged terms) := by
  have hmem : ∀ p, .ofPattern p ∈ Primes.merged terms ↔ Implies n S p ∧ p.dontCares = r + 1 := by
    intro p
    rw [mem_merged_iff h.areCubes]
    constructor
    · intro h
      -- both halves lie inside the set, so their union does
      rcases h with ⟨u, w, heq, hzero, hone⟩
      obtain rfl : p = u ++ .dontCare :: w := congrArg Implicant.pattern heq
      rcases (h.mem_iff _).1 hzero with ⟨hzero, hopen⟩
      rcases (h.mem_iff _).1 hone with ⟨hone, -⟩
      refine ⟨Pattern.implies_open_iff.2 ⟨hzero, hone⟩, ?_⟩
      rw [Pattern.dontCares_open (c := .zero) (by decide), hopen]
    · intro h
      rcases h with ⟨hp, hopen⟩
      -- any open position will do: closed either way, the cube is one of this round
      rcases Pattern.exists_lastOpen (p := p) (by omega) with ⟨u, w, rfl, -⟩
      rcases Pattern.implies_open_iff.1 hp with ⟨hzero, hone⟩
      have hclosed := fun c => Pattern.dontCares_open (u := u) (c := c) (w := w)
      have hzeroOpen := hclosed .zero (by decide)
      have honeOpen := hclosed .one (by decide)
      exact ⟨u, w, rfl, (h.mem_iff _).2 ⟨hzero, by omega⟩, (h.mem_iff _).2 ⟨hone, by omega⟩⟩
  constructor
  · intro t ht
    rcases (mem_merged_iff h.areCubes).1 ht with ⟨u, w, rfl, -⟩
    rfl
  · exact hmem
  · -- merges are found in the order of the cubes that they make
    refine h.pairwise_merged.imp_of_mem fun {s t} hs ht hearlier => ?_
    rcases (mem_merged_iff h.areCubes).1 hs with ⟨u, w, rfl, -⟩
    rcases (mem_merged_iff h.areCubes).1 ht with ⟨u', w', rfl, -⟩
    have hopen := ((hmem _).1 hs).2
    have hopen' := ((hmem _).1 ht).2
    exact .of_earlier (fun hzero => Nat.succ_ne_zero r (hopen.symm.trans hzero))
      (hopen.trans hopen'.symm) hearlier

/-! ## Primes of a round -/

/-- The terms that merge are those that are not prime. -/
theorem IsRound.mem_usedPatterns (h : IsRound n S r terms) {t : Implicant} (ht : t ∈ terms) :
    t.pattern ∈ usedPatterns terms ↔ ¬ IsPrime n S t.pattern := by
  simp only [usedPatterns, List.mem_flatMap, List.mem_cons, List.not_mem_nil, or_false]
  constructor
  · rintro ⟨m, hm, hpattern⟩ hprime
    rcases (mem_merges_iff h.areCubes).1 hm with ⟨u, w, hl, hu, -, hlmem, humem⟩
    rw [hl] at hpattern hlmem
    rw [hu] at hpattern humem
    have hwhole := Pattern.implies_open_iff.2
      ⟨((h.mem_iff _).1 hlmem).1, ((h.mem_iff _).1 humem).1⟩
    -- either half could be opened at the position that was merged
    rcases hpattern with hpattern | hpattern
    · exact hprime.maximal u .zero w hpattern (by simp) hwhole
    · exact hprime.maximal u .one w hpattern (by simp) hwhole
  · intro hprime
    rcases h.implies ht with ⟨himplies, hopen⟩
    rcases himplies.exists_open hprime with ⟨u, c, w, heq, hc, hwhole⟩
    rcases Pattern.implies_open_iff.1 hwhole with ⟨hzero, hone⟩
    have hproper : c.IsProper := himplies.proper c (by simp [heq])
    -- whatever closes the position, the other open positions are those of the term
    have hclosed : ∀ c' ≠ Cell.dontCare, Pattern.dontCares (u ++ c' :: w) = r := by
      intro c' hc'
      have hterm := Pattern.dontCares_open (u := u) (c := c) (w := w) hc
      have hother := Pattern.dontCares_open (u := u) (c := c') (w := w) hc'
      rw [heq] at hopen
      omega
    have hmem : ⟨.ofPattern (u ++ .zero :: w), .ofPattern (u ++ .one :: w),
        .ofPattern (u ++ .dontCare :: w)⟩ ∈ merges terms := by
      refine (mem_merges_iff h.areCubes).2 ⟨u, w, rfl, rfl, rfl, ?_, ?_⟩
      · exact (h.mem_iff _).2 ⟨hzero, hclosed .zero (by decide)⟩
      · exact (h.mem_iff _).2 ⟨hone, hclosed .one (by decide)⟩
    refine ⟨_, hmem, ?_⟩
    rcases hproper with rfl | rfl | rfl
    · exact .inr heq
    · exact .inl heq
    · exact absurd rfl hc

/-- The primes found before a round: those with fewer open positions, in order. -/
structure IsFound (n : Nat) (S : RowSet) (r : Nat) (found : List Implicant) : Prop where
  mem_iff : ∀ t, t ∈ found ↔
    t = .ofPattern t.pattern ∧ IsPrime n S t.pattern ∧ t.pattern.dontCares < r
  ordered : found.Pairwise fun s t => s.pattern.FoundBefore t.pattern

theorem firstOfPattern_sublist (ts : List Implicant) :
    (Implicant.firstOfPattern ts).Sublist ts := by
  induction ts with
  | nil => exact .slnil
  | cons t ts ih => exact (List.filter_sublist.trans ih).cons_cons t

/-- The terms that a round leaves unmerged are its primes. -/
theorem IsRound.mem_unmerged (h : IsRound n S r terms) (hfound : IsFound n S r found)
    {t : Implicant} : t ∈ unmerged found terms ↔ t ∈ terms ∧ IsPrime n S t.pattern := by
  have hfilter : ∀ t, t ∈ terms.filter (fun t => !(usedPatterns terms).contains t.pattern &&
      !(found.map (·.pattern)).contains t.pattern) ↔ t ∈ terms ∧ IsPrime n S t.pattern := by
    intro t
    rw [List.mem_filter]
    refine and_congr_right fun ht => ?_
    have hused := h.mem_usedPatterns ht
    -- what was found before has fewer open positions
    have hnew : t.pattern ∉ found.map (·.pattern) := by
      intro hmem
      rcases List.mem_map.1 hmem with ⟨s, hs, hst⟩
      have hlt := ((hfound.mem_iff s).1 hs).2.2
      rw [hst, (h.implies ht).2] at hlt
      omega
    simp only [Bool.and_eq_true, Bool.not_eq_true', List.contains_eq_mem, decide_eq_false_iff_not,
      hused, hnew, Classical.not_not, not_false_eq_true, and_true]
  -- leaving out repeated patterns loses nothing, as a pattern determines its term
  rw [unmerged, mem_firstOfPattern_iff, hfilter]
  intro s hs
  exact h.eq_ofPattern s (List.mem_filter.1 hs).1

/-- After a round the primes with its number of open positions are found as well. -/
theorem IsRound.isFound (h : IsRound n S r terms) (hfound : IsFound n S r found) :
    IsFound n S (r + 1) (found ++ unmerged found terms) := by
  constructor
  · intro t
    rw [List.mem_append, hfound.mem_iff, h.mem_unmerged hfound]
    constructor
    · intro h
      rcases h with ⟨heq, hprime, hlt⟩ | ⟨hmem, hprime⟩
      · exact ⟨heq, hprime, by omega⟩
      · have hopen := (h.implies hmem).2
        exact ⟨h.eq_ofPattern t hmem, hprime, by omega⟩
    · intro h
      rcases h with ⟨heq, hprime, hlt⟩
      by_cases hopen : t.pattern.dontCares = r
      · refine .inr ⟨?_, hprime⟩
        rw [heq]
        exact (h.mem_iff _).2 ⟨hprime.toImplies, hopen⟩
      · exact .inl ⟨heq, hprime, by omega⟩
  · -- the new primes have more open positions than those found before
    rw [List.pairwise_append]
    refine ⟨hfound.ordered, h.ordered.sublist ?_, fun s hs t ht => .inl ?_⟩
    · exact (firstOfPattern_sublist _).trans List.filter_sublist
    · have hlt := ((hfound.mem_iff s).1 hs).2.2
      have hopen := (h.implies ((h.mem_unmerged hfound).1 ht).1).2
      omega

/-! ## The run -/

/-- When a round has no terms, no cube inside the set has as many open positions, or more. -/
theorem IsRound.dontCares_lt (h : IsRound n S r []) {p : Pattern} (hp : Implies n S p) :
    p.dontCares < r := by
  refine Nat.lt_of_not_le fun hle => ?_
  obtain ⟨k, hk⟩ : ∃ k, p.dontCares = r + k := ⟨p.dontCares - r, by omega⟩
  induction k generalizing p with
  | zero =>
    have hmem := (h.mem_iff p).2 ⟨hp, hk⟩
    simp at hmem
  | succ k ih =>
    -- closing a position stays inside the set
    rcases Pattern.exists_lastOpen (p := p) (by omega) with ⟨u, w, rfl, -⟩
    have hclosed : Pattern.dontCares (u ++ .zero :: w) = r + k := by
      rw [Pattern.dontCares_open (c := .zero) (by decide)] at hk
      omega
    exact ih (Pattern.implies_open_iff.1 hp).1 (by omega) hclosed

/-- From any round on, the search ends with all primes found. -/
theorem isFound_roundsFrom (h : IsRound n S r terms) (hfound : IsFound n S r found) :
    ∃ k, IsRound n S k [] ∧
      IsFound n S k (((roundsFrom found terms).getLast?.map (·.primes)).getD found) := by
  -- along the rounds: `IsRound` holds of the terms and `IsFound` of the primes at each of them
  induction found, terms using roundsFrom.induct generalizing r with
  | case1 found =>
    rw [roundsFrom]
    exact ⟨r, h, hfound⟩
  | case2 found terms hne next found' =>
    rename_i ih
    rw [roundsFrom, dif_neg hne, List.getLast?_cons]
    rcases ih h.merged (h.isFound hfound) with ⟨k, hlast, hall⟩
    refine ⟨k, hlast, ?_⟩
    cases hrest : (roundsFrom (found ++ unmerged found terms) (Primes.merged terms)).getLast? with
    | none =>
      rw [hrest] at hall
      exact hall
    | some last =>
      rw [hrest] at hall
      exact hall

end PropCalc.Primes

namespace PropCalc

variable {n : Nat} {S : RowSet}

theorem isFound_primeImplicants (hS : ∀ row ∈ S, IsRow n row) :
    ∃ k, Primes.IsRound n S k [] ∧ Primes.IsFound n S k (primeImplicants n S) := by
  have hstart : Primes.IsFound n S 0 [] := ⟨by simp, .nil⟩
  rcases Primes.isFound_roundsFrom (Primes.isRound_rows hS) hstart with ⟨k, hlast, hall⟩
  refine ⟨k, hlast, ?_⟩
  unfold primeImplicants Primes.ofRounds Primes.rounds
  split
  · next hnone =>
    rw [hnone] at hall
    exact hall
  · next last hsome =>
    rw [hsome] at hall
    exact hall

/-- The search finds the primes of the set, each with the rows that it covers. -/
theorem mem_primeImplicants (hS : ∀ row ∈ S, IsRow n row) {t : Implicant} :
    t ∈ primeImplicants n S ↔ t = .ofPattern t.pattern ∧ t.pattern.IsPrime n S := by
  rcases isFound_primeImplicants hS with ⟨k, hlast, hall⟩
  rw [hall.mem_iff]
  constructor
  · intro h
    rcases h with ⟨heq, hprime, -⟩
    exact ⟨heq, hprime⟩
  · intro h
    rcases h with ⟨heq, hprime⟩
    exact ⟨heq, hprime, hlast.dontCares_lt hprime.toImplies⟩

/-- The search finds the primes in order. -/
theorem pairwise_primeImplicants (hS : ∀ row ∈ S, IsRow n row) :
    (primeImplicants n S).Pairwise fun s t => s.pattern.FoundBefore t.pattern := by
  rcases isFound_primeImplicants hS with ⟨k, -, hall⟩
  exact hall.ordered

/-- No pattern is found twice. -/
theorem nodup_patterns_primeImplicants (hS : ∀ row ∈ S, IsRow n row) :
    ((primeImplicants n S).map (·.pattern)).Nodup := by
  apply nodup_of_asymm (R := Pattern.FoundBefore) fun _ _ => Pattern.FoundBefore.asymm
  exact List.pairwise_map.2 (pairwise_primeImplicants hS)

end PropCalc
