import PropCalc.Proofs.Merging
/-!
# The order of a round

In which order a round finds its terms. The terms of one number of ones come by their highest row,
and those with the same highest row by their lowest. Merging keeps this order, although a cube with
several open positions is found once for each of them: it counts where it is found first, which is
at its last open position. `pairwise_merged` is the result, `IsRound` says what holds of the terms
of a round.
-/

namespace PropCalc

/-! ## Orders of patterns -/

namespace Pattern

/-- The order of patterns with one number of ones: by the highest row, then by the lowest. -/
def Precedes (p q : Pattern) : Prop := p.high < q.high ∨ p.high = q.high ∧ p.low < q.low

/-- The order of patterns within a round: by the number of ones first. -/
def Earlier (p q : Pattern) : Prop := p.ones < q.ones ∨ p.ones = q.ones ∧ p.Precedes q

/-- The order of patterns in the whole search: by the number of open positions first. Terms without
open positions come by their rows. -/
def FoundBefore (p q : Pattern) : Prop :=
  p.dontCares < q.dontCares ∨
    p.dontCares = q.dontCares ∧ if p.dontCares = 0 then p.high < q.high else p.Earlier q

theorem FoundBefore.of_high {p q : Pattern} (hp : p.dontCares = 0) (hq : q.dontCares = 0)
    (h : p.high < q.high) : p.FoundBefore q := by
  refine .inr ⟨hp.trans hq.symm, ?_⟩
  rw [if_pos hp]
  exact h

theorem FoundBefore.of_earlier {p q : Pattern} (hp : p.dontCares ≠ 0)
    (hq : p.dontCares = q.dontCares) (h : p.Earlier q) : p.FoundBefore q := by
  refine .inr ⟨hq, ?_⟩
  rw [if_neg hp]
  exact h

theorem Earlier.asymm {p q : Pattern} (h : p.Earlier q) : ¬ q.Earlier p := by
  simp only [Earlier, Precedes] at h ⊢
  omega

theorem FoundBefore.asymm {p q : Pattern} (h : p.FoundBefore q) : ¬ q.FoundBefore p := by
  refine asymm_of_first (fun _ _ => Nat.lt_asymm) (fun hopen => ?_) h
  rw [← hopen]
  split
  · exact Nat.lt_asymm
  · exact Earlier.asymm

/-- Opening a position keeps the order of false halves, and of true halves of one false half, if the
later cube is opened at its last open position. -/
theorem earlier_open {u w u' w' : Pattern} (hp : IsProper (u ++ .dontCare :: w))
    (hq : IsProper (u' ++ .dontCare :: w'))
    (hlen : List.length (u ++ .dontCare :: w) = List.length (u' ++ .dontCare :: w'))
    (hopen : dontCares (u ++ .zero :: w) = dontCares (u' ++ .zero :: w'))
    (hlast : rowCount w'.length ≤ lastOpen (u' ++ .dontCare :: w'))
    (h : Earlier (u ++ .zero :: w) (u' ++ .zero :: w') ∨
      (u ++ .zero :: w = u' ++ .zero :: w' ∧ Precedes (u ++ .one :: w) (u' ++ .one :: w'))) :
    Earlier (u ++ .dontCare :: w) (u' ++ .dontCare :: w') := by
  have hones := ones_zero u w
  have hones' := ones_zero u' w'
  have hlow := low_zero u w
  have hlow' := low_zero u' w'
  have hhigh := high_zero u w
  have hhigh' := high_zero u' w'
  have hcount := dontCares_open (u := u) (w := w) (c := .zero) (by decide)
  have hcount' := dontCares_open (u := u') (w := w') (c := .zero) (by decide)
  simp only [Earlier, Precedes] at h ⊢
  rcases h with (hlt | ⟨heq, hlt | ⟨hsame, hlt⟩⟩) | ⟨hsame, hlt⟩
  · exact .inl (by omega)
  · exact .inr ⟨by omega, .inl (by omega)⟩
  · -- the cubes reach equally high; were the later not above, it would not be opened last
    refine .inr ⟨by omega, .inr ⟨by omega, Nat.lt_of_not_le fun hle => ?_⟩⟩
    have hmono := low_add_lastOpen_mono hp hq hlen (by omega) (by omega) (by omega) hle
    have hle' := lastOpen_le u w
    omega
  · -- one false half: the true halves decide
    have honesEq := congrArg ones hsame
    have hlowEq := congrArg low hsame
    have hhighEq := congrArg high hsame
    have hone := high_one u w
    have hone' := high_one u' w'
    have hlone := low_one u w
    have hlone' := low_one u' w'
    omega

end Pattern

namespace Primes

/-- Terms with the same number of ones come in order. -/
def LevelOrdered (terms : List Implicant) : Prop :=
  terms.Pairwise fun s t => s.pattern.ones = t.pattern.ones → s.pattern.Precedes t.pattern

theorem pairwise_level {terms : List Implicant} (h : LevelOrdered terms) (k : Nat) :
    (level terms k).Pairwise fun s t => s.pattern.Precedes t.pattern := by
  refine (List.Pairwise.filter _ h).imp_of_mem fun {s t} hs ht hst => hst ?_
  have hs := (List.mem_filter.1 hs).2
  have ht := (List.mem_filter.1 ht).2
  rw [beq_iff_eq] at hs ht
  -- both terms have the number of ones of the level
  rw [hs, ht]

/-! ## The order of the merges -/

/-- The order in which merges are made: by the lower term, then by the upper. -/
def Merge.Before (m m' : Merge) : Prop :=
  m.lower.pattern.Earlier m'.lower.pattern ∨
    m.lower = m'.lower ∧ m.upper.pattern.Precedes m'.upper.pattern

theorem Merge.Before.asymm {m m' : Merge} (h : m.Before m') : ¬ m'.Before m := by
  refine asymm_of_first (R := fun s t : Implicant => s.pattern.Earlier t.pattern)
    (fun _ _ => Pattern.Earlier.asymm) (fun _ => ?_) h
  simp only [Pattern.Precedes]
  omega

theorem lower_of_mem_mergesOf {m : Merge} {upper : List Implicant} {lower : Implicant}
    (h : m ∈ mergesOf upper lower) : m.lower = lower := by
  simp only [mergesOf, List.mem_filterMap, Option.map_eq_some_iff] at h
  rcases h with ⟨u, -, r, -, rfl⟩
  rfl

theorem ones_of_mem_level {t : Implicant} {terms : List Implicant} {k : Nat}
    (h : t ∈ level terms k) : t.pattern.ones = k :=
  beq_iff_eq.1 (List.mem_filter.1 h).2

/-- The merges of a round come in this order. -/
theorem pairwise_merges {terms : List Implicant} (h : LevelOrdered terms) :
    (merges terms).Pairwise Merge.Before := by
  rw [merges, List.pairwise_flatMap]
  constructor
  · intro k _
    rw [List.pairwise_flatMap]
    constructor
    · -- one lower term: its merges come by their upper terms
      intro lower _
      rw [mergesOf, List.pairwise_filterMap]
      refine (pairwise_level h (k + 1)).imp fun {s t} hst m hm m' hm' => ?_
      rcases Option.map_eq_some_iff.1 hm with ⟨r, -, rfl⟩
      rcases Option.map_eq_some_iff.1 hm' with ⟨r', -, rfl⟩
      exact .inr ⟨rfl, hst⟩
    · -- one number of ones: by the lower terms
      refine (pairwise_level h k).imp_of_mem fun {s t} hs ht hst m hm m' hm' => .inl (.inr ?_)
      rw [lower_of_mem_mergesOf hm, lower_of_mem_mergesOf hm', ones_of_mem_level hs,
        ones_of_mem_level ht]
      exact ⟨rfl, hst⟩
  · -- different numbers of ones: the lower level comes first
    refine List.pairwise_lt_range.imp fun {k k'} hlt m hm m' hm' => .inl (.inl ?_)
    rcases List.mem_flatMap.1 hm with ⟨s, hs, hm⟩
    rcases List.mem_flatMap.1 hm' with ⟨t, ht, hm'⟩
    rw [lower_of_mem_mergesOf hm, lower_of_mem_mergesOf hm', ones_of_mem_level hs,
      ones_of_mem_level ht]
    exact hlt

/-- The terms that a round keeps come from the first merges that lead to their patterns. -/
theorem exists_first_merges {ms : List Merge} (h : ms.Pairwise Merge.Before) :
    ∃ kept : List Merge, kept.Sublist ms ∧
      kept.map (·.result) = Implicant.firstOfPattern (ms.map (·.result)) ∧
      ∀ m ∈ kept, ∀ x ∈ ms, x.result.pattern = m.result.pattern → ¬ x.Before m := by
  induction ms with
  | nil => exact ⟨[], .slnil, rfl, by simp⟩
  | cons m ms ih =>
    rcases List.pairwise_cons.1 h with ⟨hm, hms⟩
    rcases ih hms with ⟨kept, hsub, hmap, hfirst⟩
    -- the first merge drops all later ones that lead to its pattern
    refine ⟨m :: kept.filter fun m' => m'.result.pattern != m.result.pattern,
      (List.filter_sublist.trans hsub).cons_cons m, ?_, ?_⟩
    · rw [List.map_cons, List.map_cons, Implicant.firstOfPattern, ← hmap, List.filter_map]
      rfl
    · intro m' hm' x hx hpattern hbefore
      rcases List.mem_cons.1 hm' with rfl | hm'
      · rcases List.mem_cons.1 hx with rfl | hx
        · exact hbefore.asymm hbefore
        · exact hbefore.asymm (hm x hx)
      · rcases List.mem_filter.1 hm' with ⟨hkept, hne⟩
        rcases List.mem_cons.1 hx with rfl | hx
        · simp [hpattern] at hne
        · exact hfirst m' hkept x hx hpattern hbefore

/-! ## The order of the results -/

/-- The terms of a round: all cubes inside the set with a number of open positions, in order. -/
structure IsRound (n : Nat) (S : RowSet) (r : Nat) (terms : List Implicant) : Prop where
  eq_ofPattern : ∀ t ∈ terms, t = .ofPattern t.pattern
  mem_iff : ∀ p, .ofPattern p ∈ terms ↔ Pattern.Implies n S p ∧ p.dontCares = r
  ordered : terms.Pairwise fun s t => s.pattern.FoundBefore t.pattern

variable {n r : Nat} {S : RowSet} {terms : List Implicant}

theorem IsRound.implies (h : IsRound n S r terms) {t : Implicant} (ht : t ∈ terms) :
    Pattern.Implies n S t.pattern ∧ t.pattern.dontCares = r := by
  refine (h.mem_iff t.pattern).1 ?_
  rw [← h.eq_ofPattern t ht]
  exact ht

theorem IsRound.areCubes (h : IsRound n S r terms) : AreCubes n terms := fun t ht =>
  ⟨h.eq_ofPattern t ht, (h.implies ht).1.length_eq, (h.implies ht).1.proper⟩

theorem IsRound.levelOrdered (h : IsRound n S r terms) : LevelOrdered terms := by
  refine h.ordered.imp_of_mem fun {s t} hs ht hbefore hones => ?_
  have hs := (h.implies hs).2
  have ht := (h.implies ht).2
  simp only [Pattern.FoundBefore, Pattern.Earlier, Pattern.Precedes] at hbefore ⊢
  -- within a round the number of open positions decides nothing
  split at hbefore <;> omega

/-- The halves of a cube are among the terms at each of its open positions, or at none. -/
theorem IsRound.halves_mem (h : IsRound n S r terms) {u w u' w' : Pattern}
    (heq : u ++ .dontCare :: w = u' ++ .dontCare :: w')
    (hzero : .ofPattern (u ++ .zero :: w) ∈ terms) (hone : .ofPattern (u ++ .one :: w) ∈ terms) :
    .ofPattern (u' ++ .zero :: w') ∈ terms ∧ .ofPattern (u' ++ .one :: w') ∈ terms := by
  rcases (h.mem_iff _).1 hzero with ⟨hizero, hopen⟩
  rcases (h.mem_iff _).1 hone with ⟨hione, -⟩
  have himplies := Pattern.implies_open_iff.2 ⟨hizero, hione⟩
  have hcount := congrArg Pattern.dontCares heq
  rw [heq, Pattern.implies_open_iff] at himplies
  rw [Pattern.dontCares_open (c := .zero) (by decide), hopen] at hcount
  have hzeroOpen := Pattern.dontCares_open (u := u') (w := w') (c := .zero) (by decide)
  have honeOpen := Pattern.dontCares_open (u := u') (w := w') (c := .one) (by decide)
  rw [h.mem_iff, h.mem_iff]
  exact ⟨⟨himplies.1, by omega⟩, himplies.2, by omega⟩

/-- The merge that comes first for its pattern is the one at the last open position. -/
theorem IsRound.rowCount_le_lastOpen (h : IsRound n S r terms) {m : Merge} {u w : Pattern}
    (hl : m.lower = .ofPattern (u ++ .zero :: w))
    (hr : m.result = .ofPattern (u ++ .dontCare :: w))
    (hzero : .ofPattern (u ++ .zero :: w) ∈ terms) (hone : .ofPattern (u ++ .one :: w) ∈ terms)
    (hfirst : ∀ x ∈ merges terms, x.result.pattern = m.result.pattern → ¬ x.Before m) :
    rowCount w.length ≤ Pattern.lastOpen (u ++ .dontCare :: w) := by
  obtain ⟨v, x, heq, hlast⟩ := Pattern.exists_lastOpen
    (p := u ++ .dontCare :: w) (by simp [Pattern.dontCares_cons])
  -- the merge at the last open position leads to the same pattern, so it does not come before
  rcases h.halves_mem heq hzero hone with ⟨hvzero, hvone⟩
  have hmem : ⟨.ofPattern (v ++ .zero :: x), .ofPattern (v ++ .one :: x),
      .ofPattern (v ++ .dontCare :: x)⟩ ∈ merges terms :=
    (mem_merges_iff h.areCubes).2 ⟨v, x, rfl, rfl, rfl, hvzero, hvone⟩
  have hnot : ¬ Pattern.Earlier (v ++ .zero :: x) (u ++ .zero :: w) := by
    intro hearlier
    refine hfirst _ hmem ?_ (.inl ?_)
    · rw [hr, heq]
    · rw [hl]
      exact hearlier
  -- both merges start from the same number of ones and the same highest row
  have hones := Pattern.ones_zero v x
  have hones' := Pattern.ones_zero u w
  have hlow := Pattern.low_zero v x
  have hlow' := Pattern.low_zero u w
  have hhigh := Pattern.high_zero v x
  have hhigh' := Pattern.high_zero u w
  rw [← heq] at hones hlow hhigh
  simp only [Pattern.Earlier, Pattern.Precedes] at hnot
  omega

/-- Of two merges, both first for their patterns, the later one leads to the later cube. -/
theorem IsRound.earlier_result (h : IsRound n S r terms) {m m' : Merge} (hm : m ∈ merges terms)
    (hm' : m' ∈ merges terms) (hbefore : m.Before m')
    (hfirst : ∀ x ∈ merges terms, x.result.pattern = m'.result.pattern → ¬ x.Before m') :
    m.result.pattern.Earlier m'.result.pattern := by
  rcases (mem_merges_iff h.areCubes).1 hm with ⟨u, w, hl, hu, hr, hlmem, humem⟩
  rcases (mem_merges_iff h.areCubes).1 hm' with ⟨u', w', hl', hu', hr', hlmem', humem'⟩
  rw [hl] at hlmem
  rw [hu] at humem
  rw [hl'] at hlmem'
  rw [hu'] at humem'
  rcases (h.mem_iff _).1 hlmem with ⟨hzero, hopen⟩
  rcases (h.mem_iff _).1 hlmem' with ⟨hzero', hopen'⟩
  have hwhole := Pattern.implies_open_iff.2 ⟨hzero, ((h.mem_iff _).1 humem).1⟩
  have hwhole' := Pattern.implies_open_iff.2 ⟨hzero', ((h.mem_iff _).1 humem').1⟩
  rw [hr, hr', Implicant.pattern_ofPattern, Implicant.pattern_ofPattern]
  refine Pattern.earlier_open hwhole.proper hwhole'.proper
    (hwhole.length_eq.trans hwhole'.length_eq.symm) (hopen.trans hopen'.symm)
    (h.rowCount_le_lastOpen hl' hr' hlmem' humem' hfirst) ?_
  rw [Merge.Before, hl, hl', hu, hu'] at hbefore
  -- with one lower term the false halves are one pattern, and the upper terms decide
  exact hbefore.imp id fun hsame => ⟨congrArg Implicant.pattern hsame.1, hsame.2⟩

/-- A round finds its terms in order. -/
theorem IsRound.pairwise_merged (h : IsRound n S r terms) :
    (merged terms).Pairwise fun s t => s.pattern.Earlier t.pattern := by
  have hms := pairwise_merges h.levelOrdered
  rcases exists_first_merges hms with ⟨kept, hsub, hmap, hfirst⟩
  rw [merged, ← hmap, List.pairwise_map]
  refine (hms.sublist hsub).imp_of_mem fun {m m'} hm hm' hbefore => ?_
  exact h.earlier_result (hsub.subset hm) (hsub.subset hm') hbefore (hfirst m' hm')

end Primes

end PropCalc
