import PropCalc.Proofs.CubeInclusion
import PropCalc.Proofs.Merging
/-!
# Merging all pairs

A round only tries to merge terms whose numbers of ones differ by one. To try every term with every
other, in either order, would find the same patterns.

* `merge?_eq_some_iff_isJoin` — two patterns merge when some cube with one more open position covers
  what the two of them cover and nothing else;
* `mem_allMerges_iff` — a merge of any pair is made by the round, one way round or the other;
* `levels_lose_no_merge` — so the round finds all patterns that merging leads to, and marks all terms
  that merge.
-/

namespace PropCalc

namespace Pattern

variable {n : Nat} {p q r u w : Pattern}

/-! ## Halves of a cube -/

/-- The rows of an open cube are those of its halves, whichever comes first. -/
theorem mem_rows_halves {row : Int} (b : Bool) : row ∈ rows (u ++ .dontCare :: w) ↔
    row ∈ rows (u ++ .ofBool b :: w) ∨ row ∈ rows (u ++ .ofBool (!b) :: w) := by
  cases b with
  | false => exact mem_rows_open
  | true => exact mem_rows_open.trans or_comm

/-- The halves of a cube have no row in common. -/
theorem not_mem_rows_of_mem_half {row : Int} {b : Bool} (h : row ∈ rows (u ++ .ofBool b :: w)) :
    row ∉ rows (u ++ .ofBool (!b) :: w) := by
  intro h'
  rw [mem_rows, List.length_append, List.length_cons] at h h'
  rcases meets_append_cons.1 h.2 with ⟨as, x, cs, hbits, has, hx, -⟩
  rcases meets_append_cons.1 h'.2 with ⟨as', x', cs', hbits', has', hx', -⟩
  -- the value at the position cannot be both
  have hlen : as.length = as'.length := (length_eq_of_meets has).symm.trans (length_eq_of_meets has')
  rcases List.append_inj (hbits.symm.trans hbits') hlen with ⟨-, hvalues⟩
  obtain rfl : x = x' := (List.cons.inj hvalues).1
  rw [Cell.admits_ofBool, beq_iff_eq] at hx hx'
  subst hx
  simp at hx'

/-! ## Merging told by rows -/

/-- A cube covers exactly the rows of two others, with one more open position than each of them. -/
structure IsJoin (n : Nat) (p q r : Pattern) : Prop where
  isOver : r.IsOver n
  mem_rows : ∀ row, row ∈ r.rows ↔ row ∈ p.rows ∨ row ∈ q.rows
  dontCares_left : r.dontCares = p.dontCares + 1
  dontCares_right : r.dontCares = q.dontCares + 1

theorem isJoin_halves {b : Bool} (h : IsOver n (u ++ .ofBool b :: w)) :
    IsJoin n (u ++ .ofBool b :: w) (u ++ .ofBool (!b) :: w) (u ++ .dontCare :: w) where
  isOver := h.replace (by decide)
  mem_rows _ := mem_rows_halves b
  dontCares_left := dontCares_open (Cell.ofBool_ne_dontCare b)
  dontCares_right := dontCares_open (Cell.ofBool_ne_dontCare (!b))

theorem IsJoin.symm (h : IsJoin n p q r) : IsJoin n q p r :=
  ⟨h.isOver, fun row => (h.mem_rows row).trans or_comm, h.dontCares_right, h.dontCares_left⟩

theorem IsJoin.within (h : IsJoin n p q r) (hp : p.IsOver n) : p.Within r :=
  (within_iff_rows_subset hp h.isOver).2 fun row hrow => (h.mem_rows row).2 (.inl hrow)

/-- What a cube joins are its halves at one position. -/
theorem IsJoin.eq_halves (h : IsJoin n p q r) (hp : p.IsOver n) (hq : q.IsOver n) :
    ∃ u b w, p = u ++ .ofBool b :: w ∧ q = u ++ .ofBool (!b) :: w ∧ r = u ++ .dontCare :: w := by
  -- the first cube is a half of the joined one, which names the position
  rcases (h.within hp).exists_open h.dontCares_left with ⟨u, c, w, rfl, hc, rfl⟩
  rcases (hp.proper c (by simp)).eq_ofBool hc with ⟨b, rfl⟩
  have hhalf : IsOver n (u ++ .ofBool (!b) :: w) := hp.replace (Cell.isProper_ofBool (!b))
  -- the other half is left to the second cube, which has no more open positions than it
  have hwithin : Within (u ++ .ofBool (!b) :: w) q := by
    refine (within_iff_rows_subset hhalf hq).2 fun row hrow => ?_
    refine ((h.mem_rows row).1 ((mem_rows_halves b).2 (.inr hrow))).resolve_left fun hfirst => ?_
    exact not_mem_rows_of_mem_half hfirst hrow
  have hopen := (isJoin_halves hp).dontCares_right.symm.trans h.dontCares_right
  exact ⟨u, b, w, rfl, (hwithin.eq_of_dontCares_le (by omega)).symm, rfl⟩

/-- Patterns merge when some cube joins them, and into this cube. -/
theorem merge?_eq_some_iff_isJoin (hp : p.IsOver n) (hq : q.IsOver n) :
    merge? p q = some r ↔ IsJoin n p q r := by
  rw [merge?_eq_some_iff_ofBool hp hq]
  constructor
  · intro h
    rcases h with ⟨u, b, w, rfl, rfl, rfl⟩
    exact isJoin_halves hp
  · intro h
    exact h.eq_halves hp hq

theorem merge?_comm (hp : p.IsOver n) (hq : q.IsOver n) : merge? p q = merge? q p := by
  refine Option.ext fun r => ?_
  rw [merge?_eq_some_iff_isJoin hp hq, merge?_eq_some_iff_isJoin hq hp]
  exact ⟨IsJoin.symm, IsJoin.symm⟩

/-- Of two patterns that merge, one has one more position asked to be true. -/
theorem ones_of_merge? (hp : p.IsOver n) (hq : q.IsOver n) (h : merge? p q = some r) :
    p.ones + 1 = q.ones ∨ q.ones + 1 = p.ones := by
  rcases (merge?_eq_some_iff_ofBool hp hq).1 h with ⟨u, b, w, rfl, rfl, -⟩
  have hzero := ones_zero u w
  have hone := ones_one u w
  cases b with
  | false => exact .inl ((congrArg (· + 1) hzero).trans hone.symm)
  | true => exact .inr ((congrArg (· + 1) hzero).trans hone.symm)

end Pattern

/-! ## Terms -/

theorem RowSet.union_comm (s t : RowSet) : s.union t = t.union s :=
  RowSet.ext_mem fun row => by rw [mem_union, mem_union, or_comm]

namespace Implicant

variable {n : Nat} {s t m : Implicant}

theorem merge?_comm (hs : s.pattern.IsOver n) (ht : t.pattern.IsOver n) :
    s.merge? t = t.merge? s := by
  rw [merge?, merge?, Pattern.merge?_comm hs ht, RowSet.union_comm]

/-- Terms merge when some cube joins their patterns, into this cube with the rows of both. -/
theorem merge?_eq_some_iff_isJoin (hs : s.pattern.IsOver n) (ht : t.pattern.IsOver n) :
    s.merge? t = some m ↔ Pattern.IsJoin n s.pattern t.pattern m.pattern ∧
      m.minterms = s.minterms.union t.minterms := by
  rw [merge?, Option.map_eq_some_iff]
  constructor
  · intro h
    rcases h with ⟨p, hp, rfl⟩
    exact ⟨(Pattern.merge?_eq_some_iff_isJoin hs ht).1 hp, rfl⟩
  · intro h
    rcases m with ⟨p, rows⟩
    rcases h with ⟨hjoin, rfl⟩
    exact ⟨p, (Pattern.merge?_eq_some_iff_isJoin hs ht).2 hjoin, rfl⟩

end Implicant

/-! ## One round -/

namespace Primes

variable {n : Nat} {terms : List Implicant}

/-- The merges of every term with every term. -/
def allMerges (terms : List Implicant) : List Merge := terms.flatMap (mergesOf terms)

/-- The merge of the same two terms the other way round. -/
def Merge.swap (m : Merge) : Merge := ⟨m.upper, m.lower, m.result⟩

theorem mem_allMerges {m : Merge} : m ∈ allMerges terms ↔
    m.lower ∈ terms ∧ m.upper ∈ terms ∧ m.lower.merge? m.upper = some m.result := by
  simp only [allMerges, mergesOf, List.mem_flatMap, List.mem_filterMap, Option.map_eq_some_iff]
  constructor
  · intro h
    rcases h with ⟨lower, hl, upper, hu, r, hr, rfl⟩
    exact ⟨hl, hu, hr⟩
  · intro h
    rcases h with ⟨hl, hu, hr⟩
    exact ⟨m.lower, hl, m.upper, hu, m.result, hr, rfl⟩

/-- A round makes the merges of all pairs of terms, each one way round. -/
theorem mem_allMerges_iff (h : ∀ t ∈ terms, t.pattern.IsOver n) {m : Merge} :
    m ∈ allMerges terms ↔ m ∈ merges terms ∨ m.swap ∈ merges terms := by
  rw [mem_allMerges, mem_merges, mem_merges]
  constructor
  · intro hm
    rcases hm with ⟨hl, hu, hr⟩
    -- which of the two has more ones decides the way round
    rcases Option.map_eq_some_iff.1 hr with ⟨p, hp, -⟩
    rcases Pattern.ones_of_merge? (h _ hl) (h _ hu) hp with hones | hones
    · exact .inl ⟨hl, hu, hones, hr⟩
    · exact .inr ⟨hu, hl, hones, (Implicant.merge?_comm (h _ hu) (h _ hl)).trans hr⟩
  · intro hm
    rcases hm with ⟨hl, hu, -, hr⟩ | ⟨hu, hl, -, hr⟩
    · exact ⟨hl, hu, hr⟩
    · exact ⟨hl, hu, (Implicant.merge?_comm (h _ hl) (h _ hu)).trans hr⟩

/-- The terms of the next round have all patterns that the merges lead to. -/
theorem mem_patterns_merged {p : Pattern} :
    p ∈ (merged terms).map (·.pattern) ↔ ∃ m ∈ merges terms, m.result.pattern = p := by
  rw [List.mem_map, merged]
  constructor
  · intro h
    rcases h with ⟨t, ht, rfl⟩
    rcases List.mem_map.1 (Implicant.mem_of_mem_firstOfPattern ht) with ⟨m, hm, rfl⟩
    exact ⟨m, hm, rfl⟩
  · intro h
    rcases h with ⟨m, hm, rfl⟩
    exact exists_mem_firstOfPattern (List.mem_map_of_mem hm)

/-- What does not depend on the order of the two terms holds of some merge of the round if it holds
of one of any pair. -/
theorem exists_merge_iff (h : ∀ t ∈ terms, t.pattern.IsOver n) {P : Merge → Prop}
    (hswap : ∀ m, P m.swap ↔ P m) : (∃ m ∈ merges terms, P m) ↔ ∃ m ∈ allMerges terms, P m := by
  constructor
  · intro hex
    rcases hex with ⟨m, hm, hP⟩
    exact ⟨m, (mem_allMerges_iff h).2 (.inl hm), hP⟩
  · intro hex
    rcases hex with ⟨m, hm, hP⟩
    rcases (mem_allMerges_iff h).1 hm with hm | hm
    · exact ⟨m, hm, hP⟩
    · -- the round made the merge the other way round
      exact ⟨m.swap, hm, (hswap m).2 hP⟩

/-- A round over terms with patterns of one width finds the patterns, and marks the patterns of the
terms, that it would if it tried every term with every term. Any two terms merge alike in either
order: they do when some cube covers exactly the rows of both patterns and has one more open position
than each, and then into this cube with the rows of both terms. -/
theorem levels_lose_no_merge (h : ∀ t ∈ terms, t.pattern.IsOver n) :
    (∀ p, p ∈ (merged terms).map (·.pattern) ↔
      p ∈ (allMerges terms).map (·.result.pattern)) ∧
    (∀ p, p ∈ usedPatterns terms ↔
      p ∈ (allMerges terms).flatMap fun m => [m.lower.pattern, m.upper.pattern]) ∧
    ∀ s t : Implicant, s.pattern.IsOver n → t.pattern.IsOver n →
      s.merge? t = t.merge? s ∧
      ∀ m : Implicant, s.merge? t = some m ↔
        Pattern.IsJoin n s.pattern t.pattern m.pattern ∧
          m.minterms = s.minterms.union t.minterms := by
  refine ⟨fun p => ?_, fun p => ?_, fun s t hs ht => ?_⟩
  · rw [mem_patterns_merged, List.mem_map]
    exact exists_merge_iff h fun m => Iff.rfl
  · rw [usedPatterns, List.mem_flatMap, List.mem_flatMap]
    -- a swap exchanges the two marked patterns
    refine exists_merge_iff h fun m => ?_
    simp only [Merge.swap, List.mem_cons, List.not_mem_nil, or_false]
    exact or_comm
  · exact ⟨Implicant.merge?_comm hs ht, fun m => Implicant.merge?_eq_some_iff_isJoin hs ht⟩

/-- Terms with different numbers of open positions and with rows outside their cubes, and a pattern
that comes twice. -/
theorem levels_lose_no_merge_mixed :
    let s : Implicant := ⟨.ofString "1-0", .ofList [7]⟩
    let t : Implicant := ⟨.ofString "0-0", .ofList []⟩
    let terms : List Implicant := [s, ⟨.ofString "011", .ofList [1, -3]⟩, t,
      ⟨.ofString "001", .ofList [2]⟩, ⟨.ofString "011", .ofList [5]⟩]
    (∀ t ∈ terms, t.pattern.IsOver 3) ∧
      .ofString "0-1" ∈ (merged terms).map (·.pattern) ∧
      .ofString "1-0" ∈ usedPatterns terms ∧ t.merge? s = some ⟨.ofString "--0", .ofList [7]⟩ ∧
      Pattern.IsJoin 3 s.pattern t.pattern (.ofString "--0") := by
  intro s t terms
  have hterms : ∀ t ∈ terms, t.pattern.IsOver 3 := by decide
  rcases levels_lose_no_merge hterms with ⟨hfound, hused, hpair⟩
  rcases hpair s t (hterms s (by decide)) (hterms t (by decide)) with ⟨hcomm, hjoin⟩
  have hmerge : s.merge? t = some ⟨.ofString "--0", .ofList [7]⟩ := by decide
  refine ⟨hterms, (hfound _).2 (by decide), (hused _).2 (by decide), ?_, ((hjoin _).1 hmerge).1⟩
  -- `hmerge` is evaluated in the other order
  rw [← hcomm]
  exact hmerge

end Primes

end PropCalc
