import PropCalc.Proofs.MergeOrder
import PropCalc.Proofs.WiderRows
/-!
# Cubes of a wider table

A variable that does not matter leaves its position open in every prime: the primes of the widened
set are the primes of the set with one more open position (`isPrime_widen_iff`). Their order in the
search stays the same (`FoundBefore.widen`).
-/

namespace PropCalc.Pattern

variable {n k : Nat} {S : RowSet} {p q u w : Pattern}

/-! ## One more open position -/

/-- The pattern with an open position for one more variable, which becomes variable `k`. -/
def widen (k : Nat) (p : Pattern) : Pattern := p.insertIdx k .dontCare

theorem widen_append (u w : Pattern) : widen u.length (u ++ w) = u ++ .dontCare :: w :=
  insertIdx_append u w _

/-- A pattern can be recovered from its widened form. -/
theorem widen_injective (h : p.widen k = q.widen k) : p = q := by
  have herase := congrArg (List.eraseIdx · k) h
  simpa [widen] using herase

theorem ones_widen (hk : k ≤ p.length) : (p.widen k).ones = p.ones := by
  rcases exists_append_of_le hk with ⟨u, w, rfl, rfl⟩
  rw [widen_append]
  simp [ones_cons]

theorem dontCares_widen (hk : k ≤ p.length) : (p.widen k).dontCares = p.dontCares + 1 := by
  rcases exists_append_of_le hk with ⟨u, w, rfl, rfl⟩
  rw [widen_append]
  simp [dontCares_cons, Nat.add_assoc]

/-! ## Order -/

/-- Widening keeps the order of the rows that two patterns have at an end. -/
theorem rowNumber_map_widen_lt_iff (f : Cell → Bool) (hk : k ≤ p.length)
    (hlen : p.length = q.length) :
    rowNumber ((p.widen k).map f) < rowNumber ((q.widen k).map f) ↔
      rowNumber (p.map f) < rowNumber (q.map f) := by
  rcases exists_append_of_le hk with ⟨u, w, rfl, hu⟩
  rcases exists_append_of_le (hlen ▸ hk) with ⟨u', w', rfl, hu'⟩
  -- cut at the same place, both parts have the same lengths
  have hw : w.length = w'.length := by
    simp only [List.length_append] at hlen
    omega
  subst hu
  rw [widen_append, ← hu', widen_append, List.map_append, List.map_append, List.map_append,
    List.map_append, List.map_cons, List.map_cons]
  apply rowNumber_insert_lt_iff
  · rw [List.length_map, List.length_map, hu']
  · rw [List.length_map, List.length_map, hw]

theorem high_widen_lt_iff (hk : k ≤ p.length) (hlen : p.length = q.length) :
    (p.widen k).high < (q.widen k).high ↔ p.high < q.high := by
  simp only [high_eq_rowNumber, rowNumber_map_widen_lt_iff _ hk hlen]

theorem low_widen_lt_iff (hk : k ≤ p.length) (hlen : p.length = q.length) :
    (p.widen k).low < (q.widen k).low ↔ p.low < q.low := by
  simp only [low_eq_rowNumber, rowNumber_map_widen_lt_iff _ hk hlen]

/-- Widened patterns with open positions are found in the same order. -/
theorem FoundBefore.widen (hk : k ≤ p.length) (hlen : p.length = q.length)
    (hp : p.dontCares ≠ 0) (h : p.FoundBefore q) : (p.widen k).FoundBefore (q.widen k) := by
  have hkq : k ≤ q.length := hlen ▸ hk
  have hhigh := high_widen_lt_iff hk hlen
  have hhigh' := high_widen_lt_iff hkq hlen.symm
  have hlow := low_widen_lt_iff hk hlen
  have hopen := dontCares_widen hk
  have hopen' := dontCares_widen hkq
  rcases h with hlt | ⟨heq, horder⟩
  · refine .inl ?_
    omega
  · -- patterns without open positions are excluded: they would be ordered by `Earlier` from now on
    rw [if_neg hp] at horder
    refine .of_earlier (by omega) (by omega) ?_
    rw [Earlier, ones_widen hk, ones_widen hkq, Precedes]
    simp only [Earlier, Precedes] at horder
    omega

/-! ## Rows -/

theorem meets_insert {c : Cell} {b : Bool} {as bs : List Bool} (h : u.length = as.length) :
    meets (u ++ c :: w) (as ++ b :: bs) = (c.admits b && meets (u ++ w) (as ++ bs)) := by
  rw [meets_append h, meets_append h, meets, Bool.and_left_comm]

/-- A row of the wider table is covered when its parts are. -/
theorem mem_rows_insert {c : Cell} {b : Bool} {row : Int} (hlen : u.length + w.length = n)
    (hrow : IsRow n row) :
    addVariable n u.length b row ∈ rows (u ++ c :: w) ↔
      c.admits b = true ∧ row ∈ rows (u ++ w) := by
  have hk : u.length ≤ n := by omega
  have htruths := rowTruths_addVariable hk b row
  rcases exists_rowTruths_append hk row with ⟨as, bs, hbits, has⟩
  rw [hbits, ← has, insertIdx_append, has] at htruths
  have hlen' : List.length (u ++ c :: w) = n + 1 := by
    simp only [List.length_append, List.length_cons]
    omega
  rw [mem_rows, mem_rows, hlen', htruths, meets_insert has.symm, List.length_append, hlen, hbits,
    Bool.and_eq_true]
  have hwide := isRow_addVariable hk b row
  exact ⟨fun h => ⟨h.2.1, hrow, h.2.2⟩, fun h => ⟨hwide, h.1, h.2.2⟩⟩

/-- The rows of a widened pattern are those of the pattern, widened. -/
theorem rows_widen (hk : k ≤ p.length) : (p.widen k).rows = p.rows.widen p.length k := by
  rcases exists_append_of_le hk with ⟨u, w, rfl, rfl⟩
  refine RowSet.ext_mem fun row => ?_
  rw [RowSet.mem_widen, widen_append]
  constructor
  · intro hrow
    have hwide := (mem_rows.1 hrow).1
    rw [List.length_append, List.length_cons, ← Nat.add_assoc] at hwide
    rw [List.length_append]
    -- the row has some value for the new variable, and the open position admits both
    rcases exists_addVariable (Nat.le_add_right _ _) hwide with ⟨b, hb⟩
    rw [hb, mem_rows_insert rfl (isRow_dropVariable (Nat.le_add_right _ _) row)] at hrow
    exact ⟨hwide, hrow.2⟩
  · rw [List.length_append]
    intro h
    rcases h with ⟨hwide, hdrop⟩
    rcases exists_addVariable (Nat.le_add_right _ _) hwide with ⟨b, hb⟩
    rw [hb, mem_rows_insert rfl (isRow_dropVariable (Nat.le_add_right _ _) row)]
    exact ⟨rfl, hdrop⟩

/-! ## Primes -/

/-- Whatever it asks of the new variable, a cube lies in the widened set when the rest of it lies in
the set. -/
theorem implies_insert_iff {c : Cell} :
    Implies (n + 1) (S.widen n u.length) (u ++ c :: w) ↔
      c.IsProper ∧ Implies n S (u ++ w) := by
  constructor
  · intro h
    rcases h with ⟨hlen, hproper, hrows⟩
    rcases isProper_append.1 hproper with ⟨hu, hw⟩
    rcases isProper_cons.1 hw with ⟨hc, hw⟩
    have hlen' : u.length + w.length = n := by
      simp only [List.length_append, List.length_cons] at hlen
      omega
    refine ⟨hc, by rw [List.length_append, hlen'], isProper_append.2 ⟨hu, hw⟩, fun row hrow => ?_⟩
    have hnarrow := (mem_rows.1 hrow).1
    rw [List.length_append, hlen'] at hnarrow
    -- a value that the position admits leads back to the wider set
    rcases hc.exists_admits with ⟨b, hb⟩
    have hmem := hrows _ ((mem_rows_insert hlen' hnarrow).2 ⟨hb, hrow⟩)
    exact (addVariable_mem_widen (by omega) b hnarrow).1 hmem
  · intro h
    rcases h with ⟨hc, hlen, hproper, hrows⟩
    rcases isProper_append.1 hproper with ⟨hu, hw⟩
    rw [List.length_append] at hlen
    have hlen' : List.length (u ++ c :: w) = n + 1 := by
      simp only [List.length_append, List.length_cons]
      omega
    refine ⟨hlen', isProper_append.2 ⟨hu, isProper_cons.2 ⟨hc, hw⟩⟩, fun row hrow => ?_⟩
    have hwide := (mem_rows.1 hrow).1
    rw [hlen'] at hwide
    have hk : u.length ≤ n := by omega
    rcases exists_addVariable hk hwide with ⟨b, hb⟩
    rw [hb, mem_rows_insert hlen (isRow_dropVariable hk row)] at hrow
    exact RowSet.mem_widen.2 ⟨hwide, hrows _ hrow.2⟩

/-- A position of two joined patterns lies in one of them. -/
theorem append_eq_append_cons {x y : Pattern} {d : Cell} (h : u ++ w = x ++ d :: y) :
    (∃ v, u = x ++ d :: v ∧ y = v ++ w) ∨ ∃ v, x = u ++ v ∧ w = v ++ d :: y := by
  rcases List.append_eq_append_iff.1 h with ⟨v, hx, hw⟩ | ⟨v, hu, hy⟩
  · exact .inr ⟨v, hx, hw⟩
  · -- an empty remainder leaves the position to the second part
    cases v with
    | nil => exact .inr ⟨[], by simpa using hu.symm, hy.symm⟩
    | cons e v =>
      rw [List.cons_append, List.cons.injEq] at hy
      rcases hy with ⟨rfl, rfl⟩
      exact .inl ⟨v, hu, rfl⟩

/-- Opening a position before the new variable. -/
theorem implies_insert_before {x v : Pattern} {d : Cell} :
    Implies (n + 1) (S.widen n (x ++ d :: v).length) (x ++ .dontCare :: (v ++ .dontCare :: w)) ↔
      Implies n S (x ++ .dontCare :: (v ++ w)) := by
  have hlen : List.length (x ++ d :: v) = List.length (x ++ .dontCare :: v) := by simp
  have h := implies_insert_iff (n := n) (S := S) (u := x ++ .dontCare :: v) (w := w)
    (c := .dontCare)
  rw [hlen]
  simp only [List.append_assoc, List.cons_append] at h
  rw [h]
  exact and_iff_right (by decide)

/-- Opening a position behind the new variable. -/
theorem implies_insert_behind {v y : Pattern} :
    Implies (n + 1) (S.widen n u.length) (u ++ .dontCare :: (v ++ .dontCare :: y)) ↔
      Implies n S (u ++ (v ++ .dontCare :: y)) := by
  rw [implies_insert_iff]
  exact and_iff_right (by decide)

/-- A prime of the widened set leaves the position of the new variable open. -/
theorem IsPrime.exists_widen (hk : k ≤ n) (hq : IsPrime (n + 1) (S.widen n k) q) :
    ∃ p, q = widen k p ∧ IsPrime n S p := by
  have hlen := hq.length_eq
  rcases exists_append_of_le (l := q) (k := k) (by omega) with ⟨u, w, rfl, rfl⟩
  cases w with
  | nil =>
    simp only [List.length_append, List.length_nil] at hlen
    omega
  | cons c w =>
    have himplies := (implies_insert_iff.1 hq.toImplies).2
    -- a position that is asked for could be opened, as the set does not depend on it
    obtain rfl : c = .dontCare := by
      refine Classical.byContradiction fun hc => hq.maximal u c w rfl hc ?_
      exact implies_insert_iff.2 ⟨by decide, himplies⟩
    refine ⟨u ++ w, (widen_append u w).symm, himplies, fun x d y heq hd hopen => ?_⟩
    rcases append_eq_append_cons heq with ⟨v, rfl, rfl⟩ | ⟨v, rfl, rfl⟩
    · exact hq.maximal x d (v ++ .dontCare :: w) (by simp) hd (implies_insert_before.2 hopen)
    · refine hq.maximal (u ++ .dontCare :: v) d y (by simp) hd ?_
      rw [List.append_assoc] at hopen
      rw [List.append_assoc, List.cons_append]
      exact implies_insert_behind.2 hopen

/-- A prime of the set is prime in the widened set with the new position open. -/
theorem IsPrime.widen (hk : k ≤ n) (hp : IsPrime n S p) :
    IsPrime (n + 1) (S.widen n k) (p.widen k) := by
  have hlen := hp.length_eq
  rcases exists_append_of_le (l := p) (k := k) (by omega) with ⟨u, w, rfl, rfl⟩
  rw [widen_append]
  refine ⟨implies_insert_iff.2 ⟨by decide, hp.toImplies⟩, fun x d y heq hd hopen => ?_⟩
  rcases append_eq_append_cons heq with ⟨v, rfl, rfl⟩ | ⟨v, rfl, hw⟩
  · exact hp.maximal x d (v ++ w) (by simp) hd (implies_insert_before.1 hopen)
  · cases v with
    -- the new position itself is open already
    | nil => exact hd (List.cons.inj hw).1.symm
    | cons e v =>
      rw [List.cons_append, List.cons.injEq] at hw
      rcases hw with ⟨rfl, rfl⟩
      refine hp.maximal (u ++ v) d y (by simp) hd ?_
      rw [List.append_assoc, List.cons_append] at hopen
      rw [List.append_assoc]
      exact implies_insert_behind.1 hopen

/-- The primes of the widened set are the widened primes of the set. -/
theorem isPrime_widen_iff (hk : k ≤ n) :
    IsPrime (n + 1) (S.widen n k) q ↔ ∃ p, q = widen k p ∧ IsPrime n S p := by
  constructor
  · exact fun hq => hq.exists_widen hk
  · intro hex
    rcases hex with ⟨p, rfl, hp⟩
    exact hp.widen hk

end PropCalc.Pattern
