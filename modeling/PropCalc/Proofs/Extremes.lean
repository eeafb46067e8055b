import PropCalc.Proofs.Cubes
/-!
# First and last rows of a cube

The lowest and the highest row of a cube arise when its open positions are all true or all false.
Together they determine the cube, and comparing the highest rows first orders cubes as the search
for primes meets them. The last open position is where two such cubes were merged first.
-/

namespace PropCalc.Pattern

/-! ## Counting at a position -/

@[simp] theorem ones_append (u w : Pattern) : ones (u ++ w) = u.ones + w.ones :=
  List.count_append

@[simp] theorem dontCares_append (u w : Pattern) : dontCares (u ++ w) = u.dontCares + w.dontCares :=
  List.count_append

theorem ones_cons (c : Cell) (p : Pattern) : ones (c :: p) = p.ones + if c = .one then 1 else 0 := by
  simp [ones, List.count_cons]

theorem dontCares_cons (c : Cell) (p : Pattern) :
    dontCares (c :: p) = p.dontCares + if c = .dontCare then 1 else 0 := by
  simp [dontCares, List.count_cons]

/-! ## Extreme rows -/

/-- The highest row that a pattern covers: open positions are false. -/
def high : Pattern → Nat
  | [] => 0
  | c :: p => (if c = .one then 0 else rowCount p.length) + high p

/-- The lowest row that a pattern covers: open positions are true. -/
def low : Pattern → Nat
  | [] => 0
  | c :: p => (if c = .zero then rowCount p.length else 0) + low p

/-- The weight of the last open position, and zero if none is open. -/
def lastOpen : Pattern → Nat
  | [] => 0
  | c :: p =>
    if dontCares p ≠ 0 then lastOpen p else if c = .dontCare then rowCount p.length else 0

theorem high_lt (p : Pattern) : p.high < rowCount p.length := by
  induction p with
  | nil => simp [high]
  | cons c p ih =>
    rw [high, List.length_cons, rowCount_succ]
    split <;> omega

theorem low_le_high (p : Pattern) : p.low ≤ p.high := by
  induction p with
  | nil => simp [high, low]
  | cons c p ih =>
    rw [high, low]
    by_cases h : c = .zero
    · simp [h, ih]
    · -- a position that is true or open adds nothing to the lowest row
      rw [if_neg h]
      omega

theorem low_eq_high {p : Pattern} (h : p.IsProper) (hp : p.dontCares = 0) : p.low = p.high := by
  induction p with
  | nil => rfl
  | cons c p ih =>
    rcases isProper_cons.1 h with ⟨hc, hproper⟩
    rw [dontCares_cons] at hp
    rw [high, low, ih hproper (by omega)]
    rcases hc with rfl | rfl | rfl <;> simp at hp ⊢

/-- The pattern of a row has this row at both ends. -/
theorem high_ofRow {n : Nat} {row : Int} (h : IsRow n row) : ((ofRow n row).high : Int) = row := by
  have hhigh : ∀ bs : List Bool, high (bs.map Cell.ofBool) = rowNumber bs := by
    intro bs
    induction bs with
    | nil => rfl
    | cons b bs ih => cases b <;> simp [high, rowNumber, Cell.ofBool, ih]
  rw [pattern_ofRow_eq_map, hhigh, rowNumber_rowTruths h]

/-! ## The ends as rows -/

/-- Open positions are false in the highest row, -/
theorem high_eq_rowNumber (p : Pattern) : p.high = rowNumber (p.map (· == .one)) := by
  induction p with
  | nil => rfl
  | cons c p ih => cases c <;> simp [high, rowNumber, ih]

/-- and true in the lowest. -/
theorem low_eq_rowNumber (p : Pattern) : p.low = rowNumber (p.map (· != .zero)) := by
  induction p with
  | nil => rfl
  | cons c p ih => cases c <;> simp [low, rowNumber, ih]

theorem meets_highest {p : Pattern} (hp : p.IsProper) : p.meets (p.map (· == .one)) = true := by
  induction p with
  | nil => rfl
  | cons c p ih =>
    rcases isProper_cons.1 hp with ⟨hc, hp⟩
    rw [List.map_cons, meets, ih hp]
    rcases hc with rfl | rfl | rfl <;> rfl

theorem high_mem_rows {p : Pattern} (hp : p.IsProper) : (p.high : Int) ∈ p.rows := by
  have hlen : (p.map (· == Cell.one)).length = p.length := List.length_map _
  rw [mem_rows, high_eq_rowNumber]
  refine ⟨isRow_rowNumber_of_length hlen, ?_⟩
  rw [rowTruths_rowNumber_of_length hlen]
  exact meets_highest hp

theorem rowNumber_le_high {p : Pattern} {bs : List Bool} (h : p.meets bs = true) :
    rowNumber bs ≤ p.high := by
  induction p generalizing bs with
  | nil =>
    obtain rfl := List.length_eq_zero_iff.1 (length_eq_of_meets h).symm
    exact Nat.le_refl 0
  | cons c p ih =>
    have hlen := length_eq_of_meets h
    rcases List.exists_cons_of_length_pos (l := bs) (by simp [← hlen]) with ⟨b, bs, rfl⟩
    rw [meets, Bool.and_eq_true] at h
    have hrest := ih h.2
    rw [rowNumber, high, ← length_eq_of_meets h.2]
    cases b with
    | true =>
      rw [if_pos rfl]
      omega
    | false =>
      -- where the row is false the pattern does not ask for true
      have hc : c ≠ .one := by
        rintro rfl
        exact absurd h.1 (by decide)
      rw [if_neg hc, if_neg (by decide)]
      omega

theorem le_high_of_mem_rows {p : Pattern} {row : Int} (h : row ∈ p.rows) : row ≤ p.high := by
  rcases mem_rows.1 h with ⟨hrow, hmeets⟩
  rw [← rowNumber_rowTruths hrow]
  exact_mod_cast rowNumber_le_high hmeets

/-- Without open positions the highest row is the only one. -/
theorem rows_eq_singleton {p : Pattern} (hp : p.IsProper) (hclosed : p.dontCares = 0) :
    p.rows.rows = [(p.high : Int)] := by
  rcases hp.eq_ofRow hclosed with ⟨row, hrow, heq⟩
  have hhigh := high_ofRow hrow
  -- such a pattern is that of a row, and the term of a row has this row only
  have hterm := congrArg Implicant.minterms (Implicant.ofRow_eq_ofPattern hrow)
  rw [← heq] at hhigh hterm
  rw [hhigh]
  exact (congrArg RowSet.rows hterm).symm

/-! ## Opening a position -/

theorem ones_zero (u w : Pattern) : ones (u ++ .zero :: w) = ones (u ++ .dontCare :: w) := by
  simp [ones_cons]

theorem ones_one (u w : Pattern) : ones (u ++ .one :: w) = ones (u ++ .dontCare :: w) + 1 := by
  simp [ones_cons, Nat.add_assoc]

/-- An open position counts for one. -/
theorem dontCares_open {u w : Pattern} {c : Cell} (hc : c ≠ .dontCare) :
    dontCares (u ++ .dontCare :: w) = dontCares (u ++ c :: w) + 1 := by
  rw [dontCares_append, dontCares_append, dontCares_cons, dontCares_cons, if_pos rfl, if_neg hc]
  omega

theorem high_zero (u w : Pattern) : high (u ++ .zero :: w) = high (u ++ .dontCare :: w) := by
  induction u with
  | nil => simp [high]
  | cons c u ih => simp [high, ih]

theorem high_one (u w : Pattern) :
    high (u ++ .one :: w) + rowCount w.length = high (u ++ .dontCare :: w) := by
  induction u with
  | nil =>
    simp [high]
    omega
  | cons c u ih =>
    simp only [List.cons_append, high, List.length_append, List.length_cons]
    omega

theorem low_one (u w : Pattern) : low (u ++ .one :: w) = low (u ++ .dontCare :: w) := by
  induction u with
  | nil => simp [low]
  | cons c u ih => simp [low, ih]

theorem low_zero (u w : Pattern) :
    low (u ++ .zero :: w) = low (u ++ .dontCare :: w) + rowCount w.length := by
  induction u with
  | nil =>
    simp [low]
    omega
  | cons c u ih =>
    simp only [List.cons_append, low, List.length_append, List.length_cons, ih]
    omega

/-! ## The last open position -/

/-- No open position weighs less than the last one. -/
theorem lastOpen_le (u w : Pattern) : lastOpen (u ++ .dontCare :: w) ≤ rowCount w.length := by
  induction u with
  | nil =>
    rw [List.nil_append, lastOpen]
    split
    · next h =>
      -- another position is open behind it, and weighs less than the whole tail
      clear h
      induction w with
      | nil => simp [lastOpen]
      | cons c w ih =>
        rw [lastOpen, List.length_cons, rowCount_succ]
        split
        · omega
        · split <;> omega
    · simp
  | cons c u ih =>
    rw [List.cons_append, lastOpen, if_pos]
    · exact ih
    · simp [dontCares_cons]

/-- A pattern with open positions is open at the last one. -/
theorem exists_lastOpen {p : Pattern} (h : p.dontCares ≠ 0) :
    ∃ u w, p = u ++ .dontCare :: w ∧ p.lastOpen = rowCount w.length := by
  induction p with
  | nil => simp [dontCares] at h
  | cons c p ih =>
    by_cases hp : dontCares p = 0
    · -- nothing is open in the tail, so this position is the last
      have hc : c = .dontCare := by
        rw [dontCares_cons, hp] at h
        simpa using h
      subst hc
      exact ⟨[], p, rfl, by simp [lastOpen, hp]⟩
    · rcases ih hp with ⟨u, w, rfl, hlast⟩
      exact ⟨c :: u, w, rfl, by rw [lastOpen, if_pos hp, hlast]⟩

/-- Closing the last open position keeps a pattern below its highest row, and reaches that row if no
other position is open. -/
theorem low_add_lastOpen_le {p : Pattern} (h : p.IsProper) (hp : p.dontCares ≠ 0) :
    p.low + p.lastOpen ≤ p.high ∧ (p.dontCares = 1 → p.low + p.lastOpen = p.high) := by
  induction p with
  | nil => simp [dontCares] at hp
  | cons c p ih =>
    rcases isProper_cons.1 h with ⟨hc, hproper⟩
    rw [dontCares_cons] at hp ⊢
    rw [low, high, lastOpen]
    by_cases hzero : dontCares p = 0
    · -- the last open position is this one, and both ends agree behind it
      have heq := low_eq_high hproper hzero
      rcases hc with rfl | rfl | rfl <;> simp [hzero] at hp ⊢
      omega
    · -- the last open position lies in the tail
      rcases ih hproper hzero with ⟨hle, hone⟩
      rcases hc with rfl | rfl | rfl <;> simp [hzero] <;> omega

/-- Of two patterns with the same highest row and as many open positions, the one that reaches lower
still does when both close their last open position. -/
theorem low_add_lastOpen_mono {p q : Pattern} (hp : p.IsProper) (hq : q.IsProper)
    (hlen : p.length = q.length) (hhigh : p.high = q.high) (hopen : p.dontCares = q.dontCares)
    (hne : p.dontCares ≠ 0) (hlow : q.low ≤ p.low) :
    q.low + q.lastOpen ≤ p.low + p.lastOpen := by
  induction p generalizing q with
  | nil => simp [dontCares] at hne
  | cons a p ih =>
    rcases List.exists_cons_of_length_pos (l := q) (by simp [← hlen]) with ⟨b, q, rfl⟩
    rcases isProper_cons.1 hp with ⟨ha, hp⟩
    rcases isProper_cons.1 hq with ⟨hb, hq⟩
    simp only [List.length_cons, Nat.add_right_cancel_iff] at hlen
    simp only [dontCares_cons] at hopen hne
    simp only [high, low, lastOpen, hlen] at hhigh hlow ⊢
    have hltp := high_lt p
    have hltq := high_lt q
    rw [hlen] at hltp
    have hlowp := low_le_high p
    -- the tails: closed ones have one row only, open ones obey the induction hypothesis
    have hclosedp : dontCares p = 0 → low p = high p := low_eq_high hp
    have hclosedq : dontCares q = 0 → low q = high q := low_eq_high hq
    have hopenp : dontCares p ≠ 0 → _ := low_add_lastOpen_le hp
    have hopenq : dontCares q ≠ 0 → _ := low_add_lastOpen_le hq
    have htails : dontCares p = dontCares q → dontCares p ≠ 0 → high p = high q →
        low q ≤ low p → low q + lastOpen q ≤ low p + lastOpen p := by
      intro hdc hne hh hl
      exact ih hp hq hlen hh hdc hne hl
    -- the weights of the first position decide all cases in which the two differ there
    by_cases hp0 : dontCares p = 0 <;> by_cases hq0 : dontCares q = 0 <;>
      rcases ha with rfl | rfl | rfl <;> rcases hb with rfl | rfl | rfl <;>
      simp [hp0, hq0] at hhigh hlow hopen hne ⊢ <;> omega

end PropCalc.Pattern
