import PropCalc.Implicant
import PropCalc.Proofs.Rows
/-!
# Cubes

A pattern covers the rows whose truth values it admits, position by position; these rows form a
cube. Implicants of a set of rows are the cubes inside it, and primes those that cannot be opened at
one more position. Opening a position joins the two halves of a cube, which is what merging does.
-/

namespace PropCalc

/-! ## Positions -/

namespace Cell

/-- A position that a row can meet. -/
def IsProper (c : Cell) : Prop := c = one ∨ c = zero ∨ c = dontCare

instance (c : Cell) : Decidable c.IsProper :=
  inferInstanceAs (Decidable (_ ∨ _ ∨ _))

/-- Whether a position admits a truth value. -/
def admits : Cell → Bool → Bool
  | one, b => b
  | zero, b => !b
  | dontCare, _ => true
  | mark _, _ => false

theorem ofBool_ne_dontCare (b : Bool) : ofBool b ≠ dontCare := by cases b <;> simp [ofBool]

theorem isProper_ofBool (b : Bool) : (ofBool b).IsProper := by cases b <;> simp [ofBool, IsProper]

theorem admits_ofBool (b b' : Bool) : (ofBool b).admits b' = (b == b') := by
  cases b <;> cases b' <;> rfl

/-- A proper position that is not open asks for one truth value. -/
theorem IsProper.eq_ofBool {c : Cell} (h : c.IsProper) (hc : c ≠ dontCare) : ∃ b, c = ofBool b := by
  rcases h with rfl | rfl | rfl
  · exact ⟨true, rfl⟩
  · exact ⟨false, rfl⟩
  · exact absurd rfl hc

theorem IsProper.exists_admits {c : Cell} (h : c.IsProper) : ∃ b, c.admits b = true := by
  rcases h with rfl | rfl | rfl
  · exact ⟨true, rfl⟩
  · exact ⟨false, rfl⟩
  · exact ⟨true, rfl⟩

end Cell

/-! ## Cubes of truth values -/

namespace Pattern

/-- Every position can be met. -/
def IsProper (p : Pattern) : Prop := ∀ c ∈ p, c.IsProper

instance (p : Pattern) : Decidable p.IsProper :=
  inferInstanceAs (Decidable (∀ c ∈ p, c.IsProper))

/-- Whether a pattern admits truth values, one for each position. -/
def meets : Pattern → List Bool → Bool
  | [], [] => true
  | c :: p, b :: bs => c.admits b && meets p bs
  | _, _ => false

theorem length_eq_of_meets {p : Pattern} {bs : List Bool} (h : p.meets bs = true) :
    p.length = bs.length := by
  induction p generalizing bs with
  | nil => cases bs <;> simp_all [meets]
  | cons c p ih =>
    cases bs with
    | nil => simp [meets] at h
    | cons b bs =>
      simp only [meets, Bool.and_eq_true] at h
      simp [ih h.2]

theorem meets_append {u w : Pattern} {as bs : List Bool} (h : u.length = as.length) :
    meets (u ++ w) (as ++ bs) = (u.meets as && w.meets bs) := by
  induction u generalizing as with
  | nil =>
    obtain rfl := List.length_eq_zero_iff.1 h.symm
    simp [meets]
  | cons c u ih =>
    rcases List.exists_cons_of_length_pos (l := as) (by simp [← h]) with ⟨a, as, rfl⟩
    simp [meets, ih (by simpa using h), Bool.and_assoc]

/-- Truth values are met when the parts before, at and behind a position are. -/
theorem meets_append_cons {u w : Pattern} {c : Cell} {bs : List Bool} :
    meets (u ++ c :: w) bs = true ↔ ∃ as b cs, bs = as ++ b :: cs ∧
      u.meets as = true ∧ c.admits b = true ∧ w.meets cs = true := by
  constructor
  · intro h
    have hlen := length_eq_of_meets h
    have hu : u.length = (bs.take u.length).length := by
      simp only [List.length_take, ← hlen, List.length_append]
      omega
    -- there are enough truth values for the position
    have hdrop : bs.drop u.length ≠ [] := by
      intro hnil
      have hle := List.drop_eq_nil_iff.1 hnil
      rw [← hlen, List.length_append, List.length_cons] at hle
      omega
    rcases List.exists_cons_of_ne_nil hdrop with ⟨b, cs, hcs⟩
    have hbs : bs = bs.take u.length ++ b :: cs := by rw [← hcs, List.take_append_drop]
    rw [hbs, meets_append hu] at h
    simp only [meets, Bool.and_eq_true] at h
    exact ⟨bs.take u.length, b, cs, hbs, h.1, h.2.1, h.2.2⟩
  · intro h
    rcases h with ⟨as, b, cs, rfl, hu, hc, hw⟩
    rw [meets_append (length_eq_of_meets hu)]
    simp [meets, hu, hc, hw]

theorem meets_map_ofBool {as bs : List Bool} : meets (as.map Cell.ofBool) bs = true ↔ bs = as := by
  induction as generalizing bs with
  | nil => cases bs <;> simp [meets]
  | cons a as ih =>
    cases bs with
    | nil => simp [meets]
    | cons b bs =>
      simp only [List.map_cons, meets, Cell.admits_ofBool, Bool.and_eq_true, beq_iff_eq, ih,
        List.cons.injEq]
      exact and_congr_left' eq_comm

/-- An open position joins the two halves of a cube. -/
theorem meets_open {u w : Pattern} {bs : List Bool} :
    meets (u ++ .dontCare :: w) bs = true ↔
      meets (u ++ .zero :: w) bs = true ∨ meets (u ++ .one :: w) bs = true := by
  simp only [meets_append_cons]
  constructor
  · intro h
    rcases h with ⟨as, b, cs, rfl, hu, -, hw⟩
    -- the truth value at the position tells the half
    cases b with
    | false => exact .inl ⟨as, false, cs, rfl, hu, rfl, hw⟩
    | true => exact .inr ⟨as, true, cs, rfl, hu, rfl, hw⟩
  · intro h
    rcases h with ⟨as, b, cs, rfl, hu, -, hw⟩ | ⟨as, b, cs, rfl, hu, -, hw⟩
    · exact ⟨as, b, cs, rfl, hu, rfl, hw⟩
    · exact ⟨as, b, cs, rfl, hu, rfl, hw⟩

theorem isProper_append {u w : Pattern} : (u ++ w).IsProper ↔ u.IsProper ∧ w.IsProper := by
  simp [IsProper, or_imp, forall_and]

theorem isProper_cons {c : Cell} {p : Pattern} :
    IsProper (c :: p) ↔ c.IsProper ∧ p.IsProper := by
  simp [IsProper]

theorem isProper_map_ofBool (bs : List Bool) : IsProper (bs.map Cell.ofBool) := by
  intro c hc
  rcases List.mem_map.1 hc with ⟨b, -, rfl⟩
  exact Cell.isProper_ofBool b

/-- A pattern stays proper when one position asks for something else that rows can meet. -/
theorem IsProper.replace {u w : Pattern} {c d : Cell} (h : IsProper (u ++ c :: w))
    (hd : d.IsProper) : IsProper (u ++ d :: w) := by
  rcases isProper_append.1 h with ⟨hu, hw⟩
  exact isProper_append.2 ⟨hu, isProper_cons.2 ⟨hd, (isProper_cons.1 hw).2⟩⟩

/-- A pattern over `n` variables that rows can meet. -/
structure IsOver (n : Nat) (p : Pattern) : Prop where
  length_eq : p.length = n
  proper : p.IsProper

instance (n : Nat) (p : Pattern) : Decidable (p.IsOver n) :=
  decidable_of_iff (p.length = n ∧ p.IsProper) ⟨fun h => ⟨h.1, h.2⟩, fun h => ⟨h.1, h.2⟩⟩

theorem IsOver.replace {n : Nat} {u w : Pattern} {c d : Cell} (h : IsOver n (u ++ c :: w))
    (hd : d.IsProper) : IsOver n (u ++ d :: w) :=
  ⟨by simpa using h.length_eq, h.proper.replace hd⟩

/-! ## Cubes of rows -/

/-- The rows that a pattern covers. -/
def rows (p : Pattern) : RowSet := rowsWhere p.length fun row => p.meets (rowTruths p.length row)

theorem mem_rows {p : Pattern} {row : Int} :
    row ∈ p.rows ↔ IsRow p.length row ∧ p.meets (rowTruths p.length row) = true := mem_rowsWhere

/-- A proper pattern covers some row. -/
theorem IsProper.exists_mem_rows {p : Pattern} (h : p.IsProper) : ∃ row, row ∈ p.rows := by
  -- position by position some truth value is admitted, and the values make a row
  have hmeets : ∃ bs, p.meets bs = true := by
    induction p with
    | nil => exact ⟨[], rfl⟩
    | cons c p ih =>
      rcases isProper_cons.1 h with ⟨hc, hp⟩
      rcases hc.exists_admits with ⟨b, hb⟩
      rcases ih hp with ⟨bs, hbs⟩
      exact ⟨b :: bs, by simp [meets, hb, hbs]⟩
  rcases hmeets with ⟨bs, hbs⟩
  have hlen := (length_eq_of_meets hbs).symm
  refine ⟨rowNumber bs, mem_rows.2 ⟨isRow_rowNumber_of_length hlen, ?_⟩⟩
  rw [rowTruths_rowNumber_of_length hlen]
  exact hbs

/-- The rows of an open cube are those of its halves. -/
theorem mem_rows_open {u w : Pattern} {row : Int} :
    row ∈ rows (u ++ .dontCare :: w) ↔
      row ∈ rows (u ++ .zero :: w) ∨ row ∈ rows (u ++ .one :: w) := by
  simp only [mem_rows, List.length_append, List.length_cons, meets_open, and_or_left]

theorem isProper_ofRow (n : Nat) (row : Int) : (ofRow n row).IsProper := by
  rw [pattern_ofRow_eq_map]
  exact isProper_map_ofBool _

@[simp] theorem length_ofRow (n : Nat) (row : Int) : (ofRow n row).length = n := by
  simp [ofRow]

/-- The pattern of a row covers this row alone. -/
theorem mem_rows_ofRow {n : Nat} {row r : Int} (h : IsRow n row) :
    r ∈ rows (ofRow n row) ↔ r = row := by
  rw [mem_rows, length_ofRow, pattern_ofRow_eq_map, meets_map_ofBool]
  constructor
  · intro h
    rcases h with ⟨hr, heq⟩
    exact eq_of_rowTruths_eq hr h heq
  · rintro rfl
    exact ⟨h, rfl⟩

theorem dontCares_ofRow (n : Nat) (row : Int) : (ofRow n row).dontCares = 0 := by
  rw [dontCares, List.count_eq_zero, pattern_ofRow_eq_map]
  intro hmem
  rcases List.mem_map.1 hmem with ⟨b, -, hb⟩
  exact Cell.ofBool_ne_dontCare b hb

/-- A proper pattern without open positions is that of a row. -/
theorem IsProper.eq_ofRow {p : Pattern} (h : p.IsProper) (hp : p.dontCares = 0) :
    ∃ row, IsRow p.length row ∧ p = ofRow p.length row := by
  -- all positions are closed, so the pattern is a list of truth values
  have hbits : ∃ bs : List Bool, p = bs.map Cell.ofBool := by
    induction p with
    | nil => exact ⟨[], rfl⟩
    | cons c p ih =>
      rcases isProper_cons.1 h with ⟨hc, hproper⟩
      have hne : c ≠ .dontCare := by
        rintro rfl
        simp [dontCares] at hp
      rcases hc.eq_ofBool hne with ⟨b, rfl⟩
      obtain ⟨bs, rfl⟩ := ih hproper (by
        rw [dontCares, List.count_eq_zero] at hp ⊢
        exact fun hmem => hp (List.mem_cons_of_mem _ hmem))
      exact ⟨b :: bs, rfl⟩
  rcases hbits with ⟨bs, rfl⟩
  refine ⟨rowNumber bs, by simpa using isRow_rowNumber bs, ?_⟩
  rw [pattern_ofRow_eq_map, List.length_map, rowTruths_rowNumber]

/-! ## Implicants of a set of rows -/

/-- The cube lies inside the set of rows. -/
structure Implies (n : Nat) (S : RowSet) (p : Pattern) : Prop where
  length_eq : p.length = n
  proper : p.IsProper
  rows_subset : ∀ row ∈ p.rows, row ∈ S

theorem Implies.isOver {n : Nat} {S : RowSet} {p : Pattern} (h : p.Implies n S) : p.IsOver n :=
  ⟨h.length_eq, h.proper⟩

/-- The cube lies inside the set, and would not if one more position were open. -/
structure IsPrime (n : Nat) (S : RowSet) (p : Pattern) : Prop extends Implies n S p where
  maximal : ∀ u c w, p = u ++ c :: w → c ≠ .dontCare → ¬ Implies n S (u ++ .dontCare :: w)

/-- A cube inside the set that is no prime can be opened at some position. -/
theorem Implies.exists_open {n : Nat} {S : RowSet} {p : Pattern} (h : p.Implies n S)
    (hp : ¬ p.IsPrime n S) :
    ∃ u c w, p = u ++ c :: w ∧ c ≠ .dontCare ∧ Implies n S (u ++ .dontCare :: w) := by
  refine Classical.byContradiction fun hnone => hp ⟨h, ?_⟩
  intro u c w heq hc hopen
  exact hnone ⟨u, c, w, heq, hc, hopen⟩

/-- A cube of the table is prime when it covers rows of the set only and every position that is opened
lets another row in. -/
theorem isPrime_iff {n : Nat} {S : RowSet} {p : Pattern} (hlen : p.length = n) (hp : p.IsProper) :
    p.IsPrime n S ↔ (∀ row ∈ p.rows, row ∈ S) ∧ ∀ u c w, p = u ++ c :: w → c ≠ .dontCare →
      ∃ row ∈ rows (u ++ .dontCare :: w), row ∉ S := by
  -- opening a position keeps the width and leaves the cube proper
  have hopen : ∀ u c w, p = u ++ c :: w →
      (Implies n S (u ++ .dontCare :: w) ↔ ∀ row ∈ rows (u ++ .dontCare :: w), row ∈ S) := by
    intro u c w heq
    rw [heq] at hlen hp
    exact ⟨fun h => h.rows_subset, fun h => ⟨by simpa using hlen, hp.replace (by decide), h⟩⟩
  constructor
  · intro h
    refine ⟨h.rows_subset, fun u c w heq hc => ?_⟩
    have hout := h.maximal u c w heq hc
    rw [hopen u c w heq] at hout
    simpa using hout
  · intro h
    rcases h with ⟨hrows, hmax⟩
    refine ⟨⟨hlen, hp, hrows⟩, fun u c w heq hc himplies => ?_⟩
    rcases hmax u c w heq hc with ⟨row, hrow, hout⟩
    exact hout (himplies.rows_subset row hrow)

/-- The rows of the set are cubes inside it. -/
theorem implies_ofRow {n : Nat} {S : RowSet} {row : Int} (hrow : IsRow n row) (hmem : row ∈ S) :
    Implies n S (ofRow n row) := by
  refine ⟨length_ofRow n row, isProper_ofRow n row, ?_⟩
  intro r hr
  rw [(mem_rows_ofRow hrow).1 hr]
  exact hmem

/-- An open cube lies inside when both of its halves do. -/
theorem implies_open_iff {n : Nat} {S : RowSet} {u w : Pattern} :
    Implies n S (u ++ .dontCare :: w) ↔
      Implies n S (u ++ .zero :: w) ∧ Implies n S (u ++ .one :: w) := by
  constructor
  · intro h
    rcases h with ⟨hlen, hproper, hrows⟩
    -- each half has the width of the open cube and some of its rows
    have hpart : ∀ c : Cell, c.IsProper →
        (∀ row ∈ rows (u ++ c :: w), row ∈ rows (u ++ .dontCare :: w)) →
        Implies n S (u ++ c :: w) := by
      intro c hc hsub
      exact ⟨by simpa using hlen, hproper.replace hc, fun row hrow => hrows row (hsub row hrow)⟩
    exact ⟨hpart .zero (by decide) fun row hrow => mem_rows_open.2 (.inl hrow),
      hpart .one (by decide) fun row hrow => mem_rows_open.2 (.inr hrow)⟩
  · intro h
    rcases h with ⟨hzero, hone⟩
    refine ⟨by simpa using hzero.length_eq, hzero.proper.replace (by decide), fun row hrow => ?_⟩
    rcases mem_rows_open.1 hrow with hrow | hrow
    · exact hzero.rows_subset row hrow
    · exact hone.rows_subset row hrow

end Pattern

/-! ## Terms with their rows -/

/-- The term of a pattern, with exactly the rows that it covers. -/
def Implicant.ofPattern (p : Pattern) : Implicant := ⟨p, p.rows⟩

@[simp] theorem Implicant.pattern_ofPattern (p : Pattern) : (ofPattern p).pattern = p := rfl

@[simp] theorem Implicant.minterms_ofPattern (p : Pattern) : (ofPattern p).minterms = p.rows := rfl

theorem Implicant.ofRow_eq_ofPattern {n : Nat} {row : Int} (h : IsRow n row) :
    Implicant.ofRow n row = .ofPattern (.ofRow n row) := by
  have hrows : RowSet.ofList [row] = (Pattern.ofRow n row).rows := by
    refine RowSet.ext_mem fun r => ?_
    rw [Pattern.mem_rows_ofRow h, RowSet.mem_ofList, List.mem_singleton]
  rw [Implicant.ofRow, Implicant.ofPattern, hrows]

end PropCalc
