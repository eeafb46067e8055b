import PropCalc.Proofs.MinimalCover
import PropCalc.Proofs.SumsOfProducts
/-!
# Minimal forms

The text that minimization ends with is a canonical sum of products. `exists_minimalSum` gives the
sum: its products are the literals of the minimal cover, and it is true exactly under the valuations
whose rows are in the set (`value_minimalSum`).
-/

namespace PropCalc

/-! ## Literals of a pattern -/

namespace Pattern

theorem mem_names_of_mem_literals {names : List String} {p : Pattern} {l : String × Bool}
    (h : l ∈ p.literals names) : l.1 ∈ names := by
  rw [literals, List.mem_filterMap] at h
  rcases h with ⟨⟨x, c⟩, hmem, hl⟩
  have hx := (List.of_mem_zip hmem).1
  cases c <;> simp at hl <;> rw [← hl] <;> exact hx

/-- The literals of a pattern are true together exactly where the pattern is met. -/
theorem all_literals {names : List String} {p : Pattern} (hlen : p.length = names.length)
    (hp : p.IsProper) (σ : String → Bool) :
    ((p.literals names).all fun l => σ l.1 ^^ l.2) = p.meets (names.map σ) := by
  induction p generalizing names with
  | nil =>
    obtain rfl := List.length_eq_zero_iff.1 hlen.symm
    rfl
  | cons c p ih =>
    rcases List.exists_cons_of_length_pos (l := names) (by simp [← hlen]) with ⟨x, names, rfl⟩
    rcases isProper_cons.1 hp with ⟨hc, hp⟩
    have hrest := ih (by simpa using hlen) hp
    rw [List.map_cons, meets, ← hrest]
    -- an open position has no literal and admits both values
    rcases hc with rfl | rfl | rfl <;> simp [literals, Cell.admits]

/-- A pattern without literals is met by all truth values. -/
theorem meets_of_literals_eq_nil {names : List String} {p : Pattern} {bs : List Bool}
    (hlen : p.length = names.length) (hp : p.IsProper) (hbs : bs.length = p.length)
    (h : p.literals names = []) : p.meets bs = true := by
  induction p generalizing names bs with
  | nil =>
    obtain rfl := List.length_eq_zero_iff.1 hbs
    rfl
  | cons c p ih =>
    rcases List.exists_cons_of_length_pos (l := names) (by simp [← hlen]) with ⟨x, names, rfl⟩
    rcases List.exists_cons_of_length_pos (l := bs) (by simp [hbs]) with ⟨b, bs, rfl⟩
    rcases isProper_cons.1 hp with ⟨hc, hproper⟩
    rw [literals, List.zip_cons_cons] at h
    rcases hc with rfl | rfl | rfl
    · simp at h
    · simp at h
    · -- only an open position has no literal
      exact ih (by simpa using hlen) hproper (by simpa using hbs) h

/-- A cube inside a set that is not the whole table has literals. -/
theorem Implies.literals_ne_nil {names : List String} {p : Pattern} {S : RowSet}
    (hp : p.Implies names.length S) (hS : ¬ ∀ row, IsRow names.length row → row ∈ S) :
    p.literals names ≠ [] := by
  intro hnil
  apply hS
  intro row hrow
  apply hp.rows_subset
  rw [mem_rows, hp.length_eq]
  exact ⟨hrow, meets_of_literals_eq_nil hp.length_eq hp.proper (by simp [hp.length_eq]) hnil⟩

end Pattern

/-! ## The sum of a cover -/

theorem exists_products {ls : List (List (String × Bool))} (h : ∀ l ∈ ls, l ≠ []) :
    ∃ ps : List Canonical.Product, ps.map Canonical.Product.literals = ls := by
  induction ls with
  | nil => exact ⟨[], rfl⟩
  | cons l ls ih =>
    rcases ih fun m hm => h m (List.mem_cons_of_mem l hm) with ⟨ps, rfl⟩
    rcases List.exists_cons_of_ne_nil (h l List.mem_cons_self) with ⟨first, rest, rfl⟩
    exact ⟨⟨first, rest⟩ :: ps, rfl⟩

/-- The sum has the terms of the minimal cover for its products. -/
def IsMinimalSum (names : List String) (S : RowSet) (s : Canonical.Sum) : Prop :=
  s.products.map Canonical.Product.literals =
    (minimalCover names.length S).map (·.pattern.literals names)

variable {names : List String} {S : RowSet}

/-- A function that is neither always nor never true has a minimal cover that can be written as a sum
of products. -/
theorem exists_minimalSum (hS : ∀ row ∈ S, IsRow names.length row) (hempty : S.rows ≠ [])
    (hfull : S.size ≠ rowCount names.length) :
    ∃ s, IsMinimalSum names S s := by
  have hliterals : ∀ l ∈ (minimalCover names.length S).map (·.pattern.literals names),
      l ≠ [] := by
    intro l hl
    rcases List.mem_map.1 hl with ⟨t, ht, rfl⟩
    apply (isPrime_of_mem_minimalCover hS ht).2.toImplies.literals_ne_nil
    rwa [← size_eq_rowCount_iff hS]
  rcases exists_products hliterals with ⟨ps, hps⟩
  cases ps with
  | cons p ps => exact ⟨⟨p, ps⟩, hps⟩
  | nil =>
    -- the set has a row, and some term covers it
    rcases List.exists_mem_of_ne_nil S.rows hempty with ⟨row, hrow⟩
    rcases (mem_iff_exists_minimalCover hS).1 hrow with ⟨t, ht, -⟩
    rw [List.map_nil, eq_comm, List.map_eq_nil_iff] at hps
    rw [hps] at ht
    simp at ht

/-- Between the constants minimization gives the text of this sum. -/
theorem minimize_eq_text (hS : ∀ row ∈ S, IsRow names.length row) (hempty : S.rows ≠ [])
    (hfull : S.size ≠ rowCount names.length) {s : Canonical.Sum} (hs : IsMinimalSum names S s) :
    minimize names S = .ok s.text := by
  have hterms : (minimalCover names.length S).map (·.term names) =
      s.products.map Canonical.Product.text := by
    -- the products agree with the terms literal by literal
    have hmap := congrArg
      (List.map fun ls => Canonical.product (ls.map fun l => Canonical.literal l.1 l.2)) hs
    rw [List.map_map, List.map_map] at hmap
    exact hmap.symm
  rw [minimize_eq_ok hS, if_neg hempty, if_neg hfull, hterms]
  rfl

/-- Every product of a minimal sum is that of a term of the cover. -/
theorem exists_term_of_minimalSum {s : Canonical.Sum} (hs : IsMinimalSum names S s)
    {p : Canonical.Product} (hp : p ∈ s.products) :
    ∃ t ∈ minimalCover names.length S, t.pattern.literals names = p.literals := by
  have hmem := List.mem_map_of_mem (f := Canonical.Product.literals) hp
  rw [hs] at hmem
  exact List.mem_map.1 hmem

theorem name_mem_of_minimalSum {s : Canonical.Sum} (hs : IsMinimalSum names S s)
    {p : Canonical.Product} (hp : p ∈ s.products) {l : String × Bool} (hl : l ∈ p.literals) :
    l.1 ∈ names := by
  rcases exists_term_of_minimalSum hs hp with ⟨t, -, ht⟩
  rw [← ht] at hl
  exact Pattern.mem_names_of_mem_literals hl

theorem leaf_mem_of_minimalSum {s : Canonical.Sum} (hs : IsMinimalSum names S s) :
    ∀ x ∈ s.formula.leaves, x ∈ names := by
  intro x hx
  rcases Canonical.Sum.mem_leaves_formula.1 hx with ⟨p, hp, l, hl, rfl⟩
  exact name_mem_of_minimalSum hs hp hl

/-- The sum is true exactly where the row of the valuation belongs to the set. -/
theorem value_minimalSum (hS : ∀ row ∈ S, IsRow names.length row) {s : Canonical.Sum}
    (hs : IsMinimalSum names S s) (σ : String → Bool) :
    s.formula.value σ = true ↔ (rowNumber (names.map σ) : Int) ∈ S := by
  have hrow : IsRow names.length (rowNumber (names.map σ)) := by
    simpa using isRow_rowNumber (names.map σ)
  have hbits : rowTruths names.length (rowNumber (names.map σ)) = names.map σ := by
    simpa using rowTruths_rowNumber (names.map σ)
  have hany : s.formula.value σ = (minimalCover names.length S).any fun t =>
      (t.pattern.literals names).all fun l => σ l.1 ^^ l.2 := by
    have h := congrArg (List.any · fun ls => ls.all fun l => σ l.1 ^^ l.2) hs
    simp only [List.any_map] at h
    rw [Canonical.Sum.value_formula]
    exact h
  -- a product is true where the pattern of its term is met
  rw [hany, List.any_eq_true, mem_iff_exists_minimalCover hS]
  apply exists_congr
  intro t
  apply and_congr_right
  intro ht
  have himplies := (isPrime_of_mem_minimalCover hS ht).2.toImplies
  rw [Pattern.all_literals himplies.length_eq himplies.proper, Pattern.mem_rows,
    himplies.length_eq, hbits]
  exact (and_iff_right hrow).symm

/-- The true rows are all rows for a formula that is always true, and only then. -/
theorem Formula.size_trueRowSet_iff {f : Formula} {names : List String} (hnames : names.Nodup)
    (hleaves : ∀ x ∈ f.leaves, x ∈ names) :
    (f.trueRowSet names).size = rowCount names.length ↔
      ∀ σ : String → Bool, f.value σ = true := by
  rw [size_eq_rowCount_iff (isRow_of_mem_trueRowSet f names)]
  constructor
  · intro h σ
    -- a valuation is met in the row of its truth values
    rw [← rowNumber_mem_trueRowSet hnames hleaves]
    apply h
    simpa using isRow_rowNumber (names.map σ)
  · intro h row hrow
    exact mem_rowsWhere.2 ⟨hrow, h _⟩

end PropCalc
