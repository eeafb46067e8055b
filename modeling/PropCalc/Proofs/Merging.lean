import PropCalc.Primes
import PropCalc.Proofs.Extremes
/-!
# One round of merging

What a round does to a list of terms that are cubes of one width. `merge?_eq_some_iff_ofBool` says
which patterns merge, `mem_merges_iff` which merges are made and `mem_merged_iff` which terms they
lead to.
-/

namespace PropCalc

namespace Pattern

/-! ## Merging two patterns -/

theorem agree_eq_true_iff {p q : Pattern} (h : p.length = q.length) :
    agree p q = true ↔ p = q := by
  induction p generalizing q with
  | nil =>
    obtain rfl := List.length_eq_zero_iff.1 h.symm
    simp [agree]
  | cons a p ih =>
    rcases List.exists_cons_of_length_pos (l := q) (by simp [← h]) with ⟨b, q, rfl⟩
    simp [agree, ih (by simpa using h)]

theorem merge?_cons_self (a : Cell) (p q : Pattern) :
    merge? (a :: p) (a :: q) = (merge? p q).map (a :: ·) := by
  rw [merge?, if_pos rfl]

/-- Behind a difference nothing else may differ. -/
theorem merge?_cons_of_ne {a b : Cell} {p q r : Pattern} (hab : a ≠ b) (hlen : p.length = q.length) :
    merge? (a :: p) (b :: q) = some r ↔
      a ≠ .dontCare ∧ b ≠ .dontCare ∧ p = q ∧ r = .dontCare :: p := by
  rw [merge?, if_neg hab]
  -- an open position does not merge with a closed one
  by_cases hopen : a = .dontCare ∨ b = .dontCare
  · rw [if_pos hopen]
    refine iff_of_false (by simp) ?_
    intro h
    exact hopen.elim h.1 h.2.1
  · rw [if_neg hopen]
    rw [not_or] at hopen
    by_cases heq : p = q
    · rw [if_pos ((agree_eq_true_iff hlen).2 heq), Option.some.injEq]
      exact ⟨fun h => ⟨hopen.1, hopen.2, heq, h.symm⟩, fun h => h.2.2.2.symm⟩
    · rw [if_neg (mt (agree_eq_true_iff hlen).1 heq)]
      exact iff_of_false (by simp) fun h => heq h.2.2.1

/-- Patterns of one width merge exactly when they differ in one position that is open in neither. -/
theorem merge?_eq_some_iff {p q r : Pattern} (h : p.length = q.length) :
    merge? p q = some r ↔ ∃ u a b w, p = u ++ a :: w ∧ q = u ++ b :: w ∧ a ≠ b ∧
      a ≠ .dontCare ∧ b ≠ .dontCare ∧ r = u ++ .dontCare :: w := by
  induction p generalizing q r with
  | nil => simp [merge?]
  | cons a p ih =>
    rcases List.exists_cons_of_length_pos (l := q) (by simp [← h]) with ⟨b, q, rfl⟩
    have hlen : List.length p = List.length q := by simpa using h
    by_cases hab : a = b
    · subst hab
      rw [merge?_cons_self, Option.map_eq_some_iff]
      constructor
      · intro hex
        rcases hex with ⟨s, hs, rfl⟩
        rcases (ih hlen).1 hs with ⟨u, x, y, w, rfl, rfl, hxy, hx, hy, rfl⟩
        exact ⟨a :: u, x, y, w, rfl, rfl, hxy, hx, hy, rfl⟩
      · intro hex
        rcases hex with ⟨u, x, y, w, hp, hq, hxy, hx, hy, rfl⟩
        cases u with
        | nil => exact absurd ((List.cons.inj hp).1.symm.trans (List.cons.inj hq).1) hxy
        | cons c u =>
          -- the difference lies behind the first position
          rcases List.cons.inj hp with ⟨rfl, rfl⟩
          rcases List.cons.inj hq with ⟨-, rfl⟩
          exact ⟨_, (ih hlen).2 ⟨u, x, y, w, rfl, rfl, hxy, hx, hy, rfl⟩, rfl⟩
    · rw [merge?_cons_of_ne hab hlen]
      constructor
      · intro hfirst
        -- the patterns differ at the first position, and nowhere else
        rcases hfirst with ⟨ha, hb, rfl, rfl⟩
        exact ⟨[], a, b, p, rfl, rfl, hab, ha, hb, rfl⟩
      · intro hex
        rcases hex with ⟨u, x, y, w, hp, hq, hxy, hx, hy, rfl⟩
        cases u with
        | nil =>
          rcases List.cons.inj hp with ⟨rfl, rfl⟩
          rcases List.cons.inj hq with ⟨rfl, rfl⟩
          exact ⟨hx, hy, rfl, rfl⟩
        | cons c u => exact absurd ((List.cons.inj hp).1.trans (List.cons.inj hq).1.symm) hab

/-- Patterns merge when they ask for opposite values at one position and agree elsewhere. -/
theorem merge?_eq_some_iff_ofBool {n : Nat} {p q r : Pattern} (hp : p.IsOver n) (hq : q.IsOver n) :
    merge? p q = some r ↔ ∃ u b w, p = u ++ .ofBool b :: w ∧ q = u ++ .ofBool (!b) :: w ∧
      r = u ++ .dontCare :: w := by
  rw [merge?_eq_some_iff (hp.length_eq.trans hq.length_eq.symm)]
  constructor
  · intro h
    rcases h with ⟨u, c, d, w, rfl, rfl, hcd, hc, hd, rfl⟩
    rcases (hp.proper c (by simp)).eq_ofBool hc with ⟨b, rfl⟩
    rcases (hq.proper d (by simp)).eq_ofBool hd with ⟨b', rfl⟩
    -- closed positions that differ ask for opposite values
    have hne : b ≠ b' := fun heq => hcd (congrArg Cell.ofBool heq)
    obtain rfl : b' = !b := by cases b <;> cases b' <;> simp at hne ⊢
    exact ⟨u, b, w, rfl, rfl, rfl⟩
  · intro h
    rcases h with ⟨u, b, w, rfl, rfl, rfl⟩
    refine ⟨u, .ofBool b, .ofBool (!b), w, rfl, rfl, ?_, Cell.ofBool_ne_dontCare b,
      Cell.ofBool_ne_dontCare (!b), rfl⟩
    cases b <;> decide

/-- If the second one asks for one more to be true, they are the false and the true half of a cube. -/
theorem merge?_eq_some_iff_halves {n : Nat} {p q r : Pattern} (hp : p.IsOver n) (hq : q.IsOver n)
    (hones : p.ones + 1 = q.ones) : merge? p q = some r ↔ ∃ u w, p = u ++ .zero :: w ∧
      q = u ++ .one :: w ∧ r = u ++ .dontCare :: w := by
  rw [merge?_eq_some_iff_ofBool hp hq]
  constructor
  · intro h
    rcases h with ⟨u, b, w, rfl, rfl, rfl⟩
    cases b with
    | false => exact ⟨u, w, rfl, rfl, rfl⟩
    | true =>
      -- the other way round the first one has more ones
      have hone : ones (u ++ .one :: w) + 1 = ones (u ++ .zero :: w) := hones
      rw [ones_one, ones_zero] at hone
      omega
  · intro h
    rcases h with ⟨u, w, rfl, rfl, rfl⟩
    exact ⟨u, false, w, rfl, rfl, rfl⟩

end Pattern

/-! ## Terms of a round -/

namespace Implicant

theorem ofPattern_merge? {n : Nat} {p q : Pattern} {t : Implicant} (hp : p.IsOver n)
    (hq : q.IsOver n) (hones : p.ones + 1 = q.ones) :
    (ofPattern p).merge? (ofPattern q) = some t ↔ ∃ u w, p = u ++ .zero :: w ∧
      q = u ++ .one :: w ∧ t = ofPattern (u ++ .dontCare :: w) := by
  -- the rows of both halves are those of the open cube
  have hunion : ∀ u w : Pattern, (Pattern.rows (u ++ .zero :: w)).union
      (Pattern.rows (u ++ .one :: w)) = Pattern.rows (u ++ .dontCare :: w) := by
    intro u w
    refine RowSet.ext_mem fun row => ?_
    rw [RowSet.mem_union, Pattern.mem_rows_open]
  unfold merge?
  rw [Option.map_eq_some_iff]
  constructor
  · intro h
    rcases h with ⟨r, hr, rfl⟩
    rcases (Pattern.merge?_eq_some_iff_halves hp hq hones).1 hr with ⟨u, w, rfl, rfl, rfl⟩
    refine ⟨u, w, rfl, rfl, ?_⟩
    simp [ofPattern, hunion]
  · intro h
    rcases h with ⟨u, w, rfl, rfl, rfl⟩
    refine ⟨_, (Pattern.merge?_eq_some_iff_halves hp hq hones).2 ⟨u, w, rfl, rfl, rfl⟩, ?_⟩
    simp [ofPattern, hunion]

end Implicant

namespace Primes

/-- The terms are cubes of one width, each with the rows that it covers. -/
def AreCubes (n : Nat) (terms : List Implicant) : Prop :=
  ∀ t ∈ terms, t = .ofPattern t.pattern ∧ t.pattern.length = n ∧ t.pattern.IsProper

theorem ones_le_topLevel {terms : List Implicant} {t : Implicant} (h : t ∈ terms) :
    t.pattern.ones ≤ topLevel terms := by
  induction terms with
  | nil => simp at h
  | cons s terms ih =>
    rw [topLevel, List.foldr_cons]
    rcases List.mem_cons.1 h with rfl | h
    · exact Nat.le_max_left ..
    · exact Nat.le_trans (ih h) (Nat.le_max_right ..)

/-- The merges of a round join any two terms, with ones that differ by one, that do merge. -/
theorem mem_merges {terms : List Implicant} {m : Merge} : m ∈ merges terms ↔
    m.lower ∈ terms ∧ m.upper ∈ terms ∧ m.lower.pattern.ones + 1 = m.upper.pattern.ones ∧
      m.lower.merge? m.upper = some m.result := by
  simp only [merges, mergesOf, level, List.mem_flatMap, List.mem_range, List.mem_filter,
    List.mem_filterMap, Option.map_eq_some_iff, beq_iff_eq]
  constructor
  · intro h
    rcases h with ⟨k, -, lower, ⟨hl, hk⟩, upper, ⟨hu, hk'⟩, r, hr, rfl⟩
    exact ⟨hl, hu, by simp [hk, hk'], hr⟩
  · intro h
    rcases h with ⟨hl, hu, hones, hr⟩
    have htop := ones_le_topLevel hl
    -- the merge is made at the level of its lower term
    exact ⟨m.lower.pattern.ones, by omega, m.lower, ⟨hl, rfl⟩, m.upper, ⟨hu, hones.symm⟩,
      m.result, hr, rfl⟩

/-- Among cubes, a merge joins the two halves of a cube. -/
theorem mem_merges_iff {n : Nat} {terms : List Implicant} (h : AreCubes n terms) {m : Merge} :
    m ∈ merges terms ↔ ∃ u w, m.lower = .ofPattern (u ++ .zero :: w) ∧
      m.upper = .ofPattern (u ++ .one :: w) ∧ m.result = .ofPattern (u ++ .dontCare :: w) ∧
      m.lower ∈ terms ∧ m.upper ∈ terms := by
  rw [mem_merges]
  constructor
  · intro h
    rcases h with ⟨hl, hu, hones, hmerge⟩
    rcases h _ hl with ⟨hlp, hll, hlproper⟩
    rcases h _ hu with ⟨hup, hul, huproper⟩
    rw [hlp, hup, Implicant.ofPattern_merge? ⟨hll, hlproper⟩ ⟨hul, huproper⟩ hones] at hmerge
    rcases hmerge with ⟨u, w, hlw, huw, hr⟩
    exact ⟨u, w, by rw [hlp, hlw], by rw [hup, huw], hr, hl, hu⟩
  · intro h
    rcases h with ⟨u, w, hlw, huw, hr, hl, hu⟩
    have hones : m.lower.pattern.ones + 1 = m.upper.pattern.ones := by
      rw [hlw, huw, Implicant.pattern_ofPattern, Implicant.pattern_ofPattern, Pattern.ones_zero,
        Pattern.ones_one]
    refine ⟨hl, hu, hones, ?_⟩
    rcases h _ hl with ⟨-, hll, hlproper⟩
    rcases h _ hu with ⟨-, hul, huproper⟩
    rw [hlw, Implicant.pattern_ofPattern] at hll hlproper hones
    rw [huw, Implicant.pattern_ofPattern] at hul huproper hones
    rw [hlw, huw, Implicant.ofPattern_merge? ⟨hll, hlproper⟩ ⟨hul, huproper⟩ hones]
    exact ⟨u, w, rfl, rfl, hr⟩

/-- Keeping the first term of each pattern keeps every pattern. -/
theorem exists_mem_firstOfPattern {t : Implicant} {ts : List Implicant} (h : t ∈ ts) :
    ∃ s ∈ Implicant.firstOfPattern ts, s.pattern = t.pattern := by
  induction ts with
  | nil => simp at h
  | cons s ts ih =>
    rw [Implicant.firstOfPattern]
    by_cases hs : t.pattern = s.pattern
    · exact ⟨s, List.mem_cons_self, hs.symm⟩
    · rcases List.mem_cons.1 h with rfl | h
      · exact absurd rfl hs
      · rcases ih h with ⟨r, hr, hrt⟩
        refine ⟨r, List.mem_cons_of_mem _ (List.mem_filter.2 ⟨hr, ?_⟩), hrt⟩
        simpa [hrt] using hs

/-- Among terms that their patterns determine nothing is dropped. -/
theorem mem_firstOfPattern_iff {ts : List Implicant} (h : ∀ t ∈ ts, t = .ofPattern t.pattern)
    {t : Implicant} : t ∈ Implicant.firstOfPattern ts ↔ t ∈ ts := by
  constructor
  · exact Implicant.mem_of_mem_firstOfPattern
  · intro ht
    rcases exists_mem_firstOfPattern ht with ⟨s, hs, hst⟩
    -- the term that was kept has the same pattern, hence the same rows
    have hterm := h s (Implicant.mem_of_mem_firstOfPattern hs)
    rw [h t ht, ← hst, ← hterm]
    exact hs

/-- A round leads to the open cubes whose halves are both among its terms. -/
theorem mem_merged_iff {n : Nat} {terms : List Implicant} (h : AreCubes n terms)
    {t : Implicant} : t ∈ merged terms ↔ ∃ u w, t = .ofPattern (u ++ .dontCare :: w) ∧
      .ofPattern (u ++ .zero :: w) ∈ terms ∧ .ofPattern (u ++ .one :: w) ∈ terms := by
  have hresult : ∀ t, t ∈ (merges terms).map (·.result) ↔ ∃ u w,
      t = .ofPattern (u ++ .dontCare :: w) ∧
      .ofPattern (u ++ .zero :: w) ∈ terms ∧ .ofPattern (u ++ .one :: w) ∈ terms := by
    intro t
    rw [List.mem_map]
    constructor
    · intro h
      rcases h with ⟨m, hm, rfl⟩
      rcases (mem_merges_iff h).1 hm with ⟨u, w, hlw, huw, hr, hl, hu⟩
      exact ⟨u, w, hr, hlw ▸ hl, huw ▸ hu⟩
    · intro h
      rcases h with ⟨u, w, rfl, hl, hu⟩
      exact ⟨⟨_, _, _⟩, (mem_merges_iff h).2 ⟨u, w, rfl, rfl, rfl, hl, hu⟩, rfl⟩
  -- the rows of a result are those of its pattern
  have hcube : ∀ t ∈ (merges terms).map (·.result), t = .ofPattern t.pattern := by
    intro t ht
    rcases (hresult t).1 ht with ⟨u, w, rfl, -⟩
    rfl
  rw [merged, mem_firstOfPattern_iff hcube, hresult]

end Primes

end PropCalc
