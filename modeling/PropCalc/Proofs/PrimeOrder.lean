import Mathlib.Data.List.Basic
import PropCalc.Proofs.PrimeSearch
/-!
# The order of the primes

In which order the search lists the primes, said in terms of the primes themselves: by the number of
their open positions, then by the number of ones, then by the highest row that they cover, and then
by the places of their open positions, compared one by one. Primes without open positions come by
their rows.

The search compares lowest rows where this order compares places. Among patterns that agree in all
that comes before, `lex_openPositions` says that the lower one opens an earlier place. So the order of
the search is this one (`listedBefore_of_foundBefore`), and there is no other list of the same primes
in this order (`primeImplicants_listed_in_order`).
-/

namespace PropCalc

/-! ## Highest rows -/

namespace RowSet

variable {s : RowSet} {row : Int}

/-- The highest row of a set. -/
def highest? (s : RowSet) : Option Int := s.rows.getLast?

theorem highest?_eq_some (hrow : row ∈ s) (hmax : ∀ r ∈ s, r ≤ row) : s.highest? = some row := by
  rcases List.append_of_mem hrow with ⟨before, after, heq⟩
  -- the rows ascend, so none can stand behind the highest
  have hafter : after = [] := by
    refine List.eq_nil_iff_forall_not_mem.2 fun r hr => ?_
    have hasc := s.ascending
    rw [heq, List.pairwise_append, List.pairwise_cons] at hasc
    have hle := hmax r (by simp [mem_def, heq, hr])
    exact Int.not_lt.2 hle (hasc.2.1.1 r hr)
  rw [highest?, heq, hafter, List.getLast?_append_cons]
  rfl

end RowSet

namespace Pattern

variable {p q : Pattern}

theorem highest?_rows (hp : p.IsProper) : p.rows.highest? = some (p.high : Int) :=
  RowSet.highest?_eq_some (high_mem_rows hp) fun _ => le_high_of_mem_rows

/-! ## Open positions -/

/-- The places of the open positions, in ascending order. -/
def openPositions (p : Pattern) : List Nat := p.idxsOf .dontCare

/-- Of two patterns that reach equally high, the first position tells which one reaches lower, or it is
the same and the others tell. -/
theorem open_or_eq_of_low_lt {a b : Cell} (hp : IsProper (a :: p)) (hq : IsProper (b :: q))
    (hlen : p.length = q.length) (hhigh : high (a :: p) = high (b :: q))
    (hlow : low (a :: p) < low (b :: q)) :
    a = .dontCare ∧ b = .zero ∨ a = b ∧ p.high = q.high ∧ p.low < q.low := by
  have hltp := high_lt p
  have hltq := high_lt q
  have hlowq := low_le_high q
  simp only [high, low, hlen] at hltp hhigh hlow
  -- either position is one, zero or open; all other pairs contradict the heights
  rcases (isProper_cons.1 hp).1 with rfl | rfl | rfl <;>
    rcases (isProper_cons.1 hq).1 with rfl | rfl | rfl <;>
      simp at hhigh hlow ⊢ <;> omega

/-- Of two patterns that reach equally high with as many open positions, the one that reaches lower
opens an earlier place. The places are counted from any number on. -/
theorem lex_idxsOf (hp : p.IsProper) (hq : q.IsProper) (hlen : p.length = q.length)
    (hopen : p.dontCares = q.dontCares) (hhigh : p.high = q.high) (hlow : p.low < q.low) (k : Nat) :
    List.Lex (· < ·) (p.idxsOf .dontCare k) (q.idxsOf .dontCare k) := by
  induction p generalizing q k with
  | nil =>
    -- patterns without positions cover the same single row
    obtain rfl := List.length_eq_zero_iff.1 hlen.symm
    exact absurd hlow (Nat.lt_irrefl _)
  | cons a p ih =>
    rcases List.exists_cons_of_length_pos (l := q) (by simp [← hlen]) with ⟨b, q, rfl⟩
    simp only [List.length_cons, Nat.add_right_cancel_iff] at hlen
    simp only [dontCares_cons] at hopen
    rw [List.idxsOf_cons, List.idxsOf_cons]
    rcases open_or_eq_of_low_lt hp hq hlen hhigh hlow with ⟨rfl, rfl⟩ | ⟨rfl, htops, hbottoms⟩
    · -- the other pattern opens its first place later
      -- it has as many open places, so it does open one
      have hne : q.idxsOf .dontCare (k + 1) ≠ [] := by
        rw [← List.length_pos_iff, List.length_idxsOf]
        simp [dontCares] at hopen
        omega
      rcases List.exists_cons_of_ne_nil hne with ⟨x, xs, hx⟩
      have hmem : x ∈ q.idxsOf .dontCare (k + 1) := by
        rw [hx]
        exact List.mem_cons_self
      rw [hx]
      exact .rel (List.ge_of_mem_idxsOf x hmem)
    · -- the first positions are the same, so the later ones decide
      have hrest := ih (isProper_cons.1 hp).2 (isProper_cons.1 hq).2 hlen (by omega) htops hbottoms
        (k + 1)
      split
      · exact .cons hrest
      · exact hrest

theorem lex_openPositions (hp : p.IsProper) (hq : q.IsProper) (hlen : p.length = q.length)
    (hopen : p.dontCares = q.dontCares) (hhigh : p.high = q.high) (hlow : p.low < q.low) :
    List.Lex (· < ·) p.openPositions q.openPositions :=
  lex_idxsOf hp hq hlen hopen hhigh hlow 0

end Pattern

/-! ## The order -/

/-- The order of terms in the list of primes. -/
def Implicant.ListedBefore (s t : Implicant) : Prop :=
  s.pattern.dontCares < t.pattern.dontCares ∨ s.pattern.dontCares = t.pattern.dontCares ∧
    if s.pattern.dontCares = 0 then
      ∃ row row', s.minterms.rows = [row] ∧ t.minterms.rows = [row'] ∧ row < row'
    else
      s.pattern.ones < t.pattern.ones ∨ s.pattern.ones = t.pattern.ones ∧
        ∃ high high', s.minterms.highest? = some high ∧ t.minterms.highest? = some high' ∧
          (high < high' ∨ high = high' ∧
            List.Lex (· < ·) s.pattern.openPositions t.pattern.openPositions)

theorem Implicant.ListedBefore.asymm {s t : Implicant} (h : s.ListedBefore t) :
    ¬ t.ListedBefore s := by
  refine asymm_of_first (fun _ _ => Nat.lt_asymm) (fun hopen => ?_) h
  rw [← hopen]
  split
  · -- without open positions: by the only rows
    intro h h'
    rcases h with ⟨row, row', hs, ht, hlt⟩
    rcases h' with ⟨r', r, ht', hs', hlt'⟩
    obtain rfl := (List.cons.inj (hs.symm.trans hs')).1
    obtain rfl := (List.cons.inj (ht.symm.trans ht')).1
    exact Int.lt_asymm hlt hlt'
  · -- with open positions: by ones, highest rows and places
    refine asymm_of_first (fun _ _ => Nat.lt_asymm) fun _ h h' => ?_
    rcases h with ⟨high, high', hs, ht, h⟩
    rcases h' with ⟨r', r, ht', hs', h'⟩
    obtain rfl := Option.some.inj (hs.symm.trans hs')
    obtain rfl := Option.some.inj (ht.symm.trans ht')
    have hplaces : List.Lex (· < ·) s.pattern.openPositions t.pattern.openPositions →
        ¬ List.Lex (· < ·) t.pattern.openPositions s.pattern.openPositions := by
      intro hlex hlex'
      exact List.lt_asymm (List.lex_lt.1 hlex) (List.lex_lt.1 hlex')
    exact asymm_of_first (R := fun a b : Int => a < b) (fun _ _ => Int.lt_asymm)
      (fun _ => hplaces) h h'

/-- The order in which the search finds patterns is the order of their terms. -/
theorem listedBefore_of_foundBefore {p q : Pattern} (hp : p.IsProper) (hq : q.IsProper)
    (hlen : p.length = q.length) (h : p.FoundBefore q) :
    (Implicant.ofPattern p).ListedBefore (.ofPattern q) := by
  rcases h with hlt | ⟨hopen, h⟩
  · exact .inl hlt
  refine .inr ⟨hopen, ?_⟩
  by_cases hclosed : p.dontCares = 0
  · rw [if_pos hclosed] at h
    refine (if_pos hclosed).mpr ?_
    exact ⟨p.high, q.high, Pattern.rows_eq_singleton hp hclosed,
      Pattern.rows_eq_singleton hq (hopen ▸ hclosed), by exact_mod_cast h⟩
  · rw [if_neg hclosed] at h
    refine (if_neg hclosed).mpr ?_
    refine h.imp id fun h => ⟨h.1, p.high, q.high, Pattern.highest?_rows hp,
      Pattern.highest?_rows hq, ?_⟩
    rcases h.2 with hlt | ⟨hhigh, hlow⟩
    · exact .inl (by exact_mod_cast hlt)
    · exact .inr ⟨by rw [hhigh], Pattern.lex_openPositions hp hq hlen hopen hhigh hlow⟩

/-- The search lists the primes by the number of their open positions. Those without any come by their
rows; those with equally many come by the number of ones, then by the highest row that they cover, then
by the places of their open positions. No other list of the same primes is in this order. -/
theorem primeImplicants_listed_in_order (n : Nat) (S : RowSet) (hS : ∀ row ∈ S, IsRow n row) :
    (primeImplicants n S).Pairwise Implicant.ListedBefore ∧
    ∀ l : List Implicant, l.Pairwise Implicant.ListedBefore →
      (∀ t, t ∈ l ↔ t ∈ primeImplicants n S) → l = primeImplicants n S := by
  have hordered : (primeImplicants n S).Pairwise Implicant.ListedBefore := by
    refine (pairwise_primeImplicants hS).imp_of_mem fun {s t} hs ht hbefore => ?_
    rcases (mem_primeImplicants hS).1 hs with ⟨hsp, hs⟩
    rcases (mem_primeImplicants hS).1 ht with ⟨htp, ht⟩
    rw [hsp, htp]
    exact listedBefore_of_foundBefore hs.proper ht.proper
      (hs.length_eq.trans ht.length_eq.symm) hbefore
  refine ⟨hordered, fun l hl hmem => ?_⟩
  exact eq_of_asymm (fun _ _ => Implicant.ListedBefore.asymm) hl hordered hmem

/-- Primes with none, one and two open positions. The last two have the same highest row. -/
theorem primeImplicants_listed_in_order_shared :
    let S := RowSet.ofList [15, 14, 13, 12, 7, 5, 3, 0]
    (∀ row ∈ S, IsRow 4 row) ∧
    (primeImplicants 4 S).Pairwise Implicant.ListedBefore ∧
    ∀ l : List Implicant, l.Pairwise Implicant.ListedBefore →
      (∀ t, t ∈ l ↔ t ∈ primeImplicants 4 S) → l = primeImplicants 4 S := by
  intro S
  have hS : ∀ row ∈ S.rows, IsRow 4 row := by decide
  exact ⟨hS, primeImplicants_listed_in_order 4 S hS⟩

end PropCalc
