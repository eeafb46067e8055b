import Mathlib.Data.List.Forall2
import PropCalc.Proofs.Extremes
/-!
# Cubes inside cubes

A cube lies in another one when the other is open, or asks for the same, at every position. As far as
rows can tell this is inclusion (`within_iff_rows_subset`), and the open positions tell how far the
two are apart:

* `Within.eq_of_dontCares_le` — with as many open positions they are the same;
* `Within.exists_open` — with one more, the larger one is the smaller one opened at one position;
* `IsPrime.eq_of_rows_subset`, `IsPrime.eq_of_closed` — and a prime lies in no other cube of the set.
-/

namespace PropCalc

/-- A position that admits more than another one is open. -/
theorem Cell.eq_dontCare_of_admits {c d : Cell} (hc : c.IsProper) (hd : d.IsProper) (hne : c ≠ d)
    (h : ∀ b, c.admits b = true → d.admits b = true) : d = .dontCare := by
  -- a closed position admits one truth value, and a different closed one refuses it
  rcases hc with rfl | rfl | rfl
  · rcases hd with rfl | rfl | rfl
    · exact absurd rfl hne
    · exact absurd (h true rfl) (by decide)
    · rfl
  · rcases hd with rfl | rfl | rfl
    · exact absurd (h false rfl) (by decide)
    · exact absurd rfl hne
    · rfl
  · rcases hd with rfl | rfl | rfl
    · exact absurd (h false rfl) (by decide)
    · exact absurd (h true rfl) (by decide)
    · rfl

theorem Cell.admits_eq_true_iff {c : Cell} {b : Bool} :
    c.admits b = true ↔ c = .dontCare ∨ c = .ofBool b := by
  cases c <;> cases b <;> simp [admits, ofBool]

namespace Pattern

/-- At every position the second pattern is open or asks for the same as the first. -/
abbrev Within (p q : Pattern) : Prop := List.Forall₂ (fun c d => d = .dontCare ∨ d = c) p q

variable {p q r u w u' w' : Pattern} {n : Nat} {S : RowSet}

/-! ## Position by position -/

theorem Within.refl (p : Pattern) : p.Within p := List.forall₂_same.2 fun _ _ => .inr rfl

theorem Within.trans (h : p.Within q) (h' : q.Within r) : p.Within r := by
  induction h generalizing r with
  | nil => exact h'
  | cons hcd _ ih =>
    cases h' with
    | cons hde h' =>
      refine .cons ?_ (ih h')
      rcases hde with hopen | rfl
      · exact .inl hopen
      · exact hcd

theorem Within.append (hu : u.Within u') (hw : w.Within w') : Within (u ++ w) (u' ++ w') :=
  List.rel_append hu hw

/-- A cube lies in what it becomes when a position is opened. -/
theorem within_open (u : Pattern) (c : Cell) (w : Pattern) :
    Within (u ++ c :: w) (u ++ .dontCare :: w) :=
  (Within.refl u).append (.cons (.inl rfl) (Within.refl w))

/-! ## Rows -/

theorem Within.meets (h : p.Within q) {bs : List Bool} (hbs : p.meets bs = true) :
    q.meets bs = true := by
  induction h generalizing bs with
  | nil => exact hbs
  | @cons c d p q hcd _ ih =>
    cases bs with
    | nil => exact hbs
    | cons b bs =>
      simp only [Pattern.meets, Bool.and_eq_true] at hbs ⊢
      refine ⟨?_, ih hbs.2⟩
      rcases hcd with rfl | rfl
      · rfl
      · exact hbs.1

theorem Within.rows_subset (h : p.Within q) : ∀ row ∈ p.rows, row ∈ q.rows := by
  intro row hrow
  rw [mem_rows, h.length_eq] at hrow
  exact mem_rows.2 ⟨hrow.1, h.meets hrow.2⟩

/-- The pattern of a row lies in a cube when the cube admits the truth values of the row. -/
theorem ofRow_within_iff {row : Int} :
    (ofRow n row).Within p ↔ p.meets (rowTruths n row) = true := by
  have hvalues : ∀ bs : List Bool, Within (bs.map Cell.ofBool) p ↔ p.meets bs = true := by
    intro bs
    induction bs generalizing p with
    | nil => cases p <;> simp [Pattern.meets]
    | cons b bs ih =>
      cases p with
      | nil => simp [Pattern.meets]
      | cons c p =>
        rw [List.map_cons, Within, List.forall₂_cons, Pattern.meets, Bool.and_eq_true,
          Cell.admits_eq_true_iff]
        exact and_congr_right' ih
  rw [pattern_ofRow_eq_map]
  exact hvalues _

theorem meets_of_rows_subset (hlen : p.length = q.length) (h : ∀ row ∈ p.rows, row ∈ q.rows)
    {bs : List Bool} (hbs : p.meets bs = true) : q.meets bs = true := by
  have hp := (length_eq_of_meets hbs).symm
  -- truth values are met in the row that has their number
  have hrow : (rowNumber bs : Int) ∈ p.rows := by
    rw [mem_rows, rowTruths_rowNumber_of_length hp]
    exact ⟨isRow_rowNumber_of_length hp, hbs⟩
  have hmeets := (mem_rows.1 (h _ hrow)).2
  rwa [rowTruths_rowNumber_of_length (hp.trans hlen)] at hmeets

theorem within_of_meets (hlen : p.length = q.length) (hp : p.IsProper) (hq : q.IsProper)
    (h : ∀ bs, meets p bs = true → meets q bs = true) : p.Within q := by
  induction p generalizing q with
  | nil =>
    obtain rfl := List.length_eq_zero_iff.1 hlen.symm
    exact .nil
  | cons c p ih =>
    rcases List.exists_cons_of_length_pos (l := q) (by simp [← hlen]) with ⟨d, q, rfl⟩
    rcases isProper_cons.1 hp with ⟨hc, hp⟩
    rcases isProper_cons.1 hq with ⟨hd, hq⟩
    simp only [List.length_cons, Nat.add_right_cancel_iff] at hlen
    -- truth values that meet the one meet the other, at the first position and behind it
    have hparts : ∀ b bs, c.admits b = true → meets p bs = true →
        d.admits b = true ∧ meets q bs = true := by
      intro b bs hb hbs
      have hmeets := h (b :: bs) (by simp [Pattern.meets, hb, hbs])
      simpa [Pattern.meets] using hmeets
    refine .cons ?_ (ih hlen hp hq fun bs hbs => ?_)
    · -- some truth values meet the rest, so the first position can be compared alone
      rcases hp.exists_mem_rows with ⟨row, hrow⟩
      refine Decidable.or_iff_not_imp_right.2 fun hne => ?_
      exact Cell.eq_dontCare_of_admits hc hd (Ne.symm hne) fun b hb =>
        (hparts b _ hb (mem_rows.1 hrow).2).1
    · rcases hc.exists_admits with ⟨b, hb⟩
      exact (hparts b bs hb hbs).2

/-- A cube lies in another one of the same width when its rows do. -/
theorem within_iff_rows_subset (hp : p.IsOver n) (hq : q.IsOver n) :
    p.Within q ↔ ∀ row ∈ p.rows, row ∈ q.rows := by
  have hlen : p.length = q.length := hp.length_eq.trans hq.length_eq.symm
  constructor
  · exact Within.rows_subset
  · intro h
    exact within_of_meets hlen hp.proper hq.proper fun _ => meets_of_rows_subset hlen h

/-! ## Open positions -/

theorem Within.dontCares_le (h : p.Within q) : p.dontCares ≤ q.dontCares := by
  induction h with
  | nil => exact Nat.le_refl _
  | @cons c d p q hcd _ ih =>
    rw [dontCares_cons, dontCares_cons]
    rcases hcd with rfl | rfl
    · split <;> simp <;> omega
    · omega

/-- With as many open positions, a cube inside another one is the same. -/
theorem Within.eq_of_dontCares_le (h : p.Within q) (hle : q.dontCares ≤ p.dontCares) : p = q := by
  induction h with
  | nil => rfl
  | @cons c d p q hcd hpq ih =>
    -- the rest leaves no slack, so the first position cannot open either
    have hmono := Within.dontCares_le hpq
    rw [dontCares_cons, dontCares_cons] at hle
    obtain rfl : d = c := by
      refine hcd.elim (fun hopen => ?_) id
      rw [hopen, if_pos rfl] at hle
      split at hle
      · next hc => rw [hopen, hc]
      · omega
    rw [ih (by omega)]

/-- A cube inside another one is closed at some position where the other is open. -/
theorem Within.exists_closed (h : p.Within q) (hne : p ≠ q) : ∃ u c w u' w', p = u ++ c :: w ∧
    q = u' ++ .dontCare :: w' ∧ c ≠ .dontCare ∧ Within u u' ∧ Within w w' := by
  induction h with
  | nil => exact absurd rfl hne
  | @cons c d p q hcd hpq ih =>
    -- either the two differ here, or further on
    by_cases heq : d = c
    · subst heq
      rcases ih fun hrest => hne (congrArg (d :: ·) hrest) with
        ⟨u, c, w, u', w', rfl, rfl, hc, hu, hw⟩
      exact ⟨d :: u, c, w, d :: u', w', rfl, rfl, hc, .cons (.inr rfl) hu, hw⟩
    · obtain rfl := hcd.resolve_right heq
      exact ⟨[], c, p, [], q, rfl, rfl, Ne.symm heq, .nil, hpq⟩

/-- With one more open position, the larger cube is the smaller one opened there. -/
theorem Within.exists_open (h : p.Within q) (hopen : q.dontCares = p.dontCares + 1) :
    ∃ u c w, p = u ++ c :: w ∧ c ≠ .dontCare ∧ q = u ++ .dontCare :: w := by
  have hne : p ≠ q := by
    rintro rfl
    omega
  rcases h.exists_closed hne with ⟨u, c, w, u', w', rfl, rfl, hc, hu, hw⟩
  rw [dontCares_append, dontCares_append, dontCares_cons, dontCares_cons, if_pos rfl,
    if_neg hc] at hopen
  -- the parts before and behind the position have as many open positions in both
  have hule := hu.dontCares_le
  have hwle := hw.dontCares_le
  obtain rfl := hu.eq_of_dontCares_le (by omega)
  obtain rfl := hw.eq_of_dontCares_le (by omega)
  exact ⟨u, c, w, rfl, hc, rfl⟩

/-! ## Primes -/

/-- A prime lies in no other cube inside the set. -/
theorem IsPrime.eq_of_rows_subset (hp : p.IsPrime n S) (hq : q.Implies n S)
    (h : ∀ row ∈ p.rows, row ∈ q.rows) : p = q := by
  refine Classical.byContradiction fun hne => ?_
  rcases ((within_iff_rows_subset hp.isOver hq.isOver).2 h).exists_closed hne with
    ⟨u, c, w, u', w', heq, rfl, hc, hu, hw⟩
  -- opened where the other cube is open, the prime would still lie in it
  have hopened : Within (u ++ .dontCare :: w) (u' ++ .dontCare :: w') :=
    hu.append (.cons (.inl rfl) hw)
  have hproper := hp.proper
  rw [heq] at hproper
  refine hp.maximal u c w heq hc ⟨hopened.length_eq.trans hq.length_eq,
    hproper.replace (by decide), fun row hrow => ?_⟩
  exact hq.rows_subset row (hopened.rows_subset row hrow)

/-- A prime without open positions shares its row with no other cube inside the set. -/
theorem IsPrime.eq_of_closed {row : Int} (hp : p.IsPrime n S) (hclosed : p.dontCares = 0)
    (hq : q.Implies n S) (hrow : row ∈ p.rows) (hrow' : row ∈ q.rows) : q = p := by
  -- its cube is a single row, and the other cube has this row
  rcases hp.proper.eq_ofRow hclosed with ⟨r, hr, heq⟩
  rw [heq, mem_rows_ofRow hr] at hrow
  refine (hp.eq_of_rows_subset hq fun s hs => ?_).symm
  rw [heq, mem_rows_ofRow hr] at hs
  rw [hs, ← hrow]
  exact hrow'

end Pattern

end PropCalc
