import PropCalc.Proofs.CoverOrder
import PropCalc.Proofs.CubeInclusion
import PropCalc.Proofs.MinimalCover
import PropCalc.Proofs.WiderCubes
/-!
# Covers of a wider table

A variable that does not matter changes all rows, all primes and all gains, but not the choice. Sole
implicants stay sole, so the essential ones come in the same order; gains double and every implicant
has one more open position, so the greedy choices are the same; and primes without open positions,
whose order does change, are essential and gain nothing more. `minimalCover_widen` is the result.
-/

namespace PropCalc

variable {n k : Nat} {S U : RowSet} {p t : Implicant} {row : Int}

/-! ## Widened terms -/

/-- The term with an open position for one more variable. -/
def Implicant.widen (k : Nat) (t : Implicant) : Implicant := .ofPattern (t.pattern.widen k)

/-- The term is a cube in the table over `n` variables. -/
def Implicant.IsCube (n : Nat) (t : Implicant) : Prop :=
  t = .ofPattern t.pattern ∧ t.pattern.length = n

theorem Implicant.IsCube.widen_injective (hp : p.IsCube n) (ht : t.IsCube n)
    (h : p.widen k = t.widen k) : p = t := by
  rw [hp.1, ht.1, Pattern.widen_injective (congrArg Implicant.pattern h)]

theorem Implicant.IsCube.mem_widen (hp : p.IsCube n) (hk : k ≤ n) :
    row ∈ (p.widen k).minterms ↔ IsRow (n + 1) row ∧ dropVariable n k row ∈ p.minterms := by
  rcases hp with ⟨heq, rfl⟩
  rw [Implicant.widen, Implicant.minterms_ofPattern, Pattern.rows_widen hk, RowSet.mem_widen]
  rw [heq]
  rfl

theorem isCube_primeImplicants (hS : ∀ row ∈ S, IsRow n row) (ht : t ∈ primeImplicants n S) :
    t.IsCube n := by
  rcases (mem_primeImplicants hS).1 ht with ⟨heq, hprime⟩
  exact ⟨heq, hprime.length_eq⟩

theorem isRow_of_mem_widen : ∀ row ∈ S.widen n k, IsRow (n + 1) row :=
  fun _ hrow => (RowSet.mem_widen.1 hrow).1

/-! ## Primes -/

theorem nodup_primeImplicants (hS : ∀ row ∈ S, IsRow n row) : (primeImplicants n S).Nodup := by
  refine List.Pairwise.of_map (·.pattern) ?_ (nodup_patterns_primeImplicants hS)
  intro s t hne heq
  exact hne (congrArg Implicant.pattern heq)

/-- The primes of the widened set are the widened primes, in some order. -/
theorem perm_primeImplicants_widen (hk : k ≤ n) (hS : ∀ row ∈ S, IsRow n row) :
    (primeImplicants (n + 1) (S.widen n k)).Perm ((primeImplicants n S).map (·.widen k)) := by
  refine (List.perm_ext_iff_of_nodup ?_ ?_).2 fun t => ?_
  · exact nodup_primeImplicants isRow_of_mem_widen
  · apply List.pairwise_map.2
    refine (nodup_primeImplicants hS).imp_of_mem fun {s t} hs ht hne heq => hne ?_
    exact (isCube_primeImplicants hS hs).widen_injective (isCube_primeImplicants hS ht) heq
  · rw [mem_primeImplicants isRow_of_mem_widen, Pattern.isPrime_widen_iff hk, List.mem_map]
    constructor
    · intro h
      rcases h with ⟨heq, p, hp, hprime⟩
      refine ⟨.ofPattern p, (mem_primeImplicants hS).2 ⟨rfl, hprime⟩, ?_⟩
      rw [heq, hp]
      rfl
    · intro h
      rcases h with ⟨s, hs, rfl⟩
      exact ⟨rfl, s.pattern, rfl, ((mem_primeImplicants hS).1 hs).2⟩

theorem Implicant.IsCube.dontCares_widen (hp : p.IsCube n) (hk : k ≤ n) :
    (p.widen k).pattern.dontCares = p.pattern.dontCares + 1 :=
  Pattern.dontCares_widen (hp.2 ▸ hk)

/-- Primes with open positions come in the same order. -/
theorem filter_primeImplicants_widen (hk : k ≤ n) (hS : ∀ row ∈ S, IsRow n row) :
    (primeImplicants (n + 1) (S.widen n k)).filter (fun t => 1 < t.pattern.dontCares) =
      ((primeImplicants n S).filter fun t => 0 < t.pattern.dontCares).map (·.widen k) := by
  have hfilter : ((primeImplicants n S).map (·.widen k)).filter
      (fun t => 1 < t.pattern.dontCares) =
      ((primeImplicants n S).filter fun t => 0 < t.pattern.dontCares).map (·.widen k) := by
    rw [List.filter_map]
    congr 1
    refine List.filter_congr fun t ht => ?_
    have hopen := (isCube_primeImplicants hS ht).dontCares_widen hk
    simp [hopen]
  -- the members agree, and both lists are ordered as the search finds them
  have hperm := (perm_primeImplicants_widen hk hS).filter fun t => 1 < t.pattern.dontCares
  rw [hfilter] at hperm
  refine eq_of_asymm (fun _ _ => Pattern.FoundBefore.asymm)
    ((pairwise_primeImplicants isRow_of_mem_widen).filter _) ?_ fun t => hperm.mem_iff
  rw [List.pairwise_map]
  refine ((pairwise_primeImplicants hS).filter _).imp_of_mem fun {s t} hs ht hbefore => ?_
  rcases List.mem_filter.1 hs with ⟨hs, hopen⟩
  rcases List.mem_filter.1 ht with ⟨ht, -⟩
  rcases isCube_primeImplicants hS hs with ⟨-, hlen⟩
  rcases isCube_primeImplicants hS ht with ⟨-, hlen'⟩
  have hne : s.pattern.dontCares ≠ 0 := Nat.ne_of_gt (of_decide_eq_true hopen)
  exact hbefore.widen (hlen ▸ hk) (hlen.trans hlen'.symm) hne

/-! ## Essential implicants -/

open Cover

/-- An implicant is alone on a row of the wider table when it was alone on what the row comes from. -/
theorem sole?_widen (hk : k ≤ n) (hS : ∀ row ∈ S, IsRow n row) (hrow : IsRow (n + 1) row) :
    sole? (primeImplicants (n + 1) (S.widen n k)) row =
      (sole? (primeImplicants n S) (dropVariable n k row)).map (·.widen k) := by
  rw [sole?_perm (perm_primeImplicants_widen hk hS)]
  have hcovers : (primeImplicants n S).filter ((·.covers row) ∘ (·.widen k)) =
      (primeImplicants n S).filter (·.covers (dropVariable n k row)) := by
    refine List.filter_congr fun t ht => ?_
    have hmem : row ∈ (t.widen k).minterms ↔ _ := (isCube_primeImplicants hS ht).mem_widen hk
    simp only [Function.comp_apply, Implicant.covers, hmem, hrow, true_and]
  -- the same implicants cover both rows, so there is one of them in both cases or in neither
  rw [sole?, sole?, List.filter_map, hcovers]
  generalize (primeImplicants n S).filter (·.covers (dropVariable n k row)) = covering
  rcases covering with _ | ⟨t, _ | ⟨s, ts⟩⟩ <;> rfl

theorem soleBefore_widen (hk : k ≤ n) (hS : ∀ row ∈ S, IsRow n row)
    (ht : t ∈ primeImplicants n S)
    (h : SoleBefore (primeImplicants n S) S.rows p t) :
    SoleBefore (primeImplicants (n + 1) (S.widen n k)) (S.widen n k).rows (p.widen k)
      (t.widen k) := by
  rcases h with ⟨r, hr, hsole, hbefore⟩
  have hnarrow := hS r hr
  -- the lowest row of the wider table that comes from this one has the variable true
  refine ⟨addVariable n k true r, (addVariable_mem_widen hk true hnarrow).2 hr, ?_, ?_⟩
  · rw [sole?_widen hk hS (isRow_addVariable hk true r), dropVariable_addVariable hk true hnarrow,
      hsole]
    rfl
  · intro s hs hsole'
    -- the later row comes from one that is later in the narrower table
    rcases RowSet.mem_widen.1 hs with ⟨hwide, hdrop⟩
    rw [sole?_widen hk hS hwide, Option.map_eq_some_iff] at hsole'
    rcases hsole' with ⟨t', ht', heq⟩
    obtain rfl := (isCube_primeImplicants hS (mem_of_sole? ht').1).widen_injective
      (isCube_primeImplicants hS ht) heq
    have hlt := addVariable_lt hk true hnarrow (hS _ hdrop) (hbefore _ hdrop ht')
    rcases exists_addVariable hk hwide with ⟨b, hb⟩
    have hle := addVariable_true_le hk b (dropVariable n k s)
    rw [← hb] at hle
    exact Int.lt_of_lt_of_le hlt hle

/-- The essential implicants are the same, in the same order. -/
theorem essentials_widen (hk : k ≤ n) (hS : ∀ row ∈ S, IsRow n row) :
    essentials (primeImplicants (n + 1) (S.widen n k)) [] (S.widen n k).rows =
      (essentials (primeImplicants n S) [] S.rows).map (·.widen k) := by
  have hpairwise : ((essentials (primeImplicants n S) [] S.rows).map (·.widen k)).Pairwise
      (SoleBefore (primeImplicants (n + 1) (S.widen n k)) (S.widen n k).rows) := by
    rw [List.pairwise_map]
    refine (pairwise_essentials S).imp_of_mem fun {p t} hp ht h => ?_
    exact soleBefore_widen hk hS (mem_of_mem_essentials ht) h
  refine eq_of_asymm (fun _ _ => SoleBefore.asymm) (pairwise_essentials _) hpairwise fun t => ?_
  simp only [mem_essentials, List.not_mem_nil, false_or, List.mem_map]
  constructor
  · intro h
    rcases h with ⟨row, hrow, hsole⟩
    rcases RowSet.mem_widen.1 hrow with ⟨hwide, hdrop⟩
    rw [sole?_widen hk hS hwide, Option.map_eq_some_iff] at hsole
    rcases hsole with ⟨s, hs, rfl⟩
    exact ⟨s, ⟨_, hdrop, hs⟩, rfl⟩
  · intro h
    rcases h with ⟨s, ⟨row, hrow, hs⟩, rfl⟩
    have hnarrow := hS row hrow
    refine ⟨addVariable n k true row, (addVariable_mem_widen hk true hnarrow).2 hrow, ?_⟩
    rw [sole?_widen hk hS (isRow_addVariable hk true row),
      dropVariable_addVariable hk true hnarrow, hs]
    rfl

/-! ## Greedy choices -/

theorem remaining_widen {chosen : List Implicant} (hk : k ≤ n)
    (hchosen : ∀ p ∈ chosen, p.IsCube n) :
    remaining (S.widen n k) (chosen.map (·.widen k)) = (remaining S chosen).widen n k := by
  refine RowSet.ext_mem fun row => ?_
  rw [mem_remaining, RowSet.mem_widen, RowSet.mem_widen, mem_remaining, and_assoc]
  refine and_congr_right fun hrow => and_congr_right fun _ => ?_
  simp only [List.forall_mem_map]
  refine forall₂_congr fun p hp => ?_
  rw [(hchosen p hp).mem_widen hk, not_and]
  exact ⟨fun h => h hrow, fun h _ => h⟩

/-- Every gain doubles. -/
theorem gain_widen (hk : k ≤ n) (hU : ∀ row ∈ U, IsRow n row) (hp : p.IsCube n) :
    gain (U.widen n k) (p.widen k) = 2 * gain U p := by
  have hgain : ∀ (rows : RowSet) (t : Implicant),
      gain rows t = (rows.filter fun row => row ∈ t.minterms).size := by
    intro rows t
    rw [gain, RowSet.sizeInter, List.countP_eq_length_filter]
    rfl
  -- the rows in common are widened, which doubles them
  have hcommon : (U.widen n k).filter (fun row => row ∈ (p.widen k).minterms) =
      (U.filter fun row => row ∈ p.minterms).widen n k := by
    refine RowSet.ext_mem fun row => ?_
    rw [RowSet.mem_filter, RowSet.mem_widen, RowSet.mem_widen, RowSet.mem_filter,
      decide_eq_true_eq, decide_eq_true_eq, hp.mem_widen hk, and_assoc]
    exact and_congr_right fun hrow => and_congr_right fun _ => and_iff_right hrow
  rw [hgain, hgain, hcommon, size_widen hk]
  intro row hrow
  exact hU row (RowSet.mem_filter.1 hrow).1

theorem diff_widen (hk : k ≤ n) (hp : p.IsCube n) :
    (U.widen n k).diff (p.widen k).minterms = (U.diff p.minterms).widen n k := by
  have h : remaining (U.widen n k) ([p].map (·.widen k)) = _ :=
    remaining_widen hk (by simpa using hp)
  exact h

/-- The greedy choices among widened implicants are the widened choices. -/
theorem choose_widen (primes : List Implicant) (hk : k ≤ n) (hU : ∀ row ∈ U, IsRow n row)
    (hprimes : ∀ p ∈ primes, p.IsCube n) :
    (choose (primes.map (·.widen k)) (U.widen n k)).1 = (choose primes U).1.map (·.widen k) := by
  induction U using choose.induct primes with
  | case1 U hnone =>
    have hbest := best?_map (fun p hp => gain_widen hk hU (hprimes p hp))
      (fun p hp => (hprimes p hp).dontCares_widen hk)
    rw [hnone] at hbest
    rw [choose_of_none hnone, choose_of_none hbest]
    rfl
  | case2 U q hq ps left hrest ih =>
    have hbest := best?_map (fun p hp => gain_widen hk hU (hprimes p hp))
      (fun p hp => (hprimes p hp).dontCares_widen hk)
    rw [hq] at hbest
    -- the choice takes away the widened rows, and the rest goes on alike
    have hlater := ih fun row hrow => hU row (RowSet.mem_diff.1 hrow).1
    rw [choose_of_some hq, choose_of_some hbest, diff_widen hk (hprimes q (mem_of_best? hq)),
      hlater]
    rfl

/-! ## The cover -/

/-- A prime without open positions is the only one on its row. -/
theorem sole?_of_dontCares_eq_zero (hS : ∀ row ∈ S, IsRow n row) (ht : t ∈ primeImplicants n S)
    (hclosed : t.pattern.dontCares = 0) (hrow : row ∈ t.minterms) :
    sole? (primeImplicants n S) row = some t := by
  rw [sole?_eq_some_iff, ← List.perm_singleton]
  refine (List.perm_ext_iff_of_nodup ?_ (List.pairwise_singleton _ _)).2 fun s => ?_
  · exact (nodup_primeImplicants hS).filter _
  · rw [List.mem_filter, List.mem_singleton]
    rcases (mem_primeImplicants hS).1 ht with ⟨heq, hprime⟩
    have hcovers : row ∈ t.pattern.rows := by
      rw [heq] at hrow
      exact hrow
    constructor
    · intro h
      rcases h with ⟨hs, hscovers⟩
      rcases (mem_primeImplicants hS).1 hs with ⟨hseq, hsprime⟩
      have hsrow : row ∈ s.pattern.rows := by
        rw [hseq] at hscovers
        exact of_decide_eq_true hscovers
      -- a prime with this row contains the closed one, and primes lie in no other cube
      rw [hseq, heq, hprime.eq_of_closed hclosed hsprime.toImplies hcovers hsrow]
    · rintro rfl
      exact ⟨ht, decide_eq_true hrow⟩

/-- Primes without open positions are essential, so they gain nothing in the greedy choice. -/
theorem gain_eq_zero_of_dontCares_eq_zero (hS : ∀ row ∈ S, IsRow n row)
    (ht : t ∈ primeImplicants n S) (hclosed : t.pattern.dontCares = 0) :
    gain (leftByEssentials (primeImplicants n S) S) t = 0 := by
  rw [gain_eq_zero_iff]
  intro row hrow hcovers
  rcases mem_leftByEssentials.1 hrow with ⟨hmem, hleft⟩
  refine hleft t ?_ hcovers
  exact mem_essentials.2 (.inr ⟨row, hmem, sole?_of_dontCares_eq_zero hS ht hclosed hcovers⟩)

theorem leftByEssentials_widen (hk : k ≤ n) (hS : ∀ row ∈ S, IsRow n row) :
    leftByEssentials (primeImplicants (n + 1) (S.widen n k)) (S.widen n k) =
      (leftByEssentials (primeImplicants n S) S).widen n k := by
  rw [leftByEssentials, essentials_widen hk hS, remaining_widen hk]
  · rfl
  · intro p hp
    exact isCube_primeImplicants hS (mem_of_mem_essentials hp)

theorem isRow_of_mem_leftByEssentials (hS : ∀ row ∈ S, IsRow n row) :
    ∀ row ∈ leftByEssentials (primeImplicants n S) S, IsRow n row :=
  fun row hrow => hS row (mem_leftByEssentials.1 hrow).1

/-- Only primes with open positions matter for the greedy choice, -/
theorem choose_filter_open (hS : ∀ row ∈ S, IsRow n row) :
    choose ((primeImplicants n S).filter fun t => 0 < t.pattern.dontCares)
        (leftByEssentials (primeImplicants n S) S) =
      choose (primeImplicants n S) (leftByEssentials (primeImplicants n S) S) := by
  refine choose_filter fun t ht hclosed => gain_eq_zero_of_dontCares_eq_zero hS ht ?_
  simpa using hclosed

/-- and only those with a second one once a variable is added that does not matter. -/
theorem choose_filter_widen (hk : k ≤ n) (hS : ∀ row ∈ S, IsRow n row) :
    choose ((primeImplicants (n + 1) (S.widen n k)).filter fun t => 1 < t.pattern.dontCares)
        ((leftByEssentials (primeImplicants n S) S).widen n k) =
      choose (primeImplicants (n + 1) (S.widen n k))
        ((leftByEssentials (primeImplicants n S) S).widen n k) := by
  refine choose_filter fun t ht hclosed => ?_
  rcases List.mem_map.1 ((perm_primeImplicants_widen hk hS).subset ht) with ⟨s, hs, rfl⟩
  have hcube := isCube_primeImplicants hS hs
  have hgain : gain (leftByEssentials (primeImplicants n S) S) s = 0 := by
    refine gain_eq_zero_of_dontCares_eq_zero hS hs ?_
    rw [hcube.dontCares_widen hk] at hclosed
    simpa using hclosed
  rw [gain_widen hk (isRow_of_mem_leftByEssentials hS) hcube, hgain]

/-- A variable that does not matter leaves the minimal cover as it is, with its position open. -/
theorem minimalCover_widen (hk : k ≤ n) (hS : ∀ row ∈ S, IsRow n row) :
    minimalCover (n + 1) (S.widen n k) = (minimalCover n S).map (·.widen k) := by
  have hcubes : ∀ p ∈ (primeImplicants n S).filter fun t => 0 < t.pattern.dontCares,
      p.IsCube n := fun p hp => isCube_primeImplicants hS (List.mem_filter.1 hp).1
  have hgreedy := choose_widen _ hk (isRow_of_mem_leftByEssentials hS) hcubes
  -- closed primes may come in another order, but they are no greedy choices on either side
  rw [← filter_primeImplicants_widen hk hS, choose_filter_widen hk hS, choose_filter_open hS]
    at hgreedy
  rw [minimalCover, minimalCover, chosen_search, chosen_search, leftByEssentials_widen hk hS,
    essentials_widen hk hS, hgreedy, List.map_append]

end PropCalc
