import PropCalc.Implicant
/-!
# Prime implicants

The product terms of a function that cannot be widened. The search starts from the rows and goes in
rounds: terms whose numbers of ones differ by one are merged in pairs, and a term that took part in no
merge is prime. Every round opens one more position, so the rounds come to an end.
-/

namespace PropCalc.Primes

/-! ## One round -/

/-- Two terms that merge, and what they merge into. -/
structure Merge where
  lower : Implicant
  upper : Implicant
  result : Implicant
deriving DecidableEq, Repr

/-- The terms with a given number of ones. -/
def level (terms : List Implicant) (ones : Nat) : List Implicant :=
  terms.filter fun t => t.pattern.ones == ones

/-- The largest number of ones among the terms. -/
def topLevel (terms : List Implicant) : Nat := terms.foldr (fun t n => max t.pattern.ones n) 0

/-- The merges of a term with the terms one level up. -/
def mergesOf (upper : List Implicant) (lower : Implicant) : List Merge :=
  upper.filterMap fun u => (lower.merge? u).map fun r => ⟨lower, u, r⟩

/-- All merges of a round, level by level. -/
def merges (terms : List Implicant) : List Merge :=
  (List.range (topLevel terms + 1)).flatMap fun k =>
    (level terms k).flatMap (mergesOf (level terms (k + 1)))

/-- The terms of the next round: what the merges produce, each pattern once. -/
def merged (terms : List Implicant) : List Implicant :=
  Implicant.firstOfPattern ((merges terms).map (·.result))

/-- The patterns that took part in a merge. -/
def usedPatterns (terms : List Implicant) : List Pattern :=
  (merges terms).flatMap fun m => [m.lower.pattern, m.upper.pattern]

/-- The terms that took part in no merge and whose patterns are not known as prime, each pattern
once. -/
def unmerged (known terms : List Implicant) : List Implicant :=
  let used := usedPatterns terms
  Implicant.firstOfPattern (terms.filter fun t =>
    !used.contains t.pattern && !(known.map (·.pattern)).contains t.pattern)

/-! ## Termination -/

/-- One more than the largest number of positions that a term leaves fixed; no terms count zero. -/
def depth (terms : List Implicant) : Nat := terms.foldr (fun t n => max (t.pattern.fixed + 1) n) 0

theorem depth_lt_iff {terms : List Implicant} {n : Nat} :
    depth terms < n + 1 ↔ ∀ t ∈ terms, t.pattern.fixed < n := by
  induction terms with
  | nil => simp [depth]
  | cons t ts ih =>
    simp only [depth, List.foldr_cons, List.forall_mem_cons] at ih ⊢
    rw [← ih]
    omega

theorem mem_of_mem_merges {m : Merge} {terms : List Implicant} (h : m ∈ merges terms) :
    m.lower ∈ terms ∧ m.upper ∈ terms ∧ m.lower.merge? m.upper = some m.result := by
  simp only [merges, mergesOf, level, List.mem_flatMap, List.mem_filterMap, List.mem_filter,
    Option.map_eq_some_iff] at h
  obtain ⟨_, _, lower, ⟨hl, _⟩, upper, ⟨hu, _⟩, r, hr, rfl⟩ := h
  exact ⟨hl, hu, hr⟩

/-- A round that has terms leads to one of smaller depth. -/
theorem depth_merged_lt {terms : List Implicant} (h : terms ≠ []) :
    depth (merged terms) < depth terms := by
  obtain ⟨t, ts, rfl⟩ := List.exists_cons_of_ne_nil h
  have hpos : 0 < depth (t :: ts) := by simp only [depth, List.foldr_cons]; omega
  obtain ⟨n, hn⟩ : ∃ n, depth (t :: ts) = n + 1 := ⟨depth (t :: ts) - 1, by omega⟩
  rw [hn, depth_lt_iff]
  intro r hr
  obtain ⟨m, hm, rfl⟩ := List.mem_map.1 (Implicant.mem_of_mem_firstOfPattern hr)
  obtain ⟨hl, _, he⟩ := mem_of_mem_merges hm
  have hfixed := Implicant.fixed_of_merge? he
  have := depth_lt_iff.1 (show depth (t :: ts) < (n + 1) + 1 by omega) _ hl
  omega

/-! ## The search -/

/-- The outcome of a round: the terms that go on, and all primes found so far. -/
structure Round where
  merged : List Implicant
  primes : List Implicant
deriving DecidableEq, Repr

/-- The rounds from the given terms on, with the primes already found. -/
def roundsFrom (found terms : List Implicant) : List Round :=
  if _h : terms = [] then []
  else
    let next := merged terms
    let found := found ++ unmerged found terms
    ⟨next, found⟩ :: roundsFrom found next
termination_by depth terms
decreasing_by exact depth_merged_lt _h

/-- The rounds of the search over a set of rows. -/
def rounds (width : Nat) (minterms : RowSet) : List Round :=
  roundsFrom [] (minterms.rows.map (Implicant.ofRow width))

/-- The primes after the last round, in the order in which they were found. -/
def ofRounds (rounds : List Round) : List Implicant :=
  match rounds.getLast? with
  | none => []
  | some last => last.primes

end PropCalc.Primes

namespace PropCalc

/-- The prime implicants of a set of rows. -/
def primeImplicants (width : Nat) (minterms : RowSet) : List Implicant :=
  Primes.ofRounds (Primes.rounds width minterms)

end PropCalc
