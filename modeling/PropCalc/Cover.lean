import PropCalc.Implicant
/-!
# Covers

Choosing implicants that together cover a set of rows. Essential implicants come first: those which
alone cover some row, in the order of the lowest such row. The rows that remain are covered greedily:
each choice covers as many of them as possible, leaves as few positions open as possible, and is the
earliest of those.
-/

namespace PropCalc

/-- The choice of implicants for a cover, and the rows that it fails to cover. -/
structure Cover where
  essential : List Implicant
  greedy : List Implicant
  uncovered : RowSet
deriving DecidableEq, Repr

/-- Some rows belong to no implicant. -/
structure UncoveredRows where
  rows : List Int
deriving DecidableEq, Repr

/-- The wording for rows that no implicant covers. -/
def UncoveredRows.message (u : UncoveredRows) : String :=
  "Minterms [" ++ rowsText u.rows ++ "] are not covered by any implicant"

namespace Cover

/-! ## Essential implicants -/

/-- The only implicant in the list that covers a row, if there is just one. -/
def sole? (primes : List Implicant) (row : Int) : Option Implicant :=
  match primes.filter (·.covers row) with
  | [p] => some p
  | _ => none

/-- The essential implicants for the given rows, behind those chosen already. -/
def essentials (primes chosen : List Implicant) : List Int → List Implicant
  | [] => chosen
  | row :: rows =>
    match sole? primes row with
    | some p => essentials primes (if chosen.contains p then chosen else chosen ++ [p]) rows
    | none => essentials primes chosen rows

/-- What remains of the rows when the chosen implicants cover theirs. -/
def remaining (rows : RowSet) (chosen : List Implicant) : RowSet :=
  chosen.foldl (fun left p => left.diff p.minterms) rows

/-! ## Greedy choices -/

/-- The number of uncovered rows that an implicant covers. -/
def gain (uncovered : RowSet) (p : Implicant) : Nat := uncovered.sizeInter p.minterms

/-- Whether an implicant is a better choice: it gains more, or as much with fewer open positions. -/
def better (uncovered : RowSet) (p q : Implicant) : Bool :=
  gain uncovered q < gain uncovered p
    || gain uncovered p == gain uncovered q && p.pattern.dontCares < q.pattern.dontCares

/-- The earliest of the best choices, if any implicant gains at all. -/
def best? (uncovered : RowSet) : List Implicant → Option Implicant
  | [] => none
  | p :: ps =>
    match best? uncovered ps with
    | some q => if better uncovered q p then some q else some p
    | none => if 0 < gain uncovered p then some p else none

/-- A choice always covers something new. -/
theorem gain_pos_of_best? {uncovered : RowSet} {primes : List Implicant} {p : Implicant}
    (h : best? uncovered primes = some p) : 0 < gain uncovered p := by
  induction primes generalizing p with
  | nil => simp [best?] at h
  | cons q qs ih =>
    simp only [best?] at h
    split at h
    · next r hr =>
      have hpos := ih hr
      split at h
      · cases h
        exact hpos
      · next hbetter =>
        cases h
        simp only [better, Bool.not_eq_true, Bool.or_eq_false_iff, decide_eq_false_iff_not] at hbetter
        omega
    · split at h
      · next hpos => cases h; exact hpos
      · cases h

/-- Chooses until all rows are covered or nothing gains any more. -/
def choose (primes : List Implicant) (uncovered : RowSet) : List Implicant × RowSet :=
  match _h : best? uncovered primes with
  | none => ([], uncovered)
  | some p =>
    let (ps, left) := choose primes (uncovered.diff p.minterms)
    (p :: ps, left)
termination_by uncovered.size
decreasing_by
  have hpos := gain_pos_of_best? _h
  have hsize := uncovered.size_diff p.minterms
  simp only [gain] at hpos
  omega

/-! ## The cover -/

/-- Chooses implicants for a set of rows. -/
def search (primes : List Implicant) (minterms : RowSet) : Cover :=
  let essential := essentials primes [] minterms.rows
  let (greedy, uncovered) := choose primes (remaining minterms essential)
  ⟨essential, greedy, uncovered⟩

/-- All chosen implicants, in the order of their choice. -/
def chosen (c : Cover) : List Implicant := c.essential ++ c.greedy

end Cover

/-- The implicants chosen to cover a set of rows. -/
def selectCover (primes : List Implicant) (minterms : RowSet) :
    Except UncoveredRows (List Implicant) :=
  let c := Cover.search primes minterms
  if c.uncovered.rows = [] then .ok c.chosen else .error ⟨c.uncovered.rows⟩

end PropCalc
