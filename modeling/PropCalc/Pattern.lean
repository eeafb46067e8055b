import PropCalc.RowSet
/-!
# Patterns

A pattern says for every variable of a function whether a product term asks for it to be true, to be
false, or not at all. Two patterns that differ in one asked-for position merge into a pattern that
leaves this position open.
-/

namespace PropCalc

/-- A position of a pattern. -/
inductive Cell where
  /-- The variable is true. -/
  | one
  /-- The variable is false. -/
  | zero
  /-- The variable may have either value. -/
  | dontCare
  /-- Any other mark. It asks for nothing that a row could meet. -/
  | mark (c : Char)
deriving DecidableEq, Repr

namespace Cell

/-- The position that a character stands for. -/
def ofChar (c : Char) : Cell :=
  if c = '1' then one else if c = '0' then zero else if c = '-' then dontCare else mark c

/-- The character of a position. -/
def char : Cell → Char
  | one => '1'
  | zero => '0'
  | dontCare => '-'
  | mark c => c

/-- The position for a truth value. -/
def ofBool (value : Bool) : Cell := if value then one else zero

end Cell

/-- One position per variable. -/
abbrev Pattern := List Cell

namespace Pattern

/-- The pattern written with one character per position. -/
def ofString (s : String) : Pattern := s.toList.map Cell.ofChar

/-- The characters of a pattern. -/
def text (p : Pattern) : String := String.ofList (p.map Cell.char)

/-- The pattern of a row over a number of variables: a bit that is set means *false*, and the first
variable has the highest bit. -/
def ofRow (width : Nat) (row : Int) : Pattern :=
  (List.range width).map fun j => Cell.ofBool ((row >>> (width - j - 1)) % 2 == 0)

/-- The number of variables asked to be true. -/
def ones (p : Pattern) : Nat := p.count .one

/-- The number of open positions. -/
def dontCares (p : Pattern) : Nat := p.count .dontCare

/-- The number of positions that are not open. -/
def fixed (p : Pattern) : Nat := p.countP (· != .dontCare)

/-- Whether two patterns agree as far as both reach. -/
def agree : Pattern → Pattern → Bool
  | a :: p, b :: q => a == b && agree p q
  | _, _ => true

/-- Merges two patterns that differ in exactly one position, open in neither of them: that position
becomes open. Positions that only one of them has do not count as a difference. -/
def merge? : Pattern → Pattern → Option Pattern
  | a :: p, b :: q =>
    if a = b then (merge? p q).map (a :: ·)
    else if a = .dontCare ∨ b = .dontCare then none
    else if agree p q then some (.dontCare :: p)
    else none
  | _, _ => none

/-- Merging opens one position of the first pattern. -/
theorem fixed_of_merge? {p q r : Pattern} (h : merge? p q = some r) : r.fixed + 1 = p.fixed := by
  induction p generalizing q r with
  | nil => simp [merge?] at h
  | cons a p ih =>
    cases q with
    | nil => simp [merge?] at h
    | cons b q =>
      simp only [merge?] at h
      split at h
      · obtain ⟨s, hs, rfl⟩ := Option.map_eq_some_iff.1 h
        have := ih hs
        simp only [fixed, List.countP_cons] at this ⊢
        omega
      split at h
      · cases h
      split at h
      · next hopen _ =>
        cases h
        have ha : a ≠ .dontCare := fun h => hopen (.inl h)
        simp [fixed, ha]
      · cases h

/-- The literals that a pattern asks for, in the order of the variables: a name and whether it is
negated. -/
def literals (names : List String) (p : Pattern) : List (String × Bool) :=
  (names.zip p).filterMap fun (name, cell) =>
    match cell with
    | .one => some (name, false)
    | .zero => some (name, true)
    | .dontCare | .mark _ => none

end Pattern

end PropCalc
