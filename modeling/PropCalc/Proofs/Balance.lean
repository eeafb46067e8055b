import PropCalc.Placement
import PropCalc.Proofs.Derivation
/-!
# Balance

The depth of nesting behind a list of symbols, as a partial function of the depth before it. It says
when `checkBalance` passes, where `Token.splitGroup?` cuts, and that every phrase of the grammar
closes what it opens.
-/

namespace PropCalc

/-! ## Depth -/

/-- The number of open groups behind the symbols, if none is closed that was not open. -/
def depthAfter? : Nat → List Symbol → Option Nat
  | depth, [] => some depth
  | depth, .lparen :: w => depthAfter? (depth + 1) w
  | 0, .rparen :: _ => none
  | depth + 1, .rparen :: w => depthAfter? depth w
  | depth, .operator _ :: w => depthAfter? depth w
  | depth, .letter _ :: w => depthAfter? depth w

theorem depthAfter?_append (depth : Nat) (w v : List Symbol) :
    depthAfter? depth (w ++ v) = (depthAfter? depth w).bind fun e => depthAfter? e v := by
  induction w generalizing depth with
  | nil => rfl
  | cons x w ih =>
    cases x with
    | lparen => exact ih (depth + 1)
    | rparen =>
      -- only a closing parenthesis asks for the depth before it
      cases depth with
      | zero => rfl
      | succ depth => exact ih depth
    | operator o => exact ih depth
    | letter c => exact ih depth

theorem depthAfter?_cons (depth : Nat) (x : Symbol) (w : List Symbol) :
    depthAfter? depth (x :: w) = (depthAfter? depth [x]).bind fun e => depthAfter? e w :=
  depthAfter?_append depth [x] w

/-- Only a closing parenthesis can be one too many. -/
theorem eq_rparen_of_depthAfter?_eq_none {depth : Nat} {x : Symbol}
    (h : depthAfter? depth [x] = none) : depth = 0 ∧ x = .rparen := by
  cases x with
  | lparen => cases h
  | rparen =>
    cases depth with
    | zero => exact ⟨rfl, rfl⟩
    | succ depth => cases h
  | operator o => cases h
  | letter c => cases h

/-- Every phrase of the grammar closes what it opens, at any depth. -/
theorem Grammar.Derives.depthAfter? {p : Grammar.Phrase} {w : List Symbol}
    (h : Grammar.Derives p w) (depth : Nat) : depthAfter? depth w = some depth := by
  induction h generalizing depth with
  | single _ ih => exact ih depth
  | joined c _ _ ihw ihv =>
    rw [depthAfter?_append, ihw depth]
    exact ihv depth
  | negated _ ih => exact ih depth
  | @group w _ ih =>
    -- one group deeper inside, and back behind the parenthesis
    show PropCalc.depthAfter? (depth + 1) (w ++ [.rparen]) = some depth
    rw [depthAfter?_append, ih (depth + 1)]
    rfl
  | letter => rfl

/-! ## The check -/

theorem checkBalance_go_eq_ok_iff {depth : Nat} {ts : List Token} :
    checkBalance.go depth ts = .ok () ↔ depthAfter? depth (ts.map Token.symbol) = some 0 := by
  induction ts generalizing depth with
  | nil =>
    simp only [checkBalance.go, List.map_nil, depthAfter?, Option.some.injEq]
    -- what is open at the end is an error unless the depth is zero
    split <;> simp_all
  | cons t ts ih =>
    simp only [checkBalance.go, List.map_cons]
    cases t.symbol with
    | lparen => exact ih
    | rparen =>
      cases depth with
      | zero => simp [depthAfter?]
      | succ depth => exact ih
    | operator o => exact ih
    | letter c => exact ih

/-- Balance depends on the symbols alone. -/
theorem checkBalance_eq_ok_iff {ts : List Token} :
    checkBalance ts = .ok () ↔ depthAfter? 0 (ts.map Token.symbol) = some 0 :=
  checkBalance_go_eq_ok_iff

/-! ## Groups -/

/-- The first token joins the content of a group unless it closes this very group. -/
theorem Token.splitGroup?_cons {depth e : Nat} {t : Token} (ts : List Token)
    (h : depthAfter? depth [t.symbol] = some e) :
    Token.splitGroup? depth (t :: ts) =
      (Token.splitGroup? e ts).map fun p => (t :: p.1, p.2) := by
  simp only [Token.splitGroup?]
  cases hsym : t.symbol with
  | lparen =>
    rw [hsym] at h
    cases h
    rfl
  | rparen =>
    rw [hsym] at h
    cases depth with
    | zero => cases h
    | succ depth =>
      cases h
      rfl
  | operator o =>
    rw [hsym] at h
    cases h
    rfl
  | letter c =>
    rw [hsym] at h
    cases h
    rfl

/-- A group that was split off ends at a closing parenthesis, and its content closes all but that. -/
theorem Token.eq_append_of_splitGroup? {depth : Nat} {ts inside after : List Token}
    (h : Token.splitGroup? depth ts = some (inside, after)) :
    ∃ r : Token, r.symbol = .rparen ∧ ts = inside ++ r :: after ∧
      depthAfter? depth (inside.map Token.symbol) = some 0 := by
  induction ts generalizing depth inside after with
  | nil => simp [Token.splitGroup?] at h
  | cons t ts ih =>
    cases hdepth : depthAfter? depth [t.symbol] with
    | none =>
      -- the parenthesis that closes this very group
      rcases eq_rparen_of_depthAfter?_eq_none hdepth with ⟨rfl, hsym⟩
      simp only [Token.splitGroup?, hsym] at h
      cases h
      exact ⟨t, hsym, rfl, rfl⟩
    | some e =>
      rw [Token.splitGroup?_cons ts hdepth] at h
      rcases Option.map_eq_some_iff.1 h with ⟨⟨i, a⟩, hs, he⟩
      cases he
      rcases ih hs with ⟨r, hr, hts, hi⟩
      refine ⟨r, hr, by rw [hts]; rfl, ?_⟩
      rw [List.map_cons, depthAfter?_cons, hdepth]
      exact hi

/-- Content that closes all but its own group is split off at the parenthesis behind it. -/
theorem Token.splitGroup?_append {depth : Nat} {inside : List Token} {r : Token}
    (hr : r.symbol = .rparen) (after : List Token)
    (h : depthAfter? depth (inside.map Token.symbol) = some 0) :
    Token.splitGroup? depth (inside ++ r :: after) = some (inside, after) := by
  induction inside generalizing depth with
  | nil =>
    obtain rfl : depth = 0 := Option.some.inj h
    simp [Token.splitGroup?, hr]
  | cons t ts ih =>
    rw [List.map_cons, depthAfter?_cons] at h
    -- the content closes no more than it opened, so no token of it ends the group
    cases hdepth : depthAfter? depth [t.symbol] with
    | none =>
      rw [hdepth] at h
      cases h
    | some e =>
      rw [hdepth] at h
      rw [List.cons_append, Token.splitGroup?_cons _ hdepth, ih h]
      rfl

end PropCalc
