import PropCalc.Proofs.Balance
/-!
# Pairs of parentheses

Whether parentheses pair up, told by counting, and what the check of balance says if they do not:

* `depthAfter?_eq_some_iff` and `pairsUp_iff` — the depth of nesting in terms of how many groups are
  opened and closed;
* `PairsUp.group` and `PairsUp.tail` — the parts of a list that pairs up pair up again;
* `checkBalance_unopened` and `checkBalance_unclosed` — the two errors of the check, and the place
  that the first of them names.
-/

namespace PropCalc

/-! ## Counting parentheses -/

/-- No part from the start closes more groups than it opens. -/
def NeverOverclosed (w : List Symbol) : Prop :=
  ∀ v, v <+: w → v.count .rparen ≤ v.count .lparen

/-- The parentheses pair up: no group is closed that is not open, and none stays open. -/
structure PairsUp (w : List Symbol) : Prop where
  opened : NeverOverclosed w
  closed : w.count .lparen = w.count .rparen

/-- The depth of nesting behind symbols, by the groups that they open and close. -/
theorem depthAfter?_eq_some_iff {depth e : Nat} {w : List Symbol} :
    depthAfter? depth w = some e ↔
      (∀ v, v <+: w → v.count .rparen ≤ depth + v.count .lparen) ∧
        depth + w.count .lparen = e + w.count .rparen := by
  induction w generalizing depth with
  | nil => simp [depthAfter?]
  | cons x w ih =>
    -- the empty part closes nothing, so only parts with the first symbol matter
    have hprefixes : (∀ v, v <+: x :: w → v.count .rparen ≤ depth + v.count .lparen) ↔
        ∀ v, v <+: w → (x :: v).count .rparen ≤ depth + (x :: v).count .lparen := by
      constructor
      · intro h v hv
        exact h _ (List.cons_prefix_cons.2 ⟨rfl, hv⟩)
      · intro h v hv
        rcases List.prefix_cons_iff.1 hv with rfl | ⟨u, rfl, hu⟩
        · simp
        · exact h u hu
    rw [hprefixes]
    cases x with
    | lparen =>
      simp only [depthAfter?, ih, List.count_cons, beq_iff_eq, reduceCtorEq, if_true, if_false,
        Nat.add_zero]
      refine and_congr (forall₂_congr fun v _ => ?_) ?_ <;> omega
    | rparen =>
      cases depth with
      | zero =>
        -- the very first symbol closes a group that is not open
        refine iff_of_false (by simp [depthAfter?]) fun h => ?_
        have hfirst := h.1 [] List.nil_prefix
        simp at hfirst
      | succ depth =>
        simp only [depthAfter?, ih, List.count_cons, beq_iff_eq, reduceCtorEq, if_true, if_false,
          Nat.add_zero]
        refine and_congr (forall₂_congr fun v _ => ?_) ?_ <;> omega
    | operator o => simp [depthAfter?, ih]
    | letter c => simp [depthAfter?, ih]

/-- Symbols lead from a deeper start to a deeper end. -/
theorem depthAfter?_add {depth e : Nat} {w : List Symbol} (h : depthAfter? depth w = some e)
    (k : Nat) : depthAfter? (depth + k) w = some (e + k) := by
  rcases depthAfter?_eq_some_iff.1 h with ⟨hopened, hcount⟩
  refine depthAfter?_eq_some_iff.2 ⟨fun v hv => ?_, by omega⟩
  have hv := hopened v hv
  omega

theorem neverOverclosed_iff {w : List Symbol} :
    NeverOverclosed w ↔ ∃ e, depthAfter? 0 w = some e := by
  simp only [depthAfter?_eq_some_iff, Nat.zero_add, NeverOverclosed]
  constructor
  · intro h
    -- the depth at the end is the difference of both counts
    have hall := h w (List.prefix_refl w)
    exact ⟨w.count .lparen - w.count .rparen, h, by omega⟩
  · intro h
    rcases h with ⟨e, hopened, -⟩
    exact hopened

theorem not_neverOverclosed_iff {w : List Symbol} :
    ¬ NeverOverclosed w ↔ depthAfter? 0 w = none := by
  rw [neverOverclosed_iff]
  cases depthAfter? 0 w <;> simp

theorem pairsUp_iff {w : List Symbol} : PairsUp w ↔ depthAfter? 0 w = some 0 := by
  simp only [depthAfter?_eq_some_iff, Nat.zero_add]
  constructor
  · intro h
    exact ⟨h.opened, h.closed⟩
  · intro h
    exact ⟨h.1, h.2⟩

instance (w : List Symbol) : Decidable (NeverOverclosed w) :=
  decidable_of_iff ((depthAfter? 0 w).isSome = true)
    (Option.isSome_iff_exists.trans neverOverclosed_iff.symm)

instance (w : List Symbol) : Decidable (PairsUp w) := decidable_of_iff' _ pairsUp_iff

theorem checkBalance_eq_ok_iff_pairsUp {ts : List Token} :
    checkBalance ts = .ok () ↔ PairsUp (ts.map Token.symbol) :=
  checkBalance_eq_ok_iff.trans pairsUp_iff.symm

/-! ## Parts of a list that pairs up -/

/-- A group is split off wherever the tokens close all groups. -/
theorem exists_splitGroup? {depth : Nat} {ts : List Token}
    (h : depthAfter? (depth + 1) (ts.map Token.symbol) = some 0) :
    ∃ inside after, Token.splitGroup? depth ts = some (inside, after) := by
  induction ts generalizing depth with
  | nil => cases h
  | cons t ts ih =>
    -- either this token closes the group, or the group goes on behind it
    cases hdepth : depthAfter? depth [t.symbol] with
    | none =>
      rcases eq_rparen_of_depthAfter?_eq_none hdepth with ⟨rfl, hsymbol⟩
      exact ⟨[], ts, by simp only [Token.splitGroup?, hsymbol]⟩
    | some e =>
      rw [List.map_cons, depthAfter?_cons, depthAfter?_add hdepth 1] at h
      rcases ih h with ⟨inside, after, hsplit⟩
      refine ⟨t :: inside, after, ?_⟩
      rw [Token.splitGroup?_cons ts hdepth, hsplit]
      rfl

/-- What follows a token other than a parenthesis pairs up if all does. -/
theorem PairsUp.tail {t : Token} {rest : List Token} (h : PairsUp ((t :: rest).map Token.symbol))
    (hopen : t.symbol ≠ .lparen) (hclose : t.symbol ≠ .rparen) :
    PairsUp (rest.map Token.symbol) := by
  rw [pairsUp_iff, List.map_cons] at h
  rw [pairsUp_iff]
  cases hsymbol : t.symbol with
  | lparen => exact absurd hsymbol hopen
  | rparen => exact absurd hsymbol hclose
  | operator o =>
    rw [hsymbol] at h
    exact h
  | letter c =>
    rw [hsymbol] at h
    exact h

/-- The content of a group pairs up, and so does what follows the group if all does. -/
theorem PairsUp.group {t : Token} {rest inside after : List Token}
    (h : PairsUp ((t :: rest).map Token.symbol)) (ht : t.symbol = .lparen)
    (hsplit : Token.splitGroup? 0 rest = some (inside, after)) :
    PairsUp (inside.map Token.symbol) ∧ PairsUp (after.map Token.symbol) := by
  rcases Token.eq_append_of_splitGroup? hsplit with ⟨r, hr, rfl, hinside⟩
  refine ⟨pairsUp_iff.2 hinside, pairsUp_iff.2 ?_⟩
  rw [pairsUp_iff, List.map_cons, ht] at h
  -- the content leads from depth one back to depth one, where the group is closed
  have hbehind : depthAfter? 1 ((inside ++ r :: after).map Token.symbol) = some 0 := h
  rw [List.map_append, depthAfter?_append, depthAfter?_add hinside 1, List.map_cons, hr] at hbehind
  exact hbehind

/-! ## The error of the check -/

/-- The token is the first that closes a group which is not open. -/
def IsFirstUnopened (ts : List Token) (t : Token) : Prop :=
  ∃ before after, ts = before ++ t :: after ∧ NeverOverclosed (before.map Token.symbol) ∧
    ¬ NeverOverclosed ((before ++ [t]).map Token.symbol)

/-- No group is closed that is not open, but some stay open. -/
def StaysOpen (w : List Symbol) : Prop := NeverOverclosed w ∧ w.count .rparen < w.count .lparen

/-- The check goes on behind a token that closes no group too many. -/
theorem checkBalance_go_cons {depth e : Nat} {t : Token} (h : depthAfter? depth [t.symbol] = some e)
    (ts : List Token) : checkBalance.go depth (t :: ts) = checkBalance.go e ts := by
  simp only [checkBalance.go]
  cases hsymbol : t.symbol with
  | rparen =>
    rw [hsymbol] at h
    cases depth with
    | zero => cases h
    | succ depth =>
      cases h
      rfl
  | lparen | operator o | letter c =>
    rw [hsymbol] at h
    cases h
    rfl

/-- The check goes on behind tokens that close no group too many. -/
theorem checkBalance_go_append {depth e : Nat} {before : List Token}
    (h : depthAfter? depth (before.map Token.symbol) = some e) (rest : List Token) :
    checkBalance.go depth (before ++ rest) = checkBalance.go e rest := by
  induction before generalizing depth with
  | nil =>
    obtain rfl := Option.some.inj h
    rfl
  | cons t before ih =>
    rw [List.map_cons, depthAfter?_cons] at h
    rcases Option.bind_eq_some_iff.1 h with ⟨d, hstep, hrest⟩
    rw [List.cons_append, checkBalance_go_cons hstep, ih hrest]

/-- The first parenthesis that closes a group which is not open stands outside all groups. -/
theorem isFirstUnopened_iff {ts : List Token} {t : Token} :
    IsFirstUnopened ts t ↔ ∃ before after, ts = before ++ t :: after ∧
      depthAfter? 0 (before.map Token.symbol) = some 0 ∧ t.symbol = .rparen := by
  refine exists₂_congr fun before after => and_congr_right' ?_
  rw [neverOverclosed_iff, not_neverOverclosed_iff, List.map_append, List.map_singleton,
    depthAfter?_append]
  constructor
  · intro h
    rcases h with ⟨⟨e, he⟩, hnone⟩
    -- the token alone makes the difference, and only a closing parenthesis outside all groups can
    rw [he, Option.bind_some] at hnone
    rcases eq_rparen_of_depthAfter?_eq_none hnone with ⟨rfl, hsymbol⟩
    exact ⟨he, hsymbol⟩
  · intro h
    rcases h with ⟨hdepth, hsymbol⟩
    rw [hdepth, hsymbol]
    exact ⟨⟨0, rfl⟩, rfl⟩

/-- The first closing parenthesis without partner is named. -/
theorem checkBalance_unopened {ts : List Token} {t : Token} (h : IsFirstUnopened ts t) :
    checkBalance ts = .error (.unopened t.offset) := by
  rcases isFirstUnopened_iff.1 h with ⟨before, after, rfl, hdepth, hsymbol⟩
  rw [checkBalance, checkBalance_go_append hdepth, checkBalance.go, hsymbol]

/-- Groups that stay open are reported at the end. -/
theorem checkBalance_unclosed {ts : List Token} (h : StaysOpen (ts.map Token.symbol)) :
    checkBalance ts = .error .unclosed := by
  obtain ⟨e, he⟩ := neverOverclosed_iff.1 h.1
  -- more groups were opened than closed, so the depth at the end is not zero
  have hpos : e ≠ 0 := by
    have hcount := (depthAfter?_eq_some_iff.1 he).2
    have hopen := h.2
    omega
  rw [checkBalance, ← List.append_nil ts, checkBalance_go_append he, checkBalance.go, if_neg hpos]

/-- Symbols that close a group too many do so first at a token outside all groups. -/
theorem exists_of_depthAfter?_eq_none {depth : Nat} {ts : List Token}
    (h : depthAfter? depth (ts.map Token.symbol) = none) :
    ∃ before t after, ts = before ++ t :: after ∧
      depthAfter? depth (before.map Token.symbol) = some 0 ∧ t.symbol = .rparen := by
  induction ts generalizing depth with
  | nil => cases h
  | cons t ts ih =>
    rw [List.map_cons, depthAfter?_cons] at h
    cases hdepth : depthAfter? depth [t.symbol] with
    | none =>
      rcases eq_rparen_of_depthAfter?_eq_none hdepth with ⟨rfl, hsymbol⟩
      exact ⟨[], t, ts, rfl, rfl, hsymbol⟩
    | some e =>
      rw [hdepth] at h
      rcases ih h with ⟨before, u, after, rfl, hbefore, hsymbol⟩
      refine ⟨t :: before, u, after, rfl, ?_, hsymbol⟩
      rw [List.map_cons, depthAfter?_cons, hdepth]
      exact hbefore

theorem not_neverOverclosed_iff_exists {ts : List Token} :
    ¬ NeverOverclosed (ts.map Token.symbol) ↔ ∃ t, IsFirstUnopened ts t := by
  constructor
  · intro h
    rcases exists_of_depthAfter?_eq_none (not_neverOverclosed_iff.1 h) with
      ⟨before, t, after, hts, hdepth, hsymbol⟩
    exact ⟨t, isFirstUnopened_iff.2 ⟨before, after, hts, hdepth, hsymbol⟩⟩
  · intro h hopened
    rcases h with ⟨t, before, after, rfl, -, hover⟩
    -- the parts of the beginning are parts of the whole
    refine hover fun v hv => hopened v (hv.trans ?_)
    exact ⟨after.map Token.symbol, by simp⟩

/-- Parentheses that do not pair up are closed too often or stay open. -/
theorem not_pairsUp_iff {w : List Symbol} : ¬ PairsUp w ↔ ¬ NeverOverclosed w ∨ StaysOpen w := by
  constructor
  · intro h
    by_cases hopened : NeverOverclosed w
    · have hle := hopened _ (List.prefix_refl _)
      exact .inr ⟨hopened, Nat.lt_of_le_of_ne hle fun heq => h ⟨hopened, heq.symm⟩⟩
    · exact .inl hopened
  · intro h hpaired
    rcases h with hover | hopen
    · exact hover hpaired.opened
    · exact absurd hpaired.closed (Nat.ne_of_gt hopen.2)

/-- The check of balance knows one kind of error. -/
theorem kind_of_checkBalance {ts : List Token} {e : ParseError} (h : checkBalance ts = .error e) :
    e.kind = .unbalanced := by
  have hnot : ¬ PairsUp (ts.map Token.symbol) := by
    rw [← checkBalance_eq_ok_iff_pairsUp, h]
    simp
  rcases not_pairsUp_iff.1 hnot with hover | hopen
  · rcases not_neverOverclosed_iff_exists.1 hover with ⟨t, ht⟩
    rw [checkBalance_unopened ht] at h
    cases h
    rfl
  · rw [checkBalance_unclosed hopen] at h
    cases h
    rfl

end PropCalc
