import PropCalc.Proofs.Derivation
/-!
# The token that is blamed

At which token the grammar gives up when tokens form no expression. A token is a misfit when some
expression begins with the tokens before it, but none with these and the token itself.

* `State.exists_completion` — whatever state the machine is in, some symbols complete an expression:
  an operand where one is missing, and then the end of every open group;
* `beginsExpression_iff` — so the machine takes exactly the symbols with which an expression begins,
  and refuses a misfit as soon as it sees it;
* `grammar_blames_first_misfit` — the error names the misfit, or the end if there is none.
-/

namespace PropCalc

namespace Grammar

variable {d : Dialect} {w v : List Symbol} {ts : List Token} {i : Nat} {t : Token}

/-! ## Beginnings of expressions -/

/-- Some expression begins with the symbols. -/
def BeginsExpression (w : List Symbol) : Prop := ∃ v, Derives .expression (w ++ v)

theorem beginsExpression_nil : BeginsExpression [] := ⟨[.letter 'a'], .single (.letter 'a')⟩

theorem BeginsExpression.of_prefix (h : BeginsExpression v) (hw : w <+: v) :
    BeginsExpression w := by
  rcases h with ⟨u, hu⟩
  rcases hw with ⟨x, rfl⟩
  rw [List.append_assoc] at hu
  exact ⟨x ++ u, hu⟩

/-- The token at this place is one with which no expression goes on, though some expression begins
with the tokens before it. -/
structure IsMisfit (ts : List Token) (i : Nat) (t : Token) : Prop where
  token : ts[i]? = some t
  before : BeginsExpression ((ts.take i).map Token.symbol)
  behind : ¬ BeginsExpression ((ts.take (i + 1)).map Token.symbol)

/-- The tokens from the start that begin an expression end before the misfit. -/
theorem IsMisfit.le (h : IsMisfit ts i t) {k : Nat}
    (hk : BeginsExpression ((ts.take k).map Token.symbol)) : k ≤ i := by
  refine Nat.le_of_not_lt fun hlt => h.behind (hk.of_prefix ?_)
  exact (List.take_prefix_take_left hlt).map Token.symbol

/-- Without a misfit every beginning of the list begins an expression. -/
theorem beginsExpression_of_not_isMisfit (h : ∀ i t, ¬ IsMisfit ts i t) :
    BeginsExpression (ts.map Token.symbol) := by
  have htake : ∀ k, BeginsExpression ((ts.take k).map Token.symbol) := by
    intro k
    induction k with
    | zero => exact beginsExpression_nil
    | succ k ih =>
      by_cases hk : k < ts.length
      · -- else the token behind the beginning would be a misfit
        refine Classical.byContradiction fun hnot => h k ts[k] ?_
        exact ⟨List.getElem?_eq_getElem hk, ih, hnot⟩
      · rw [List.take_of_length_le (by omega)] at ih ⊢
        exact ih
  have hall := htake ts.length
  rw [List.take_length] at hall
  exact hall

/-! ## Completions -/

namespace State

/-- Symbols that complete an expression: an operand where one is missing, and then the end of every
open group. -/
def completion : State → List Symbol
  | before _ outer => .letter 'a' :: List.replicate outer.length .rparen
  | behind _ outer => List.replicate outer.length .rparen

theorem exists_closing (d : Dialect) (f : Formula) (outer : List Slot) :
    ∃ g, (behind f outer).readSymbols? d (List.replicate outer.length .rparen) =
      some (behind g []) := by
  induction outer generalizing f with
  | nil => exact ⟨f, rfl⟩
  | cons slot outer ih => exact ih (slot.fill d f)

/-- From every state the machine can be led to the end of an expression. -/
theorem exists_completion (d : Dialect) (s : State) :
    ∃ f, s.readSymbols? d s.completion = some (behind f []) := by
  cases s with
  | before slot outer => exact exists_closing d (slot.fill d (.var 'a'.toString false)) outer
  | behind f outer => exact exists_closing d f outer

/-- Reading tokens in two parts. -/
theorem run_append (d : Dialect) (s : State) (ts us : List Token) :
    s.run d (ts ++ us) = s.run d ts >>= fun s' => s'.run d us := by
  induction ts generalizing s with
  | nil => rfl
  | cons t ts ih =>
    simp only [List.cons_append, run]
    cases s.step? d t.symbol with
    | none => rfl
    | some s' => exact ih s'

/-- The first token that a state does not take is where the run stops. -/
theorem run_eq_error {s s' : State} (ht : ts[i]? = some t) (hrun : s.run d (ts.take i) = .ok s')
    (hrefused : s'.step? d t.symbol = none) :
    s.run d ts = .error (.unexpectedToken t.symbol t.offset) := by
  -- the run is cut in front of the token
  have hts : ts.take i ++ t :: ts.drop (i + 1) = ts := by
    rcases List.getElem?_eq_some_iff.1 ht with ⟨hi, rfl⟩
    rw [← List.drop_eq_getElem_cons hi, List.take_append_drop]
  rw [← hts, run_append, hrun]
  simp [bind, Except.bind, run, hrefused]

end State

/-- The machine takes symbols as long as an expression begins with them. -/
theorem beginsExpression_iff :
    BeginsExpression w ↔ ∃ s, State.start.readSymbols? d w = some s := by
  constructor
  · intro h
    rcases h with ⟨v, hv⟩
    rcases hv.exists_reads d with ⟨f, hf⟩
    -- the machine reads the whole expression, and so its beginning
    have hread := readSymbols?_eq_behind_iff.2 hf
    rw [State.readSymbols?_append] at hread
    rcases Option.bind_eq_some_iff.1 hread with ⟨s, hs, -⟩
    exact ⟨s, hs⟩
  · intro h
    rcases h with ⟨s, hs⟩
    -- the state that was reached can be led to the end
    rcases s.exists_completion d with ⟨f, hf⟩
    have hread : State.start.readSymbols? d (w ++ s.completion) = some (.behind f []) := by
      rw [State.readSymbols?_append, hs]
      exact hf
    exact ⟨s.completion, (readSymbols?_eq_behind_iff.1 hread).derives⟩

theorem not_beginsExpression_iff :
    ¬ BeginsExpression w ↔ State.start.readSymbols? d w = none := by
  rw [beginsExpression_iff (d := d)]
  cases State.start.readSymbols? d w <;> simp

instance (w : List Symbol) : Decidable (BeginsExpression w) :=
  decidable_of_iff ((State.start.readSymbols? .logic w).isSome = true)
    (Option.isSome_iff_exists.trans beginsExpression_iff.symm)

/-- An expression is what the machine reads to an end. -/
theorem derives_iff :
    Derives .expression w ↔ ((State.start.readSymbols? d w).bind State.result?).isSome = true := by
  simp only [Option.isSome_iff_exists, Option.bind_eq_some_iff, State.result?_eq_some_iff]
  constructor
  · intro h
    rcases h.exists_reads d with ⟨f, hf⟩
    exact ⟨f, _, readSymbols?_eq_behind_iff.2 hf, rfl⟩
  · intro h
    rcases h with ⟨f, s, hs, rfl⟩
    exact (readSymbols?_eq_behind_iff.1 hs).derives

instance (w : List Symbol) : Decidable (Derives .expression w) :=
  decidable_of_iff' _ (derives_iff (d := .logic))

/-! ## The error -/

/-- The machine stops at a misfit. -/
theorem IsMisfit.run_eq_error (h : IsMisfit ts i t) (d : Dialect) :
    State.start.run d ts = .error (.unexpectedToken t.symbol t.offset) := by
  rcases (beginsExpression_iff (d := d)).1 h.before with ⟨s, hs⟩
  refine State.run_eq_error h.token (State.run_eq_ok_iff.2 hs) ?_
  -- with the token the run fails, and without it it does not
  have hnone := (not_beginsExpression_iff (d := d)).1 h.behind
  rw [List.take_add_one, h.token, Option.toList_some, List.map_append, State.readSymbols?_append,
    hs] at hnone
  simpa using hnone

theorem IsMisfit.ofTokens_eq_error (h : IsMisfit ts i t) (d : Dialect) :
    Formula.ofTokens d ts = .error (.unexpectedToken t.symbol t.offset) := by
  rw [Formula.ofTokens, h.run_eq_error d]
  rfl

/-- Tokens that begin an expression but are none end too early. -/
theorem ofTokens_eq_error_unexpectedEnd (d : Dialect)
    (hbegins : BeginsExpression (ts.map Token.symbol))
    (h : ¬ Derives .expression (ts.map Token.symbol)) :
    Formula.ofTokens d ts = .error .unexpectedEnd := by
  rcases (beginsExpression_iff (d := d)).1 hbegins with ⟨s, hs⟩
  -- a result would be a derivation of the tokens
  have hnone : s.result? = none := by
    cases hresult : s.result? with
    | none => rfl
    | some f =>
      rw [State.result?_eq_some_iff.1 hresult] at hs
      exact absurd (readSymbols?_eq_behind_iff.1 hs).derives h
  simp [Formula.ofTokens, State.run_eq_ok_iff.2 hs, hnone, bind, Except.bind, throw, throwThe,
    MonadExceptOf.throw]

end Grammar

open Grammar

/-- Tokens that form no expression are refused by the grammar at the first token with which no
expression goes on. The error names the value, the class and the place of this token. If there is
none, every beginning of the list can be completed, and the error is that the tokens end. -/
theorem grammar_blames_first_misfit (d : Dialect) (ts : List Token)
    (h : ¬ Derives .expression (ts.map Token.symbol)) :
    (∀ i t, IsMisfit ts i t → (∀ j u, IsMisfit ts j u → i ≤ j) ∧
      Formula.ofTokens d ts = .error (.unexpectedToken t.symbol t.offset) ∧
      (ParseError.unexpectedToken t.symbol t.offset).kind = .invalid ∧
      (ParseError.unexpectedToken t.symbol t.offset).message =
        "Syntax error near '" ++ ParseError.shownSymbol t.symbol ++ "' (type: "
          ++ t.symbol.className ++ ") at position " ++ toString t.offset) ∧
    ((∀ i t, ¬ IsMisfit ts i t) → (∀ w, w <+: ts.map Token.symbol → BeginsExpression w) ∧
      Formula.ofTokens d ts = .error .unexpectedEnd ∧
      ParseError.unexpectedEnd.kind = .invalid ∧
      ParseError.unexpectedEnd.message = "Syntax error: Unexpected end of expression") := by
  constructor
  · intro i t hmisfit
    exact ⟨fun j u hother => hother.le hmisfit.before, hmisfit.ofTokens_eq_error d, rfl, rfl⟩
  · intro hnone
    have hbegins := beginsExpression_of_not_isMisfit hnone
    exact ⟨fun w hw => hbegins.of_prefix hw, ofTokens_eq_error_unexpectedEnd d hbegins h, rfl, rfl⟩

/-- A parenthesis too many behind a negated group, with an operator and an open group behind it, and
tokens that end within two groups and behind a connective. -/
theorem grammar_blames_first_misfit_behind_group :
    let close : Token := ⟨.rparen, 7⟩
    let early : List Token := [⟨.operator ⟨"~", .not, .logic⟩, 0⟩, ⟨.lparen, 1⟩, ⟨.letter 'a', 2⟩,
      ⟨.operator ⟨"v", .binary .or, .logic⟩, 4⟩, ⟨.letter 'b', 5⟩, ⟨.rparen, 6⟩, close,
      ⟨.operator ⟨"^", .binary .and, .logic⟩, 8⟩, ⟨.lparen, 9⟩]
    let unended : List Token := [⟨.lparen, 0⟩, ⟨.lparen, 1⟩, ⟨.letter 'a', 2⟩,
      ⟨.operator ⟨"->", .binary .implies, .logic⟩, 4⟩]
    (¬ Derives .expression (early.map Token.symbol) ∧ IsMisfit early 6 close ∧
      Formula.ofTokens .code early = .error (.unexpectedToken .rparen 7)) ∧
    ¬ Derives .expression (unended.map Token.symbol) ∧ (∀ i t, ¬ IsMisfit unended i t) ∧
      Formula.ofTokens .logic unended = .error .unexpectedEnd := by
  intro close early unended
  have hmisfit : IsMisfit early 6 close := ⟨rfl, by decide, by decide⟩
  have hearly : ¬ Derives .expression (early.map Token.symbol) := by decide
  have hfits : ∀ i t, ¬ IsMisfit unended i t := by
    intro i t h
    -- all of the tokens begin an expression, and so do those up to any place
    refine h.behind (BeginsExpression.of_prefix (v := unended.map Token.symbol) (by decide) ?_)
    exact (List.take_prefix _ _).map Token.symbol
  have hunended : ¬ Derives .expression (unended.map Token.symbol) := by decide
  exact ⟨⟨hearly, hmisfit, ((grammar_blames_first_misfit .code early hearly).1 6 close hmisfit).2.1⟩,
    hunended, hfits, ((grammar_blames_first_misfit .logic unended hunended).2 hfits).2.1⟩

end PropCalc
