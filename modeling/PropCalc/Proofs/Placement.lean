import PropCalc.Expression
import PropCalc.Proofs.Balance
/-!
# Placement and grammar

The check on the places of operators and operands walks a group from left to right, while the
grammar builds it from the left end inwards. `Placed` is the grammar read the first way:

* `placed_iff_derives` — being placed from the start of a group is being an expression;
* `checkPlacesAfter_eq_ok_iff` — the check passes exactly on what is placed;
* `placement_agrees_with_grammar` — so check, rules and machine accept the same lists of tokens, and
  behind the checks the machine refuses nothing.
-/

namespace PropCalc

namespace Grammar

/-! ## The grammar from left to right -/

/-- The symbols may stand in the rest of a group. The flag says whether an operand stands right
before them. -/
inductive Placed : Bool → List Symbol → Prop where
  | stop : Placed true []
  | connective {w : List Symbol} (c : Connective) :
      Placed false w → Placed true (.operator (.binary c) :: w)
  | not {w : List Symbol} : Placed false w → Placed false (.operator .not :: w)
  | letter {w : List Symbol} (c : Char) : Placed true w → Placed false (.letter c :: w)
  | group {w v : List Symbol} :
      Placed false w → Placed true v → Placed false (.lparen :: (w ++ .rparen :: v))

/-- A phrase may stand wherever an operand is missing. -/
theorem Derives.placed {p : Phrase} {w v : List Symbol} (h : Derives p w) (hv : Placed true v) :
    Placed false (w ++ v) := by
  induction h generalizing v with
  | single _ ih => exact ih hv
  | joined c _ _ ihw ihv =>
    -- the right part is placed behind the connective, and the left part in front of both
    have hrest := Placed.connective c (ihv hv)
    simpa using ihw hrest
  | negated _ ih => exact .not (ih hv)
  | group _ ih =>
    -- the content of the group is placed up to the closing parenthesis
    have hinside := ih Placed.stop
    rw [List.append_nil] at hinside
    simpa using Placed.group hinside hv
  | letter c => exact .letter c hv

/-- What is placed behind an operand prolongs an expression; what is placed elsewhere begins with an
operand. -/
theorem Placed.derives {b : Bool} {w : List Symbol} (h : Placed b w) :
    match b with
    | true => ∀ v, Derives .expression v → Derives .expression (v ++ w)
    | false => ∃ u v, w = u ++ v ∧ Derives .operand u ∧
        ∀ e, Derives .expression e → Derives .expression (e ++ v) := by
  induction h with
  | stop =>
    intro v hv
    simpa using hv
  | connective c _ ih =>
    -- the operand behind the connective joins the expression in front of it
    rcases ih with ⟨u, v, rfl, hu, hv⟩
    intro e he
    simpa using hv _ (.joined c he hu)
  | not _ ih =>
    rcases ih with ⟨u, v, rfl, hu, hv⟩
    exact ⟨_, v, rfl, .negated hu, hv⟩
  | letter c _ ih => exact ⟨[.letter c], _, rfl, .letter c, ih⟩
  | @group w v _ _ ihw ihv =>
    rcases ihw with ⟨u, t, rfl, hu, ht⟩
    have hinside : Derives .expression (u ++ t) := ht u (.single hu)
    exact ⟨_, v, by simp, .group hinside, ihv⟩

/-- Placed from the start of a group means expression. -/
theorem placed_iff_derives {w : List Symbol} : Placed false w ↔ Derives .expression w := by
  constructor
  · intro h
    rcases h.derives with ⟨u, v, rfl, hu, hv⟩
    exact hv u (.single hu)
  · intro h
    simpa using h.placed .stop

theorem Placed.ne_nil {w : List Symbol} (h : Placed false w) : w ≠ [] :=
  (placed_iff_derives.1 h).ne_nil

/-! ## What is placed, by its first symbol -/

theorem placed_nil_iff {b : Bool} : Placed b [] ↔ b = true := by
  constructor
  · intro h
    cases h
    rfl
  · intro hb
    rw [hb]
    exact .stop

theorem placed_connective_iff {b : Bool} {c : Connective} {w : List Symbol} :
    Placed b (.operator (.binary c) :: w) ↔ b = true ∧ Placed false w := by
  constructor
  · intro h
    cases h with
    | connective _ hw => exact ⟨rfl, hw⟩
  · intro h
    rw [h.1]
    exact .connective c h.2

theorem placed_not_iff {b : Bool} {w : List Symbol} :
    Placed b (.operator .not :: w) ↔ b = false ∧ Placed false w := by
  constructor
  · intro h
    cases h with
    | not hw => exact ⟨rfl, hw⟩
  · intro h
    rw [h.1]
    exact .not h.2

theorem placed_letter_iff {b : Bool} {c : Char} {w : List Symbol} :
    Placed b (.letter c :: w) ↔ b = false ∧ Placed true w := by
  constructor
  · intro h
    cases h with
    | letter _ hw => exact ⟨rfl, hw⟩
  · intro h
    rw [h.1]
    exact .letter c h.2

/-- Behind a parenthesis come a group and the rest. -/
theorem placed_lparen_iff {b : Bool} {u : List Symbol} :
    Placed b (.lparen :: u) ↔
      b = false ∧ ∃ w v, u = w ++ .rparen :: v ∧ Placed false w ∧ Placed true v := by
  constructor
  · intro h
    cases h with
    | @group w v hw hv => exact ⟨rfl, w, v, rfl, hw, hv⟩
  · intro h
    rcases h with ⟨hb, w, v, hu, hw, hv⟩
    rw [hb, hu]
    exact .group hw hv

theorem not_placed_rparen {b : Bool} {w : List Symbol} : ¬ Placed b (.rparen :: w) := by
  intro h
  cases h

end Grammar

/-! ## The check -/

open Grammar

/-- Whether an operand stands here. -/
def Place.isOperand : Place → Bool
  | .operator .. => false
  | .letter .. | .group _ => true

/-- Whether an operand stands right before the rest of a group. -/
def operandBefore (before : Option Place) : Bool := before.any Place.isOperand

theorem follows_connective {before : Option Place} {c : Connective} {offset : Nat} :
    Place.follows before (.operator (.binary c) offset) = .ok () ↔ operandBefore before = true := by
  rcases before with _ | (_ | _ | _) <;> simp [Place.follows, operandBefore, Place.isOperand]

theorem follows_not {before : Option Place} {offset : Nat} :
    Place.follows before (.operator .not offset) = .ok () ↔ operandBefore before = false := by
  rcases before with _ | (_ | _ | _) <;> simp [Place.follows, operandBefore, Place.isOperand]

theorem follows_operand {before : Option Place} {here : Place} (h : here.isOperand = true) :
    Place.follows before here = .ok () ↔ operandBefore before = false := by
  rcases here with _ | _ | _ <;> rcases before with _ | (_ | _ | _) <;>
    simp_all [Place.follows, operandBefore, Place.isOperand]

/-- Two checks in a row pass when both pass. -/
theorem bind_eq_ok_iff {x y : Except ParseError Unit} :
    (x >>= fun _ => y) = .ok () ↔ x = .ok () ∧ y = .ok () := by
  cases x <;> simp [bind, Except.bind]

theorem checkPlacesAfter_nil {before : Option Place} (h : before ≠ none) :
    checkPlacesAfter before [] = .ok () ↔ operandBefore before = true := by
  rcases before with _ | (_ | _ | _) <;>
    simp_all [checkPlacesAfter, Place.ends, operandBefore, Place.isOperand]

/-- A parenthesis passes when its group is closed, not empty and in order, stands behind no operand,
and all is well behind it. -/
theorem checkPlacesAfter_lparen {before : Option Place} {t : Token} {ts : List Token}
    (ht : t.symbol = .lparen) :
    checkPlacesAfter before (t :: ts) = .ok () ↔
      ∃ inside after, Token.splitGroup? 0 ts = some (inside, after) ∧ inside ≠ [] ∧
        checkPlacesAfter none inside = .ok () ∧ operandBefore before = false ∧
        checkPlacesAfter (some (.group t.offset)) after = .ok () := by
  rw [checkPlacesAfter, ht]
  simp only
  split
  · next hsplit => simp [hsplit]
  · next inside after hsplit =>
    simp only [hsplit, Option.some.injEq, Prod.mk.injEq]
    by_cases hnil : inside = []
    · simp [hnil, throw, throwThe, MonadExceptOf.throw, bind, Except.bind]
    · -- the content, the place of the group and the rest are checked in this order
      rw [if_neg hnil, bind_eq_ok_iff, bind_eq_ok_iff, follows_operand rfl]
      constructor
      · intro h
        rcases h with ⟨hinside, hbefore, hafter⟩
        exact ⟨inside, after, ⟨rfl, rfl⟩, hnil, hinside, hbefore, hafter⟩
      · intro h
        rcases h with ⟨_, _, ⟨rfl, rfl⟩, _, hinside, hbefore, hafter⟩
        exact ⟨hinside, hbefore, hafter⟩

theorem checkPlacesAfter_rparen {before : Option Place} {t : Token} {ts : List Token}
    (ht : t.symbol = .rparen) : checkPlacesAfter before (t :: ts) ≠ .ok () := by
  rw [checkPlacesAfter, ht]
  simp

theorem checkPlacesAfter_connective {before : Option Place} {t : Token} {ts : List Token}
    {c : Connective} (ht : t.symbol = .operator (.binary c)) :
    checkPlacesAfter before (t :: ts) = .ok () ↔ operandBefore before = true ∧
      checkPlacesAfter (some (.operator (.binary c) t.offset)) ts = .ok () := by
  rw [checkPlacesAfter, ht]
  exact bind_eq_ok_iff.trans (and_congr_left' follows_connective)

theorem checkPlacesAfter_not {before : Option Place} {t : Token} {ts : List Token}
    (ht : t.symbol = .operator .not) :
    checkPlacesAfter before (t :: ts) = .ok () ↔ operandBefore before = false ∧
      checkPlacesAfter (some (.operator .not t.offset)) ts = .ok () := by
  rw [checkPlacesAfter, ht]
  exact bind_eq_ok_iff.trans (and_congr_left' follows_not)

theorem checkPlacesAfter_letter {before : Option Place} {t : Token} {ts : List Token} {c : Char}
    (ht : t.symbol = .letter c) :
    checkPlacesAfter before (t :: ts) = .ok () ↔ operandBefore before = false ∧
      checkPlacesAfter (some (.letter c t.offset)) ts = .ok () := by
  rw [checkPlacesAfter, ht]
  exact bind_eq_ok_iff.trans (and_congr_left' (follows_operand rfl))

/-- The content of a group and what follows it are found again from their symbols. -/
theorem splitGroup?_of_symbols {ts : List Token} {w v : List Symbol} (hw : Placed false w)
    (h : ts.map Token.symbol = w ++ .rparen :: v) :
    ∃ inside after, Token.splitGroup? 0 ts = some (inside, after) ∧
      inside.map Token.symbol = w ∧ after.map Token.symbol = v := by
  rcases List.map_eq_append_iff.1 h with ⟨inside, rest, rfl, hinside, hrest⟩
  rcases List.map_eq_cons_iff.1 hrest with ⟨r, after, rfl, hr, hafter⟩
  -- the content closes what it opens, so the group is split off right there
  have hdepth := (placed_iff_derives.1 hw).depthAfter? 0
  rw [← hinside] at hdepth
  exact ⟨inside, after, Token.splitGroup?_append hr after hdepth, hinside, hafter⟩

/-- The check passes exactly on what is placed. An empty rest at the start of a group is left to the
caller, who refuses it. -/
theorem checkPlacesAfter_eq_ok_iff {before : Option Place} {ts : List Token}
    (h : before ≠ none ∨ ts ≠ []) :
    checkPlacesAfter before ts = .ok () ↔ Placed (operandBefore before) (ts.map Token.symbol) := by
  -- on the length, as the check goes on both inside a group and behind it
  induction hn : ts.length using Nat.strongRecOn generalizing before ts with
  | ind n ih =>
    subst hn
    cases ts with
    | nil => rw [checkPlacesAfter_nil (h.resolve_right (by simp)), List.map_nil, placed_nil_iff]
    | cons t ts =>
      -- one step behind the first token the place before is known
      have hrest : ∀ p : Place, checkPlacesAfter (some p) ts = .ok () ↔
          Placed p.isOperand (ts.map Token.symbol) := by
        intro p
        exact ih ts.length (by simp) (.inl (by simp)) rfl
      rw [List.map_cons]
      cases ht : t.symbol with
      | lparen =>
        -- both parts of a group that is split off are shorter
        have hparts : ∀ {inside after}, Token.splitGroup? 0 ts = some (inside, after) →
            inside ≠ [] →
            (checkPlacesAfter none inside = .ok () ↔ Placed false (inside.map Token.symbol)) ∧
            (checkPlacesAfter (some (.group t.offset)) after = .ok () ↔
              Placed true (after.map Token.symbol)) := by
          intro inside after hsplit hnil
          have hlen := Token.length_splitGroup? hsplit
          have hinside : inside.length < (t :: ts).length := by
            rw [List.length_cons]
            omega
          have hafter : after.length < (t :: ts).length := by
            rw [List.length_cons]
            omega
          exact ⟨ih _ hinside (.inr hnil) rfl, ih _ hafter (.inl (by simp)) rfl⟩
        rw [checkPlacesAfter_lparen ht, placed_lparen_iff]
        constructor
        · intro hcheck
          rcases hcheck with ⟨inside, after, hsplit, hnil, hinside, hbefore, hafter⟩
          rcases Token.eq_append_of_splitGroup? hsplit with ⟨r, hr, hts, -⟩
          have hiff := hparts hsplit hnil
          exact ⟨hbefore, _, _, by simp [hts, hr], hiff.1.1 hinside, hiff.2.1 hafter⟩
        · intro hplaced
          rcases hplaced with ⟨hbefore, w, v, hu, hw, hv⟩
          rcases splitGroup?_of_symbols hw hu with ⟨inside, after, hsplit, rfl, rfl⟩
          have hnil : inside ≠ [] := by
            rintro rfl
            exact hw.ne_nil rfl
          have hiff := hparts hsplit hnil
          exact ⟨inside, after, hsplit, hnil, hiff.1.2 hw, hbefore, hiff.2.2 hv⟩
      | rparen => exact iff_of_false (checkPlacesAfter_rparen ht) not_placed_rparen
      | operator o =>
        cases o with
        | not =>
          rw [checkPlacesAfter_not ht, hrest, placed_not_iff]
          exact Iff.rfl
        | binary c =>
          rw [checkPlacesAfter_connective ht, hrest, placed_connective_iff]
          exact Iff.rfl
      | letter c =>
        rw [checkPlacesAfter_letter ht, hrest, placed_letter_iff]
        exact Iff.rfl

/-- The placement check accepts exactly the sentences of the grammar. -/
theorem checkPlacement_eq_ok_iff {ts : List Token} :
    checkPlacement ts = .ok () ↔ Derives .expression (ts.map Token.symbol) := by
  unfold checkPlacement
  split
  · next hnil =>
    subst hnil
    constructor
    · simp
    · intro h
      exact absurd rfl h.ne_nil
  · next hnil =>
    rw [checkPlacesAfter_eq_ok_iff (.inr hnil)]
    exact placed_iff_derives

/-- A sentence of the grammar has a formula, and the machine finds it. -/
theorem derives_iff_exists_ofTokens {d : Dialect} {ts : List Token} :
    Derives .expression (ts.map Token.symbol) ↔ ∃ f, Formula.ofTokens d ts = .ok f := by
  constructor
  · intro h
    rcases h.exists_reads d with ⟨f, hf⟩
    exact ⟨f, Formula.ofTokens_eq_ok_iff.2 hf⟩
  · intro h
    rcases h with ⟨f, hf⟩
    exact (Formula.ofTokens_eq_ok_iff.1 hf).derives

/-- A sentence of the grammar is balanced. -/
theorem checkBalance_of_derives {ts : List Token}
    (h : Derives .expression (ts.map Token.symbol)) : checkBalance ts = .ok () :=
  checkBalance_eq_ok_iff.2 (h.depthAfter? 0)

/-- Tokens are refused with the error of the first check that fails, never by the grammar. -/
theorem ofTokens_eq_error_iff {d : Dialect} {ts : List Token} {e : ParseError} :
    Expression.ofTokens d ts = .error e ↔ checkBalance ts = .error e ∨
      checkBalance ts = .ok () ∧ checkPlacement ts = .error e := by
  unfold Expression.ofTokens
  cases hbalance : checkBalance ts with
  | error e' => simp [bind, Except.bind]
  | ok =>
    -- behind both checks the machine finds a formula and raises no error
    cases hplaces : checkPlacement ts with
    | error e' => simp [bind, Except.bind]
    | ok =>
      rcases derives_iff_exists_ofTokens (d := d) |>.1 (checkPlacement_eq_ok_iff.1 hplaces) with
        ⟨f, hf⟩
      simp [bind, Except.bind, hf, pure, Except.pure]

/-- Tokens that are a sentence of the grammar form an expression. -/
theorem ofTokens_of_reads {d : Dialect} {ts : List Token} {f : Formula}
    (h : Reads d .expression (ts.map Token.symbol) f) :
    Expression.ofTokens d ts = .ok ⟨f, d⟩ := by
  unfold Expression.ofTokens
  rw [checkBalance_of_derives h.derives, checkPlacement_eq_ok_iff.2 h.derives,
    Formula.ofTokens_eq_ok_iff.2 h]
  rfl

/-- Reading a text is reading its tokens. -/
theorem parse_of_tokenize {text : String} {ts : List Token} {d : Dialect}
    (h : tokenize text = .ok (ts, d)) : Expression.parse text = Expression.ofTokens d ts := by
  unfold Expression.parse
  rw [h]
  rfl

theorem parse_of_tokenize_error {text : String} {e : ParseError}
    (h : tokenize text = .error e) : Expression.parse text = .error e := by
  unfold Expression.parse
  rw [h]
  rfl

/-- Check, grammar and machine accept the same lists of tokens, balanced or not. What is placed is
balanced, and once both checks have passed the machine finds a formula: an error is always that of
a check. -/
theorem placement_agrees_with_grammar (d : Dialect) (ts : List Token) :
    (checkPlacement ts = .ok () ↔ Derives .expression (ts.map Token.symbol)) ∧
    (Derives .expression (ts.map Token.symbol) ↔ ∃ f, Formula.ofTokens d ts = .ok f) ∧
    (checkPlacement ts = .ok () → checkBalance ts = .ok ()) ∧
    (checkBalance ts = .ok () → checkPlacement ts = .ok () →
      ∃ f, Formula.ofTokens d ts = .ok f ∧ Expression.ofTokens d ts = .ok ⟨f, d⟩) ∧
    ∀ e, Expression.ofTokens d ts = .error e ↔
      checkBalance ts = .error e ∨ checkBalance ts = .ok () ∧ checkPlacement ts = .error e := by
  refine ⟨checkPlacement_eq_ok_iff, derives_iff_exists_ofTokens, ?_, ?_, ?_⟩
  · intro hplaces
    exact checkBalance_of_derives (checkPlacement_eq_ok_iff.1 hplaces)
  · intro _ hplaces
    rcases (checkPlacement_eq_ok_iff.1 hplaces).exists_reads d with ⟨f, hf⟩
    exact ⟨f, Formula.ofTokens_eq_ok_iff.2 hf, ofTokens_of_reads hf⟩
  · intro e
    exact ofTokens_eq_error_iff

end PropCalc
