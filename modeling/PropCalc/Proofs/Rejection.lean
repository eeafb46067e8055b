import PropCalc.Proofs.Pairing
import PropCalc.Proofs.Placement
/-!
# Rejections

Which error a text is rejected with:

* `ComesTo.pairsUp` — every list that the placement check comes to has its parentheses paired, if the
  whole list has; so it only finds that something is not in its place (`PairsUp.isMisplaced`);
* `ofTokens_eq_error_kind` — hence the kind of an error depends on the parentheses alone;
* `parse_errors_classified` — the order of the checks, for whole texts.
-/

namespace PropCalc

/-! ## The check of placement -/

/-- The lists that the placement check comes to when it starts with `ts`: the content of a group and
what follows the group, and what follows any other token. -/
inductive ComesTo (ts : List Token) : List Token → Prop where
  | start : ComesTo ts ts
  | inside {t : Token} {rest inside after : List Token} :
      ComesTo ts (t :: rest) → t.symbol = .lparen →
      Token.splitGroup? 0 rest = some (inside, after) → ComesTo ts inside
  | behind {t : Token} {rest inside after : List Token} :
      ComesTo ts (t :: rest) → t.symbol = .lparen →
      Token.splitGroup? 0 rest = some (inside, after) → ComesTo ts after
  | next {t : Token} {rest : List Token} :
      ComesTo ts (t :: rest) → t.symbol ≠ .lparen → t.symbol ≠ .rparen → ComesTo ts rest

theorem ComesTo.trans {ts us vs : List Token} (h : ComesTo ts us) (h' : ComesTo us vs) :
    ComesTo ts vs := by
  induction h' with
  | start => exact h
  | inside _ ht hsplit ih => exact .inside ih ht hsplit
  | behind _ ht hsplit ih => exact .behind ih ht hsplit
  | next _ hopen hclose ih => exact .next ih hopen hclose

/-- Every list that the placement check comes to pairs up, at any depth, if the whole does. -/
theorem ComesTo.pairsUp {ts rest : List Token} (h : ComesTo ts rest)
    (hts : PairsUp (ts.map Token.symbol)) : PairsUp (rest.map Token.symbol) := by
  induction h with
  | start => exact hts
  | inside _ ht hsplit ih => exact (ih.group ht hsplit).1
  | behind _ ht hsplit ih => exact (ih.group ht hsplit).2
  | next _ hopen hclose ih => exact ih.tail hopen hclose

/-- A parenthesis without partner stands at the start. -/
def StartsUnpaired : List Token → Prop
  | [] => False
  | t :: rest => t.symbol = .rparen ∨ t.symbol = .lparen ∧ Token.splitGroup? 0 rest = none

theorem PairsUp.not_startsUnpaired {ts : List Token} (h : PairsUp (ts.map Token.symbol)) :
    ¬ StartsUnpaired ts := by
  intro hstart
  cases ts with
  | nil => exact hstart
  | cons t rest =>
    rw [pairsUp_iff, List.map_cons] at h
    -- a closing parenthesis ends below zero, and an open group would have been split off
    rcases hstart with hclose | ⟨hopen, hsplit⟩
    · rw [hclose] at h
      cases h
    · rw [hopen] at h
      rcases exists_splitGroup? h with ⟨inside, after, hsome⟩
      rw [hsplit] at hsome
      cases hsome

/-- An operator or an operand is not in its place, or missing. -/
def ParseError.isMisplaced : ParseError → Bool
  | emptyOperand | noLeftOperand .. | noRightOperand .. | runTogether .. | missingOperator _ => true
  | absent | illegal _ | unopened _ | unclosed | strayClosing _ | unexpectedToken ..
  | unexpectedEnd => false

theorem isMisplaced_of_follows {before : Option Place} {here : Place} {e : ParseError}
    (h : Place.follows before here = .error e) : e.isMisplaced = true := by
  rcases here with ⟨_ | c, offset⟩ | _ | _ <;> rcases before with _ | (_ | _ | _) <;> cases h <;> rfl

theorem isMisplaced_of_ends {before : Option Place} {e : ParseError}
    (h : Place.ends before = .error e) : e.isMisplaced = true := by
  rcases before with _ | (_ | _ | _) <;> cases h
  rfl

/-- The first of two checks in a row that fails gives the error. -/
theorem bind_eq_error_iff {x y : Except ParseError Unit} {e : ParseError} :
    (x >>= fun _ => y) = .error e ↔ x = .error e ∨ x = .ok () ∧ y = .error e := by
  cases x <;> simp [bind, Except.bind]

/-- Unless the placement check comes to a parenthesis without partner, its error is that something is
not in its place. -/
theorem isMisplaced_or_comesTo {before : Option Place} {ts : List Token} {e : ParseError}
    (h : checkPlacesAfter before ts = .error e) :
    e.isMisplaced = true ∨ ∃ rest, ComesTo ts rest ∧ StartsUnpaired rest := by
  -- on the length, as the check goes on both inside a group and behind it
  induction hn : ts.length using Nat.strongRecOn generalizing before ts with
  | ind n ih =>
    subst hn
    cases ts with
    | nil =>
      rw [checkPlacesAfter] at h
      exact .inl (isMisplaced_of_ends h)
    | cons t ts =>
      -- an error from a shorter list that the check comes to
      have hlater : ∀ {before' us}, ComesTo (t :: ts) us → us.length < (t :: ts).length →
          checkPlacesAfter before' us = .error e →
          e.isMisplaced = true ∨ ∃ rest, ComesTo (t :: ts) rest ∧ StartsUnpaired rest := by
        intro before' us hus hlt hcheck
        rcases ih _ hlt hcheck rfl with hplace | ⟨rest, hrest, hstart⟩
        · exact .inl hplace
        · exact .inr ⟨rest, hus.trans hrest, hstart⟩
      rw [checkPlacesAfter] at h
      cases ht : t.symbol with
      | lparen =>
        simp only [ht] at h
        split at h
        · next hsplit => exact .inr ⟨_, .start, .inr ⟨ht, hsplit⟩⟩
        · next inside after hsplit =>
          have hlen := Token.length_splitGroup? hsplit
          by_cases hnil : inside = []
          · rw [if_pos hnil] at h
            cases h
            exact .inl rfl
          rw [if_neg hnil] at h
          -- the content, then the place of the group, then what follows it
          rcases bind_eq_error_iff.1 h with hinside | ⟨-, h⟩
          · refine hlater (.inside .start ht hsplit) ?_ hinside
            rw [List.length_cons]
            omega
          rcases bind_eq_error_iff.1 h with hplace | ⟨-, hafter⟩
          · exact .inl (isMisplaced_of_follows hplace)
          · refine hlater (.behind .start ht hsplit) ?_ hafter
            rw [List.length_cons]
            omega
      | rparen => exact .inr ⟨_, .start, .inl ht⟩
      | operator o | letter c =>
        simp only [ht] at h
        have hnext : ComesTo (t :: ts) ts := .next .start (by simp [ht]) (by simp [ht])
        rcases bind_eq_error_iff.1 h with hplace | ⟨-, hrest⟩
        · exact .inl (isMisplaced_of_follows hplace)
        · exact hlater hnext (by simp) hrest

/-- In a list whose parentheses pair up, the placement check only finds misplacements. -/
theorem PairsUp.isMisplaced {before : Option Place} {ts : List Token} {e : ParseError}
    (hts : PairsUp (ts.map Token.symbol)) (h : checkPlacesAfter before ts = .error e) :
    e.isMisplaced = true := by
  rcases isMisplaced_or_comesTo h with hplace | ⟨rest, hrest, hstart⟩
  · exact hplace
  · exact absurd hstart (hrest.pairsUp hts).not_startsUnpaired

theorem PairsUp.isMisplaced_placement {ts : List Token} {e : ParseError}
    (hts : PairsUp (ts.map Token.symbol)) (h : checkPlacement ts = .error e) :
    e.isMisplaced = true := by
  unfold checkPlacement at h
  split at h
  · cases h
    rfl
  · exact hts.isMisplaced h

/-- Wherever the placement check comes to in a balanced list, it only finds misplacements. -/
theorem ComesTo.isMisplaced {ts rest : List Token} {before : Option Place} {e : ParseError}
    (h : ComesTo ts rest) (hbalance : checkBalance ts = .ok ())
    (herror : checkPlacesAfter before rest = .error e ∨ checkPlacement rest = .error e) :
    e.isMisplaced = true := by
  have hpaired := h.pairsUp (checkBalance_eq_ok_iff_pairsUp.1 hbalance)
  rcases herror with hplaces | hplacement
  · exact hpaired.isMisplaced hplaces
  · exact hpaired.isMisplaced_placement hplacement

/-! ## Kinds of errors -/

theorem kind_of_isMisplaced {e : ParseError} (h : e.isMisplaced = true) : e.kind = .invalid := by
  cases e <;> simp_all [ParseError.isMisplaced, ParseError.kind]

/-- Tokens are rejected as unbalanced exactly if their parentheses do not pair up. -/
theorem ofTokens_eq_error_kind {d : Dialect} {ts : List Token} {e : ParseError}
    (h : Expression.ofTokens d ts = .error e) :
    e.kind = .unbalanced ↔ ¬ PairsUp (ts.map Token.symbol) := by
  rw [← checkBalance_eq_ok_iff_pairsUp]
  rcases ofTokens_eq_error_iff.1 h with hbalance | ⟨hbalance, hplaces⟩
  · exact iff_of_true (kind_of_checkBalance hbalance) (by simp [hbalance])
  · -- what the placement check finds behind the check of balance is never unbalanced
    have hpaired := checkBalance_eq_ok_iff_pairsUp.1 hbalance
    have hkind := kind_of_isMisplaced (hpaired.isMisplaced_placement hplaces)
    exact iff_of_false (by simp [hkind]) (by simp [hbalance])

/-- The text is cut into tokens to its end, but the parentheses among them do not pair up. -/
def IsUnbalanced (text : String) : Prop :=
  ∃ ts d, tokenize text = .ok (ts, d) ∧ ¬ PairsUp (ts.map Token.symbol)

/-- An error of tokenizing is no error of balance. -/
theorem kind_of_tokenize {text : String} {e : ParseError} (h : tokenize text = .error e) :
    e.kind = .invalid := by
  simp only [tokenize] at h
  split at h
  · cases h
    rfl
  · cases h

/-- A rejected text is rejected as unbalanced exactly if it is. -/
theorem parse_eq_error_kind {text : String} {e : ParseError} (h : Expression.parse text = .error e) :
    e.kind = .unbalanced ↔ IsUnbalanced text := by
  cases htokens : tokenize text with
  | error e' =>
    rw [parse_of_tokenize_error htokens] at h
    cases h
    refine iff_of_false (by simp [kind_of_tokenize htokens]) ?_
    rintro ⟨ts, d, hok, -⟩
    rw [htokens] at hok
    cases hok
  | ok p =>
    rcases p with ⟨ts, d⟩
    rw [parse_of_tokenize htokens] at h
    simp [ofTokens_eq_error_kind h, IsUnbalanced, htokens]

/-- The check of balance comes before that of placement. -/
theorem parse_of_checkBalance_error {text : String} {ts : List Token} {d : Dialect} {e : ParseError}
    (htokens : tokenize text = .ok (ts, d)) (hbalance : checkBalance ts = .error e) :
    Expression.parse text = .error e := by
  rw [parse_of_tokenize htokens]
  exact ofTokens_eq_error_iff.2 (.inl hbalance)

/-- The texts that are rejected as unbalanced are those that are. -/
theorem parse_unbalanced_iff {text : String} :
    (∃ e, Expression.parse text = .error e ∧ e.kind = .unbalanced) ↔ IsUnbalanced text := by
  constructor
  · intro h
    rcases h with ⟨e, herror, hkind⟩
    exact (parse_eq_error_kind herror).1 hkind
  · intro h
    rcases h with ⟨ts, d, htokens, hnot⟩
    -- the check of balance rejects these tokens before any other check does
    cases hbalance : checkBalance ts with
    | ok => exact absurd (checkBalance_eq_ok_iff_pairsUp.1 hbalance) hnot
    | error e =>
      exact ⟨e, parse_of_checkBalance_error htokens hbalance, kind_of_checkBalance hbalance⟩

/-- The errors of reading, in the order of the checks. A text is rejected as unbalanced exactly if
it can be cut into tokens and its parentheses do not pair up; the message names the first closing
parenthesis without partner, if there is one. Any other rejected text is rejected as invalid, also
if it is unbalanced but contains an illegal character. Where the check of balance passes, the
placement check comes to no parenthesis without partner, at any depth. -/
theorem parse_errors_classified :
    (∀ text : String,
      ((∃ e, Expression.parse text = .error e ∧ e.kind = .unbalanced) ↔ IsUnbalanced text) ∧
      (∀ ts d, tokenize text = .ok (ts, d) →
        (¬ PairsUp (ts.map Token.symbol) ↔
          ¬ NeverOverclosed (ts.map Token.symbol) ∨ StaysOpen (ts.map Token.symbol)) ∧
        (¬ NeverOverclosed (ts.map Token.symbol) ↔ ∃ t, IsFirstUnopened ts t) ∧
        (∀ t, IsFirstUnopened ts t → Expression.parse text = .error (.unopened t.offset) ∧
          (ParseError.unopened t.offset).message =
            "Closing parenthesis at position " ++ toString t.offset ++ " has no opening partner.") ∧
        (StaysOpen (ts.map Token.symbol) → Expression.parse text = .error .unclosed)) ∧
      (∀ bad, (Scan.ofString text).illegal? = some bad →
        Expression.parse text = .error (.illegal bad)) ∧
      ∀ e, Expression.parse text = .error e → ¬ IsUnbalanced text → e.kind = .invalid) ∧
    ∀ ts, checkBalance ts = .ok () → ∀ rest, ComesTo ts rest → ∀ before e,
      checkPlacesAfter before rest = .error e ∨ checkPlacement rest = .error e →
        e ≠ .unclosed ∧ ∀ offset, e ≠ .strayClosing offset := by
  refine ⟨fun text => ⟨parse_unbalanced_iff, ?_, ?_, ?_⟩, ?_⟩
  · intro ts d htokens
    refine ⟨not_pairsUp_iff, not_neverOverclosed_iff_exists, fun t ht => ⟨?_, rfl⟩, fun hopen => ?_⟩
    · exact parse_of_checkBalance_error htokens (checkBalance_unopened ht)
    · exact parse_of_checkBalance_error htokens (checkBalance_unclosed hopen)
  · intro bad hbad
    refine parse_of_tokenize_error ?_
    simp only [tokenize, hbad]
  · intro e herror hnot
    cases hkind : e.kind with
    | invalid => rfl
    | unbalanced => exact absurd ((parse_eq_error_kind herror).1 hkind) hnot
  · intro ts hbalance rest hrest before e herror
    have hplace := hrest.isMisplaced hbalance herror
    constructor
    · rintro rfl
      cases hplace
    · rintro offset rfl
      cases hplace

/-- A text with as many opening as closing parentheses of which one closes too early, and a group in
a balanced list that stands behind an operand. -/
theorem parse_errors_classified_crossed :
    let close : Token := ⟨.rparen, 3⟩
    let crossed : List Token :=
      [⟨.lparen, 0⟩, ⟨.letter 'a', 1⟩, ⟨.rparen, 2⟩, close, ⟨.lparen, 5⟩, ⟨.letter 'b', 6⟩]
    let inner : List Token := [⟨.letter 'a', 1⟩, ⟨.lparen, 2⟩, ⟨.letter 'b', 3⟩, ⟨.rparen, 4⟩]
    let outer : List Token := ⟨.lparen, 0⟩ :: (inner ++ [⟨.rparen, 5⟩])
    (tokenize "(a)) (b" = .ok (crossed, .logic) ∧ IsFirstUnopened crossed close ∧
      Expression.parse "(a)) (b" = .error (.unopened 3)) ∧
    checkBalance outer = .ok () ∧ ComesTo outer inner ∧
      checkPlacement inner = .error (.missingOperator 2) ∧
      ParseError.missingOperator 2 ≠ .unclosed := by
  intro close crossed inner outer
  have hscan : Scan.ofString "(a)) (b" = ⟨crossed, none⟩ := by decide +kernel
  have htokens : tokenize "(a)) (b" = .ok (crossed, .logic) := by
    simp only [tokenize, hscan]
    rfl
  have hfirst : IsFirstUnopened crossed close :=
    ⟨[⟨.lparen, 0⟩, ⟨.letter 'a', 1⟩, ⟨.rparen, 2⟩], [⟨.lparen, 5⟩, ⟨.letter 'b', 6⟩], rfl,
      by decide, by decide⟩
  have hcomes : ComesTo outer inner := .inside .start rfl rfl
  have hplaces : checkPlacement inner = .error (.missingOperator 2) := by
    simp [inner, checkPlacement, checkPlacesAfter, Token.symbol, Lexeme.symbol, Token.splitGroup?,
      Place.follows, Place.ends, bind, Except.bind]
  -- the first parenthesis too many is the second closing one, though both kinds are as many
  have hread := (parse_errors_classified.1 "(a)) (b").2.1 crossed .logic htokens
  exact ⟨⟨htokens, hfirst, (hread.2.2.1 close hfirst).1⟩, rfl, hcomes, hplaces,
    (parse_errors_classified.2 outer rfl inner hcomes none _ (.inr hplaces)).1⟩

end PropCalc
