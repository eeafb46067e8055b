import PropCalc.Proofs.Placement
import PropCalc.Proofs.Printing
/-!
# What is read

An expression that was read is one that the grammar builds from the tokens of the text
(`parse_eq_ok_iff`). All its joined nodes carry the dialect of the reader (`Reads.dialect_eq`). Its
names are variable letters, as no other letters become tokens (`isLettered_of_parse`).
-/

namespace PropCalc

open Grammar

/-- Tokens form an expression when the grammar builds its formula. -/
theorem ofTokens_eq_ok_iff {d : Dialect} {ts : List Token} {e : Expression} :
    Expression.ofTokens d ts = .ok e ↔
      e.dialect = d ∧ Reads d .expression (ts.map Token.symbol) e.root := by
  constructor
  · intro h
    have hderives : Derives .expression (ts.map Token.symbol) := by
      refine Classical.byContradiction fun hnot => ?_
      -- otherwise one of the checks fails
      have herror : ∃ e', Expression.ofTokens d ts = .error e' := by
        cases hbalance : checkBalance ts with
        | error e' => exact ⟨e', ofTokens_eq_error_iff.2 (.inl hbalance)⟩
        | ok =>
          cases hplaces : checkPlacement ts with
          | error e' => exact ⟨e', ofTokens_eq_error_iff.2 (.inr ⟨hbalance, hplaces⟩)⟩
          | ok => exact absurd (checkPlacement_eq_ok_iff.1 hplaces) hnot
      rcases herror with ⟨e', he'⟩
      rw [h] at he'
      cases he'
    -- the formula of the derivation is the one that was read
    rcases hderives.exists_reads d with ⟨f, hf⟩
    rw [ofTokens_of_reads hf] at h
    cases h
    exact ⟨rfl, hf⟩
  · intro h
    rcases h with ⟨rfl, hreads⟩
    exact ofTokens_of_reads hreads

/-- A text is read as an expression when the grammar builds its formula from the tokens. -/
theorem parse_eq_ok_iff {text : String} {e : Expression} :
    Expression.parse text = .ok e ↔
      ∃ ts, tokenize text = .ok (ts, e.dialect) ∧
        Reads e.dialect .expression (ts.map Token.symbol) e.root := by
  cases htokens : tokenize text with
  | error e' => simp [parse_of_tokenize_error htokens]
  | ok p =>
    rcases p with ⟨ts, d⟩
    simp only [parse_of_tokenize htokens, Except.ok.injEq, Prod.mk.injEq, ofTokens_eq_ok_iff]
    constructor
    · intro h
      rcases h with ⟨rfl, hreads⟩
      exact ⟨ts, ⟨rfl, rfl⟩, hreads⟩
    · intro h
      rcases h with ⟨ts', ⟨rfl, rfl⟩, hreads⟩
      exact ⟨rfl, hreads⟩

/-! ## Dialects of nodes -/

theorem Formula.marked_negate (d : Dialect) (f : Formula) :
    f.negate.marked d = (f.marked d).negate := by
  cases f <;> rfl

/-- The grammar marks a formula with one dialect throughout. -/
theorem Grammar.Reads.marked_eq {d : Dialect} {p : Phrase} {w : List Symbol} {f : Formula}
    (h : Reads d p w f) : f.marked d = f := by
  induction h with
  | single _ ih => exact ih
  | joined c _ _ ihw ihv => rw [Formula.marked, ihw, ihv]
  | negated _ ih => rw [Formula.marked_negate, ih]
  | group _ ih => exact ih
  | letter c => rfl

theorem Formula.dialect_of_mem_marked {d e : Dialect} {f l r : Formula} {c : Connective} {n : Bool}
    (h : .binary l c r n e ∈ (f.marked d).postorder) : e = d := by
  induction f with
  | var x m => simp [marked, postorder] at h
  | binary l' c' r' m e' ihl ihr =>
    simp only [marked, postorder, List.mem_append, List.mem_singleton] at h
    rcases h with (h | h) | h
    · exact ihl h
    · exact ihr h
    · cases h
      rfl

theorem Grammar.Reads.dialect_eq {d e : Dialect} {p : Phrase} {w : List Symbol} {f l r : Formula}
    {c : Connective} {n : Bool} (h : Reads d p w f) (hnode : .binary l c r n e ∈ f.postorder) :
    e = d := by
  rw [← h.marked_eq] at hnode
  exact Formula.dialect_of_mem_marked hnode

/-! ## Names that are read -/

theorem Formula.leaves_negate (f : Formula) : f.negate.leaves = f.leaves := by
  cases f <;> rfl

/-- The names of a formula are the letters that it was built from. -/
theorem Grammar.Reads.mem_leaves {d : Dialect} {p : Phrase} {w : List Symbol} {f : Formula}
    (h : Reads d p w f) {x : String} :
    x ∈ f.leaves ↔ ∃ c, Symbol.letter c ∈ w ∧ x = c.toString := by
  induction h with
  | single _ ih => exact ih
  | joined c _ _ ihw ihv =>
    simp only [Formula.leaves, List.mem_append, ihw, ihv, List.mem_cons, reduceCtorEq, false_or,
      or_and_right, exists_or]
  | negated _ ih =>
    simp only [Formula.leaves_negate, ih, List.mem_cons, reduceCtorEq, false_or]
  | group _ ih =>
    simp only [ih, List.mem_cons, List.mem_append, List.not_mem_nil, reduceCtorEq, false_or, or_false]
  | letter c => simp [Formula.leaves]

theorem Grammar.Reads.isLettered {d : Dialect} {p : Phrase} {w : List Symbol} {f : Formula}
    (h : Reads d p w f) (hw : ∀ c, Symbol.letter c ∈ w → isVariableLetter c = true) :
    f.IsLettered := by
  intro x hx
  rcases h.mem_leaves.1 hx with ⟨c, hc, rfl⟩
  exact ⟨c, hw c hc, rfl⟩

/-- Only variable letters become tokens. -/
theorem Scan.isVariableLetter_of_mem {offset : Nat} {cs : List Char} {t : Token} {c : Char}
    (ht : t ∈ (ofChars offset cs).tokens) (hc : t.lexeme = .letter c) :
    isVariableLetter c = true := by
  induction offset, cs using ofChars.induct with
  | case1 offset => simp [ofChars] at ht
  | case2 offset x cs hblank ih =>
    rw [ofChars, if_pos hblank] at ht
    exact ih ht
  | case3 offset x cs hblank hnone =>
    rw [ofChars, if_neg hblank] at ht
    split at ht
    · simp at ht
    · next l hsome =>
      rw [hnone] at hsome
      cases hsome
  | case4 offset x cs hblank l hsome ih =>
    -- the token is the item found here, or one found behind it
    rw [ofChars_of_startOf? hsome] at ht
    rcases List.mem_cons.1 ht with rfl | ht
    · have hl : l = .letter c := hc
      rw [hl] at hsome
      exact (Lexeme.fits_of_startOf? hsome).accepted
    · exact ih ht

/-- The letters among the tokens of a text name variables. -/
theorem isVariableLetter_of_tokenize {text : String} {ts : List Token} {d : Dialect} {c : Char}
    (h : tokenize text = .ok (ts, d)) (hc : Symbol.letter c ∈ ts.map Token.symbol) :
    isVariableLetter c = true := by
  rcases List.mem_map.1 hc with ⟨t, ht, hsymbol⟩
  have hlexeme : t.lexeme = .letter c := by
    rw [Token.symbol] at hsymbol
    -- only a letter has a letter as its symbol
    cases hl : t.lexeme <;> rw [hl] at hsymbol <;> cases hsymbol
    rfl
  simp only [tokenize] at h
  split at h
  · cases h
  · simp only [Except.ok.injEq, Prod.mk.injEq] at h
    rw [← h.1] at ht
    exact Scan.isVariableLetter_of_mem ht hlexeme

theorem isLettered_of_parse {text : String} {e : Expression} (h : Expression.parse text = .ok e) :
    e.root.IsLettered := by
  rcases parse_eq_ok_iff.1 h with ⟨ts, htokens, hreads⟩
  exact hreads.isLettered fun c hc => isVariableLetter_of_tokenize htokens hc

end PropCalc
