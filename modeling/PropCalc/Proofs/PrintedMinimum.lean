import PropCalc.Proofs.Minimization
import PropCalc.Proofs.ReadDialect
/-!
# Printed minimal forms

There are two ways to print a minimal form in a dialect: to rewrite the words of its canonical text,
or to print the formula that this text writes down. They agree (`minimized_text_prints_itself`), so
reading a rewritten text once more changes no character of it, and the dialect that it is read in is
the one it was rewritten in as soon as an operator shows it.
-/

namespace PropCalc

/-! ## Operators among the tokens -/

/-- The token is an operator, however it is spelled. -/
def Token.IsOperator (t : Token) : Prop := ∃ s, t.lexeme = .operator s

/-- A printed formula is cut into tokens, and when one of them is an operator, the formula has a first
one. -/
theorem Formula.tokenize_text {f : Formula} (hf : f.IsLettered) (d : Dialect) :
    ∃ ts, tokenize (f.text d) = .ok (ts, f.readDialect d) ∧
      ((∃ t ∈ ts, t.IsOperator) → ∃ o, f.firstOperator? = some o) := by
  rcases tokenize_of_lexes (lexes_text d hf) with ⟨ts, hts, htokenize⟩
  refine ⟨ts, htokenize, fun hex => ?_⟩
  rcases hex with ⟨t, ht, s, hs⟩
  cases hfirst : f.firstOperator? with
  | some o => exact ⟨o, rfl⟩
  | none =>
    -- then no lexical item has a spelling, but the token has one
    have hnone := f.findSome?_lexemes d
    rw [hfirst, ← hts, Option.map_none, List.findSome?_eq_none_iff] at hnone
    have hspelling := hnone t.lexeme (List.mem_map_of_mem ht)
    rw [hs] at hspelling
    cases hspelling

/-! ## Both ways of printing -/

namespace Canonical.Sum

variable {s : Sum}

/-- A rewritten sum is printed as it stands, whatever dialect it is read in. -/
theorem text_of_parse_render (h : s.IsLettered) (d : Dialect) :
    ∃ e, Expression.parse (render s.text d) = .ok e ∧ e.dialect = s.formula.readDialect d ∧
      e.root.text d = render s.text d := by
  refine ⟨_, s.parse_render h d, rfl, ?_⟩
  rw [Formula.text_marked, s.render_text h]

end Canonical.Sum

/-- A minimal form that is no constant prints itself: its canonical text, rewritten in a dialect, is
read as an expression that the dialect prints as this very text. So the text is what becomes of the
minimal form. It is read in the dialect it was rewritten in whenever one of its tokens is an
operator. -/
theorem minimized_text_prints_itself (names : List String)
    (hlettered : ∀ x ∈ names, IsVariableName x) (S : RowSet)
    (hS : ∀ row ∈ S, IsRow names.length row) (hempty : ∃ row, row ∈ S)
    (hfull : ∃ row, IsRow names.length row ∧ row ∉ S) (d : Dialect) :
    ∃ canonical ts e, minimize names S = .ok canonical ∧
      tokenize (Canonical.render canonical d) = .ok (ts, e.dialect) ∧
      Expression.parse (Canonical.render canonical d) = .ok e ∧
      e.root.text d = Canonical.render canonical d ∧
      Subject.printMinimized canonical d = .ok (Canonical.render canonical d) ∧
      ((∃ t ∈ ts, t.IsOperator) → e.dialect = d) := by
  -- the set is neither empty nor full, which leaves the case of a sum
  rcases minimize_cases hlettered hS with
    ⟨hnil, -⟩ | ⟨-, hall, -⟩ | ⟨-, -, s, -, hs, hminimize⟩
  · rcases hempty with ⟨row, hrow⟩
    exact absurd hrow (List.eq_nil_iff_forall_not_mem.1 hnil row)
  · rcases hfull with ⟨row, hrow, hout⟩
    exact absurd (hall row hrow) hout
  · rcases Canonical.Sum.text_of_parse_render hs d with ⟨e, hparse, hdialect, htext⟩
    rcases Formula.tokenize_text (Canonical.Sum.isLettered_formula hs) d with
      ⟨ts, htokenize, hoperator⟩
    have hprint := Subject.printMinimized_sum hs d
    rw [← s.render_text hs] at htokenize hprint
    rw [← hdialect] at htokenize
    refine ⟨s.text, ts, e, hminimize, htokenize, hparse, htext, hprint, fun hex => ?_⟩
    rcases hoperator hex with ⟨o, ho⟩
    exact hdialect.trans (Canonical.Sum.readDialect_of_firstOperator? hs d ho)

/-- Several terms, with a negation in front, in the dialect that puts a blank behind it. -/
theorem minimized_text_prints_itself_words :
    let names := ["q", "n", "a"]
    let S := RowSet.ofList [6, 1, 5, 2, 7]
    (∀ x ∈ names, IsVariableName x) ∧ (∀ row ∈ S, IsRow names.length row) ∧
    (∃ row, row ∈ S) ∧ (∃ row, IsRow names.length row ∧ row ∉ S) ∧
    ∃ canonical ts e, minimize names S = .ok canonical ∧
      tokenize (Canonical.render canonical .pseudo) = .ok (ts, e.dialect) ∧
      Expression.parse (Canonical.render canonical .pseudo) = .ok e ∧
      e.root.text .pseudo = Canonical.render canonical .pseudo ∧
      Subject.printMinimized canonical .pseudo = .ok (Canonical.render canonical .pseudo) ∧
      ((∃ t ∈ ts, t.IsOperator) → e.dialect = .pseudo) := by
  intro names S
  have hS : ∀ row ∈ S.rows, IsRow names.length row := by decide
  have hempty : ∃ row, row ∈ S := ⟨6, by decide⟩
  have hfull : ∃ row, IsRow names.length row ∧ row ∉ S := ⟨3, by decide, by decide⟩
  exact ⟨by decide, hS, hempty, hfull,
    minimized_text_prints_itself names (by decide) S hS hempty hfull .pseudo⟩

end PropCalc
