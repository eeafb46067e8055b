import PropCalc.Proofs.Printing
/-!
# Reading what was printed

A printed formula is read as the same formula, whatever its nesting, its operators, its negations
and the dialect. `parse_text` gives the expression in full: its formula carries the marks of the
dialect that the first printed operator is read in.
-/

namespace PropCalc

/-- The dialect in which a formula printed in `d` is read again: that of its first operator, and the
dialect of logic if it has none. -/
def Formula.readDialect (f : Formula) (d : Dialect) : Dialect :=
  (((f.lexemes d).findSome? Lexeme.spelling?).map Spelling.dialect).getD .logic

/-- A text that consists of known lexical items is cut into them. -/
theorem tokenize_of_lexes {text : String} {ls : List Lexeme} (h : Scan.Lexes text.toList ls) :
    ∃ ts, ts.map Token.lexeme = ls ∧ tokenize text =
      .ok (ts, ((ls.findSome? Lexeme.spelling?).map Spelling.dialect).getD .logic) := by
  -- the scan finds these items and stops at nothing
  rcases h.scan 0 with ⟨htokens, hillegal⟩
  refine ⟨(Scan.ofString text).tokens, htokens, ?_⟩
  have hdialect : Token.dialect? (Scan.ofString text).tokens =
      (ls.findSome? Lexeme.spelling?).map Spelling.dialect := by
    rw [← htokens, List.findSome?_map]
    rfl
  simp only [tokenize]
  rw [show (Scan.ofString text).illegal? = none from hillegal, hdialect]

/-- A printed formula is read as itself, marked with the dialect it is read in. -/
theorem parse_text {f : Formula} (d : Dialect) (hf : f.IsLettered) :
    Expression.parse (f.text d) = .ok ⟨f.marked (f.readDialect d), f.readDialect d⟩ := by
  rcases tokenize_of_lexes (lexes_text d hf) with ⟨ts, hts, htokenize⟩
  -- the grammar sees the symbols, and these are those of the printed items
  have hsymbols : ts.map Token.symbol = (f.lexemes d).map Lexeme.symbol := by
    rw [← hts, List.map_map]
    rfl
  have hreads := (reads_lexemes d (f.readDialect d) hf).expression
  rw [← hsymbols] at hreads
  rw [parse_of_tokenize htokenize]
  exact ofTokens_of_reads hreads

theorem Formula.mem_names {f : Formula} {x : String} : x ∈ f.names ↔ x ∈ f.leaves :=
  Ascending.mem_ofList

theorem Formula.pairwise_names (f : Formula) : f.names.Pairwise (· < ·) :=
  Ascending.pairwise_ofList f.leaves

/-- Reading undoes printing: the same formula comes back, with its names in ascending order, and it
is a single variable exactly if it was one. -/
theorem read_of_printed (f : Formula) (d : Dialect) (hf : f.IsLettered) :
    ∃ e, Expression.parse (f.text d) = .ok e ∧ e.root.same f = true ∧
      e.names.Pairwise (· < ·) ∧ (∀ x, x ∈ e.names ↔ x ∈ f.leaves) ∧
      (e.isSingle = true ↔ ∃ x n, f = .var x n) := by
  refine ⟨_, parse_text d hf, Formula.same_marked _ f, Formula.pairwise_names _, ?_, ?_⟩
  · intro x
    simp [Expression.names, Formula.mem_names]
  · rw [Expression.isSingle, Formula.isVariable_marked]
    cases f <;> simp [Formula.isVariable]

/-- Negated groups on both sides, a chain, and signs that other spellings begin with. -/
theorem read_of_printed_nested :
    let f : Formula := .binary
      (.binary (.var "n" true) .and (.binary (.var "o" false) .nor (.var "i" true) true .logic)
        false .logic)
      .implies (.binary (.var "a" false) .nand (.var "n" false) false .code) true .pseudo
    f.IsLettered ∧ ∃ e, Expression.parse (f.text .boolean) = .ok e ∧ e.root.same f = true ∧
      e.names.Pairwise (· < ·) ∧ (∀ x, x ∈ e.names ↔ x ∈ f.leaves) ∧
      (e.isSingle = true ↔ ∃ x n, f = .var x n) :=
  ⟨by decide, read_of_printed _ .boolean (by decide)⟩

end PropCalc
