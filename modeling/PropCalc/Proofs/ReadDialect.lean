import PropCalc.Proofs.RoundTrip
import PropCalc.Proofs.SumsOfProducts
/-!
# The dialect of a printed formula

A printed formula is read in the dialect of its first operator (`readDialect_eq`). For a sum of
products this is the dialect it was printed in (`Sum.readDialect_of_firstOperator?`), unless there is
no operator at all, and then every dialect prints the same (`Sum.text_readDialect`).

Which operator comes first can be told from the tree (`firstOperator?_eq_leadingOperator?`), and so
can the dialect that a printed formula is read in (`dialect_of_printed`).
-/

namespace PropCalc

namespace Formula

/-- The operator that a reader of the printed formula meets first. -/
def firstOperator? (f : Formula) : Option Operator := f.pieces.findSome? Piece.operator?

theorem findSome?_parenthesized {ls : List Lexeme} {ps : List Piece} {d : Dialect}
    (h : ls.findSome? Lexeme.spelling? = (ps.findSome? Piece.operator?).map (·.printed d))
    (needed : Bool) :
    (parenthesizedLexemes needed ls).findSome? Lexeme.spelling? =
      ((parenthesizedPieces needed ps).findSome? Piece.operator?).map (·.printed d) := by
  cases needed with
  | false => exact h
  | true =>
    simp [parenthesizedLexemes, parenthesizedPieces, List.findSome?_cons, List.findSome?_append,
      Lexeme.spelling?, Piece.operator?, h]

/-- The first spelling among the lexical items is that of the first operator. -/
theorem findSome?_lexemes (f : Formula) (d : Dialect) :
    (f.lexemes d).findSome? Lexeme.spelling? = f.firstOperator?.map (·.printed d) := by
  rw [firstOperator?]
  induction f with
  | var x n =>
    cases n with
    | true => rfl
    | false =>
      simp [lexemes, pieces, List.findSome?_map, Function.comp_def, Lexeme.spelling?,
        Piece.operator?]
  | binary l c r n e ihl ihr =>
    cases n with
    | true => rfl
    | false =>
      -- the connective stands behind the left part, if that has no operator
      have hl := findSome?_parenthesized ihl (l.needsParentheses c true)
      simp only [lexemes, pieces, List.findSome?_append, List.findSome?_cons, hl,
        Lexeme.spelling?, Piece.operator?, Bool.false_eq_true, if_false]
      cases (parenthesizedPieces (l.needsParentheses c true) l.pieces).findSome?
        Piece.operator? <;> rfl

/-- A printed formula is read in the dialect to which its first operator belongs. -/
theorem readDialect_eq (f : Formula) (d : Dialect) :
    f.readDialect d = (f.firstOperator?.map (·.readDialect d)).getD .logic := by
  rw [readDialect, findSome?_lexemes, Option.map_map]
  rfl

/-- All dialects print a formula without operators in the same way. -/
theorem text_eq_of_firstOperator?_eq_none {f : Formula} (h : f.firstOperator? = none)
    (d e : Dialect) : f.text d = f.text e := by
  rw [← String.toList_inj, toList_text, toList_text]
  rw [firstOperator?, List.findSome?_eq_none_iff] at h
  simp only [Piece.spelled, List.flatMap_def]
  congr 1
  -- only operators are spelled differently, and there is none
  refine List.map_congr_left fun p hp => ?_
  cases p with
  | char c => rfl
  | operator o => exact absurd (h _ hp) (by simp [Piece.operator?])

end Formula

namespace Canonical.Sum

variable {s : Sum}

/-- A sum with an operator is read in the dialect that it was printed in. -/
theorem readDialect_of_firstOperator? (h : s.IsLettered) (d : Dialect) {o : Operator}
    (hfirst : s.formula.firstOperator? = some o) : s.formula.readDialect d = d := by
  rcases List.exists_of_findSome?_eq_some hfirst with ⟨p, hp, hoperator⟩
  -- it is one of the three that every dialect spells in its own way
  have hplain := isPlain_formula h p hp
  cases p with
  | char c => cases hoperator
  | operator o' =>
    obtain rfl := Option.some.inj hoperator
    rw [Formula.readDialect_eq, hfirst]
    rcases hplain with rfl | rfl | rfl <;> cases d <;> rfl

/-- A sum is printed in the same way in the dialect that its print is read in. -/
theorem text_readDialect (h : s.IsLettered) (d : Dialect) :
    s.formula.text (s.formula.readDialect d) = s.formula.text d := by
  cases hfirst : s.formula.firstOperator? with
  | none => exact Formula.text_eq_of_firstOperator?_eq_none hfirst _ _
  | some o => rw [readDialect_of_firstOperator? h d hfirst]

end Canonical.Sum

/-! ## The first operator in the tree -/

namespace Formula

variable {f : Formula} {c : Connective}

/-- The operator that stands first in reading order: the negation of the whole, or else the first
operator of the left part, or else the connective. -/
def leadingOperator? : Formula → Option Operator
  | var _ n => if n then some .not else none
  | binary l c _ n _ => if n then some .not else some (l.leadingOperator?.getD (.binary c))

theorem findSome?_parenthesizedPieces (needed : Bool) (ps : List Piece) :
    (parenthesizedPieces needed ps).findSome? Piece.operator? = ps.findSome? Piece.operator? := by
  cases needed with
  | false => rfl
  | true =>
    simp [parenthesizedPieces, List.findSome?_cons, List.findSome?_append, Piece.operator?]

/-- Parentheses do not change which operator is printed first. -/
theorem firstOperator?_eq_leadingOperator? (f : Formula) :
    f.firstOperator? = f.leadingOperator? := by
  rw [firstOperator?]
  induction f with
  | var x n =>
    cases n with
    | true => rfl
    | false => simp [pieces, leadingOperator?, List.findSome?_map, Function.comp_def, Piece.operator?]
  | binary l c r n e ihl _ =>
    cases n with
    | true => rfl
    | false =>
      simp only [pieces, leadingOperator?, Bool.false_eq_true, if_false, List.findSome?_append,
        findSome?_parenthesizedPieces, ihl]
      -- the operator of the left part stands before the connective, if there is one
      cases l.leadingOperator? <;> rfl

/-- Only a variable that is not negated has no operator. -/
theorem leadingOperator?_eq_none_iff : f.leadingOperator? = none ↔ ∃ x, f = var x false := by
  cases f with
  | var x n => cases n <;> simp [leadingOperator?]
  | binary l c r n e => cases n <;> simp [leadingOperator?]

theorem exists_node_of_leadingOperator? (h : f.leadingOperator? = some (.binary c)) :
    ∃ l r n e, binary l c r n e ∈ f.postorder := by
  induction f with
  | var x n => cases n <;> cases h
  | binary l c' r n e ihl _ =>
    cases n with
    | true => cases h
    | false =>
      cases hl : l.leadingOperator? with
      | none =>
        simp only [leadingOperator?, hl] at h
        cases h
        exact ⟨l, r, false, e, by simp [postorder]⟩
      | some o =>
        -- the operator already stands in the left part
        simp only [leadingOperator?, hl] at h
        cases h
        rcases ihl hl with ⟨l', r', n', e', hnode⟩
        exact ⟨l', r', n', e', by simp [postorder, hnode]⟩

end Formula

/-! ## The dialect that is read -/

/-- The dialect is not that of logic, but takes its spelling of the operator from there. -/
def Operator.IsBorrowed (o : Operator) (d : Dialect) : Prop :=
  d = .code ∧ (o = .binary .implies ∨ o = .binary .iff ∨ o = .binary .nand ∨ o = .binary .nor) ∨
    d = .boolean ∧ (o = .binary .implies ∨ o = .binary .iff)

instance (o : Operator) (d : Dialect) : Decidable (o.IsBorrowed d) :=
  inferInstanceAs (Decidable (_ ∨ _))

theorem Operator.readDialect_eq (o : Operator) (d : Dialect) :
    o.readDialect d = if o.IsBorrowed d then .logic else d := by
  rcases o with _ | (_ | _ | _ | _ | _ | _) <;> cases d <;> rfl

theorem Operator.not_isBorrowed {o : Operator}
    (h : o = .not ∨ o = .binary .and ∨ o = .binary .or) (d : Dialect) : ¬ o.IsBorrowed d := by
  rcases h with rfl | rfl | rfl <;> simp [IsBorrowed]

/-- A formula without other connectives than conjunction and disjunction begins with no other
operator. -/
theorem Formula.not_isBorrowed_of_leadingOperator? {f : Formula} {o : Operator}
    (hplain : ∀ l c r n e, .binary l c r n e ∈ f.postorder → c = .and ∨ c = .or)
    (h : f.leadingOperator? = some o) (d : Dialect) : ¬ o.IsBorrowed d := by
  refine o.not_isBorrowed ?_ d
  cases o with
  | not => exact .inl rfl
  | binary c =>
    rcases exists_node_of_leadingOperator? h with ⟨l, r, n, e, hnode⟩
    rcases hplain l c r n e hnode with rfl | rfl
    · exact .inr (.inl rfl)
    · exact .inr (.inr rfl)

/-- Which dialect a printed formula is read in is decided by the first operator in the tree. Without
any operator, or if the dialect borrows the spelling of this one, it is read as logic; else it is
read in the dialect that it was printed in. So a formula of conjunctions, disjunctions and negations
keeps its dialect as soon as it has an operator. -/
theorem dialect_of_printed (f : Formula) (d : Dialect) (hf : f.IsLettered) :
    ∃ e, Expression.parse (f.text d) = .ok e ∧
      (f.leadingOperator? = none → e.dialect = .logic) ∧
      (∀ o, f.leadingOperator? = some o → o.IsBorrowed d → e.dialect = .logic) ∧
      (∀ o, f.leadingOperator? = some o → ¬ o.IsBorrowed d → e.dialect = d) ∧
      ((∀ l c r n e', .binary l c r n e' ∈ f.postorder → c = .and ∨ c = .or) →
        (∃ g ∈ f.postorder, g.isNegated = true ∨ g.isVariable = false) → e.dialect = d) := by
  have hread := f.readDialect_eq d
  rw [f.firstOperator?_eq_leadingOperator?] at hread
  have hkept : ∀ o, f.leadingOperator? = some o → ¬ o.IsBorrowed d → f.readDialect d = d := by
    intro o ho hborrowed
    rw [hread, ho, Option.map_some, Option.getD_some, o.readDialect_eq, if_neg hborrowed]
  refine ⟨_, parse_text d hf, ?_, ?_, hkept, ?_⟩
  · intro hnone
    rw [hread, hnone]
    rfl
  · intro o ho hborrowed
    rw [hread, ho, Option.map_some, Option.getD_some, o.readDialect_eq, if_pos hborrowed]
  · intro hplain hoperator
    cases ho : f.leadingOperator? with
    | some o => exact hkept o ho (Formula.not_isBorrowed_of_leadingOperator? hplain ho d)
    | none =>
      -- then the formula is a mere variable, and there is no operator in it
      rcases Formula.leadingOperator?_eq_none_iff.1 ho with ⟨x, rfl⟩
      rcases hoperator with ⟨g, hg, hmarked⟩
      rw [Formula.postorder, List.mem_singleton] at hg
      rw [hg] at hmarked
      simp [Formula.isNegated, Formula.isVariable] at hmarked

/-- An equivalence that stands first within two groups, behind no negation, and a negation within
such groups in front of it. -/
theorem dialect_of_printed_leftmost :
    let inner : Bool → Formula := fun negated =>
      .binary (.binary (.var "a" negated) .iff (.var "b" true) false .pseudo) .nor (.var "c" false)
        false .code
    let f : Formula := .binary (inner false) .and (.var "d" true) false .boolean
    let g : Formula := .binary (inner true) .and (.var "d" true) false .boolean
    f.IsLettered ∧ g.IsLettered ∧
      (∃ e, Expression.parse (f.text .boolean) = .ok e ∧ e.dialect = .logic) ∧
      ∃ e, Expression.parse (g.text .boolean) = .ok e ∧ e.dialect = .boolean := by
  intro inner f g
  have hf : f.IsLettered := by decide
  have hg : g.IsLettered := by decide
  rcases dialect_of_printed f .boolean hf with ⟨e, he, -, hlogic, -⟩
  rcases dialect_of_printed g .boolean hg with ⟨e', he', -, -, hkept, -⟩
  exact ⟨hf, hg, ⟨e, he, hlogic (.binary .iff) rfl (by decide)⟩, e', he', hkept .not rfl (by decide)⟩

end PropCalc
