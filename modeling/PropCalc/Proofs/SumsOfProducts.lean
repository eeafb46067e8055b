import PropCalc.Proofs.Rewriting
import PropCalc.Proofs.Valuation
/-!
# Sums of products

The formula that a canonical sum of products writes down: a chain of disjunctions whose members are
chains of conjunctions of literals. `Sum.render_text` says that rewriting the canonical text in a
dialect prints this formula, and `Sum.value_formula` what it means.
-/

namespace PropCalc

/-! ## Chains -/

namespace Formula

/-- Formulas joined by one connective, from the left. -/
def chain (c : Connective) (f : Formula) (gs : List Formula) : Formula :=
  gs.foldl (fun l r => .binary l c r false .logic) f

theorem chain_cons (c : Connective) (f g : Formula) (gs : List Formula) :
    chain c f (g :: gs) = chain c (.binary f c g false .logic) gs := rfl

theorem leaves_chain (c : Connective) (f : Formula) (gs : List Formula) :
    (chain c f gs).leaves = f.leaves ++ gs.flatMap leaves := by
  induction gs generalizing f with
  | nil => simp [chain]
  | cons g gs ih => simp [chain_cons, ih, leaves]

/-- A chain of conjunctions is true when all of its members are. -/
theorem value_chain_and (σ : String → Bool) (f : Formula) (gs : List Formula) :
    (chain .and f gs).value σ = (f.value σ && gs.all (·.value σ)) := by
  induction gs generalizing f with
  | nil => simp [chain]
  | cons g gs ih => simp [chain_cons, ih, value, Connective.apply, Bool.and_assoc]

/-- A chain of disjunctions is true when one of its members is. -/
theorem value_chain_or (σ : String → Bool) (f : Formula) (gs : List Formula) :
    (chain .or f gs).value σ = (f.value σ || gs.any (·.value σ)) := by
  induction gs generalizing f with
  | nil => simp [chain]
  | cons g gs ih => simp [chain_cons, ih, value, Connective.apply, Bool.or_assoc]

/-- The pieces of a chain of an associative connective: no parentheses but those of the members. -/
theorem pieces_chain {c : Connective} (hc : c.isAssociative = true) (f : Formula)
    (gs : List Formula) :
    (chain c f gs).pieces =
      (if gs = [] then f.pieces else parenthesizedPieces (f.needsParentheses c true) f.pieces) ++
        gs.flatMap fun g => .char ' ' :: .operator (.binary c) :: .char ' ' ::
          parenthesizedPieces (g.needsParentheses c false) g.pieces := by
  induction gs generalizing f with
  | nil => simp [chain]
  | cons g gs ih =>
    -- a chain on the left of its own connective stands without parentheses
    have hneeded : (binary f c g false .logic).needsParentheses c true = false := by
      simp [needsParentheses, hc]
    rw [chain_cons, ih, hneeded]
    simp [pieces, parenthesizedPieces]

/-- A chain that is no single formula needs parentheses beside another connective. -/
theorem needsParentheses_chain {c outer : Connective} (h : c ≠ outer) (isLeft : Bool)
    (f : Formula) {gs : List Formula} (hgs : gs ≠ []) :
    (chain c f gs).needsParentheses outer isLeft = true := by
  induction gs generalizing f with
  | nil => exact absurd rfl hgs
  | cons g gs ih =>
    rw [chain_cons]
    cases gs with
    -- the chain is headed by its own connective, which is not the outer one
    | nil => simp [chain, needsParentheses, h]
    | cons g' gs => exact ih _ (by simp)

end Formula

theorem intercalate_cons_flatMap {α : Type} (sep xs : List α) (ls : List (List α)) :
    List.intercalate sep (xs :: ls) = xs ++ ls.flatMap (sep ++ ·) := by
  induction ls generalizing xs with
  | nil => simp
  | cons l ls ih =>
    rw [List.intercalate_cons_cons, ih, List.flatMap_cons]
    simp

namespace Canonical

/-! ## Literals -/

/-- The formula of a literal: a name and whether it is negated. -/
def literalFormula (l : String × Bool) : Formula := .var l.1 l.2

theorem toList_literal (l : String × Bool) :
    (literal l.1 l.2).toList = Piece.spelled word (literalFormula l).pieces := by
  cases l with
  | mk x n =>
    cases n <;>
      simp [literal, literalFormula, Formula.pieces, Piece.chars, Piece.spelled_map_char, word,
        String.toList_append]

theorem isPlain_literal {l : String × Bool} (h : IsVariableName l.1) :
    ∀ p ∈ (literalFormula l).pieces, IsPlain p := by
  rcases l with ⟨x, n⟩
  rcases h with ⟨c, hc, rfl⟩
  -- names are small letters and the words begin with capital ones
  have hchar : c ≠ 'A' ∧ c ≠ 'O' ∧ c ≠ 'N' := by
    refine ⟨?_, ?_, ?_⟩ <;>
    · rintro rfl
      exact absurd hc (by decide)
  cases n <;> simpa [literalFormula, Formula.pieces, IsPlain] using hchar

theorem isPlain_parenthesized {ps : List Piece} (h : ∀ p ∈ ps, IsPlain p) (needed : Bool) :
    ∀ p ∈ Formula.parenthesizedPieces needed ps, IsPlain p := by
  cases needed with
  | false => exact h
  | true =>
    intro p hp
    simp only [Formula.parenthesizedPieces, if_true, List.mem_cons, List.mem_append,
      List.not_mem_nil, or_false] at hp
    rcases hp with rfl | hp | rfl
    · exact ⟨by decide, by decide, by decide⟩
    · exact h p hp
    · exact ⟨by decide, by decide, by decide⟩

/-- What a connective joins to a text is plain when both are. -/
theorem isPlain_joined {c : Connective} (hc : IsPlain (.operator (.binary c))) {ps : List Piece}
    (h : ∀ p ∈ ps, IsPlain p) :
    ∀ p ∈ .char ' ' :: .operator (.binary c) :: .char ' ' :: ps, IsPlain p := by
  have hblank : IsPlain (.char ' ') := ⟨by decide, by decide, by decide⟩
  intro p hp
  simp only [List.mem_cons] at hp
  rcases hp with rfl | rfl | rfl | hp
  · exact hblank
  · exact hc
  · exact hblank
  · exact h p hp

/-- A literal does not read as a product. -/
theorem occurs_literal {l : String × Bool} (h : IsVariableName l.1) :
    Text.occurs (" " ++ andWord ++ " ").toList (literal l.1 l.2).toList = false := by
  rcases l with ⟨x, n⟩
  rcases h with ⟨c, hc, rfl⟩
  cases n <;> simp [literal, notWord, andWord, Text.occurs, List.isPrefixOf]

/-! ## Products -/

/-- A product of one literal or more. -/
structure Product where
  first : String × Bool
  rest : List (String × Bool)
deriving DecidableEq, Repr

namespace Product

/-- The literals of a product. -/
def literals (p : Product) : List (String × Bool) := p.first :: p.rest

/-- The product in canonical words. -/
def text (p : Product) : String := product (p.literals.map fun l => literal l.1 l.2)

/-- The formula that a product writes down. -/
def formula (p : Product) : Formula :=
  .chain .and (literalFormula p.first) (p.rest.map literalFormula)

theorem leaves_formula (p : Product) : p.formula.leaves = p.literals.map (·.1) := by
  rw [formula, Formula.leaves_chain, literals, List.map_cons, List.flatMap_map,
    List.map_eq_flatMap]
  rfl

/-- A product is true when all of its literals are. -/
theorem value_formula (σ : String → Bool) (p : Product) :
    p.formula.value σ = p.literals.all fun l => σ l.1 ^^ l.2 := by
  simp [formula, Formula.value_chain_and, literals, literalFormula, Formula.value,
    Function.comp_def]

theorem pieces_formula (p : Product) :
    p.formula.pieces = (literalFormula p.first).pieces ++ p.rest.flatMap fun l =>
      .char ' ' :: .operator (.binary .and) :: .char ' ' :: (literalFormula l).pieces := by
  rw [formula, Formula.pieces_chain rfl, List.flatMap_map]
  simp [literalFormula, Formula.needsParentheses, Formula.parenthesizedPieces]

theorem toList_text (p : Product) : p.text.toList = Piece.spelled word p.formula.pieces := by
  rw [text, product, String.toList_intercalate, literals, List.map_cons, List.map_cons,
    intercalate_cons_flatMap, pieces_formula, Piece.spelled_append, toList_literal]
  -- the literals behind the first, each behind the word that joins them
  congr 1
  induction p.rest with
  | nil => rfl
  | cons l ls ih =>
    simp only [List.map_cons, List.flatMap_cons, ih, toList_literal, Piece.spelled_append,
      Piece.spelled_cons]
    simp [Piece.chars, word, Operator.name, andWord]

theorem isPlain_formula {p : Product} (h : ∀ l ∈ p.literals, IsVariableName l.1) :
    ∀ q ∈ p.formula.pieces, IsPlain q := by
  intro q hq
  rw [pieces_formula, List.mem_append, List.mem_flatMap] at hq
  rcases hq with hq | ⟨l, hl, hq⟩
  · exact isPlain_literal (h p.first List.mem_cons_self) q hq
  · have hliteral := isPlain_literal (h l (List.mem_cons_of_mem _ hl))
    exact isPlain_joined (.inr (.inl rfl)) hliteral q hq

/-- Beside others, a product of several literals stands in parentheses, as it does in print. -/
theorem toList_grouped {p : Product} (h : ∀ l ∈ p.literals, IsVariableName l.1) (isLeft : Bool) :
    (grouped p.text).toList = Piece.spelled word
      (Formula.parenthesizedPieces (p.formula.needsParentheses .or isLeft) p.formula.pieces) := by
  rcases p with ⟨l, ls⟩
  cases ls with
  | nil =>
    -- a single literal contains no word for conjunction and needs no parentheses
    have hsingle : (Product.mk l []).text = literal l.1 l.2 := by
      simp [text, literals, product]
    have hnot : (Product.mk l []).formula.needsParentheses .or isLeft = false := by
      simp [formula, Formula.chain, literalFormula, Formula.needsParentheses]
    have hoccurs := occurs_literal (h l (by simp [literals]))
    rw [hnot, Formula.parenthesizedPieces, if_neg (by simp), ← toList_text, grouped, hsingle,
      hoccurs, if_neg (by simp)]
  | cons l' ls =>
    have hneeded : (Product.mk l (l' :: ls)).formula.needsParentheses .or isLeft = true :=
      Formula.needsParentheses_chain (by decide) isLeft _ (by simp)
    -- the word stands between the first two literals
    have hoccurs : Text.occurs (" " ++ andWord ++ " ").toList
        (Product.mk l (l' :: ls)).text.toList = true := by
      rw [text, product, String.toList_intercalate, literals, List.map_cons, List.map_cons,
        intercalate_cons_flatMap, List.map_cons, List.map_cons, List.flatMap_cons,
        List.append_assoc]
      exact Text.occurs_append _ _ _
    rw [hneeded, Formula.parenthesizedPieces, if_pos rfl, grouped, hoccurs, if_pos rfl]
    simp [String.toList_append, toList_text, Piece.chars]

end Product

/-! ## Sums -/

/-- A sum of one product or more. -/
structure Sum where
  first : Product
  rest : List Product
deriving DecidableEq, Repr

namespace Sum

/-- The products of a sum. -/
def products (s : Sum) : List Product := s.first :: s.rest

/-- The sum in canonical words. -/
def text (s : Sum) : String := sum (s.products.map Product.text)

/-- The formula that a sum writes down. -/
def formula (s : Sum) : Formula := .chain .or s.first.formula (s.rest.map Product.formula)

/-- All names can be written. -/
def IsLettered (s : Sum) : Prop := ∀ p ∈ s.products, ∀ l ∈ p.literals, IsVariableName l.1

theorem mem_leaves_formula {s : Sum} {x : String} :
    x ∈ s.formula.leaves ↔ ∃ p ∈ s.products, ∃ l ∈ p.literals, l.1 = x := by
  rw [formula, Formula.leaves_chain, List.flatMap_map, products]
  simp [Product.leaves_formula]

theorem isLettered_formula {s : Sum} (h : s.IsLettered) : s.formula.IsLettered := by
  intro x hx
  rcases mem_leaves_formula.1 hx with ⟨p, hp, l, hl, rfl⟩
  exact h p hp l hl

/-- A sum is true when one of its products is. -/
theorem value_formula (σ : String → Bool) (s : Sum) :
    s.formula.value σ = s.products.any fun p => p.literals.all fun l => σ l.1 ^^ l.2 := by
  simp [formula, Formula.value_chain_or, products, Product.value_formula, Function.comp_def]

/-- The products behind the first, each behind the word that joins them. -/
theorem toList_rest {ps : List Product} (h : ∀ p ∈ ps, ∀ l ∈ p.literals, IsVariableName l.1) :
    ps.flatMap (fun p => (" " ++ orWord ++ " ").toList ++ (grouped p.text).toList) =
      Piece.spelled word (ps.flatMap fun p =>
        .char ' ' :: .operator (.binary .or) :: .char ' ' ::
          Formula.parenthesizedPieces (p.formula.needsParentheses .or false) p.formula.pieces) := by
  induction ps with
  | nil => rfl
  | cons p ps ih =>
    have hp := Product.toList_grouped (h p List.mem_cons_self) false
    have hps := ih fun q hq => h q (List.mem_cons_of_mem p hq)
    rw [List.flatMap_cons, List.flatMap_cons, hps, hp, Piece.spelled_append]
    rfl

/-- The canonical text spells the pieces of the formula in canonical words. -/
theorem toList_text {s : Sum} (h : s.IsLettered) :
    s.text.toList = Piece.spelled word s.formula.pieces := by
  rcases s with ⟨p, ps⟩
  rw [text, sum, formula, Formula.pieces_chain rfl]
  -- a single product is not put in parentheses, not even if it has several literals
  cases ps with
  | nil => simp [products, Product.toList_text]
  | cons q qs =>
    have hp := Product.toList_grouped (h p List.mem_cons_self) true
    have hps := toList_rest fun r hr => h r (List.mem_cons_of_mem p hr)
    rw [if_pos (by simp [products]), if_neg (by simp), String.toList_intercalate, products,
      List.map_cons, List.map_cons, List.map_cons, intercalate_cons_flatMap, Piece.spelled_append,
      hp]
    congr 1
    simpa only [List.flatMap_map] using hps

theorem isPlain_formula {s : Sum} (h : s.IsLettered) : ∀ q ∈ s.formula.pieces, IsPlain q := by
  intro q hq
  rw [formula, Formula.pieces_chain rfl, List.flatMap_map, List.mem_append, List.mem_flatMap] at hq
  rcases hq with hq | ⟨p, hp, hq⟩
  · have hfirst := Product.isPlain_formula (h s.first List.mem_cons_self)
    split at hq
    · exact hfirst q hq
    · exact isPlain_parenthesized hfirst _ q hq
  · have hproduct := Product.isPlain_formula (h p (List.mem_cons_of_mem _ hp))
    exact isPlain_joined (.inr (.inr rfl)) (isPlain_parenthesized hproduct _) q hq

/-- Rewriting a canonical sum in a dialect prints its formula. -/
theorem render_text {s : Sum} (h : s.IsLettered) (d : Dialect) :
    render s.text d = s.formula.text d := by
  have htext : s.text = String.ofList (Piece.spelled word s.formula.pieces) := by
    rw [← toList_text h, String.ofList_toList]
  rw [htext, render_spelled (isPlain_formula h), ← Formula.toList_text, String.ofList_toList]

end Sum

end Canonical

end PropCalc
