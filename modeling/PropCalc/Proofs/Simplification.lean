import PropCalc.Proofs.MinimalForm
import PropCalc.Proofs.RoundTrip
import PropCalc.Simplify
/-!
# Simplification

What a simplified text means. `simplify_eq` brings simplification down to the set of rows on which
the subject is true, and `simplify_cases` says what is printed: a constant for a subject that is
constant, else the formula of a minimal sum with the values of the subject.
`simplify_preserves_meaning` is the result: simplification succeeds, prints a constant exactly for a
formula that is constant, and any other text is read as a formula that is equivalent to the given
one.
-/

namespace PropCalc

/-! ## Texts that are no expressions -/

theorem parse_alwaysTrueText : (Expression.parse Subject.alwaysTrueText).toOption = none := by
  decide +kernel

theorem parse_alwaysFalseText : (Expression.parse Subject.alwaysFalseText).toOption = none := by
  decide +kernel

theorem parse_render_alwaysTrue (d : Dialect) :
    (Expression.parse (Canonical.render Canonical.alwaysTrue d)).toOption = none := by
  cases d <;> decide +kernel

theorem parse_render_alwaysFalse (d : Dialect) :
    (Expression.parse (Canonical.render Canonical.alwaysFalse d)).toOption = none := by
  cases d <;> decide +kernel

/-- A text that is read differs from every text that is not. -/
theorem ne_of_parse {text text' : String} {e : Expression} (h : Expression.parse text = .ok e)
    (hnone : (Expression.parse text').toOption = none) : text ≠ text' := by
  intro heq
  rw [← heq, h] at hnone
  cases hnone

/-- What is read as an expression is neither constant. -/
theorem ne_constant_of_parse {text : String} {e : Expression} (h : Expression.parse text = .ok e) :
    text ≠ Subject.alwaysTrueText ∧ text ≠ Subject.alwaysFalseText :=
  ⟨ne_of_parse h parse_alwaysTrueText, ne_of_parse h parse_alwaysFalseText⟩

/-! ## Sums that are read -/

/-- A sum that is rewritten in a dialect is read as its formula. -/
theorem Canonical.Sum.parse_render {s : Canonical.Sum} (h : s.IsLettered) (d : Dialect) :
    Expression.parse (render s.text d) =
      .ok ⟨s.formula.marked (s.formula.readDialect d), s.formula.readDialect d⟩ := by
  rw [s.render_text h]
  exact parse_text d (isLettered_formula h)

/-- The text of a sum is neither constant, as those are not read in any dialect. -/
theorem Canonical.Sum.text_ne_constant {s : Canonical.Sum} (h : s.IsLettered) :
    s.text ≠ alwaysTrue ∧ s.text ≠ alwaysFalse := by
  -- a sum can be read and a constant cannot, whatever the dialect
  have hparse := s.parse_render h .logic
  constructor
  · exact mt (congrArg (render · .logic)) (ne_of_parse hparse (parse_render_alwaysTrue .logic))
  · exact mt (congrArg (render · .logic)) (ne_of_parse hparse (parse_render_alwaysFalse .logic))

namespace Subject

/-! ## Printing a minimal form -/

theorem printMinimized_alwaysTrue (d : Dialect) :
    printMinimized Canonical.alwaysTrue d = .ok alwaysTrueText := by
  rw [printMinimized, if_pos rfl]

theorem printMinimized_alwaysFalse (d : Dialect) :
    printMinimized Canonical.alwaysFalse d = .ok alwaysFalseText := by
  rw [printMinimized, if_neg (by decide), if_pos rfl]

/-- A sum is printed as its formula. -/
theorem printMinimized_sum {s : Canonical.Sum} (h : s.IsLettered) (d : Dialect) :
    printMinimized s.text d = .ok (s.formula.text d) := by
  rcases s.text_ne_constant h with ⟨hneTrue, hneFalse⟩
  rw [printMinimized, if_neg hneTrue, if_neg hneFalse, s.parse_render h d]
  exact congrArg Except.ok (Formula.text_marked _ d s.formula)

end Subject

/-! ## From rows to text -/

/-- The sum is the minimal form of a formula over the given names. -/
structure IsSimplifiedTo (f : Formula) (names : List String) (sum : Canonical.Sum) : Prop where
  minimal : IsMinimalSum names (f.trueRowSet names) sum
  lettered : sum.IsLettered
  leaves_mem : ∀ x ∈ sum.formula.leaves, x ∈ names
  value_eq : ∀ σ : String → Bool, sum.formula.value σ = f.value σ
  minimize_eq : minimize names (f.trueRowSet names) = .ok sum.text

/-- A formula that is neither always nor never true has a minimal form. -/
theorem Formula.exists_isSimplifiedTo {f : Formula} {names : List String} (hnodup : names.Nodup)
    (hlettered : ∀ x ∈ names, IsVariableName x) (hleaves : ∀ x ∈ f.leaves, x ∈ names)
    (hempty : (f.trueRowSet names).rows ≠ [])
    (hfull : (f.trueRowSet names).size ≠ rowCount names.length) :
    ∃ sum, IsSimplifiedTo f names sum := by
  have hS := isRow_of_mem_trueRowSet f names
  rcases exists_minimalSum hS hempty hfull with ⟨sum, hsum⟩
  refine ⟨sum, hsum, ?_, leaf_mem_of_minimalSum hsum, ?_, minimize_eq_text hS hempty hfull hsum⟩
  · intro p hp l hl
    exact hlettered l.1 (name_mem_of_minimalSum hsum hp hl)
  · intro σ
    rw [Bool.eq_iff_iff, value_minimalSum hS hsum, rowNumber_mem_trueRowSet hnodup hleaves]

namespace Subject

variable {s : Subject} {names : List String} {names? : Option (List String)}

/-- Simplification depends on the rows on which the subject is true, and on nothing else. -/
theorem simplify_eq (dialect? : Option Dialect) (hnames : (names? <|> s.names?) = some names)
    (hleaves : ∀ x ∈ s.root.leaves, x ∈ names) :
    s.simplify names? dialect? =
      ((minimize names (s.root.trueRowSet names)).mapError .minimize >>= fun canonical =>
        (printMinimized canonical (s.outputDialect dialect?)).mapError .parse) := by
  rcases trueRows_eq_ok hleaves with ⟨rows, hrows, hset⟩
  rw [simplify, hnames]
  simp only [minimized, hrows, ← hset]
  rfl

/-- A minimal form that was found is printed as its formula. -/
theorem simplify_eq_text (dialect? : Option Dialect) (hnames : (names? <|> s.names?) = some names)
    (hleaves : ∀ x ∈ s.root.leaves, x ∈ names) {sum : Canonical.Sum} (hsum : sum.IsLettered)
    (hminimize : minimize names (s.root.trueRowSet names) = .ok sum.text) :
    s.simplify names? dialect? = .ok (sum.formula.text (s.outputDialect dialect?)) := by
  rw [simplify_eq dialect? hnames hleaves, hminimize]
  show (printMinimized sum.text (s.outputDialect dialect?)).mapError SimplifyError.parse = _
  rw [printMinimized_sum hsum]
  rfl

/-- What is printed: a constant for a formula that is constant, else the formula of a minimal form. -/
theorem simplify_cases (dialect? : Option Dialect)
    (hnames : (names? <|> s.names?) = some names) (hnodup : names.Nodup)
    (hlettered : ∀ x ∈ names, IsVariableName x) (hleaves : ∀ x ∈ s.root.leaves, x ∈ names) :
    (∀ σ : String → Bool, s.root.value σ = false) ∧
        s.simplify names? dialect? = .ok alwaysFalseText ∨
      (∀ σ : String → Bool, s.root.value σ = true) ∧
        s.simplify names? dialect? = .ok alwaysTrueText ∨
      ¬ (∀ σ : String → Bool, s.root.value σ = false) ∧
        ¬ (∀ σ : String → Bool, s.root.value σ = true) ∧
        ∃ sum, IsSimplifiedTo s.root names sum ∧
          s.simplify names? dialect? = .ok (sum.formula.text (s.outputDialect dialect?)) := by
  have hS := isRow_of_mem_trueRowSet s.root names
  rw [← Formula.trueRowSet_eq_nil_iff hnodup hleaves, ← Formula.size_trueRowSet_iff hnodup hleaves]
  -- as minimization decides it: no rows, all rows, or a minimal sum
  by_cases hempty : (s.root.trueRowSet names).rows = []
  · refine .inl ⟨hempty, ?_⟩
    rw [simplify_eq dialect? hnames hleaves, minimize_eq_ok hS, if_pos hempty]
    show (printMinimized Canonical.alwaysFalse (s.outputDialect dialect?)).mapError
      SimplifyError.parse = _
    rw [printMinimized_alwaysFalse]
    rfl
  by_cases hfull : (s.root.trueRowSet names).size = rowCount names.length
  · refine .inr (.inl ⟨hfull, ?_⟩)
    rw [simplify_eq dialect? hnames hleaves, minimize_eq_ok hS, if_neg hempty, if_pos hfull]
    show (printMinimized Canonical.alwaysTrue (s.outputDialect dialect?)).mapError
      SimplifyError.parse = _
    rw [printMinimized_alwaysTrue]
    rfl
  · rcases Formula.exists_isSimplifiedTo hnodup hlettered hleaves hempty hfull with ⟨sum, hsum⟩
    refine .inr (.inr ⟨hempty, hfull, sum, hsum, ?_⟩)
    exact simplify_eq_text dialect? hnames hleaves hsum.lettered hsum.minimize_eq

end Subject

/-! ## Meaning -/

/-- Simplification keeps the meaning: whatever the formula, its variables and the dialect asked for,
it gives a text, which is a constant exactly for a formula that is constant, and which is otherwise
read as an expression over the same variables with the same values. -/
theorem simplify_preserves_meaning (s : Subject) (names : List String)
    (names? : Option (List String)) (dialect? : Option Dialect)
    (hnames : (names? <|> s.names?) = some names) (hnodup : names.Nodup)
    (hlettered : ∀ x ∈ names, IsVariableName x) (hleaves : ∀ x ∈ s.root.leaves, x ∈ names) :
    ∃ text, s.simplify names? dialect? = .ok text ∧
      (text = Subject.alwaysTrueText ↔
        ∀ a : Assignment, a.names = names → s.root.evaluate a = .ok true) ∧
      (text = Subject.alwaysFalseText ↔
        ∀ a : Assignment, a.names = names → s.root.evaluate a = .ok false) ∧
      (text ≠ Subject.alwaysTrueText → text ≠ Subject.alwaysFalseText →
        ∃ e, Expression.parse text = .ok e ∧ (∀ x ∈ e.names, x ∈ names) ∧
          ∀ a : Assignment, a.names = names →
            ∃ v, s.root.evaluate a = .ok v ∧ e.root.evaluate a = .ok v) := by
  rw [Formula.forall_evaluate_iff hleaves, Formula.forall_evaluate_iff hleaves]
  rcases Subject.simplify_cases dialect? hnames hnodup hlettered hleaves with
    ⟨hfalse, htext⟩ | ⟨htrue, htext⟩ | ⟨hfalse, htrue, sum, hsum, htext⟩
  · -- never true, so not always true either
    refine ⟨_, htext, iff_of_false (by decide) fun htrue => ?_, iff_of_true rfl hfalse,
      fun _ hne => absurd rfl hne⟩
    have hvalue := htrue fun _ => true
    rw [hfalse] at hvalue
    cases hvalue
  · refine ⟨_, htext, iff_of_true rfl htrue, iff_of_false (by decide) fun hfalse => ?_,
      fun hne => absurd rfl hne⟩
    have hvalue := htrue fun _ => true
    rw [hfalse] at hvalue
    cases hvalue
  · -- the text is that of a sum, which is read as this sum again
    have hf := Canonical.Sum.isLettered_formula hsum.lettered
    have hparse := parse_text (s.outputDialect dialect?) hf
    rcases ne_constant_of_parse hparse with ⟨hneTrue, hneFalse⟩
    refine ⟨_, htext, iff_of_false hneTrue htrue, iff_of_false hneFalse hfalse,
      fun _ _ => ⟨_, hparse, ?_, ?_⟩⟩
    · intro x hx
      rw [Expression.names, Formula.names_marked, Formula.mem_names] at hx
      exact hsum.leaves_mem x hx
    · intro a ha
      refine ⟨_, Formula.evaluate_of_names (ha ▸ hleaves), ?_⟩
      rw [Formula.evaluate_of_names (by simpa [ha] using hsum.leaves_mem), Formula.value_marked,
        hsum.value_eq]

/-- A formula with a negated group and an unused name, over names that are in no order. -/
theorem simplify_preserves_meaning_unordered :
    let f : Formula := .binary (.var "p" false) .implies
      (.binary (.var "a" true) .iff (.var "p" false) true .logic) false .logic
    let names := ["p", "z", "a"]
    names.Nodup ∧ (∀ x ∈ names, IsVariableName x) ∧ (∀ x ∈ f.leaves, x ∈ names) ∧
    ∃ text, (Subject.formula f).simplify (some names) (some .boolean) = .ok text ∧
      (text = Subject.alwaysTrueText ↔
        ∀ a : Assignment, a.names = names → f.evaluate a = .ok true) ∧
      (text = Subject.alwaysFalseText ↔
        ∀ a : Assignment, a.names = names → f.evaluate a = .ok false) ∧
      (text ≠ Subject.alwaysTrueText → text ≠ Subject.alwaysFalseText →
        ∃ e, Expression.parse text = .ok e ∧ (∀ x ∈ e.names, x ∈ names) ∧
          ∀ a : Assignment, a.names = names →
            ∃ v, f.evaluate a = .ok v ∧ e.root.evaluate a = .ok v) :=
  ⟨by decide, by decide, by decide,
    simplify_preserves_meaning (.formula _) _ _ _ rfl (by decide) (by decide) (by decide)⟩

end PropCalc
