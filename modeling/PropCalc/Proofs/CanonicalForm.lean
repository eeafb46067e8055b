import PropCalc.Proofs.ReadDialect
import PropCalc.Proofs.Reading
import PropCalc.Proofs.Simplification
import PropCalc.Proofs.UnusedVariables
/-!
# Simplified texts are canonical

Equivalent expressions are simplified to one text, even when they mention different variables
(`simplify_congr`), and a text determines the meaning of all expressions that are simplified to it
(`TextMeans.unique`). So comparing simplified texts decides equivalence
(`simplify_decides_equivalence`), and a simplified text is its own simplification.
-/

namespace PropCalc

/-! ## Equivalent formulas have one minimal form -/

theorem Formula.nodup_names (f : Formula) : f.names.Nodup :=
  nodup_of_asymm (fun _ _ => String.lt_asymm) f.pairwise_names

/-- The names of a formula stand in the same order in every ascending list that contains them. -/
theorem Formula.names_sublist {f : Formula} {names : List String}
    (hasc : names.Pairwise (· < ·)) (h : ∀ x ∈ f.leaves, x ∈ names) : f.names.Sublist names := by
  have hfilter : (names.filter fun x => x ∈ f.leaves).Pairwise (· < ·) := hasc.filter _
  have heq : f.names = names.filter fun x => x ∈ f.leaves := by
    -- both lists ascend, so it is enough that they have the same members
    refine eq_of_asymm (fun _ _ => String.lt_asymm) f.pairwise_names hfilter fun x => ?_
    rw [Formula.mem_names, List.mem_filter, decide_eq_true_eq]
    exact ⟨fun hx => ⟨h x hx, hx⟩, fun hx => hx.2⟩
  rw [heq]
  exact List.filter_sublist

/-- Over its own names or over more of them, a formula has the same minimal form. -/
theorem minimize_names {f : Formula} {names : List String} (hasc : names.Pairwise (· < ·))
    (h : ∀ x ∈ f.leaves, x ∈ names) :
    minimize names (f.trueRowSet names) = minimize f.names (f.trueRowSet f.names) :=
  minimize_sublist (f.names_sublist hasc h) (hasc.imp String.ne_of_lt)
    fun _ hx => Formula.mem_names.2 hx

/-- Equivalent formulas have the same minimal form, whatever variables they mention. -/
theorem minimize_congr {f g : Formula} (h : ∀ σ : String → Bool, f.value σ = g.value σ) :
    minimize f.names (f.trueRowSet f.names) = minimize g.names (g.trueRowSet g.names) := by
  have hasc : (Ascending.ofList (f.leaves ++ g.leaves)).Pairwise (· < ·) :=
    Ascending.pairwise_ofList _
  have hf : ∀ x ∈ f.leaves, x ∈ Ascending.ofList (f.leaves ++ g.leaves) :=
    fun x hx => Ascending.mem_ofList.2 (List.mem_append_left _ hx)
  have hg : ∀ x ∈ g.leaves, x ∈ Ascending.ofList (f.leaves ++ g.leaves) :=
    fun x hx => Ascending.mem_ofList.2 (List.mem_append_right _ hx)
  -- over the names of both formulas the true rows are the same
  have hrows : f.trueRowSet (Ascending.ofList (f.leaves ++ g.leaves)) =
      g.trueRowSet (Ascending.ofList (f.leaves ++ g.leaves)) := by
    simp only [Formula.trueRowSet, h]
  rw [← minimize_names hasc hf, ← minimize_names hasc hg, hrows]

/-! ## Expressions over their own names -/

/-- Without a list of names an expression is simplified over its own. -/
theorem Expression.orElse_names (e : Expression) :
    (none <|> (Subject.expression e).names?) = some e.names := rfl

theorem Expression.mem_names {e : Expression} {x : String} :
    x ∈ e.names ↔ x ∈ e.root.leaves := Formula.mem_names

theorem Expression.names_of_leaves (e : Expression) :
    ∀ x ∈ (Subject.expression e).root.leaves, x ∈ e.names :=
  fun _ hx => Expression.mem_names.2 hx

/-- Equivalent expressions are simplified to the same text. -/
theorem simplify_congr {e e' : Expression} {dialect? dialect'? : Option Dialect}
    (h : ∀ σ : String → Bool, e.root.value σ = e'.root.value σ)
    (hd : (Subject.expression e).outputDialect dialect? =
      (Subject.expression e').outputDialect dialect'?) :
    (Subject.expression e).simplify none dialect? =
      (Subject.expression e').simplify none dialect'? := by
  have hminimize : minimize e.names ((Subject.expression e).root.trueRowSet e.names) =
      minimize e'.names ((Subject.expression e').root.trueRowSet e'.names) := minimize_congr h
  rw [Subject.simplify_eq dialect? e.orElse_names e.names_of_leaves,
    Subject.simplify_eq dialect'? e'.orElse_names e'.names_of_leaves, hminimize, hd]

/-! ## A text has one meaning -/

/-- What a simplified text says about the formula that it was found for. -/
inductive TextMeans (text : String) (f : Formula) : Prop where
  | alwaysFalse : text = Subject.alwaysFalseText → (∀ σ : String → Bool, f.value σ = false) →
      TextMeans text f
  | alwaysTrue : text = Subject.alwaysTrueText → (∀ σ : String → Bool, f.value σ = true) →
      TextMeans text f
  | expression (e : Expression) : Expression.parse text = .ok e →
      (∀ σ : String → Bool, e.root.value σ = f.value σ) → TextMeans text f

/-- Formulas with one text are equivalent. -/
theorem TextMeans.unique {text : String} {f g : Formula} (hf : TextMeans text f)
    (hg : TextMeans text g) (σ : String → Bool) : f.value σ = g.value σ := by
  -- the constants differ, and neither can be read
  cases hf with
  | alwaysFalse htext hf =>
    cases hg with
    | alwaysFalse _ hg => rw [hf, hg]
    | alwaysTrue htext' _ => exact absurd (htext.symm.trans htext') (by decide)
    | expression e he _ => exact absurd htext (ne_constant_of_parse he).2
  | alwaysTrue htext hf =>
    cases hg with
    | alwaysFalse htext' _ => exact absurd (htext.symm.trans htext') (by decide)
    | alwaysTrue _ hg => rw [hf, hg]
    | expression e he _ => exact absurd htext (ne_constant_of_parse he).1
  | expression e he hf =>
    cases hg with
    | alwaysFalse htext _ => exact absurd htext (ne_constant_of_parse he).2
    | alwaysTrue htext _ => exact absurd htext (ne_constant_of_parse he).1
    | expression e' he' hg =>
      obtain rfl := Except.ok.inj (he.symm.trans he')
      rw [← hf, hg]

/-- A printed formula is read as an expression with the same values. -/
theorem exists_parse_text {f : Formula} (hf : f.IsLettered) (d : Dialect) :
    ∃ e : Expression, Expression.parse (f.text d) = .ok e ∧ e.dialect = f.readDialect d ∧
      ∀ σ : String → Bool, e.root.value σ = f.value σ :=
  ⟨_, parse_text d hf, rfl, fun σ => Formula.value_marked _ f σ⟩

/-- An expression is simplified to a text that means its formula. -/
theorem exists_simplify_textMeans {e : Expression} (he : e.root.IsLettered)
    (dialect? : Option Dialect) :
    ∃ text, (Subject.expression e).simplify none dialect? = .ok text ∧ TextMeans text e.root := by
  have hlettered : ∀ x ∈ e.names, IsVariableName x := fun x hx => he x (e.mem_names.1 hx)
  rcases Subject.simplify_cases dialect? e.orElse_names e.root.nodup_names hlettered
    e.names_of_leaves with
    ⟨hfalse, htext⟩ | ⟨htrue, htext⟩ | ⟨-, -, sum, hsum, htext⟩
  · exact ⟨_, htext, .alwaysFalse rfl hfalse⟩
  · exact ⟨_, htext, .alwaysTrue rfl htrue⟩
  · rcases exists_parse_text (Canonical.Sum.isLettered_formula hsum.lettered)
      ((Subject.expression e).outputDialect dialect?) with ⟨e', he', -, hvalue⟩
    exact ⟨_, htext, .expression e' he' fun σ => (hvalue σ).trans (hsum.value_eq σ)⟩

/-! ## Simplified texts are simplified already -/

/-- What is read from a simplified text is simplified to this text again, in the same dialect or in
the one it is read in. -/
theorem simplify_simplified {e : Expression} (he : e.root.IsLettered)
    {dialect? again? : Option Dialect} (hagain : again? = dialect? ∨ again? = none) {text : String}
    (htext : (Subject.expression e).simplify none dialect? = .ok text)
    (hneTrue : text ≠ Subject.alwaysTrueText) (hneFalse : text ≠ Subject.alwaysFalseText) :
    ∃ e', Expression.parse text = .ok e' ∧
      (Subject.expression e').simplify none again? = .ok text := by
  have hlettered : ∀ x ∈ e.names, IsVariableName x := fun x hx => he x (e.mem_names.1 hx)
  rcases Subject.simplify_cases dialect? e.orElse_names e.root.nodup_names hlettered
    e.names_of_leaves with
    ⟨-, hresult⟩ | ⟨-, hresult⟩ | ⟨-, -, sum, hsum, hresult⟩
  · exact absurd (Except.ok.inj (htext.symm.trans hresult)) hneFalse
  · exact absurd (Except.ok.inj (htext.symm.trans hresult)) hneTrue
  · rcases exists_parse_text (Canonical.Sum.isLettered_formula hsum.lettered)
      ((Subject.expression e).outputDialect dialect?) with ⟨e', he', hdialect, hvalue⟩
    obtain rfl := Except.ok.inj (htext.symm.trans hresult)
    -- the formula that is read has the same minimal form
    have hminimize : minimize e'.names (e'.root.trueRowSet e'.names) = .ok sum.text := by
      rw [← hsum.minimize_eq]
      exact minimize_congr fun σ => (hvalue σ).trans (hsum.value_eq σ)
    refine ⟨e', he', ?_⟩
    rw [Subject.simplify_eq_text again? e'.orElse_names e'.names_of_leaves hsum.lettered hminimize]
    cases again? with
    | some d =>
      rcases hagain with rfl | hnone
      · rfl
      · cases hnone
    | none =>
      -- the dialect it is read in may differ, but then it is printed in the same way
      show Except.ok (sum.formula.text e'.dialect) = _
      rw [hdialect, Canonical.Sum.text_readDialect hsum.lettered]

/-! ## Equivalence -/

theorem forall_value_iff {e e' : Expression} :
    (∀ a : Assignment, (∀ x, x ∈ a.names ↔ x ∈ e.names ∨ x ∈ e'.names) →
        e.root.evaluate a = e'.root.evaluate a) ↔
      ∀ σ : String → Bool, e.root.value σ = e'.root.value σ := by
  constructor
  · intro h σ
    -- the valuation, as an assignment of the names of both
    have heval := h (.onNames (e.names ++ e'.names) σ) fun x => by
      rw [Assignment.names_onNames, List.mem_append]
    rw [Formula.evaluate_onNames σ fun x hx => List.mem_append_left _ (Expression.mem_names.2 hx),
      Formula.evaluate_onNames σ fun x hx => List.mem_append_right _ (Expression.mem_names.2 hx)]
      at heval
    exact Except.ok.inj heval
  · intro h a ha
    rw [Formula.evaluate_of_names fun x hx => (ha x).2 (.inl (Expression.mem_names.2 hx)),
      Formula.evaluate_of_names fun x hx => (ha x).2 (.inr (Expression.mem_names.2 hx)), h]

/-- Comparing simplified texts decides equivalence: two expressions that were read are simplified to
the same text in a dialect exactly when they have the same value under all assignments of their
variables. And a text that is no constant is the simplification of what is read from it. -/
theorem simplify_decides_equivalence {t₁ t₂ : String} {e₁ e₂ : Expression}
    (h₁ : Expression.parse t₁ = .ok e₁) (h₂ : Expression.parse t₂ = .ok e₂) (d : Dialect) :
    (∃ s₁ s₂, (Subject.expression e₁).simplify none (some d) = .ok s₁ ∧
      (Subject.expression e₂).simplify none (some d) = .ok s₂ ∧
      (s₁ = s₂ ↔ ∀ a : Assignment, (∀ x, x ∈ a.names ↔ x ∈ e₁.names ∨ x ∈ e₂.names) →
        e₁.root.evaluate a = e₂.root.evaluate a)) ∧
    ∀ (dialect? again? : Option Dialect) (s : String), again? = dialect? ∨ again? = none →
      (Subject.expression e₁).simplify none dialect? = .ok s →
      s ≠ Subject.alwaysTrueText → s ≠ Subject.alwaysFalseText →
      ∃ e, Expression.parse s = .ok e ∧ (Subject.expression e).simplify none again? = .ok s := by
  have hlettered₁ := isLettered_of_parse h₁
  have hlettered₂ := isLettered_of_parse h₂
  constructor
  · rcases exists_simplify_textMeans hlettered₁ (some d) with ⟨s₁, hs₁, hmeans₁⟩
    rcases exists_simplify_textMeans hlettered₂ (some d) with ⟨s₂, hs₂, hmeans₂⟩
    refine ⟨s₁, s₂, hs₁, hs₂, ?_⟩
    rw [forall_value_iff]
    constructor
    · intro heq
      rw [heq] at hmeans₁
      exact hmeans₁.unique hmeans₂
    · intro h
      have hsame : (Subject.expression e₁).simplify none (some d) =
          (Subject.expression e₂).simplify none (some d) := simplify_congr h rfl
      rw [hs₁, hs₂] at hsame
      exact Except.ok.inj hsame
  · intro dialect? again? s hagain hs hneTrue hneFalse
    exact simplify_simplified hlettered₁ hagain hs hneTrue hneFalse

/-- Two texts for the variable `a`, each of which mentions a variable that does not matter. -/
theorem simplify_decides_equivalence_absorbed :
    let e₁ : Expression := ⟨.binary (.binary (.var "a" false) .and (.var "b" false) false .logic) .or
      (.binary (.var "a" false) .and (.var "b" true) false .logic) false .logic, .logic⟩
    let e₂ : Expression := ⟨.binary (.var "a" false) .and
      (.binary (.var "a" false) .or (.var "c" false) false .boolean) false .boolean, .boolean⟩
    Expression.parse "(a ^ b) v (a ^ ~b)" = .ok e₁ ∧ Expression.parse "a * (a + c)" = .ok e₂ ∧
    (∃ s₁ s₂, (Subject.expression e₁).simplify none (some .code) = .ok s₁ ∧
      (Subject.expression e₂).simplify none (some .code) = .ok s₂ ∧
      (s₁ = s₂ ↔ ∀ a : Assignment, (∀ x, x ∈ a.names ↔ x ∈ e₁.names ∨ x ∈ e₂.names) →
        e₁.root.evaluate a = e₂.root.evaluate a)) ∧
    ∀ (dialect? again? : Option Dialect) (s : String), again? = dialect? ∨ again? = none →
      (Subject.expression e₁).simplify none dialect? = .ok s →
      s ≠ Subject.alwaysTrueText → s ≠ Subject.alwaysFalseText →
      ∃ e, Expression.parse s = .ok e ∧ (Subject.expression e).simplify none again? = .ok s := by
  intro e₁ e₂
  have h₁ : Expression.parse "(a ^ b) v (a ^ ~b)" = .ok e₁ :=
    parse_text (f := e₁.root) .logic (by decide)
  have h₂ : Expression.parse "a * (a + c)" = .ok e₂ :=
    parse_text (f := e₂.root) .boolean (by decide)
  exact ⟨h₁, h₂, simplify_decides_equivalence h₁ h₂ .code⟩

end PropCalc
