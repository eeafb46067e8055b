import PropCalc.Proofs.CanonicalForm
import PropCalc.Proofs.TruthTables
import PropCalc.Session
/-!
# Sessions

What a session makes of its expression. A step first finds the expression that it leads to and then an
answer, and only with both of them does the session go on from there (`step_eq`).

* `fst_step_of_error` — a step that fails leaves the expression as it was, so the failing steps of a
  session could as well be left out (`expressionAfter_succeeding`, `run_succeeding`);
* `isLettered_expressionAfter` — all names that a session gets to are variable letters, so that what
  it can find it can also show (`exists_answer`);
* `exists_expressionAfter_of_isRewriting` — steps that only write the expression in another way keep
  its values, whichever of them fail.
-/

namespace PropCalc.Session

variable {current? : Option Expression} {e e' : Expression} {s : Step} {steps : List Step}

/-! ## One step -/

/-- The expression that a step leads to. -/
def target (current? : Option Expression) (s : Step) : Except StepError Expression :=
  match current?, s with
  | some e, s => next e s
  | none, .parse text? => (Expression.parse? text?).mapError .parse
  | none, _ => .error .noExpression

/-- What a step answers when it has led to an expression. -/
def answer (e : Expression) : Step → Except StepError Answer
  | .table intermediate dialect? => Answer.table <$> tableLines e intermediate dialect?
  | _ => shown e

/-- A step goes on with the expression that it leads to if it also has an answer. -/
theorem step_eq (current? : Option Expression) (s : Step) :
    step current? s =
      match (do let e ← target current? s; return (e, ← answer e s)) with
      | .ok (e, a) => (some e, .ok a)
      | .error err => (current?, .error err) := by
  cases current? <;> cases s <;> rfl

theorem step_of_target_eq_error {err : StepError} (h : target current? s = .error err) :
    step current? s = (current?, .error err) := by
  rw [step_eq, h]
  rfl

/-- A step that fails leaves the expression as it was. -/
theorem fst_step_of_error {err : StepError} (h : (step current? s).2 = .error err) :
    (step current? s).1 = current? := by
  rw [step_eq] at h ⊢
  split at h
  · cases h
  · rfl

/-- A step leaves the expression as it was or goes on with the one that it leads to. -/
theorem fst_step_cases (current? : Option Expression) (s : Step) :
    (step current? s).1 = current? ∨
      ∃ e, target current? s = .ok e ∧ (step current? s).1 = some e := by
  cases htarget : target current? s with
  | error err => exact .inl (by rw [step_of_target_eq_error htarget])
  | ok e =>
    rw [step_eq, htarget]
    -- the step may still fail when it answers, and then it stays where it was
    cases hanswer : answer e s with
    | error err => exact .inl (by simp [hanswer, bind, Except.bind])
    | ok a => exact .inr ⟨e, rfl, by simp [hanswer, bind, Except.bind, pure, Except.pure]⟩

/-! ## Several steps -/

/-- The expression behind several steps. -/
def expressionAfter (current? : Option Expression) (steps : List Step) : Option Expression :=
  steps.foldl (fun current? s => (step current? s).1) current?

theorem expressionAfter_cons (current? : Option Expression) (s : Step) (steps : List Step) :
    expressionAfter current? (s :: steps) = expressionAfter (step current? s).1 steps := rfl

theorem run_cons (current? : Option Expression) (s : Step) (steps : List Step) :
    run current? (s :: steps) = (step current? s).2 :: run (step current? s).1 steps := rfl

theorem run_append (current? : Option Expression) (steps more : List Step) :
    run current? (steps ++ more) =
      run current? steps ++ run (expressionAfter current? steps) more := by
  induction steps generalizing current? with
  | nil => rfl
  | cons s steps ih => exact congrArg _ (ih _)

theorem traces_append (current? : Option Expression) (steps more : List Step) :
    traces current? (steps ++ more) =
      traces current? steps ++ traces (expressionAfter current? steps) more := by
  induction steps generalizing current? with
  | nil => rfl
  | cons s steps ih =>
    rw [List.cons_append, traces, ih, traces, List.append_assoc]
    rfl

/-- The steps that do not fail. -/
def succeeding (current? : Option Expression) : List Step → List Step
  | [] => []
  | s :: steps =>
    let others := succeeding (step current? s).1 steps
    if (step current? s).2.isOk then s :: others else others

/-- Steps that fail could as well be left out: the session gets to the same expression, -/
theorem expressionAfter_succeeding (current? : Option Expression) (steps : List Step) :
    expressionAfter current? (succeeding current? steps) = expressionAfter current? steps := by
  induction steps generalizing current? with
  | nil => rfl
  | cons s steps ih =>
    rw [expressionAfter_cons, succeeding, ← ih]
    cases hanswer : (step current? s).2 with
    | ok a => rfl
    | error err =>
      -- the step has changed nothing, so the others find what it found
      rw [fst_step_of_error hanswer]
      rfl

/-- and the other steps are answered in the same way. -/
theorem run_succeeding (current? : Option Expression) (steps : List Step) :
    run current? (succeeding current? steps) = (run current? steps).filter (·.isOk) := by
  induction steps generalizing current? with
  | nil => rfl
  | cons s steps ih =>
    rw [run_cons, List.filter_cons, succeeding, ← ih]
    cases hanswer : (step current? s).2 with
    | ok a =>
      show run current? (s :: _) = _ :: _
      rw [run_cons, hanswer]
    | error err =>
      rw [fst_step_of_error hanswer]
      rfl

/-! ## What a step leads to -/

/-- Wording an error in another way makes no success of it. -/
theorem mapError_eq_ok_iff {α ε ε' : Type} {x : Except ε α} {g : ε → ε'} {a : α} :
    x.mapError g = .ok a ↔ x = .ok a := by
  cases x <;> simp [Except.mapError]

/-- What the steps lead to when they do not fail. -/
inductive LeadsTo (e : Expression) : Step → Expression → Prop
  | parse {text : String} {e' : Expression} : Expression.parse text = .ok e' →
      LeadsTo e (.parse (some text)) e'
  | negate : LeadsTo e .negate { e with root := e.root.negate }
  | combine {c : Connective} {right : Operand} {f : Formula} {negated : Bool} {d : Dialect} :
      right.read = .ok f →
      LeadsTo e (.combine (.binary c) right negated d)
        { e with root := .binary e.root c f negated d }
  | setDialect {d : Dialect} : LeadsTo e (.setDialect d) { e with dialect := d }
  | reparse {dialect? : Option Dialect} {e' : Expression} :
      Expression.parse (e.root.text (dialect?.getD e.dialect)) = .ok e' →
      LeadsTo e (.reparse dialect?) e'
  | simplify {dialect? : Option Dialect} {text : String} {e' : Expression} :
      (Subject.expression e).simplify none dialect? = .ok text → Expression.parse text = .ok e' →
      LeadsTo e (.simplify dialect?) e'
  | table {intermediate : Bool} {dialect? : Option Dialect} :
      LeadsTo e (.table intermediate dialect?) e

theorem leadsTo_of_next (h : next e s = .ok e') : LeadsTo e s e' := by
  cases s with
  | parse text? =>
    cases text? with
    | none => cases h
    | some text => exact .parse (mapError_eq_ok_iff.1 h)
  | negate =>
    cases h
    exact .negate
  | combine o right negated d =>
    rcases exists_of_bind_eq_ok h with ⟨f, hf, h⟩
    rcases exists_of_bind_eq_ok h with ⟨root, hroot, h⟩
    cases h
    -- negation does not join, so the operator is a connective
    cases o with
    | not => cases hroot
    | binary c =>
      cases hroot
      exact .combine (mapError_eq_ok_iff.1 hf)
  | setDialect d =>
    cases h
    exact .setDialect
  | reparse dialect? => exact .reparse (mapError_eq_ok_iff.1 h)
  | simplify dialect? =>
    rcases exists_of_bind_eq_ok h with ⟨text, htext, h⟩
    exact .simplify (mapError_eq_ok_iff.1 htext) (mapError_eq_ok_iff.1 h)
  | table intermediate dialect? =>
    cases h
    exact .table

theorem LeadsTo.next_eq (h : LeadsTo e s e') : next e s = .ok e' := by
  cases h with
  | parse hparse => exact mapError_eq_ok_iff.2 hparse
  | negate | setDialect | table => rfl
  | combine hright =>
    rw [next, mapError_eq_ok_iff.2 hright]
    rfl
  | reparse hparse => exact mapError_eq_ok_iff.2 hparse
  | simplify hsimplify hparse =>
    rw [next, mapError_eq_ok_iff.2 hsimplify]
    exact mapError_eq_ok_iff.2 hparse

/-- A step leads to an expression in the ways that are listed, and in no other way. -/
theorem next_eq_ok_iff : next e s = .ok e' ↔ LeadsTo e s e' := ⟨leadsTo_of_next, LeadsTo.next_eq⟩

/-- From nothing, a step leads to what it reads. -/
theorem parse_of_target_none (h : target none s = .ok e) : ∃ text, Expression.parse text = .ok e := by
  cases s with
  | parse text? =>
    cases text? with
    | none => cases h
    | some text => exact ⟨text, mapError_eq_ok_iff.1 h⟩
  | _ => cases h

/-! ## Names -/

/-- All names in a formula that the step brings with it are variable letters. -/
def Step.IsLettered : Step → Prop
  | .combine _ (.formula f) _ _ => f.IsLettered
  | _ => True

theorem LeadsTo.isLettered (h : LeadsTo e s e') (he : e.root.IsLettered) (hs : s.IsLettered) :
    e'.root.IsLettered := by
  cases h with
  | parse hparse => exact isLettered_of_parse hparse
  | negate =>
    intro x hx
    rw [Formula.leaves_negate] at hx
    exact he x hx
  | @combine c right f negated d hright =>
    -- the right side was read from a text, or the step brings it with it
    have hf : f.IsLettered := by
      cases right with
      | text t =>
        rcases exists_of_bind_eq_ok hright with ⟨e'', hparse, hroot⟩
        cases hroot
        exact isLettered_of_parse hparse
      | formula g =>
        cases hright
        exact hs
    intro x hx
    rcases List.mem_append.1 hx with hx | hx
    · exact he x hx
    · exact hf x hx
  | setDialect => exact he
  | reparse hparse => exact isLettered_of_parse hparse
  | simplify _ hparse => exact isLettered_of_parse hparse
  | table => exact he

/-- A step gets to no other names than variable letters, -/
theorem isLettered_step (hcurrent : ∀ e ∈ current?, e.root.IsLettered) (hs : s.IsLettered) :
    ∀ e ∈ (step current? s).1, e.root.IsLettered := by
  intro e he
  rcases fst_step_cases current? s with hsame | ⟨e', htarget, hnext⟩
  · exact hcurrent e (hsame ▸ he)
  · rw [hnext] at he
    obtain rfl := Option.some.inj he
    cases current? with
    | none =>
      -- the first expression of a session is read from a text
      rcases parse_of_target_none htarget with ⟨text, hparse⟩
      exact isLettered_of_parse hparse
    | some e₀ => exact (next_eq_ok_iff.1 htarget).isLettered (hcurrent e₀ rfl) hs

/-- and so does a session. -/
theorem isLettered_expressionAfter (hcurrent : ∀ e ∈ current?, e.root.IsLettered)
    (hsteps : ∀ s ∈ steps, s.IsLettered) :
    ∀ e ∈ expressionAfter current? steps, e.root.IsLettered := by
  induction steps generalizing current? with
  | nil => exact hcurrent
  | cons s steps ih =>
    rw [expressionAfter_cons]
    refine ih (isLettered_step hcurrent (hsteps s List.mem_cons_self)) fun s' hs' => ?_
    exact hsteps s' (List.mem_cons_of_mem s hs')

/-- An expression over variable letters can be shown, and so can its truth table: what a step leads to
is answered. -/
theorem exists_answer (he : e.root.IsLettered) (s : Step) : ∃ a, answer e s = .ok a := by
  have hshown : ∃ a, shown e = .ok a := by
    -- over its own names an expression has a value in every row
    have htruths : (Subject.expression e).truths none = .ok _ :=
      Formula.mapM_evaluate_enumerate e.names_of_leaves
    unfold shown
    rw [htruths]
    exact ⟨_, rfl⟩
  cases s with
  | table intermediate dialect? =>
    rcases Expression.exists_lines he intermediate dialect? with ⟨columns, lines, hcolumns, hlines⟩
    have htable : tableLines e intermediate dialect? = .ok lines := by
      rw [tableLines, hcolumns]
      exact mapError_eq_ok_iff.2 hlines
    refine ⟨.table lines, ?_⟩
    rw [answer, htable]
    rfl
  | _ => exact hshown

/-- So a step fails only when it leads to no expression. -/
theorem step_of_target_eq_ok (h : target current? s = .ok e) (he : e.root.IsLettered) :
    ∃ a, step current? s = (some e, .ok a) := by
  rcases exists_answer he s with ⟨a, ha⟩
  refine ⟨a, ?_⟩
  simp only [step_eq, h, ha, bind, Except.bind, pure, Except.pure]

/-! ## Values -/

/-- Steps that only write the expression in another way. -/
def Step.IsRewriting : Step → Prop
  | .setDialect _ | .reparse _ | .simplify _ | .table .. => True
  | .parse _ | .negate | .combine .. => False

theorem Step.IsRewriting.isLettered (hs : s.IsRewriting) : s.IsLettered := by
  cases s with
  | combine => exact hs.elim
  | _ => trivial

/-- Writing an expression in another way keeps its values. -/
theorem LeadsTo.value_eq (h : LeadsTo e s e') (hs : s.IsRewriting) (he : e.root.IsLettered)
    (σ : String → Bool) : e'.root.value σ = e.root.value σ := by
  cases h with
  | parse | negate | combine => exact hs.elim
  | setDialect | table => rfl
  | reparse hparse =>
    rw [parse_text _ he] at hparse
    cases hparse
    exact Formula.value_marked _ e.root σ
  | @simplify dialect? text _ hsimplify hparse =>
    rcases exists_simplify_textMeans he dialect? with ⟨text', htext, hmeans⟩
    obtain rfl := Except.ok.inj (hsimplify.symm.trans htext)
    -- a text that is read is not one of the constants
    cases hmeans with
    | alwaysFalse hconstant => exact absurd hconstant (ne_constant_of_parse hparse).2
    | alwaysTrue hconstant => exact absurd hconstant (ne_constant_of_parse hparse).1
    | expression e'' hread hvalue =>
      obtain rfl := Except.ok.inj (hparse.symm.trans hread)
      exact hvalue σ

/-- Such a step leaves an expression with the same values, also if it fails. -/
theorem exists_fst_step_of_isRewriting (he : e.root.IsLettered) (hs : s.IsRewriting) :
    ∃ e', (step (some e) s).1 = some e' ∧ e'.root.IsLettered ∧
      ∀ σ : String → Bool, e'.root.value σ = e.root.value σ := by
  rcases fst_step_cases (some e) s with hsame | ⟨e', htarget, hnext⟩
  · -- the step has failed, or could not be answered
    exact ⟨e, hsame, he, fun _ => rfl⟩
  · have hleads := next_eq_ok_iff.1 htarget
    exact ⟨e', hnext, hleads.isLettered he hs.isLettered, hleads.value_eq hs he⟩

/-- However often an expression is written in other ways, it has the same values at the end. -/
theorem exists_expressionAfter_of_isRewriting (he : e.root.IsLettered)
    (hsteps : ∀ s ∈ steps, s.IsRewriting) :
    ∃ e', expressionAfter (some e) steps = some e' ∧ e'.root.IsLettered ∧
      ∀ σ : String → Bool, e'.root.value σ = e.root.value σ := by
  induction steps generalizing e with
  | nil => exact ⟨e, rfl, he, fun _ => rfl⟩
  | cons s steps ih =>
    rcases exists_fst_step_of_isRewriting he (hsteps s List.mem_cons_self) with
      ⟨e₁, hstep, he₁, hvalue₁⟩
    rcases ih he₁ fun s' hs' => hsteps s' (List.mem_cons_of_mem s hs') with
      ⟨e', hafter, he', hvalue⟩
    rw [expressionAfter_cons, hstep]
    exact ⟨e', hafter, he', fun σ => (hvalue σ).trans (hvalue₁ σ)⟩

end PropCalc.Session
