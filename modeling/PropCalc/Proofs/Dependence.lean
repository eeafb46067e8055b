import PropCalc.Proofs.PrimeTerms
/-!
# Dependence on variables

A formula depends on a variable when turning the value of this variable around, and of no other, can
change the value of the formula. A minimal form mentions exactly the variables on which the formula
depends (`IsSimplifiedTo.mem_leaves_iff`): those it mentions because its terms are prime, and no
others because it has the values of the formula. `simplified_names_are_relevant` says the same of
what is read from a simplified text.
-/

namespace PropCalc

variable {f : Formula} {names : List String} {x y : String} {σ : String → Bool}

/-! ## Valuations -/

/-- The valuation with the value of one name turned around. -/
def flipped (x : String) (σ : String → Bool) : String → Bool := fun y =>
  if y = x then !σ y else σ y

theorem flipped_self (x : String) (σ : String → Bool) : flipped x σ x = !σ x := if_pos rfl

theorem flipped_of_ne (h : y ≠ x) : flipped x σ y = σ y := if_neg h

/-- Turning the value of the name around can change the value of the formula. -/
def Formula.DependsOn (f : Formula) (x : String) : Prop :=
  ∃ σ : String → Bool, f.value (flipped x σ) ≠ f.value σ

/-- A formula depends on no other names than its own. -/
theorem Formula.DependsOn.mem_leaves (h : f.DependsOn x) : x ∈ f.leaves := by
  rcases h with ⟨σ, hσ⟩
  refine Classical.byContradiction fun hx => hσ (f.value_congr fun y hy => flipped_of_ne ?_)
  rintro rfl
  exact hx hy

/-! ## Minimal forms -/

/-- A term is true where one of its literals is true and all the others are. -/
theorem Canonical.Product.value_eq_and {p : Canonical.Product} {u w : List (String × Bool)}
    {l : String × Bool} (heq : p.literals = u ++ l :: w) (σ : String → Bool) :
    p.formula.value σ = (((u ++ w).all fun l => σ l.1 ^^ l.2) && (σ l.1 ^^ l.2)) := by
  rw [Canonical.Product.value_formula, heq, List.all_append, List.all_append, List.all_cons,
    Bool.and_left_comm, Bool.and_comm]

/-- No other literal of a term has the same name. -/
theorem IsSimplifiedTo.name_ne {sum : Canonical.Sum} (h : IsSimplifiedTo f names sum)
    (hnodup : names.Nodup) {p : Canonical.Product} (hp : p ∈ sum.products)
    {u w : List (String × Bool)} {l : String × Bool} (heq : p.literals = u ++ l :: w) :
    ∀ m ∈ u ++ w, m.1 ≠ l.1 := by
  have hdistinct := (h.sublist_names hp).nodup hnodup
  rw [heq, List.map_append, List.map_cons] at hdistinct
  have hfresh := (List.nodup_cons.1 (List.perm_middle.nodup_iff.1 hdistinct)).1
  intro m hm hname
  rw [← List.map_append, ← hname] at hfresh
  exact hfresh (List.mem_map_of_mem hm)

/-- A formula depends on every name in its minimal form. -/
theorem IsSimplifiedTo.dependsOn {sum : Canonical.Sum} (h : IsSimplifiedTo f names sum)
    (hnodup : names.Nodup) (hx : x ∈ sum.formula.leaves) : f.DependsOn x := by
  rcases Canonical.Sum.mem_leaves_formula.1 hx with ⟨p, hp, l, hl, rfl⟩
  rcases List.append_of_mem hl with ⟨u, w, heq⟩
  -- where the term holds but for this literal, the formula is false
  rcases h.exists_value_false hnodup hp heq with ⟨σ, hothers, hfalse⟩
  have hliteral : (σ l.1 ^^ l.2) = false := by
    refine eq_false_of_ne_true fun htrue => ?_
    have hterm : p.formula.value σ = true := by
      rw [Canonical.Product.value_eq_and heq, hothers, htrue]
      rfl
    rw [h.value_of_product hp hterm] at hfalse
    cases hfalse
  -- turning its name around makes the whole term true, as no other literal has this name
  have hothers' : ((u ++ w).all fun m => flipped l.1 σ m.1 ^^ m.2) = true := by
    rw [List.all_eq_true] at hothers ⊢
    intro m hm
    rw [flipped_of_ne (h.name_ne hnodup hp heq m hm)]
    exact hothers m hm
  have hterm : p.formula.value (flipped l.1 σ) = true := by
    rw [Canonical.Product.value_eq_and heq, hothers', flipped_self, Bool.not_xor, hliteral]
    rfl
  refine ⟨σ, ?_⟩
  rw [h.value_of_product hp hterm, hfalse]
  decide

/-- The minimal form mentions exactly the names on which the formula depends. -/
theorem IsSimplifiedTo.mem_leaves_iff {sum : Canonical.Sum} (h : IsSimplifiedTo f names sum)
    (hnodup : names.Nodup) : x ∈ sum.formula.leaves ↔ f.DependsOn x := by
  constructor
  · exact h.dependsOn hnodup
  · -- the minimal form has the same values, so it depends on the name and thus mentions it
    intro hx
    have hsum : sum.formula.DependsOn x := by
      rcases hx with ⟨σ, hσ⟩
      exact ⟨σ, by rwa [h.value_eq, h.value_eq]⟩
    exact hsum.mem_leaves

/-! ## Assignments -/

namespace Assignment

/-- The assignment with the value of one name turned around. -/
def flip (x : String) (a : Assignment) : Assignment :=
  ⟨a.pairs.map fun (y, value) => (y, if y = x then !value else value)⟩

@[simp] theorem names_flip (x : String) (a : Assignment) : (a.flip x).names = a.names := by
  simp [Assignment.names, flip]

theorem get?_flip (x y : String) (a : Assignment) :
    (a.flip x).get? y = (a.get? y).map fun value => if y = x then !value else value := by
  rcases a with ⟨pairs⟩
  unfold flip get?
  induction pairs with
  | nil => rfl
  | cons p pairs ih =>
    rcases p with ⟨z, b⟩
    rw [List.map_cons, List.lookup_cons, List.lookup_cons]
    -- the pair that is found is the same, with its value turned around or not
    by_cases hyz : y = z
    · simp [hyz]
    · rw [beq_eq_false_iff_ne.2 hyz]
      exact ih

end Assignment

/-- Under an assignment with a value turned around, a formula has the value of the valuation with
this value turned around. -/
theorem Formula.evaluate_flip {a : Assignment} (h : ∀ y ∈ f.leaves, a.get? y = some (σ y)) :
    f.evaluate (a.flip x) = .ok (f.value (flipped x σ)) := by
  refine f.evaluate_eq_ok fun y hy => ?_
  rw [Assignment.get?_flip, h y hy]
  rfl

/-- Dependence shows in the assignments of any names that contain those of the formula. -/
theorem Formula.dependsOn_iff (hleaves : ∀ y ∈ f.leaves, y ∈ names) :
    f.DependsOn x ↔ ∃ a : Assignment, a.names = names ∧
      ∃ v, f.evaluate a = .ok v ∧ f.evaluate (a.flip x) = .ok !v := by
  constructor
  · intro h
    rcases h with ⟨σ, hσ⟩
    refine ⟨.onNames names σ, Assignment.names_onNames names σ, f.value σ,
      f.evaluate_onNames σ hleaves, ?_⟩
    rw [f.evaluate_flip fun y hy => Assignment.get?_onNames σ (hleaves y hy), Bool.eq_not.2 hσ]
  · intro h
    rcases h with ⟨a, ha, v, hv, hflip⟩
    have hbound : ∀ y ∈ f.leaves, a.get? y = some ((a.get? y).getD false) :=
      fun y hy => Assignment.get?_of_mem_names (ha ▸ hleaves y hy)
    rw [f.evaluate_eq_ok hbound, Except.ok.injEq] at hv
    rw [f.evaluate_flip hbound, Except.ok.injEq] at hflip
    refine ⟨fun y => (a.get? y).getD false, ?_⟩
    rw [hflip, hv]
    simp

/-! ## Simplified texts -/

/-- What is read from a simplified text that is no constant mentions, in ascending order, exactly
those variables of the expression for which some assignment changes the value of the expression when
it is turned around at this variable alone. -/
theorem simplified_names_are_relevant {text : String} {e : Expression}
    (h : Expression.parse text = .ok e) (dialect? : Option Dialect) :
    ∃ simple, (Subject.expression e).simplify none dialect? = .ok simple ∧
      (simple ≠ Subject.alwaysTrueText → simple ≠ Subject.alwaysFalseText →
        ∃ e', Expression.parse simple = .ok e' ∧ e'.names.Pairwise (· < ·) ∧
          ∀ x, x ∈ e'.names ↔ x ∈ e.names ∧ ∃ a : Assignment, a.names = e.names ∧
            ∃ v, e.root.evaluate a = .ok v ∧ e.root.evaluate (a.flip x) = .ok !v) := by
  rcases exists_isSimplifiedTo_of_parse h dialect? with ⟨simple, hsimple, hread⟩
  refine ⟨simple, hsimple, fun hneTrue hneFalse => ?_⟩
  rcases hread hneTrue hneFalse with ⟨e', sum, hsum, hparse, hroot⟩
  refine ⟨e', hparse, e'.root.pairwise_names, fun x => ?_⟩
  have hmem : x ∈ e'.names ↔ e.root.DependsOn x := by
    rw [Expression.mem_names, hroot, Formula.leaves_marked]
    exact hsum.mem_leaves_iff e.root.nodup_names
  rw [hmem, ← e.root.dependsOn_iff e.names_of_leaves]
  exact ⟨fun hx => ⟨e.mem_names.2 hx.mem_leaves, hx⟩, fun hx => hx.2⟩

/-- An expression with a variable that cancels out. -/
theorem simplified_names_are_relevant_cancelled :
    let e : Expression := ⟨.binary (.binary (.binary (.var "c" false) .iff (.var "b" false) false
      .logic) .iff (.var "c" false) false .logic) .and (.var "a" true) false .logic, .logic⟩
    let e' : Expression := ⟨.binary (.var "a" true) .and (.var "b" false) false .logic, .logic⟩
    Expression.parse "((c <-> b) <-> c) ^ ~a" = .ok e ∧
    (Subject.expression e).simplify none none = .ok "~a ^ b" ∧
    Expression.parse "~a ^ b" = .ok e' ∧ e.names = ["a", "b", "c"] ∧ e'.names = ["a", "b"] ∧
    e'.names.Pairwise (· < ·) ∧
    ∀ x, x ∈ e'.names ↔ x ∈ e.names ∧ ∃ a : Assignment, a.names = e.names ∧
      ∃ v, e.root.evaluate a = .ok v ∧ e.root.evaluate (a.flip x) = .ok !v := by
  intro e e'
  have h : Expression.parse "((c <-> b) <-> c) ^ ~a" = .ok e :=
    parse_text (f := e.root) .logic (by decide)
  have hsimplify : (Subject.expression e).simplify none none = .ok "~a ^ b" := by decide +kernel
  have hparse : Expression.parse "~a ^ b" = .ok e' := parse_text (f := e'.root) .logic (by decide)
  rcases simplified_names_are_relevant h none with ⟨simple, hsimple, hnames⟩
  obtain rfl : "~a ^ b" = simple := Except.ok.inj (hsimplify.symm.trans hsimple)
  rcases hnames (by decide) (by decide) with ⟨e'', hread, hordered, hrelevant⟩
  obtain rfl : e' = e'' := Except.ok.inj (hparse.symm.trans hread)
  exact ⟨h, hsimplify, hparse, by decide +kernel, by decide +kernel, hordered, hrelevant⟩

end PropCalc
