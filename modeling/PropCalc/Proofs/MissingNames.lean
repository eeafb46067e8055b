import PropCalc.Proofs.RoundTrip
import PropCalc.Proofs.Valuation
/-!
# Missing names

A formula is evaluated from left to right and nothing is skipped, so the outcome is told by its
leaves alone: the first of them that the assignment leaves without a value is reported, and where
there is none the formula has its value.

* `firstMissing?` — the first of several names that has no value;
* `evaluate_eq` — the outcome of an evaluation, whatever the connectives;
* `evaluate_misses_leftmost` — what is reported, and that nothing else of an assignment matters.
-/

namespace PropCalc

variable {a a' : Assignment} {f : Formula} {x : String}

/-! ## The first missing name -/

namespace Assignment

/-- The first of the names that has no value. -/
def firstMissing? (a : Assignment) (names : List String) : Option String :=
  names.find? fun x => x ∉ a.names

theorem firstMissing?_append (a : Assignment) (l r : List String) :
    a.firstMissing? (l ++ r) = (a.firstMissing? l).or (a.firstMissing? r) :=
  List.find?_append

theorem firstMissing?_eq_none_iff {names : List String} :
    a.firstMissing? names = none ↔ ∀ x ∈ names, x ∈ a.names := by
  simp [firstMissing?, List.find?_eq_none]

/-- The first missing name stands behind names that all have a value. -/
theorem firstMissing?_eq_some_iff {names : List String} :
    a.firstMissing? names = some x ↔
      ∃ before behind, names = before ++ x :: behind ∧ (∀ y ∈ before, y ∈ a.names) ∧ x ∉ a.names := by
  rw [firstMissing?, List.find?_eq_some_iff_append]
  constructor
  · intro h
    rcases h with ⟨hx, before, behind, hnames, hbefore⟩
    exact ⟨before, behind, hnames, by simpa using hbefore, by simpa using hx⟩
  · intro h
    rcases h with ⟨before, behind, hnames, hbefore, hx⟩
    exact ⟨by simpa using hx, before, behind, hnames, by simpa using hbefore⟩

/-- Assignments that agree on the names miss the same one first. -/
theorem firstMissing?_congr {names : List String} (h : ∀ x ∈ names, a.get? x = a'.get? x) :
    a.firstMissing? names = a'.firstMissing? names := by
  induction names with
  | nil => rfl
  | cons y names ih =>
    -- a name is bound when looking it up gives a value
    have hy : y ∉ a.names ↔ y ∉ a'.names := by
      rw [← get?_eq_none_iff, ← get?_eq_none_iff, h y List.mem_cons_self]
    have hrest := ih fun x hx => h x (List.mem_cons_of_mem y hx)
    simp only [firstMissing?, List.find?_cons] at hrest ⊢
    rw [decide_eq_decide.2 hy, hrest]

end Assignment

/-! ## The outcome of an evaluation -/

namespace Formula

/-- An evaluation reports the first leaf without a value, and there it does not matter what stands
to its left or which connectives join them. -/
theorem evaluate_eq (f : Formula) (a : Assignment) :
    f.evaluate a =
      match a.firstMissing? f.leaves with
      | some x => .error ⟨x⟩
      | none => .ok (f.value fun x => (a.get? x).getD false) := by
  induction f with
  | var x n =>
    rw [leaves, Assignment.firstMissing?, List.find?_singleton]
    -- a leaf has its value or is itself the missing name
    by_cases h : x ∈ a.names
    · rw [evaluate, Assignment.get?_of_mem_names h]
      simp [value, h]
    · rw [evaluate, Assignment.get?_eq_none_iff.2 h]
      simp [h]
  | binary l c r n e ihl ihr =>
    rw [leaves, Assignment.firstMissing?_append, evaluate, ihl, ihr]
    cases hl : a.firstMissing? l.leaves with
    -- the error of the left part is the error of the whole
    | some x => rfl
    | none =>
      -- the left part has a value, so the right part decides
      cases hr : a.firstMissing? r.leaves with
      | some x => rfl
      | none => rfl

theorem evaluate_eq_error_iff {m : MissingValue} :
    f.evaluate a = .error m ↔ a.firstMissing? f.leaves = some m.name := by
  rw [evaluate_eq]
  cases a.firstMissing? f.leaves with
  | none => simp
  | some x =>
    rcases m with ⟨y⟩
    simp

theorem exists_evaluate_eq_ok_iff :
    (∃ b, f.evaluate a = .ok b) ↔ a.firstMissing? f.leaves = none := by
  rw [evaluate_eq]
  cases a.firstMissing? f.leaves <;> simp

/-- A formula with a name that is not bound has no value, and the error names one of these. -/
theorem evaluate_eq_error (h : ∃ x ∈ f.leaves, x ∉ a.names) :
    ∃ x ∈ f.leaves, x ∉ a.names ∧ f.evaluate a = .error ⟨x⟩ := by
  cases hx : a.firstMissing? f.leaves with
  | none =>
    rcases h with ⟨x, hmem, hmissing⟩
    exact absurd (Assignment.firstMissing?_eq_none_iff.1 hx x hmem) hmissing
  | some x =>
    rcases Assignment.firstMissing?_eq_some_iff.1 hx with ⟨before, behind, hleaves, -, hmissing⟩
    refine ⟨x, ?_, hmissing, evaluate_eq_error_iff.2 hx⟩
    rw [hleaves]
    exact List.mem_append_right _ List.mem_cons_self

/-- Evaluation asks for nothing but the values of the names that occur. -/
theorem evaluate_congr (h : ∀ x ∈ f.leaves, a.get? x = a'.get? x) :
    f.evaluate a = f.evaluate a' := by
  have hvalue : f.value (fun x => (a.get? x).getD false) =
      f.value fun x => (a'.get? x).getD false :=
    value_congr fun x hx => by rw [h x hx]
  rw [evaluate_eq, evaluate_eq, Assignment.firstMissing?_congr h, hvalue]

/-- A formula has a value exactly when all of its names are bound. Otherwise the first leaf from the
left that is not bound is reported, also where the parts before it decide the value already. What an
assignment says of other names, and in which order, makes no difference to the outcome. -/
theorem evaluate_misses_leftmost (f : Formula) (a : Assignment) :
    ((∃ b, f.evaluate a = .ok b) ↔ ∀ x ∈ f.names, x ∈ a.names) ∧
    (∀ x, f.evaluate a = .error ⟨x⟩ ↔ ∃ before behind, f.leaves = before ++ x :: behind ∧
      (∀ y ∈ before, y ∈ a.names) ∧ x ∉ a.names) ∧
    ∀ a' : Assignment, (∀ x ∈ f.names, a.get? x = a'.get? x) → f.evaluate a = f.evaluate a' := by
  simp only [mem_names]
  refine ⟨?_, fun x => ?_, fun a' h => evaluate_congr h⟩
  · rw [exists_evaluate_eq_ok_iff, Assignment.firstMissing?_eq_none_iff]
  · rw [evaluate_eq_error_iff, Assignment.firstMissing?_eq_some_iff]

/-- The name that is true makes the whole true, and two others are missing behind it. The second
assignment binds one more name in front and gives the first one again behind. -/
theorem evaluate_misses_leftmost_decided :
    let f : Formula :=
      .binary (.binary (.var "a" false) .or (.var "b" true) false .logic) .or
        (.var "c" false) false .logic
    let a : Assignment := ⟨[("a", true)]⟩
    let a' : Assignment := ⟨[("z", false), ("a", true), ("a", false)]⟩
    (∀ σ : String → Bool, σ "a" = true → f.value σ = true) ∧
      (¬ ∃ b, f.evaluate a = .ok b) ∧ f.evaluate a = .error ⟨"b"⟩ ∧
      (∀ x ∈ f.names, a.get? x = a'.get? x) ∧ f.evaluate a = f.evaluate a' := by
  intro f a a'
  rcases evaluate_misses_leftmost f a with ⟨hvalue, hreport, hagree⟩
  have hmissing : f.evaluate a = .error ⟨"b"⟩ :=
    (hreport "b").2 ⟨["a"], ["c"], rfl, by decide, by decide⟩
  have hsame : ∀ x ∈ f.names, a.get? x = a'.get? x := by
    simp only [mem_names]
    decide
  refine ⟨fun σ hσ => ?_, fun h => ?_, hmissing, hsame, hagree a' hsame⟩
  · simp [f, value, Connective.apply, hσ]
  · rcases h with ⟨b, hb⟩
    rw [hmissing] at hb
    cases hb

end Formula

end PropCalc
