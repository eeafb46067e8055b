import PropCalc.Labeled
import PropCalc.Proofs.Reading
import PropCalc.Proofs.RoundTrip
import PropCalc.Proofs.Valuation
/-!
# Labeled parts

Which parts of a formula have a label, and what a label stands for.

* `mem_parts_iff` — the parts that are collected are those that `IsLabeled` asks for;
* `marked_eq_of_text_eq` — formulas that print alike are alike but for the dialects of their nodes,
  so a label has one meaning;
* `exists_labeledPart` — so it does no harm that only the first part with a label keeps it.
-/

namespace PropCalc

namespace Formula

variable {f g : Formula} {intermediate : Bool} {d : Dialect}

/-! ## The parts that are wanted -/

/-- The parts of a formula that have a label: the whole, every negated node and, with intermediate
steps, every joined node, where a negated one also counts without its negation. -/
inductive IsLabeled (intermediate : Bool) (f : Formula) : Formula → Prop where
  | root : IsLabeled intermediate f f
  | negated {g : Formula} : g ∈ f.postorder → g.isNegated = true → IsLabeled intermediate f g
  | step {g : Formula} : intermediate = true → g ∈ f.postorder → g.isVariable = false →
      IsLabeled intermediate f g
  | body {g : Formula} : intermediate = true → g ∈ f.postorder → g.isVariable = false →
      g.isNegated = true → IsLabeled intermediate f g.negate

theorem postorder_eq (f : Formula) : f.postorder = f.innerParts ++ [f] := by
  cases f <;> rfl

theorem mem_partsAt {isRoot : Bool} {h : Formula} :
    g ∈ h.partsAt intermediate isRoot ↔
      (intermediate = true ∧ h.isVariable = false) ∧ h.isNegated = true ∧ g = h.negate ∨
        (isRoot = true ∨ h.isNegated = true ∨ intermediate = true ∧ h.isVariable = false) ∧
          g = h := by
  have hif : ∀ (p : Prop) [Decidable p] (k : Formula), (g ∈ if p then [k] else []) ↔ p ∧ g = k := by
    intro p _ k
    by_cases hp : p <;> simp [hp]
  simp only [partsAt, List.mem_append, Bool.or_eq_true, Bool.and_eq_true, Bool.not_eq_true', hif,
    and_assoc, or_assoc]

/-- The outermost node adds what any node adds, and itself. -/
theorem mem_partsAt_root : g ∈ f.partsAt intermediate true ↔
    g ∈ f.partsAt intermediate false ∨ g = f := by
  simp only [mem_partsAt, Bool.false_eq_true, false_or, true_or, true_and, or_assoc]
  exact or_congr_right (or_iff_right_of_imp And.right).symm

/-- Every node adds its parts, and the whole is a part in any case. -/
theorem mem_parts_iff_node : g ∈ f.parts intermediate ↔
    (∃ h ∈ f.postorder, g ∈ h.partsAt intermediate false) ∨ g = f := by
  simp only [parts, postorder_eq, List.mem_append, List.mem_flatMap, mem_partsAt_root,
    List.mem_singleton, or_and_right, exists_or, exists_eq_left, or_assoc]

/-- The collected parts are those that are wanted. -/
theorem mem_parts_iff : g ∈ f.parts intermediate ↔ f.IsLabeled intermediate g := by
  -- a body, a negated node or a step at some node, or the whole
  rw [mem_parts_iff_node]
  simp only [mem_partsAt, Bool.false_eq_true, false_or]
  constructor
  · intro h
    rcases h with ⟨h, hh, ⟨⟨hstep, hvar⟩, hneg, rfl⟩ | ⟨hneg | ⟨hstep, hvar⟩, rfl⟩⟩ | rfl
    · exact .body hstep hh hvar hneg
    · exact .negated hh hneg
    · exact .step hstep hh hvar
    · exact .root
  · intro h
    cases h with
    | root => exact .inr rfl
    | negated hg hneg => exact .inl ⟨g, hg, .inr ⟨.inl hneg, rfl⟩⟩
    | step hstep hg hvar => exact .inl ⟨g, hg, .inr ⟨.inr ⟨hstep, hvar⟩, rfl⟩⟩
    | @body h hstep hh hvar hneg => exact .inl ⟨h, hh, .inl ⟨⟨hstep, hvar⟩, hneg, rfl⟩⟩

theorem leaves_of_mem_postorder (hg : g ∈ f.postorder) {x : String} (hx : x ∈ g.leaves) :
    x ∈ f.leaves := by
  induction f with
  | var y n =>
    obtain rfl := List.mem_singleton.1 hg
    exact hx
  | binary l c r n e ihl ihr =>
    simp only [postorder, List.mem_append, List.mem_singleton] at hg
    rcases hg with (hg | hg) | rfl
    · exact List.mem_append_left _ (ihl hg)
    · exact List.mem_append_right _ (ihr hg)
    · exact hx

/-- A part has no names but those of the whole. -/
theorem IsLabeled.leaves (h : f.IsLabeled intermediate g) : ∀ x ∈ g.leaves, x ∈ f.leaves := by
  intro x hx
  cases h with
  | root => exact hx
  | negated hg => exact leaves_of_mem_postorder hg hx
  | step _ hg => exact leaves_of_mem_postorder hg hx
  | body _ hg =>
    rw [leaves_negate] at hx
    exact leaves_of_mem_postorder hg hx

theorem IsLabeled.isLettered (h : f.IsLabeled intermediate g) (hf : f.IsLettered) : g.IsLettered :=
  fun x hx => hf x (h.leaves x hx)

/-! ## Formulas that print alike -/

/-- Formulas that print alike are alike but for the dialects of their nodes. -/
theorem marked_eq_of_text_eq (hf : f.IsLettered) (hg : g.IsLettered) (h : f.text d = g.text d) :
    f.marked (f.readDialect d) = g.marked (g.readDialect d) := by
  -- both are what their common text is read as
  have hparse := parse_text d hf
  rw [h, parse_text d hg] at hparse
  exact (congrArg Expression.root (Except.ok.inj hparse)).symm

theorem value_eq_of_text_eq (hf : f.IsLettered) (hg : g.IsLettered) (h : f.text d = g.text d)
    (σ : String → Bool) : f.value σ = g.value σ := by
  rw [← value_marked (f.readDialect d) f, marked_eq_of_text_eq hf hg h, value_marked]

theorem leaves_eq_of_text_eq (hf : f.IsLettered) (hg : g.IsLettered) (h : f.text d = g.text d) :
    f.leaves = g.leaves := by
  rw [← leaves_marked (f.readDialect d) f, marked_eq_of_text_eq hf hg h, leaves_marked]

/-! ## Labels -/

theorem firstOfLabel_sublist (es : List (String × Formula)) : (firstOfLabel es).Sublist es := by
  induction es with
  | nil => exact .slnil
  | cons e es ih => exact (List.filter_sublist.trans ih).cons_cons e

/-- Keeping the first entry of each label keeps every label. -/
theorem exists_mem_firstOfLabel {es : List (String × Formula)} {e : String × Formula}
    (h : e ∈ es) : ∃ e' ∈ firstOfLabel es, e'.1 = e.1 := by
  induction es with
  | nil => simp at h
  | cons a es ih =>
    rw [firstOfLabel]
    by_cases ha : e.1 = a.1
    · -- the first entry has the label, and is kept
      exact ⟨a, List.mem_cons_self, ha.symm⟩
    · -- it has another label, so it takes none of the entries with this one away
      rcases List.mem_cons.1 h with rfl | h
      · exact absurd rfl ha
      · rcases ih h with ⟨e', he', heq⟩
        refine ⟨e', List.mem_cons_of_mem _ (List.mem_filter.2 ⟨he', ?_⟩), heq⟩
        simpa [heq] using ha

/-- No label is kept twice. -/
theorem nodup_firstOfLabel (es : List (String × Formula)) :
    ((firstOfLabel es).map (·.1)).Nodup := by
  induction es with
  | nil => exact .nil
  | cons e es ih =>
    rw [firstOfLabel, List.map_cons, List.nodup_cons]
    constructor
    · -- later entries with the first label have been left out
      intro hmem
      rcases List.mem_map.1 hmem with ⟨e', he', heq⟩
      have hne := (List.mem_filter.1 he').2
      simp [heq] at hne
    · exact ih.sublist (List.filter_sublist.map _)

/-- A label is the print of a wanted part. -/
theorem of_mem_labeledParts {e : String × Formula} (h : e ∈ f.labeledParts d intermediate) :
    e.1 = e.2.text d ∧ f.IsLabeled intermediate e.2 := by
  rcases List.mem_map.1 ((firstOfLabel_sublist _).subset h) with ⟨g, hg, rfl⟩
  exact ⟨rfl, mem_parts_iff.1 hg⟩

/-- Every wanted part has a label, if only that of another part that prints alike. -/
theorem exists_labeledPart (h : f.IsLabeled intermediate g) :
    ∃ e ∈ f.labeledParts d intermediate, e.1 = g.text d :=
  exists_mem_firstOfLabel (List.mem_map_of_mem (mem_parts_iff.2 h))

end Formula

end PropCalc
