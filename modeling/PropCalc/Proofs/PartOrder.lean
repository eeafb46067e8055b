import Mathlib.Data.List.Basic
import PropCalc.Proofs.LabeledParts
/-!
# The order of labeled parts

A labeled part has its label behind the labels of its own parts.

* `Inside` — the proper parts of a formula, where a negated formula contains what it negates;
* `innerFirst_unfolded` — if all parts are listed from the inside out, every part stands behind its
  own parts, and `parts_eq_filter`: the labeled parts are collected in this order;
* `idxOf_lt_of_inside` — the order survives that only the first part with a label keeps it, since
  formulas that print alike have parts that print alike.
-/

namespace PropCalc

/-! ## Parts of a formula -/

namespace Formula

variable {f g h : Formula} {intermediate : Bool} {d e : Dialect}

/-- A proper part of a formula. What a negated formula negates counts as a part of it. -/
inductive Inside : Formula → Formula → Prop where
  | body {f : Formula} : f.isNegated = true → Inside f.negate f
  | left {l r : Formula} {c : Connective} {n : Bool} {d : Dialect} : Inside l (binary l c r n d)
  | right {l r : Formula} {c : Connective} {n : Bool} {d : Dialect} : Inside r (binary l c r n d)
  | inLeft {g l r : Formula} {c : Connective} {n : Bool} {d : Dialect} :
      Inside g l → Inside g (binary l c r n d)
  | inRight {g l r : Formula} {c : Connective} {n : Bool} {d : Dialect} :
      Inside g r → Inside g (binary l c r n d)

/-- The number of nodes and negations. -/
def weight : Formula → Nat
  | var _ n => n.toNat + 1
  | binary l _ r n _ => l.weight + r.weight + n.toNat + 1

theorem Inside.weight_lt (hg : Inside g f) : g.weight < f.weight := by
  induction hg with
  | @body f hneg =>
    rcases f with ⟨x, n⟩ | ⟨l, c, r, n, d⟩ <;> obtain rfl : n = true := hneg <;>
      simp [negate, weight]
  -- a joined formula weighs more than both sides together
  | left => simp only [weight]; omega
  | right => simp only [weight]; omega
  | inLeft _ ih => simp only [weight]; omega
  | inRight _ ih => simp only [weight]; omega

theorem inside_var_iff {x : String} {n : Bool} :
    Inside g (var x n) ↔ (var x n).isNegated = true ∧ g = (var x n).negate := by
  constructor
  · intro hg
    cases hg with
    | body hneg => exact ⟨hneg, rfl⟩
  · rintro ⟨hneg, rfl⟩
    exact .body hneg

theorem inside_binary_iff {l r : Formula} {c : Connective} {n : Bool} :
    Inside g (binary l c r n d) ↔ (Inside g l ∨ g = l) ∨ (Inside g r ∨ g = r) ∨
      (binary l c r n d).isNegated = true ∧ g = (binary l c r n d).negate := by
  constructor
  · intro hg
    cases hg with
    | body hneg => exact .inr (.inr ⟨hneg, rfl⟩)
    | left => exact .inl (.inr rfl)
    | right => exact .inr (.inl (.inr rfl))
    | inLeft hl => exact .inl (.inl hl)
    | inRight hr => exact .inr (.inl (.inl hr))
  · rintro ((hl | rfl) | (hr | rfl) | ⟨hneg, rfl⟩)
    · exact .inLeft hl
    · exact .left
    · exact .inRight hr
    · exact .right
    · exact .body hneg

/-- A node, and in front of it what it negates. -/
def withBody (f : Formula) : List Formula := if f.isNegated then [f.negate, f] else [f]

/-- All parts of a formula, each behind the parts inside it. -/
def unfolded (f : Formula) : List Formula := f.postorder.flatMap withBody

@[simp] theorem unfolded_var (x : String) (n : Bool) : (var x n).unfolded = (var x n).withBody := by
  simp [unfolded, postorder]

@[simp] theorem unfolded_binary (l r : Formula) (c : Connective) (n : Bool) (d : Dialect) :
    (binary l c r n d).unfolded = l.unfolded ++ r.unfolded ++ (binary l c r n d).withBody := by
  simp [unfolded, postorder]

theorem mem_withBody : g ∈ f.withBody ↔ f.isNegated = true ∧ g = f.negate ∨ g = f := by
  rw [withBody]
  split <;> simp_all

theorem mem_unfolded : g ∈ f.unfolded ↔ Inside g f ∨ g = f := by
  induction f with
  | var x n => rw [unfolded_var, mem_withBody, inside_var_iff]
  | binary l c r n d ihl ihr =>
    rw [unfolded_binary, List.mem_append, List.mem_append, ihl, ihr, mem_withBody,
      inside_binary_iff]
    simp only [or_assoc]

/-! ## The order of the parts -/

/-- Every entry stands behind all its parts. -/
def InnerFirst (fs : List Formula) : Prop :=
  ∀ before f after, fs = before ++ f :: after → ∀ g, Inside g f → g ∈ before

theorem InnerFirst.append {fs gs : List Formula} (hfs : InnerFirst fs)
    (hgs : ∀ before f after, gs = before ++ f :: after → ∀ g, Inside g f → g ∈ fs ∨ g ∈ before) :
    InnerFirst (fs ++ gs) := by
  intro before f after hsplit g hg
  -- the entry stands in the second list or in the first
  rcases List.append_eq_append_iff.1 hsplit with ⟨more, rfl, hmore⟩ | ⟨more, rfl, hmore⟩
  · exact List.mem_append.2 (hgs more f after hmore g hg)
  · cases more with
    | nil => simpa using hgs [] f after hmore.symm g hg
    | cons f' more =>
      obtain ⟨rfl, rfl⟩ := List.cons.inj hmore
      exact hfs before f more rfl g hg

theorem InnerFirst.concat {fs : List Formula} (hfs : InnerFirst fs)
    (hf : ∀ g, Inside g f → g ∈ fs) : InnerFirst (fs ++ [f]) := by
  refine hfs.append fun before f' after hsplit g hg => .inl ?_
  cases before with
  | nil =>
    obtain ⟨rfl, -⟩ := List.cons.inj hsplit
    exact hf g hg
  | cons f'' before => simp at hsplit

/-- The parts of what a formula negates are parts of the formula. -/
theorem Inside.of_negate (hneg : f.isNegated = true) (hg : Inside g f.negate) : Inside g f := by
  cases f with
  | var x n =>
    obtain rfl : n = true := hneg
    cases (inside_var_iff.1 hg).1
  | binary l c r n d =>
    obtain rfl : n = true := hneg
    rcases inside_binary_iff.1 hg with hl | hr | ⟨hbody, -⟩
    · exact inside_binary_iff.2 (.inl hl)
    · exact inside_binary_iff.2 (.inr (.inl hr))
    · cases hbody

/-- A node may stand behind its parts, with what it negates in between. -/
theorem InnerFirst.append_withBody {fs : List Formula} (hfs : InnerFirst fs)
    (hf : ∀ g, Inside g f → g ∈ fs ∨ f.isNegated = true ∧ g = f.negate) :
    InnerFirst (fs ++ f.withBody) := by
  by_cases hneg : f.isNegated = true
  · -- first what is negated, then the negated formula itself
    have hbody : InnerFirst (fs ++ [f.negate]) := by
      refine hfs.concat fun g hg => ?_
      rcases hf g (hg.of_negate hneg) with hmem | ⟨-, rfl⟩
      · exact hmem
      · exact absurd hg.weight_lt (Nat.lt_irrefl _)
    have hwhole : InnerFirst (fs ++ [f.negate] ++ [f]) := by
      refine hbody.concat fun g hg => ?_
      rcases hf g hg with hmem | ⟨-, rfl⟩
      · exact List.mem_append_left _ hmem
      · simp
    rw [withBody, if_pos hneg]
    simpa using hwhole
  · rw [withBody, if_neg hneg]
    refine hfs.concat fun g hg => ?_
    rcases hf g hg with hmem | ⟨htrue, -⟩
    · exact hmem
    · exact absurd htrue hneg

theorem innerFirst_unfolded (f : Formula) : InnerFirst f.unfolded := by
  induction f with
  | var x n =>
    have hnil : InnerFirst [] := by
      intro before f after hsplit
      simp at hsplit
    simpa using hnil.append_withBody (f := var x n) fun g hg => .inr (inside_var_iff.1 hg)
  | binary l c r n d ihl ihr =>
    rw [unfolded_binary]
    -- the parts of the right side stand on the right side, so the left one may precede
    have hparts : InnerFirst (l.unfolded ++ r.unfolded) :=
      ihl.append fun before f after hsplit g hg => .inr (ihr before f after hsplit g hg)
    refine hparts.append_withBody fun g hg => ?_
    rw [List.mem_append, mem_unfolded, mem_unfolded, or_assoc]
    exact inside_binary_iff.1 hg

/-- Leaving entries out keeps the order of the others. -/
theorem InnerFirst.mem_of_filter {fs : List Formula} (hfs : InnerFirst fs) {p : Formula → Bool}
    {before after : List Formula} (hsplit : fs.filter p = before ++ f :: after) (hg : Inside g f)
    (hp : p g = true) : g ∈ before := by
  -- the place in the filtered list is a place in the whole one, with dropped entries before it
  rcases List.filter_eq_append_iff.1 hsplit with ⟨fs₁, fs₂, rfl, rfl, hrest⟩
  rcases List.filter_eq_cons_iff.1 hrest with ⟨out, fs₃, rfl, hout, -, -⟩
  have hmem := hfs (fs₁ ++ out) f fs₃ (by simp) g hg
  rcases List.mem_append.1 hmem with hmem | hmem
  · exact List.mem_filter.2 ⟨hmem, hp⟩
  · exact absurd hp (hout g hmem)

/-! ## Parts with a label -/

/-- A node of this kind has a label wherever it stands. -/
def isMarked (intermediate : Bool) (f : Formula) : Bool :=
  f.isNegated || intermediate && !f.isVariable

theorem partsAt_eq_filter (intermediate : Bool) (f : Formula) :
    f.partsAt intermediate false = f.withBody.filter (isMarked intermediate) := by
  rcases f with ⟨x, n⟩ | ⟨l, c, r, n, d⟩ <;> cases n <;> cases intermediate <;> rfl

theorem partsAt_root_eq_filter (intermediate : Bool) (f : Formula) :
    f.partsAt intermediate true =
      f.withBody.filter fun g => isMarked intermediate g || g == f := by
  rcases f with ⟨x, n⟩ | ⟨l, c, r, n, d⟩ <;> cases n <;> cases intermediate <;>
    simp [partsAt, withBody, isMarked, isNegated, isVariable, negate]

theorem mem_unfolded_of_mem_postorder (hg : g ∈ f.postorder) : g ∈ f.unfolded :=
  List.mem_flatMap.2 ⟨g, hg, mem_withBody.2 (.inr rfl)⟩

theorem inside_of_mem_innerParts (hg : g ∈ f.innerParts) : Inside g f := by
  cases f with
  | var x n => simp [innerParts] at hg
  | binary l c r n d =>
    rcases List.mem_append.1 hg with hl | hr
    · exact inside_binary_iff.2 (.inl (mem_unfolded.1 (mem_unfolded_of_mem_postorder hl)))
    · exact inside_binary_iff.2 (.inr (.inl (mem_unfolded.1 (mem_unfolded_of_mem_postorder hr))))

/-- The labeled parts in order: of all parts those that are marked, and the whole. -/
theorem parts_eq_filter (intermediate : Bool) (f : Formula) :
    f.parts intermediate = f.unfolded.filter fun g => isMarked intermediate g || g == f := by
  rw [parts, partsAt_root_eq_filter, unfolded, postorder_eq, List.flatMap_append,
    List.filter_append, List.flatMap_singleton, List.filter_flatMap]
  congr 1
  refine List.flatMap_congr fun h hh => ?_
  rw [partsAt_eq_filter]
  refine List.filter_congr fun g hg => ?_
  -- an inner part is not the whole
  have hne : g ≠ f := by
    rintro rfl
    have hlt := (inside_of_mem_innerParts hh).weight_lt
    rcases mem_withBody.1 hg with ⟨hneg, rfl⟩ | rfl
    · exact absurd (Inside.body hneg).weight_lt (Nat.lt_asymm hlt)
    · exact absurd hlt (Nat.lt_irrefl _)
  simp [hne]

/-- A part within a labeled part has a label only if it is marked. -/
theorem IsLabeled.isMarked (hg : f.IsLabeled intermediate g) (hne : g ≠ f) :
    isMarked intermediate g = true := by
  cases hg with
  | root => exact absurd rfl hne
  | negated _ hneg => simp [Formula.isMarked, hneg]
  | step hstep _ hvar => simp [Formula.isMarked, hstep, hvar]
  | @body h hstep _ hvar _ =>
    -- what is negated is a joined formula here, so it has a label of its own
    have hbody : h.negate.isVariable = false := by
      cases h with
      | var x n => cases hvar
      | binary l c r n d => rfl
    simp [Formula.isMarked, hstep, hbody]

/-- The whole is no part of one of its parts. -/
theorem ne_of_inside (hh : f.IsLabeled intermediate h) (hg : Inside g h) : g ≠ f := by
  rintro rfl
  have hmem : h ∈ g.unfolded := by
    have hparts := mem_parts_iff.2 hh
    rw [parts_eq_filter] at hparts
    exact (List.mem_filter.1 hparts).1
  rcases mem_unfolded.1 hmem with hin | rfl
  · exact absurd hin.weight_lt (Nat.lt_asymm hg.weight_lt)
  · exact absurd hg.weight_lt (Nat.lt_irrefl _)

/-! ## Parts that print alike -/

theorem marked_marked (d e : Dialect) (f : Formula) : (f.marked d).marked e = f.marked e := by
  induction f with
  | var x n => rfl
  | binary l c r n d' ihl ihr => simp only [marked, ihl, ihr]

theorem isNegated_marked (d : Dialect) (f : Formula) : (f.marked d).isNegated = f.isNegated := by
  cases f <;> rfl

/-- A formula that is a joined one but for the dialects is joined itself. -/
theorem exists_binary_of_marked_eq {l r : Formula} {c : Connective} {n : Bool}
    (hf : h.marked e = (binary l c r n d).marked e) : ∃ l' r' d', h = binary l' c r' n d' ∧
      l'.marked e = l.marked e ∧ r'.marked e = r.marked e := by
  cases h with
  | var x m => cases hf
  | binary l' c' r' m d' =>
    rcases Formula.binary.inj hf with ⟨hl, rfl, hr, rfl, -⟩
    exact ⟨l', r', d', rfl, hl, hr⟩

/-- Formulas that are alike but for the dialects have such parts. -/
theorem Inside.exists_of_marked_eq (hg : Inside g f) (hf : h.marked e = f.marked e) :
    ∃ k, Inside k h ∧ k.marked e = g.marked e := by
  induction hg generalizing h with
  | @body f hneg =>
    have hneg' : h.isNegated = true := by
      rw [← isNegated_marked e, hf, isNegated_marked, hneg]
    exact ⟨h.negate, .body hneg', by rw [marked_negate, marked_negate, hf]⟩
  | left =>
    rcases exists_binary_of_marked_eq hf with ⟨l', r', d', rfl, hl, -⟩
    exact ⟨l', .left, hl⟩
  | right =>
    rcases exists_binary_of_marked_eq hf with ⟨l', r', d', rfl, -, hr⟩
    exact ⟨r', .right, hr⟩
  | inLeft _ ih =>
    rcases exists_binary_of_marked_eq hf with ⟨l', r', d', rfl, hl, -⟩
    rcases ih hl with ⟨k, hk, hmarked⟩
    exact ⟨k, .inLeft hk, hmarked⟩
  | inRight _ ih =>
    rcases exists_binary_of_marked_eq hf with ⟨l', r', d', rfl, -, hr⟩
    rcases ih hr with ⟨k, hk, hmarked⟩
    exact ⟨k, .inRight hk, hmarked⟩

theorem isMarked_of_marked_eq (hf : h.marked e = g.marked e) :
    isMarked intermediate h = isMarked intermediate g := by
  rw [isMarked, isMarked, ← isNegated_marked e h, ← isVariable_marked e h, hf, isNegated_marked,
    isVariable_marked]

theorem text_eq_of_marked_eq (hf : h.marked e = g.marked e) : h.text d = g.text d := by
  rw [← text_marked e d h, hf, text_marked]

/-- The label of a part comes before the label of what it is a part of, even if other parts have the
same labels. -/
theorem idxOf_lt_of_inside (hf : f.IsLettered) (hg : f.IsLabeled intermediate g)
    (hh : f.IsLabeled intermediate h) (hin : Inside g h) :
    ((f.parts intermediate).map (text d)).idxOf (g.text d) <
      ((f.parts intermediate).map (text d)).idxOf (h.text d) := by
  -- the first part with the label of `h`
  have hmem : h.text d ∈ (f.parts intermediate).map (text d) :=
    List.mem_map_of_mem (mem_parts_iff.2 hh)
  rcases List.eq_append_cons_of_mem hmem with ⟨before, after, hsplit, hfirst⟩
  rcases List.map_eq_append_iff.1 hsplit with ⟨fs, rest, hparts, rfl, hrest⟩
  rcases List.map_eq_cons_iff.1 hrest with ⟨h', fs', rfl, hlabel, -⟩
  have hh' : f.IsLabeled intermediate h' := by
    rw [← mem_parts_iff, hparts]
    simp
  -- it contains a part with the label of `g`, which stands before it
  have hmarked := marked_eq_of_text_eq (hh'.isLettered hf) (hh.isLettered hf) hlabel
  have hmarked' : h'.marked d = h.marked d := by
    rw [← marked_marked (h'.readDialect d) d h', hmarked, marked_marked]
  rcases hin.exists_of_marked_eq hmarked' with ⟨g', hin', hg'⟩
  have hbefore : g' ∈ fs := by
    rw [parts_eq_filter] at hparts
    refine (innerFirst_unfolded f).mem_of_filter hparts hin' ?_
    simp [isMarked_of_marked_eq hg', hg.isMarked (ne_of_inside hh hin)]
  have hlt : g.text d ∈ fs.map (text d) := by
    rw [← text_eq_of_marked_eq hg']
    exact List.mem_map_of_mem hbefore
  rw [hsplit, List.idxOf_append_of_mem hlt, List.idxOf_append_of_notMem hfirst]
  exact Nat.lt_add_right _ (List.idxOf_lt_length_of_mem hlt)

end Formula

end PropCalc
