import PropCalc.TruthTable
import PropCalc.Proofs.LabeledParts
import PropCalc.Proofs.MissingNames
import PropCalc.Proofs.TableLines
/-!
# Truth tables

What stands in a truth table. Every column is that of a formula over the names (`Column.ofFormula`),
and columns are known by their labels only, so the argument is about labels:

* `mem_tableColumns` — the columns are those of the wanted parts and of the names, whichever part
  came first with its label;
* `nodup_tableColumns` — no label occurs twice;
* `Column.pairwise_mergeSort_precedes` — so sorting brings them into a strict order;
* `truthTable_columns` — the whole table, and the error when a name is missing;
* `Expression.exists_lines` — over the names of an expression nothing is missing, so there are lines.
-/

namespace PropCalc

variable {names : List String} {intermediate : Bool} {d : Dialect}

/-! ## Values on the rows of a table -/

/-- The column of a formula in the table over the names. -/
def Column.ofFormula (names : List String) (d : Dialect) (g : Formula) : Column :=
  ⟨g.text d, (List.range (rowCount names.length)).map
    fun row : Nat => g.value (rowValuation names row)⟩

/-- Formulas that print alike have the same column. -/
theorem Column.ofFormula_eq {f g : Formula} (hf : f.IsLettered) (hg : g.IsLettered)
    (h : f.text d = g.text d) : ofFormula names d f = ofFormula names d g := by
  simp only [ofFormula, h, Formula.value_eq_of_text_eq hf hg h]

theorem Formula.valuesOn_enumerate {g : Formula} (d : Dialect) (h : ∀ x ∈ g.leaves, x ∈ names) :
    g.valuesOn (Assignment.enumerate names) = .ok (Column.ofFormula names d g).values :=
  g.mapM_evaluate_enumerate h

/-- Every row binds the same names, so a name that is missing shows in the first row. -/
theorem Formula.valuesOn_eq_error {g : Formula} (h : ∃ x ∈ g.leaves, x ∉ names) :
    ∃ x ∈ g.leaves, x ∉ names ∧ g.valuesOn (Assignment.enumerate names) = .error ⟨x⟩ := by
  -- a table has a first row
  obtain ⟨k, hk⟩ : ∃ k, rowCount names.length = k + 1 :=
    ⟨rowCount names.length - 1, by have := rowCount_pos names.length; omega⟩
  have hfirst : ∃ x ∈ g.leaves, x ∉ (Assignment.ofRow names 0).names := by
    simpa only [Assignment.names_ofRow] using h
  rcases g.evaluate_eq_error hfirst with ⟨x, hx, hmissing, heval⟩
  rw [Assignment.names_ofRow] at hmissing
  refine ⟨x, hx, hmissing, ?_⟩
  rw [valuesOn, Assignment.enumerate, hk, List.range_succ_eq_map, List.map_cons, List.mapM_cons,
    heval]
  rfl

/-! ## Columns of names -/

namespace Column

theorem ofVariable_eq (names : List String) (d : Dialect) (x : String) :
    ofVariable (Assignment.enumerate names) x = ofFormula names d (.var x false) := by
  have hcell : ∀ r, ((Assignment.ofRow names r).get? x).getD false = rowValuation names r x := by
    intro r
    rfl
  simp [ofVariable, ofFormula, Assignment.enumerate, Formula.text, Formula.value, hcell]

variable {rows : List Assignment} {columns : List Column} {x : String}

theorem withVariables_of_mem (h : x ∈ columns.map (·.label)) (xs : List String) :
    withVariables rows columns (x :: xs) = withVariables rows columns xs := by
  rw [withVariables, if_pos (by simpa using h)]

theorem withVariables_of_notMem (h : x ∉ columns.map (·.label)) (xs : List String) :
    withVariables rows columns (x :: xs) =
      withVariables rows (columns ++ [ofVariable rows x]) xs := by
  rw [withVariables, if_neg (by simpa using h)]

theorem map_label_append (columns : List Column) (rows : List Assignment) (x : String) :
    (columns ++ [ofVariable rows x]).map (·.label) = columns.map (·.label) ++ [x] := by
  rw [List.map_append]
  rfl

/-- A column is added for every name that is no label yet. -/
theorem mem_withVariables {xs : List String} {col : Column} :
    col ∈ withVariables rows columns xs ↔
      col ∈ columns ∨ ∃ x ∈ xs, x ∉ columns.map (·.label) ∧ col = ofVariable rows x := by
  induction xs generalizing columns with
  | nil => simp [withVariables]
  | cons x xs ih =>
    simp only [List.mem_cons, exists_eq_or_imp]
    by_cases hx : x ∈ columns.map (·.label)
    · -- the first name is a label already and adds nothing
      rw [withVariables_of_mem hx, ih]
      simp only [hx, not_true_eq_false, false_and, false_or]
    · -- it gets a column, which is a label for the names behind it
      rw [withVariables_of_notMem hx, ih, map_label_append]
      simp only [List.mem_append, List.mem_singleton, not_or]
      constructor
      · intro h
        rcases h with (hcol | rfl) | ⟨y, hy, ⟨hlabel, -⟩, rfl⟩
        · exact .inl hcol
        · exact .inr (.inl ⟨hx, rfl⟩)
        · exact .inr (.inr ⟨y, hy, hlabel, rfl⟩)
      · intro h
        rcases h with hcol | ⟨-, rfl⟩ | ⟨y, hy, hlabel, rfl⟩
        · exact .inl (.inl hcol)
        · exact .inl (.inr rfl)
        · -- a name that stands in the list again has its column already
          by_cases hyx : y = x
          · exact .inl (.inr (by rw [hyx]))
          · exact .inr ⟨y, hy, ⟨hlabel, hyx⟩, rfl⟩

/-- No label is added twice. -/
theorem nodup_withVariables (xs : List String) (h : (columns.map (·.label)).Nodup) :
    ((withVariables rows columns xs).map (·.label)).Nodup := by
  induction xs generalizing columns with
  | nil => exact h
  | cons x xs ih =>
    by_cases hx : x ∈ columns.map (·.label)
    · rw [withVariables_of_mem hx]
      exact ih h
    · rw [withVariables_of_notMem hx]
      apply ih
      rw [map_label_append, List.nodup_append]
      refine ⟨h, List.pairwise_singleton _ x, ?_⟩
      intro y hy z hz
      rw [List.mem_singleton.1 hz]
      rintro rfl
      exact hx hy

/-! ## The order of columns -/

/-- The order of columns in a table: by the length of the label, then by the label. -/
def Before (a b : Column) : Prop :=
  a.label.length < b.label.length ∨ a.label.length = b.label.length ∧ a.label < b.label

theorem Before.trans {a b c : Column} (h : a.Before b) (h' : b.Before c) : a.Before c := by
  rcases h with h | ⟨hlen, hlt⟩ <;> rcases h' with h' | ⟨hlen', hlt'⟩
  · exact .inl (Nat.lt_trans h h')
  · exact .inl (hlen' ▸ h)
  · exact .inl (hlen ▸ h')
  · exact .inr ⟨hlen.trans hlen', String.lt_trans hlt hlt'⟩

/-- Of two columns one stands first, unless they have the same label. -/
theorem before_or_before {a b : Column} (h : a.label ≠ b.label) : a.Before b ∨ b.Before a := by
  rcases Nat.lt_trichotomy a.label.length b.label.length with hlen | hlen | hlen
  · exact .inl (.inl hlen)
  · rcases Std.lt_trichotomy a.label b.label with hlt | heq | hlt
    · exact .inl (.inr ⟨hlen, hlt⟩)
    · exact absurd heq h
    · exact .inr (.inr ⟨hlen.symm, hlt⟩)
  · exact .inr (.inl hlen)

/-- Columns are compared in this order, and those with the same label count as ordered both ways. -/
theorem precedes_eq_true_iff {a b : Column} :
    a.precedes b = true ↔ a.Before b ∨ a.label = b.label := by
  simp only [precedes, Before, Bool.or_eq_true, Bool.and_eq_true, decide_eq_true_eq, beq_iff_eq,
    Bool.not_eq_true', decide_eq_false_iff_not, String.not_lt, Std.le_iff_lt_or_eq]
  constructor
  · intro h
    rcases h with hlen | ⟨hlen, hlt | heq⟩
    · exact .inl (.inl hlen)
    · exact .inl (.inr ⟨hlen, hlt⟩)
    · exact .inr heq
  · intro h
    rcases h with (hlen | ⟨hlen, hlt⟩) | heq
    · exact .inl hlen
    · exact .inr ⟨hlen, .inl hlt⟩
    · exact .inr ⟨by rw [heq], .inr heq⟩

theorem precedes_trans (a b c : Column) (h : a.precedes b = true) (h' : b.precedes c = true) :
    a.precedes c = true := by
  rw [precedes_eq_true_iff] at h h' ⊢
  rcases h with h | hlabel
  · rcases h' with h' | hlabel'
    · exact .inl (h.trans h')
    · rw [Before, hlabel'] at h
      exact .inl h
  · rw [Before, ← hlabel] at h'
    exact h'

theorem precedes_total (a b : Column) : (a.precedes b || b.precedes a) = true := by
  rw [Bool.or_eq_true, precedes_eq_true_iff, precedes_eq_true_iff]
  by_cases hlabel : a.label = b.label
  · exact .inl (.inr hlabel)
  · exact (before_or_before hlabel).imp .inl .inl

/-- Sorting columns without repeated labels brings them into strict order. -/
theorem pairwise_mergeSort_precedes (h : (columns.map (·.label)).Nodup) :
    (columns.mergeSort precedes).Pairwise Before := by
  -- only columns with one label count as ordered both ways, and there are no such columns
  have hsorted := List.pairwise_mergeSort precedes_trans precedes_total columns
  have hperm := (List.mergeSort_perm columns precedes).map (·.label)
  have hnodup := List.pairwise_map.1 (hperm.nodup_iff.2 h)
  refine (hsorted.and hnodup).imp ?_
  intro a b hab
  exact (precedes_eq_true_iff.1 hab.1).resolve_right hab.2

end Column

/-! ## The columns of a table -/

variable {f g : Formula}

/-- The formulas that have a column: the wanted parts of the formula, and the names as variables. -/
def Formula.HasColumn (names : List String) (intermediate : Bool) (f g : Formula) : Prop :=
  f.IsLabeled intermediate g ∨ ∃ x ∈ names, g = .var x false

theorem Formula.HasColumn.isLettered (hf : f.IsLettered) (hlettered : ∀ x ∈ names, IsVariableName x)
    (h : f.HasColumn names intermediate g) : g.IsLettered := by
  rcases h with h | ⟨y, hy, rfl⟩
  · exact h.isLettered hf
  · intro x hx
    rw [List.mem_singleton.1 hx]
    exact hlettered y hy

theorem Formula.HasColumn.leaves (hleaves : ∀ x ∈ f.leaves, x ∈ names)
    (h : f.HasColumn names intermediate g) : ∀ x ∈ g.leaves, x ∈ names := by
  intro x hx
  rcases h with h | ⟨y, hy, rfl⟩
  · exact hleaves x (h.leaves x hx)
  · rw [List.mem_singleton.1 hx]
    exact hy

/-- The columns of a table before they are sorted. -/
def tableColumns (names : List String) (d : Dialect) (intermediate : Bool) (f : Formula) :
    List Column :=
  Column.withVariables (Assignment.enumerate names)
    ((f.labeledParts d intermediate).map fun e => .ofFormula names d e.2) names

/-- No label occurs twice among them. -/
theorem nodup_tableColumns : ((tableColumns names d intermediate f).map (·.label)).Nodup := by
  apply Column.nodup_withVariables
  have hlabels : ((f.labeledParts d intermediate).map fun e =>
      Column.ofFormula names d e.2).map (·.label) =
        (f.labeledParts d intermediate).map (·.1) := by
    rw [List.map_map]
    exact List.map_congr_left fun e he => (Formula.of_mem_labeledParts he).1.symm
  rw [hlabels]
  exact Formula.nodup_firstOfLabel _

/-- They are the columns of the formulas that have one, whichever came first with its label. -/
theorem mem_tableColumns (hf : f.IsLettered) (hlettered : ∀ x ∈ names, IsVariableName x)
    {col : Column} : col ∈ tableColumns names d intermediate f ↔
      ∃ g, f.HasColumn names intermediate g ∧ col = .ofFormula names d g := by
  rw [tableColumns, Column.mem_withVariables]
  constructor
  · intro h
    rcases h with hcol | ⟨x, hx, -, rfl⟩
    · rcases List.mem_map.1 hcol with ⟨e, he, rfl⟩
      exact ⟨e.2, .inl (Formula.of_mem_labeledParts he).2, rfl⟩
    · exact ⟨.var x false, .inr ⟨x, hx, rfl⟩, Column.ofVariable_eq names d x⟩
  · intro h
    rcases h with ⟨g, hg, rfl⟩
    -- the part that has the label of `g` prints like `g`, so it has the column of `g`
    have hsame : ∀ e ∈ f.labeledParts d intermediate, e.1 = g.text d →
        Column.ofFormula names d g ∈
          (f.labeledParts d intermediate).map fun e => .ofFormula names d e.2 := by
      intro e he hlabel
      rcases Formula.of_mem_labeledParts he with ⟨htext, hpart⟩
      refine List.mem_map.2 ⟨e, he, Column.ofFormula_eq ?_ ?_ (htext.symm.trans hlabel)⟩
      · exact Formula.HasColumn.isLettered hf hlettered (.inl hpart)
      · exact hg.isLettered hf hlettered
    rcases hg with hpart | ⟨x, hx, rfl⟩
    · rcases Formula.exists_labeledPart (d := d) hpart with ⟨e, he, hlabel⟩
      exact .inl (hsame e he hlabel)
    · -- a part may print as this name, and then it has the column
      by_cases hlabel : ∃ e ∈ f.labeledParts d intermediate, e.1 = x
      · rcases hlabel with ⟨e, he, hlabel⟩
        exact .inl (hsame e he hlabel)
      · refine .inr ⟨x, hx, ?_, (Column.ofVariable_eq names d x).symm⟩
        intro hmem
        rw [List.map_map] at hmem
        rcases List.mem_map.1 hmem with ⟨e, he, hx⟩
        exact hlabel ⟨e, he, (Formula.of_mem_labeledParts he).1.trans hx⟩

/-! ## The whole table -/

/-- The values of a labeled part below its label. -/
def Column.ofPart (names : List String) (e : String × Formula) : Except MissingValue Column := do
  return ⟨e.1, ← e.2.valuesOn (Assignment.enumerate names)⟩

/-- A table adds the columns of the names to those of the labeled parts and sorts them. -/
theorem Subject.truthTable_eq (s : Subject) :
    s.truthTable (some names) intermediate (some d) =
      ((s.root.labeledParts d intermediate).mapM (Column.ofPart names) >>= fun columns =>
        .ok ((Column.withVariables (Assignment.enumerate names) columns names).mergeSort
          Column.precedes)) := rfl

theorem Subject.truthTable_eq_ok {s : Subject} (hleaves : ∀ x ∈ s.root.leaves, x ∈ names) :
    s.truthTable (some names) intermediate (some d) =
      .ok ((tableColumns names d intermediate s.root).mergeSort Column.precedes) := by
  have hparts : (s.root.labeledParts d intermediate).mapM (Column.ofPart names) =
      .ok ((s.root.labeledParts d intermediate).map fun e => .ofFormula names d e.2) := by
    refine mapM_eq_ok fun e he => ?_
    rcases Formula.of_mem_labeledParts he with ⟨hlabel, hpart⟩
    have hvalues := Formula.valuesOn_enumerate d fun x hx => hleaves x (hpart.leaves x hx)
    rw [Column.ofPart, hvalues, hlabel]
    rfl
  rw [truthTable_eq, hparts]
  rfl

/-- An expression has a truth table over its own names, and as that has no gaps it can be laid out. -/
theorem Expression.exists_lines {e : Expression} (h : e.root.IsLettered) (intermediate : Bool)
    (dialect? : Option Dialect) :
    ∃ columns lines,
      (Subject.expression e).truthTable none intermediate dialect? = .ok columns ∧
        TableLayout.lines columns = .ok lines := by
  have hnames : ∀ x ∈ e.names, IsVariableName x := fun x hx => h x (Formula.mem_names.1 hx)
  have htable : (Subject.expression e).truthTable none intermediate dialect? =
      .ok ((tableColumns e.names (dialect?.getD e.dialect) intermediate e.root).mergeSort
        Column.precedes) := by
    cases dialect? <;>
      exact Subject.truthTable_eq_ok (s := .expression e) fun _ hx => Formula.mem_names.2 hx
  have hlength : ∀ c ∈ (tableColumns e.names (dialect?.getD e.dialect) intermediate
      e.root).mergeSort Column.precedes, c.values.length = rowCount e.names.length := by
    intro c hc
    rcases (mem_tableColumns h hnames).1 (List.mem_mergeSort.1 hc) with ⟨g, -, rfl⟩
    rw [Column.ofFormula, List.length_map, List.length_range]
  rcases TableLayout.exists_lines hlength with ⟨lines, hlines⟩
  exact ⟨_, lines, htable, hlines⟩

/-- A name that is missing makes the part that has the label of the whole fail, if no part before it
fails already. -/
theorem Subject.truthTable_eq_error {s : Subject} (hf : s.root.IsLettered)
    (hmissing : ∃ x ∈ s.root.leaves, x ∉ names) :
    ∃ x ∈ s.root.leaves, x ∉ names ∧
      s.truthTable (some names) intermediate (some d) = .error ⟨x⟩ := by
  have hfails : ∀ e : String × Formula, (∃ x ∈ e.2.leaves, x ∉ names) →
      ∃ x ∈ e.2.leaves, x ∉ names ∧ Column.ofPart names e = .error ⟨x⟩ := by
    intro e he
    rcases Formula.valuesOn_eq_error he with ⟨x, hx, hout, hvalues⟩
    exact ⟨x, hx, hout, by rw [Column.ofPart, hvalues]; rfl⟩
  -- what a part reports is missing from the whole
  have herrors : ∀ e ∈ s.root.labeledParts d intermediate, ∀ m : MissingValue,
      Column.ofPart names e = .error m → m.name ∈ s.root.leaves ∧ m.name ∉ names := by
    intro e he m hm
    have hpart := (Formula.of_mem_labeledParts he).2
    by_cases hlisted : ∀ x ∈ e.2.leaves, x ∈ names
    · rw [Column.ofPart, Formula.valuesOn_enumerate d hlisted] at hm
      cases hm
    · rcases hfails e (by simpa using hlisted) with ⟨x, hx, hout, herror⟩
      rw [herror] at hm
      cases hm
      exact ⟨hpart.leaves x hx, hout⟩
  have hroot : ∃ e ∈ s.root.labeledParts d intermediate, ∃ m, Column.ofPart names e = .error m := by
    have hwhole : s.root.IsLabeled intermediate s.root := .root
    rcases Formula.exists_labeledPart (d := d) hwhole with ⟨e, he, hlabel⟩
    rcases Formula.of_mem_labeledParts he with ⟨htext, hpart⟩
    -- this part prints like the whole, so the missing name is one of its leaves
    have hleaves := Formula.leaves_eq_of_text_eq (hpart.isLettered hf) hf
      (htext.symm.trans hlabel)
    rcases hfails e (by rw [hleaves]; exact hmissing) with ⟨x, -, -, herror⟩
    exact ⟨e, he, _, herror⟩
  rcases mapM_eq_error herrors hroot with ⟨m, ⟨hleaf, hout⟩, hparts⟩
  refine ⟨m.name, hleaf, hout, ?_⟩
  rw [truthTable_eq, hparts]
  rfl

/-- A truth table has a column for every wanted part and every name, under its print, and no other.
The labels ascend strictly, and a cell is the value of what its label prints in the assignment of the
row. There is no table when a name of the formula is missing. -/
theorem truthTable_columns (s : Subject) (names : List String) (intermediate : Bool) (d : Dialect)
    (hf : s.root.IsLettered) (hlettered : ∀ x ∈ names, IsVariableName x) :
    ((∀ x ∈ s.root.leaves, x ∈ names) → ∃ columns,
      s.truthTable (some names) intermediate (some d) = .ok columns ∧
      columns.Pairwise (fun a b => a.label.length < b.label.length ∨
        a.label.length = b.label.length ∧ a.label < b.label) ∧
      (∀ col ∈ columns, col.values.length = rowCount names.length) ∧
      (∀ label, label ∈ columns.map (·.label) ↔
        label ∈ names ∨ ∃ g, s.root.IsLabeled intermediate g ∧ g.text d = label) ∧
      ∀ g, s.root.IsLabeled intermediate g ∨ (∃ x ∈ names, g = .var x false) →
        ∃ col ∈ columns, col.label = g.text d ∧
          ∀ r < rowCount names.length, ∃ a v, (Assignment.enumerate names)[r]? = some a ∧
            col.values[r]? = some v ∧ g.evaluate a = .ok v) ∧
    ((∃ x ∈ s.root.leaves, x ∉ names) → ∃ x ∈ s.root.leaves, x ∉ names ∧
      s.truthTable (some names) intermediate (some d) = .error ⟨x⟩) := by
  refine ⟨fun hleaves => ?_, Subject.truthTable_eq_error hf⟩
  have hmem : ∀ col, col ∈ (tableColumns names d intermediate s.root).mergeSort Column.precedes ↔
      ∃ g, s.root.HasColumn names intermediate g ∧ col = .ofFormula names d g := by
    intro col
    rw [(List.mergeSort_perm _ _).mem_iff, mem_tableColumns hf hlettered]
  refine ⟨_, Subject.truthTable_eq_ok hleaves, ?_, ?_, ?_, ?_⟩
  · exact Column.pairwise_mergeSort_precedes nodup_tableColumns
  · intro col hcol
    rcases (hmem col).1 hcol with ⟨g, -, rfl⟩
    simp [Column.ofFormula]
  · intro label
    simp only [List.mem_map, hmem]
    constructor
    · intro h
      rcases h with ⟨col, ⟨g, hg, rfl⟩, rfl⟩
      rcases hg with hpart | ⟨x, hx, rfl⟩
      · exact .inr ⟨g, hpart, rfl⟩
      · exact .inl hx
    · intro h
      rcases h with hx | ⟨g, hpart, rfl⟩
      · exact ⟨_, ⟨.var label false, .inr ⟨label, hx, rfl⟩, rfl⟩, rfl⟩
      · exact ⟨_, ⟨g, .inl hpart, rfl⟩, rfl⟩
  · intro g hg
    refine ⟨.ofFormula names d g, (hmem _).2 ⟨g, hg, rfl⟩, rfl, fun r hr => ?_⟩
    have hcolumn : s.root.HasColumn names intermediate g := hg
    refine ⟨_, g.value (rowValuation names r), Assignment.getElem?_enumerate hr, ?_,
      Formula.evaluate_ofRow (hcolumn.leaves hleaves) r⟩
    simp [Column.ofFormula, hr]

/-- A negated group that occurs twice, names in no order with one that does not occur, and the same
formula with a name missing. -/
theorem truthTable_columns_repeated :
    let f : Formula := .binary (.var "b" true) .or (.var "a" false) true .logic
    let s : Subject := .formula (.binary f .implies (.binary f .nor (.var "q" false) false .code)
      false .pseudo)
    let names := ["q", "b", "z", "a"]
    s.root.IsLettered ∧ (∀ x ∈ names, IsVariableName x) ∧ (∀ x ∈ s.root.leaves, x ∈ names) ∧
    (∃ columns,
      s.truthTable (some names) true (some .code) = .ok columns ∧
      columns.Pairwise (fun a b => a.label.length < b.label.length ∨
        a.label.length = b.label.length ∧ a.label < b.label) ∧
      (∀ col ∈ columns, col.values.length = rowCount names.length) ∧
      (∀ label, label ∈ columns.map (·.label) ↔
        label ∈ names ∨ ∃ g, s.root.IsLabeled true g ∧ g.text .code = label) ∧
      ∀ g, s.root.IsLabeled true g ∨ (∃ x ∈ names, g = .var x false) →
        ∃ col ∈ columns, col.label = g.text .code ∧
          ∀ r < rowCount names.length, ∃ a v, (Assignment.enumerate names)[r]? = some a ∧
            col.values[r]? = some v ∧ g.evaluate a = .ok v) ∧
    ∃ x ∈ s.root.leaves, x ∉ ["b", "q"] ∧
      s.truthTable (some ["b", "q"]) true (some .code) = .error ⟨x⟩ :=
  ⟨by decide, by decide, by decide,
    (truthTable_columns (.formula _) _ true .code (by decide) (by decide)).1 (by decide),
    (truthTable_columns (.formula _) _ true .code (by decide) (by decide)).2
      ⟨"a", by decide, by decide⟩⟩

end PropCalc
