import PropCalc.Proofs.RowNumbering
import PropCalc.Proofs.TruthTables
/-!
# Columns of labeled values

The columns of a truth table are its labeled values, gathered by their labels: each value goes to the
end of the column that has its label, and a label without column opens one behind the others.

* `Column.grouped_entries` — columns with different labels come back from their own values;
* `Formula.labeledValues_enumerate` — the labeled values of a table are those of the columns that it is
  built from, and it is the same name that is missed;
* `Subject.truthTable_eq_grouped` — so it makes no difference which of the two a table starts from.
-/

namespace PropCalc

variable {rows : List Assignment} {columns : List Column} {label : String}

/-! ## Gathering values by labels -/

namespace Column

/-- Appends a value to the column that has its label. -/
def collect (columns : List Column) (v : LabeledValue) : List Column :=
  match columns with
  | [] => [⟨v.label, [v.value]⟩]
  | col :: columns =>
    if col.label = v.label then ⟨col.label, col.values ++ [v.value]⟩ :: columns
    else col :: collect columns v

/-- The columns of labeled values. -/
def grouped (values : List LabeledValue) : List Column := values.foldl collect []

/-- The values of a column on its rows. -/
def entries (rows : List Assignment) (col : Column) : List LabeledValue :=
  (rows.zip col.values).map fun (row, value) => ⟨col.label, row, value⟩

/-- Columns with other labels are passed. -/
theorem collect_append {v : LabeledValue} (h : v.label ∉ columns.map (·.label))
    (behind : List Column) : collect (columns ++ behind) v = columns ++ collect behind v := by
  induction columns with
  | nil => rfl
  | cons col columns ih =>
    rw [List.map_cons, List.mem_cons, not_or] at h
    rw [List.cons_append, collect, if_neg (Ne.symm h.1), ih h.2]
    rfl

/-- Values with one label stay together in the column that the first of them has opened. -/
theorem foldl_collect_label {values : List LabeledValue} (hvalues : ∀ v ∈ values, v.label = label)
    (h : label ∉ columns.map (·.label)) (bs : List Bool) :
    values.foldl collect (columns ++ [⟨label, bs⟩]) =
      columns ++ [⟨label, bs ++ values.map (·.value)⟩] := by
  induction values generalizing bs with
  | nil => simp
  | cons v values ih =>
    have hv : v.label = label := hvalues v List.mem_cons_self
    rw [List.foldl_cons, collect_append (hv ▸ h), collect, if_pos hv.symm,
      ih fun w hw => hvalues w (List.mem_cons_of_mem v hw)]
    simp

theorem map_value_entries {col : Column} (h : col.values.length = rows.length) :
    (col.entries rows).map (·.value) = col.values := by
  rw [entries, List.map_map]
  exact List.map_snd_zip (Nat.le_of_eq h)

/-- The values of a column with a new label become this column. -/
theorem foldl_collect_entries {col : Column} (hrows : rows ≠ [])
    (hlength : col.values.length = rows.length) (h : col.label ∉ columns.map (·.label)) :
    (col.entries rows).foldl collect columns = columns ++ [col] := by
  have hlabel : ∀ v ∈ col.entries rows, v.label = col.label := by
    intro v hv
    rcases List.mem_map.1 hv with ⟨p, -, rfl⟩
    rfl
  have hvalues := map_value_entries hlength
  cases hentries : col.entries rows with
  | nil =>
    -- a table has rows, and a column has a value on each of them
    rw [hentries, List.map_nil] at hvalues
    rw [← hvalues, List.length_nil] at hlength
    exact absurd (List.length_eq_zero_iff.1 hlength.symm) hrows
  | cons v values =>
    rw [hentries] at hlabel hvalues
    have hv : v.label = col.label := hlabel v List.mem_cons_self
    -- the first value opens the column behind the others, and the rest joins it
    have hopened := collect_append (hv ▸ h) []
    rw [List.append_nil] at hopened
    rw [List.foldl_cons, hopened, collect, hv,
      foldl_collect_label (fun w hw => hlabel w (List.mem_cons_of_mem v hw)) h,
      List.singleton_append, ← List.map_cons, hvalues]

theorem foldl_collect_flatMap (hrows : rows ≠ []) {before : List Column}
    (hlength : ∀ col ∈ columns, col.values.length = rows.length)
    (hnodup : ((before ++ columns).map (·.label)).Nodup) :
    (columns.flatMap (entries rows)).foldl collect before = before ++ columns := by
  -- the columns that are there already vary, as each column joins them
  induction columns generalizing before with
  | nil => simp
  | cons col columns ih =>
    have hnew : col.label ∉ before.map (·.label) := by
      intro hmem
      rw [List.map_append, List.nodup_append] at hnodup
      exact hnodup.2.2 _ hmem _ (List.mem_map_of_mem List.mem_cons_self) rfl
    rw [List.append_cons] at hnodup ⊢
    rw [List.flatMap_cons, List.foldl_append,
      foldl_collect_entries hrows (hlength col List.mem_cons_self) hnew]
    exact ih (fun c hc => hlength c (List.mem_cons_of_mem col hc)) hnodup

/-- Columns with different labels come back from their values. -/
theorem grouped_entries (hrows : rows ≠ [])
    (hlength : ∀ col ∈ columns, col.values.length = rows.length)
    (hnodup : (columns.map (·.label)).Nodup) :
    grouped (columns.flatMap (entries rows)) = columns :=
  foldl_collect_flatMap hrows hlength hnodup

end Column

/-! ## Labeled values of a table -/

theorem eraseDups_of_nodup {α : Type} [DecidableEq α] {l : List α} (h : l.Nodup) :
    l.eraseDups = l := by
  induction l with
  | nil => simp
  | cons a l ih =>
    rcases List.nodup_cons.1 h with ⟨ha, hl⟩
    have hkept : (l.filter fun b => !b == a) = l := by
      refine List.filter_eq_self.2 fun b hb => ?_
      simpa using ne_of_mem_of_not_mem hb ha
    rw [List.eraseDups_cons, hkept, ih hl]

variable {names : List String} {intermediate : Bool} {d : Dialect}

theorem Assignment.enumerate_ne_nil (names : List String) : enumerate names ≠ [] := by
  rw [← List.length_pos_iff, length_enumerate]
  exact rowCount_pos _

theorem Column.of_ofPart_eq_ok {e : String × Formula} {col : Column}
    (h : Column.ofPart names e = .ok col) :
    col.label = e.1 ∧ col.values.length = (Assignment.enumerate names).length := by
  unfold ofPart at h
  rcases exists_of_bind_eq_ok h with ⟨values, hvalues, h⟩
  cases h
  refine ⟨rfl, ?_⟩
  -- as many values as rows: each row gives exactly one, whatever it is
  have hunits := map_eq_of_mapM_eq_ok (g := fun _ => ()) (k := fun _ => ())
    (fun _ _ _ => rfl) hvalues
  simpa using congrArg List.length hunits

/-- The labeled values of a table are the values of its columns, part by part. No row is left out, as
no row occurs twice. -/
theorem Formula.labeledValues_enumerate (f : Formula) :
    f.labeledValues d intermediate (Assignment.enumerate names) =
      ((f.labeledParts d intermediate).mapM (Column.ofPart names) >>= fun columns =>
        pure (columns.flatMap (Column.entries (Assignment.enumerate names)))) := by
  -- one part: its values with their rows are the entries of its column, or both fail
  have hpart : ∀ e : String × Formula, (do
      let values ← e.2.valuesOn (Assignment.enumerate names)
      return ((Assignment.enumerate names).zip values).map fun (row, value) =>
        (⟨e.1, row, value⟩ : LabeledValue)) =
      (Column.ofPart names e >>= fun col =>
        pure (col.entries (Assignment.enumerate names))) := by
    intro e
    unfold Column.ofPart
    cases e.2.valuesOn (Assignment.enumerate names) <;> rfl
  have hrows : (Assignment.enumerate names).eraseDups = Assignment.enumerate names :=
    eraseDups_of_nodup (Assignment.nodup_enumerate names)
  simp only [labeledValues, hrows, hpart, mapM_bind_pure, bind_assoc, pure_bind, List.flatMap_def]

/-- The columns that are made of the labeled parts have different labels and a value on every row. -/
theorem Formula.of_mapM_ofPart_eq_ok {f : Formula} {columns : List Column}
    (h : (f.labeledParts d intermediate).mapM (Column.ofPart names) = .ok columns) :
    (columns.map (·.label)).Nodup ∧
      ∀ col ∈ columns, col.values.length = (Assignment.enumerate names).length := by
  have hlabels := map_eq_of_mapM_eq_ok (g := (·.label)) (k := (·.1))
    (fun _ _ hcol => (Column.of_ofPart_eq_ok hcol).1) h
  have hlengths := map_eq_of_mapM_eq_ok (g := (·.values.length))
    (fun _ _ hcol => (Column.of_ofPart_eq_ok hcol).2) h
  refine ⟨?_, fun col hcol => ?_⟩
  · rw [hlabels]
    exact nodup_firstOfLabel _
  · rcases List.mem_map.1 (hlengths ▸ List.mem_map_of_mem hcol) with ⟨e, -, heq⟩
    exact heq.symm

/-- A truth table can be built from its labeled values: their columns, and those of the names that are
no label, in the order of the labels. The name that is missed is the same, too. -/
theorem Subject.truthTable_eq_grouped (s : Subject) (names? : Option (List String))
    (intermediate : Bool) (dialect? : Option Dialect) :
    s.truthTable names? intermediate dialect? = do
      let names := s.namesOr names?
      let d := (dialect? <|> s.dialect?).getD s.root.dialect
      let values ← s.root.labeledValues d intermediate (Assignment.enumerate names)
      return (Column.withVariables (Assignment.enumerate names) (Column.grouped values)
        names).mergeSort Column.precedes := by
  have htable : s.truthTable names? intermediate dialect? =
      ((s.root.labeledParts ((dialect? <|> s.dialect?).getD s.root.dialect) intermediate).mapM
        (Column.ofPart (s.namesOr names?)) >>= fun columns =>
          .ok ((Column.withVariables (Assignment.enumerate (s.namesOr names?)) columns
            (s.namesOr names?)).mergeSort Column.precedes)) := rfl
  rw [htable]
  simp only [Formula.labeledValues_enumerate, bind_assoc, pure_bind]
  cases hparts : (s.root.labeledParts ((dialect? <|> s.dialect?).getD s.root.dialect)
      intermediate).mapM (Column.ofPart (s.namesOr names?)) with
  | error m => rfl
  | ok columns =>
    rcases Formula.of_mapM_ofPart_eq_ok hparts with ⟨hlabels, hlength⟩
    have hgrouped := Column.grouped_entries (Assignment.enumerate_ne_nil _) hlength hlabels
    show _ = Except.ok _
    rw [hgrouped]
    rfl

end PropCalc
