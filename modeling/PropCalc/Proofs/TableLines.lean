import Mathlib.Algebra.Ring.Nat
import PropCalc.TableLayout
import PropCalc.Proofs.Valuation
/-!
# Lines of a table

How a table looks. All its lines are built alike: a border, and then for every column a field and a
border again (`bordered`). A field is as wide as the label of its column with a blank on either side,
so the borders stand below each other.

* `drop_bordered` — behind as many fields as one likes stands a border and the rest of the line;
* `lines_eq_ok`, `lines_eq_error` — the lines of a table, and the error when a column ends too early;
* `IsRuled` — what is common to all lines: `isRuled_labels`, `isRuled_rule`, `isRuled_cells`;
* `lines_aligned` — the table as a whole.
-/

namespace PropCalc.TableLayout

/-! ## Borders and fields -/

section

variable {b : Char} {fields : List (List Char)} {field : List Char} {k : Nat}

/-- Fields with a border in front of each and one at the end. -/
def bordered (b : Char) : List (List Char) → List Char
  | [] => [b]
  | field :: fields => b :: field ++ bordered b fields

theorem bordered_eq_intercalate (b : Char) (field : List Char) (fields : List (List Char)) :
    bordered b (field :: fields) = b :: [b].intercalate (field :: fields) ++ [b] := by
  induction fields generalizing field with
  | nil => simp [bordered]
  | cons next fields ih => rw [bordered, ih, List.intercalate_cons_cons]; simp

theorem length_bordered (b : Char) (fields : List (List Char)) :
    (bordered b fields).length = 1 + (fields.map fun field => field.length + 1).sum := by
  induction fields with
  | nil => rfl
  | cons field fields ih =>
    rw [bordered, List.length_append, ih, List.length_cons, List.map_cons, List.sum_cons]
    omega

/-- How much of a line stands in front of the border behind the first `k` fields. -/
def offset (widths : List Nat) (k : Nat) : Nat := ((widths.take k).map (· + 1)).sum

theorem offset_succ {widths : List Nat} {width : Nat} (h : widths[k]? = some width) :
    offset widths (k + 1) = offset widths k + (width + 1) := by
  rw [offset, offset, List.take_add_one, h, List.map_append, List.sum_append]
  rfl

/-- Behind the first fields stands the line of the others. -/
theorem drop_bordered (b : Char) (hk : k ≤ fields.length) :
    (bordered b fields).drop (offset (fields.map List.length) k) = bordered b (fields.drop k) := by
  induction fields generalizing k with
  | nil =>
    rw [List.length_nil, Nat.le_zero] at hk
    rw [hk]
    rfl
  | cons field fields ih =>
    cases k with
    | zero => rfl
    | succ k =>
      -- the first field with its border is dropped, then the others
      have hoffset : offset ((field :: fields).map List.length) (k + 1) =
          (b :: field).length + offset (fields.map List.length) k := by
        simp [offset]
      rw [hoffset, bordered, ← List.drop_drop, List.drop_left, List.drop_succ_cons]
      exact ih (Nat.le_of_succ_le_succ hk)

theorem getElem?_bordered_offset (b : Char) (hk : k ≤ fields.length) :
    (bordered b fields)[offset (fields.map List.length) k]? = some b := by
  have hhead : (bordered b (fields.drop k))[0]? = some b := by
    cases fields.drop k with
    | nil => rfl
    | cons field fields => rfl
  rw [← drop_bordered b hk, List.getElem?_drop] at hhead
  exact hhead

/-- Between two neighbouring borders stands a field. -/
theorem drop_take_bordered (b : Char) (hk : fields[k]? = some field) :
    ((bordered b fields).take (offset (fields.map List.length) (k + 1))).drop
      (offset (fields.map List.length) k + 1) = field := by
  have hlt : k < fields.length := (List.getElem?_eq_some_iff.1 hk).1
  have hwidth : (fields.map List.length)[k]? = some field.length := by
    rw [List.getElem?_map, hk]
    rfl
  -- behind the border the line goes on with this field
  have hrest : fields.drop k = field :: fields.drop (k + 1) := by
    rw [List.drop_eq_getElem_cons hlt, (List.getElem?_eq_some_iff.1 hk).2]
  rw [List.drop_take, offset_succ hwidth, ← List.drop_drop, drop_bordered b (Nat.le_of_lt hlt), hrest,
    bordered, List.cons_append, List.drop_succ_cons, List.drop_zero]
  have hlength : offset (fields.map List.length) k + (field.length + 1) -
      (offset (fields.map List.length) k + 1) = field.length := by omega
  rw [hlength, List.take_left]

/-- A text with a blank on either side. -/
def padded (s : List Char) : List Char := ' ' :: s ++ [' ']

theorem intercalate_padded (s : List Char) (ss : List (List Char)) :
    ['|'].intercalate ((s :: ss).map padded) =
      ' ' :: [' ', '|', ' '].intercalate (s :: ss) ++ [' '] := by
  induction ss generalizing s with
  | nil => simp [padded]
  | cons t ss ih =>
    rw [List.map_cons, List.map_cons, List.intercalate_cons_cons, ← List.map_cons, ih,
      List.intercalate_cons_cons]
    simp [padded]

end

/-! ## Cells -/

variable {columns others : List Column} {first c : Column} {i : Nat}

theorem toList_times_singleton (n : Nat) (ch : Char) :
    (times n ch.toString).toList = List.replicate n ch := by
  rw [times, String.toList_join]
  induction n with
  | zero => rfl
  | succ n ih => rw [List.replicate_succ, List.flatMap_cons, ih]; simp [List.replicate_succ]

/-- A letter in the middle of a field that is wide enough, an odd blank going to the right. -/
theorem toList_center_letter (ch : Char) (width : Nat) :
    (center ch.toString width " ").toList =
      List.replicate ((width - 1) / 2) ' ' ++ ch ::
        List.replicate (width - 1 - (width - 1) / 2) ' ' := by
  have hone : ch.toString.length = 1 := by simp
  have hblank : " " = (' ').toString := rfl
  rw [center, hone]
  split
  · next h =>
    -- the letter fills the field, so there is nothing to share out
    have hzero : width - 1 = 0 := by omega
    simp [hzero]
  · simp only [String.toList_append, hblank, toList_times_singleton]
    simp

theorem center_length (s fill : String) : center s s.length fill = s := by
  rw [center, if_pos (Nat.le_refl _)]

/-- What a cell shows. -/
def shownCell (i : Nat) (c : Column) : String :=
  center (Assignment.letter (c.values[i]?.getD false)).toString c.label.length " "

theorem cell_eq_ok (h : i < c.values.length) : cell i c = .ok (shownCell i c) := by
  rw [cell, shownCell, List.getElem?_eq_getElem h]
  rfl

theorem cell_eq_error (h : c.values.length ≤ i) : cell i c = .error .shortColumn := by
  rw [cell, List.getElem?_eq_none h]

/-! ## Tables with and without gaps -/

/-- Columns that are as long as the first one can be laid out. -/
theorem lines_eq_ok (h : ∀ c ∈ first :: others, first.values.length ≤ c.values.length) :
    lines (first :: others) =
      .ok (row ((first :: others).map Column.label) :: rule (first :: others) ::
        (List.range first.values.length).map fun i =>
          row ((first :: others).map (shownCell i))) := by
  -- a row reaches into every column, as none ends before the first
  have hrow : ∀ i ∈ List.range first.values.length,
      (do return row (← (first :: others).mapM (cell i)) : Except RaggedTable String) =
        .ok (row ((first :: others).map (shownCell i))) := by
    intro i hi
    have hcells : (first :: others).mapM (cell i) = .ok ((first :: others).map (shownCell i)) :=
      mapM_eq_ok fun c hc => cell_eq_ok (Nat.lt_of_lt_of_le (List.mem_range.1 hi) (h c hc))
    rw [hcells]
    rfl
  have hlabels : (first :: others).map (fun c => center c.label c.label.length " ") =
      (first :: others).map Column.label :=
    List.map_congr_left fun c _ => center_length c.label " "
  rw [lines, mapM_eq_ok hrow, hlabels]
  rfl

/-- A column that ends before the first one does leaves a gap in some row. -/
theorem lines_eq_error (h : ∃ c ∈ first :: others, c.values.length < first.values.length) :
    lines (first :: others) = .error .shortColumn := by
  rcases h with ⟨c, hc, hshort⟩
  -- in the row behind its end the column has no cell, and there is no other error
  have hcells : (first :: others).mapM (cell c.values.length) = .error .shortColumn := by
    rcases mapM_eq_error (f := cell c.values.length) (P := fun _ => True) (fun _ _ _ _ => trivial)
      ⟨c, hc, _, cell_eq_error (Nat.le_refl _)⟩ with ⟨⟨⟩, -, herror⟩
    exact herror
  have hrow : ∃ i ∈ List.range first.values.length, ∃ e,
      (do return row (← (first :: others).mapM (cell i)) : Except RaggedTable String) = .error e := by
    refine ⟨c.values.length, List.mem_range.2 hshort, .shortColumn, ?_⟩
    rw [hcells]
    rfl
  rcases mapM_eq_error (P := fun _ => True) (fun _ _ _ _ => trivial) hrow with ⟨⟨⟩, -, hrows⟩
  rw [lines, hrows]
  rfl

/-- Columns of one length can be laid out. -/
theorem exists_lines {n : Nat} (h : ∀ c ∈ columns, c.values.length = n) :
    ∃ ls, lines columns = .ok ls := by
  cases columns with
  | nil => exact ⟨[], rfl⟩
  | cons first others =>
    have hfirst := h first List.mem_cons_self
    exact ⟨_, lines_eq_ok fun c hc => Nat.le_of_eq (hfirst.trans (h c hc).symm)⟩

/-! ## Lines -/

/-- Where the border behind the first `k` columns stands. -/
def border (columns : List Column) (k : Nat) : Nat :=
  ((columns.take k).map fun c => c.label.length + 3).sum

/-- What a line shows between the borders of a column. -/
def fieldOf (columns : List Column) (j : Nat) (line : String) : List Char :=
  (line.toList.take (border columns (j + 1))).drop (border columns j + 1)

/-- A line with one border and a field for every column, as wide as its label and two blanks. -/
structure IsRuled (columns : List Column) (b : Char) (content : Column → List Char) (line : String) :
    Prop where
  toList_eq : line.toList = bordered b (columns.map content)
  width : ∀ c ∈ columns, (content c).length = c.label.length + 2

namespace IsRuled

variable {b : Char} {content : Column → List Char} {line : String}

theorem widths (h : IsRuled columns b content line) :
    (columns.map content).map List.length = columns.map fun c => c.label.length + 2 := by
  rw [List.map_map]
  exact List.map_congr_left h.width

theorem offset_eq (h : IsRuled columns b content line) (k : Nat) :
    offset ((columns.map content).map List.length) k = border columns k := by
  rw [h.widths, offset, border, ← List.map_take, List.map_map]
  rfl

theorem length_eq (h : IsRuled columns b content line) :
    line.length = 1 + (columns.map fun c => c.label.length + 3).sum := by
  have hsum := congrArg (fun widths => (widths.map (· + 1)).sum) h.widths
  simp only [List.map_map] at hsum
  rw [← String.length_toList, h.toList_eq, length_bordered, List.map_map]
  exact congrArg (1 + ·) hsum

theorem getElem?_border (h : IsRuled columns b content line) {k : Nat} (hk : k ≤ columns.length) :
    line.toList[border columns k]? = some b := by
  rw [h.toList_eq, ← h.offset_eq k]
  exact getElem?_bordered_offset b (by simpa using hk)

theorem fieldOf_eq (h : IsRuled columns b content line) {j : Nat} (hj : columns[j]? = some c) :
    fieldOf columns j line = content c := by
  rw [fieldOf, h.toList_eq, ← h.offset_eq j, ← h.offset_eq (j + 1)]
  exact drop_take_bordered b (by rw [List.getElem?_map, hj]; rfl)

end IsRuled

theorem toList_row (cell : String) (cells : List String) :
    (row (cell :: cells)).toList =
      bordered '|' ((cell :: cells).map fun s => padded s.toList) := by
  have hmap : (cell :: cells).map (fun s => padded s.toList) =
      ((cell :: cells).map String.toList).map padded := by
    rw [List.map_map]
    rfl
  rw [hmap, List.map_cons, List.map_cons, bordered_eq_intercalate, ← List.map_cons,
    intercalate_padded, row]
  simp [String.toList_append]

/-- A line of cells has a field for each column if the cells are as wide as the labels. -/
theorem isRuled_row (hne : columns ≠ []) {text : Column → String}
    (h : ∀ c ∈ columns, (text c).length = c.label.length) :
    IsRuled columns '|' (fun c => padded (text c).toList) (row (columns.map text)) where
  toList_eq := by
    cases columns with
    | nil => exact absurd rfl hne
    | cons c columns =>
      rw [List.map_cons, toList_row, ← List.map_cons, List.map_map]
      rfl
  width c hc := by
    rw [← h c hc, ← String.length_toList]
    simp [padded]

theorem isRuled_rule (hne : columns ≠ []) :
    IsRuled columns '+' (fun c => List.replicate (c.label.length + 2) '-') (rule columns) where
  toList_eq := by
    cases columns with
    | nil => exact absurd rfl hne
    | cons c columns =>
      have hdashes : ∀ n, (times n "-").toList = List.replicate n '-' :=
        fun n => toList_times_singleton n '-'
      rw [List.map_cons, bordered_eq_intercalate, rule]
      simp [String.toList_append, hdashes, Function.comp_def]
  width c _ := List.length_replicate

theorem isRuled_labels (hne : columns ≠ []) :
    IsRuled columns '|' (fun c => padded c.label.toList) (row (columns.map Column.label)) :=
  isRuled_row hne fun _ _ => rfl

theorem length_shownCell (i : Nat) (h : c.label ≠ "") :
    (shownCell i c).length = c.label.length := by
  -- an empty label would have no room for the letter
  have hpos : c.label.length ≠ 0 := fun hzero => h (String.length_eq_zero_iff.1 hzero)
  rw [← String.length_toList, shownCell, toList_center_letter]
  simp
  omega

theorem isRuled_cells (hne : columns ≠ []) (h : ∀ c ∈ columns, c.label ≠ "") (i : Nat) :
    IsRuled columns '|' (fun c => padded (shownCell i c).toList)
      (row (columns.map (shownCell i))) :=
  isRuled_row hne fun c hc => length_shownCell i (h c hc)

/-- The letter for a value, with the blanks around it. -/
theorem padded_shownCell {value : Bool} (h : c.values[i]? = some value) :
    padded (shownCell i c).toList =
      ' ' :: List.replicate ((c.label.length - 1) / 2) ' ' ++
        (if value then 'T' else 'F') ::
          List.replicate (c.label.length - 1 - (c.label.length - 1) / 2) ' ' ++ [' '] := by
  rw [shownCell, h, toList_center_letter]
  rfl

/-! ## The whole table -/

/-- Columns with labels make a table unless one of them is shorter than the first. All lines of the
table are of one length, and all have their borders in the same places: bars, and crosses in the
line below the labels. Between the borders of a column stand its label, dashes, and in every row the
letter for its value there, with the blanks around it shared out evenly or one more to the right. -/
theorem lines_aligned (columns : List Column) (first : Column) (others : List Column)
    (hcolumns : columns = first :: others) (hlabels : ∀ c ∈ columns, c.label ≠ "") :
    ((∃ c ∈ columns, c.values.length < first.values.length) →
      lines columns = .error .shortColumn) ∧
    ((∀ c ∈ columns, first.values.length ≤ c.values.length) →
      ∃ header ruled rows, lines columns = .ok (header :: ruled :: rows) ∧
        (header :: ruled :: rows).length = 2 + first.values.length ∧
        (∀ line ∈ header :: ruled :: rows,
          line.length = 1 + (columns.map fun c => c.label.length + 3).sum) ∧
        (∀ k ≤ columns.length, header.toList[border columns k]? = some '|' ∧
          ruled.toList[border columns k]? = some '+' ∧
          ∀ line ∈ rows, line.toList[border columns k]? = some '|') ∧
        ∀ (j : Nat) (c : Column), columns[j]? = some c →
          fieldOf columns j header = ' ' :: c.label.toList ++ [' '] ∧
          fieldOf columns j ruled = List.replicate (c.label.length + 2) '-' ∧
          ∀ (r : Nat) (line : String), rows[r]? = some line →
            ∃ value, c.values[r]? = some value ∧
              fieldOf columns j line =
                ' ' :: List.replicate ((c.label.length - 1) / 2) ' ' ++
                  (if value then 'T' else 'F') ::
                    List.replicate (c.label.length - 1 - (c.label.length - 1) / 2) ' ' ++ [' ']) := by
  subst hcolumns
  have hne : first :: others ≠ [] := List.cons_ne_nil first others
  have hheader := isRuled_labels hne
  have hruled := isRuled_rule hne
  have hrow := isRuled_cells hne hlabels
  refine ⟨lines_eq_error, fun hlong => ⟨_, _, _, lines_eq_ok hlong, ?_, ?_, fun k hk => ?_,
    fun j c hj => ⟨hheader.fieldOf_eq hj, hruled.fieldOf_eq hj, fun r line hline => ?_⟩⟩⟩
  · simp
    omega
  · simp only [List.forall_mem_cons, List.forall_mem_map]
    exact ⟨hheader.length_eq, hruled.length_eq, fun i _ => (hrow i).length_eq⟩
  · simp only [List.forall_mem_map]
    exact ⟨hheader.getElem?_border hk, hruled.getElem?_border hk,
      fun i _ => (hrow i).getElem?_border hk⟩
  · rw [List.getElem?_map] at hline
    rcases Option.map_eq_some_iff.1 hline with ⟨i, hi, rfl⟩
    -- lines below the rule are numbered as the rows are
    obtain ⟨hr, rfl⟩ : r < first.values.length ∧ r = i := by
      simpa [List.getElem?_eq_some_iff] using hi
    have hvalue := List.getElem?_eq_getElem
      (Nat.lt_of_lt_of_le hr (hlong c (List.mem_of_getElem? hj)))
    exact ⟨_, hvalue, ((hrow r).fieldOf_eq hj).trans (padded_shownCell hvalue)⟩

/-- A label of even length, over a column that goes on behind the last row. A third column that ends
before the first one does leaves no table. -/
theorem lines_aligned_uneven :
    let first : Column := ⟨"a", [true, false]⟩
    let negated : Column := ⟨"~a", [false, true, true]⟩
    let short : Column := ⟨"b", [true]⟩
    lines [first, negated, short] = .error .shortColumn ∧
      ∃ header ruled rows line, lines [first, negated] = .ok (header :: ruled :: rows) ∧
        rows[1]? = some line ∧ line.toList[border [first, negated] 1]? = some '|' ∧
        fieldOf [first, negated] 1 line = [' ', 'T', ' ', ' '] := by
  intro first negated short
  -- the third column leaves a gap in the second row
  have hgap := (lines_aligned [first, negated, short] first _ rfl (by decide)).1
  refine ⟨hgap ⟨short, by decide, by decide⟩, ?_⟩
  rcases (lines_aligned [first, negated] first _ rfl (by decide)).2 (by decide) with
    ⟨header, ruled, rows, hlines, hcount, -, hborders, hfields⟩
  have hrows : rows.length = 2 := by
    simpa [first] using hcount
  have hrow : rows[1]? = some rows[1] := List.getElem?_eq_getElem (by omega)
  rcases (hfields 1 negated rfl).2.2 1 _ hrow with ⟨value, hvalue, hfield⟩
  obtain rfl : true = value := Option.some.inj hvalue
  have hwidth : negated.label.length = 2 := by decide
  rw [hwidth] at hfield
  exact ⟨header, ruled, rows, rows[1], hlines, hrow,
    (hborders 1 (by decide)).2.2 _ (List.mem_of_getElem? hrow), hfield⟩

end PropCalc.TableLayout
