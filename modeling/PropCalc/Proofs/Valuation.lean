import PropCalc.Evaluation
import PropCalc.Proofs.Printing
import PropCalc.Proofs.Rows
/-!
# Valuations

The meaning of a formula as a function of a total valuation of names. Evaluation under an assignment
agrees with it wherever the assignment binds the names of the formula, so the rows of a table are
the valuations of its names, and `trueRows` lists those that make the formula true.
-/

namespace PropCalc

/-! ## Meaning -/

namespace Formula

/-- The truth value of a formula under a valuation of all names. -/
def value (σ : String → Bool) : Formula → Bool
  | var x n => σ x ^^ n
  | binary l c r n _ => c.apply (l.value σ) (r.value σ) ^^ n

/-- Evaluation gives this value as soon as the names of the formula are bound to theirs. -/
theorem evaluate_eq_ok {f : Formula} {a : Assignment} {σ : String → Bool}
    (h : ∀ x ∈ f.leaves, a.get? x = some (σ x)) : f.evaluate a = .ok (f.value σ) := by
  induction f with
  | var x n => simp [evaluate, value, h x (by simp [leaves])]
  | binary l c r n e ihl ihr =>
    have hl := ihl fun x hx => h x (List.mem_append_left _ hx)
    have hr := ihr fun x hx => h x (List.mem_append_right _ hx)
    simp [evaluate, value, hl, hr, bind, Except.bind, pure, Except.pure]

/-- Only the names that occur matter. -/
theorem value_congr {f : Formula} {σ τ : String → Bool} (h : ∀ x ∈ f.leaves, σ x = τ x) :
    f.value σ = f.value τ := by
  induction f with
  | var x n => simp [value, h x (by simp [leaves])]
  | binary l c r n e ihl ihr =>
    have hl := ihl fun x hx => h x (List.mem_append_left _ hx)
    have hr := ihr fun x hx => h x (List.mem_append_right _ hx)
    simp [value, hl, hr]

@[simp] theorem value_marked (d : Dialect) (f : Formula) (σ : String → Bool) :
    (f.marked d).value σ = f.value σ := by
  induction f with
  | var x n => rfl
  | binary l c r n e ihl ihr => simp [marked, value, ihl, ihr]

@[simp] theorem evaluate_marked (d : Dialect) (f : Formula) (a : Assignment) :
    (f.marked d).evaluate a = f.evaluate a := by
  induction f with
  | var x n => rfl
  | binary l c r n e ihl ihr => simp only [marked, evaluate, ihl, ihr]

end Formula

/-! ## Assignments -/

namespace Assignment

/-- The assignment that gives the names their values. -/
def onNames (names : List String) (σ : String → Bool) : Assignment :=
  ofLists names (names.map σ)

theorem get?_onNames {names : List String} {x : String} (σ : String → Bool) (h : x ∈ names) :
    (onNames names σ).get? x = some (σ x) := by
  unfold onNames ofLists get?
  induction names with
  | nil => simp at h
  | cons y names ih =>
    simp only [List.map_cons, List.zip_cons_cons, List.lookup_cons]
    -- the first pair decides, or is passed over
    by_cases hxy : x = y
    · simp [hxy]
    · rw [beq_eq_false_iff_ne.2 hxy]
      exact ih ((List.mem_cons.1 h).resolve_left hxy)

@[simp] theorem names_onNames (names : List String) (σ : String → Bool) :
    (onNames names σ).names = names := by
  simp [Assignment.names, onNames, ofLists, List.map_fst_zip]

/-- An assignment has a value for each of its names. -/
theorem get?_of_mem_names {a : Assignment} {x : String} (h : x ∈ a.names) :
    a.get? x = some ((a.get? x).getD false) := by
  rcases a with ⟨pairs⟩
  induction pairs with
  | nil => simp [Assignment.names] at h
  | cons p pairs ih =>
    rcases p with ⟨y, b⟩
    simp only [get?, List.lookup_cons]
    by_cases hxy : x = y
    · simp [hxy]
    · rw [beq_eq_false_iff_ne.2 hxy]
      apply ih
      simpa [Assignment.names, hxy] using h

theorem get?_eq_none_iff {a : Assignment} {x : String} : a.get? x = none ↔ x ∉ a.names := by
  rw [get?, List.lookup_eq_none_iff, Assignment.names, List.mem_map]
  constructor
  · intro h hmem
    rcases hmem with ⟨p, hp, rfl⟩
    simpa using h p hp
  · intro h p hp
    rw [bne_iff_ne]
    rintro rfl
    exact h ⟨p, hp, rfl⟩

theorem getElem?_enumerate {names : List String} {r : Nat} (h : r < rowCount names.length) :
    (enumerate names)[r]? = some (ofRow names r) := by
  simp [enumerate, h]

/-- Every row of a table binds the names of the table. -/
@[simp] theorem names_ofRow (names : List String) (row : Nat) : (ofRow names row).names = names := by
  simp [Assignment.names, ofRow, ofLists, List.map_fst_zip]

end Assignment

theorem Formula.evaluate_onNames {f : Formula} {names : List String} (σ : String → Bool)
    (h : ∀ x ∈ f.leaves, x ∈ names) :
    f.evaluate (.onNames names σ) = .ok (f.value σ) :=
  f.evaluate_eq_ok fun x hx => Assignment.get?_onNames σ (h x hx)

/-- Under an assignment of its names a formula has the value of the valuation that this stands for. -/
theorem Formula.evaluate_of_names {f : Formula} {a : Assignment}
    (h : ∀ x ∈ f.leaves, x ∈ a.names) :
    f.evaluate a = .ok (f.value fun x => (a.get? x).getD false) :=
  f.evaluate_eq_ok fun x hx => Assignment.get?_of_mem_names (h x hx)

/-- A formula has one value under all assignments of the names when it has it under all valuations. -/
theorem Formula.forall_evaluate_iff {f : Formula} {names : List String}
    (hleaves : ∀ x ∈ f.leaves, x ∈ names) (b : Bool) :
    (∀ a : Assignment, a.names = names → f.evaluate a = .ok b) ↔
      ∀ σ : String → Bool, f.value σ = b := by
  constructor
  · intro h σ
    -- a valuation is seen by the assignment that it gives the names
    have heval := h (.onNames names σ) (Assignment.names_onNames names σ)
    rw [f.evaluate_onNames σ hleaves] at heval
    exact Except.ok.inj heval
  · intro h a ha
    rw [Formula.evaluate_of_names (ha ▸ hleaves), h]

/-! ## Rows as valuations -/

/-- The valuation that a row of the table over the names stands for. -/
def rowValuation (names : List String) (row : Int) : String → Bool := fun x =>
  ((names.zip (rowTruths names.length row)).lookup x).getD false

theorem lookup_zip_of_mem {names : List String} {bs : List Bool} (hlen : bs.length = names.length)
    {x : String} (h : x ∈ names) :
    (names.zip bs).lookup x = some (((names.zip bs).lookup x).getD false) := by
  induction names generalizing bs with
  | nil => simp at h
  | cons y names ih =>
    rcases List.exists_cons_of_length_pos (l := bs) (by simp [hlen]) with ⟨b, bs, rfl⟩
    simp only [List.zip_cons_cons, List.lookup_cons]
    by_cases hxy : x = y
    · simp [hxy]
    · rw [beq_eq_false_iff_ne.2 hxy]
      exact ih (by simpa using hlen) ((List.mem_cons.1 h).resolve_left hxy)

theorem map_lookup_zip {names : List String} {bs : List Bool} (hlen : bs.length = names.length)
    (h : names.Nodup) : names.map (fun x => ((names.zip bs).lookup x).getD false) = bs := by
  induction names generalizing bs with
  | nil => simpa using (List.length_eq_zero_iff.1 hlen).symm
  | cons y names ih =>
    rcases List.exists_cons_of_length_pos (l := bs) (by simp [hlen]) with ⟨b, bs, rfl⟩
    rcases List.nodup_cons.1 h with ⟨hy, hnodup⟩
    rw [List.map_cons]
    congr 1
    · simp
    · refine (List.map_congr_left fun x hx => ?_).trans (ih (by simpa using hlen) hnodup)
      -- the look-up of a later name passes over the first
      have hxy : x ≠ y := by
        rintro rfl
        exact hy hx
      simp only [List.zip_cons_cons, List.lookup_cons, beq_eq_false_iff_ne.2 hxy]

/-- A row gives different names their truth values in order. -/
theorem map_rowValuation {names : List String} (h : names.Nodup) (row : Int) :
    names.map (rowValuation names row) = rowTruths names.length row :=
  map_lookup_zip (by simp) h

/-- Every valuation of different names is that of a row. -/
theorem rowValuation_rowNumber {names : List String} (h : names.Nodup) (σ : String → Bool)
    {x : String} (hx : x ∈ names) :
    rowValuation names (rowNumber (names.map σ)) x = σ x := by
  have hbits : rowTruths names.length (rowNumber (names.map σ)) = names.map σ := by
    simpa using rowTruths_rowNumber (names.map σ)
  have hmap := map_rowValuation h (rowNumber (names.map σ))
  rw [hbits] at hmap
  exact List.map_inj_left.1 hmap x hx

/-- On a row of the table a formula has the value under the valuation of the row. -/
theorem Formula.evaluate_ofRow {f : Formula} {names : List String}
    (h : ∀ x ∈ f.leaves, x ∈ names) (row : Nat) :
    f.evaluate (.ofRow names row) = .ok (f.value (rowValuation names row)) := by
  refine f.evaluate_eq_ok fun x hx => ?_
  rw [ofRow_eq_ofLists]
  exact lookup_zip_of_mem (by simp) (h x hx)

/-! ## Steps that may fail -/

/-- Two steps in a row succeed only when both do. -/
theorem exists_of_bind_eq_ok {α β ε : Type} {x : Except ε α} {f : α → Except ε β} {b : β}
    (h : (x >>= f) = .ok b) : ∃ a, x = .ok a ∧ f a = .ok b := by
  cases x with
  | error err => cases h
  | ok a => exact ⟨a, rfl, h⟩

theorem mapM_eq_ok {α β ε : Type} {f : α → Except ε β} {g : α → β} {l : List α}
    (h : ∀ a ∈ l, f a = .ok (g a)) : l.mapM f = .ok (l.map g) := by
  induction l with
  | nil => rfl
  | cons a l ih =>
    have ha := h a List.mem_cons_self
    have hl := ih fun b hb => h b (List.mem_cons_of_mem a hb)
    simp [List.mapM_cons, ha, hl, bind, Except.bind, pure, Except.pure]

/-- An error among several steps is the error of one of them. -/
theorem mapM_eq_error {α β ε : Type} {f : α → Except ε β} {P : ε → Prop} {l : List α}
    (h : ∀ a ∈ l, ∀ e, f a = .error e → P e) (hfail : ∃ a ∈ l, ∃ e, f a = .error e) :
    ∃ e, P e ∧ l.mapM f = .error e := by
  induction l with
  | nil => simp at hfail
  | cons a l ih =>
    cases ha : f a with
    | error e =>
      exact ⟨e, h a List.mem_cons_self e ha, by simp [List.mapM_cons, ha, bind, Except.bind]⟩
    | ok b =>
      -- the first one succeeds, so the error lies behind it
      have hrest : ∃ a ∈ l, ∃ e, f a = .error e := by
        rcases hfail with ⟨a', hmem, e, he⟩
        rcases List.mem_cons.1 hmem with rfl | hmem
        · rw [ha] at he
          cases he
        · exact ⟨a', hmem, e, he⟩
      rcases ih (fun b hb => h b (List.mem_cons_of_mem a hb)) hrest with ⟨e, he, hl⟩
      exact ⟨e, he, by simp [List.mapM_cons, ha, hl, bind, Except.bind]⟩

/-- What every single step keeps is kept by all of them together. -/
theorem map_eq_of_mapM_eq_ok {α β γ ε : Type} {f : α → Except ε β} {g : β → γ} {k : α → γ}
    {l : List α} {bs : List β} (hstep : ∀ a b, f a = .ok b → g b = k a) (h : l.mapM f = .ok bs) :
    bs.map g = l.map k := by
  induction l generalizing bs with
  | nil =>
    cases h
    rfl
  | cons a l ih =>
    rw [List.mapM_cons] at h
    rcases exists_of_bind_eq_ok h with ⟨b, hb, h⟩
    rcases exists_of_bind_eq_ok h with ⟨cs, hcs, h⟩
    cases h
    rw [List.map_cons, List.map_cons, hstep a b hb, ih hcs]

/-- What follows the steps can be made from their outcomes at the end. -/
theorem mapM_bind_pure {α β γ ε : Type} (f : α → Except ε β) (g : β → γ) (l : List α) :
    (l.mapM fun a => f a >>= fun b => pure (g b)) = (l.mapM f >>= fun bs => pure (bs.map g)) := by
  induction l with
  | nil => rfl
  | cons a l ih =>
    rw [List.mapM_cons, List.mapM_cons, ih]
    cases f a with
    | error e => rfl
    | ok b => cases l.mapM f <;> rfl

/-! ## True rows -/

/-- The rows of a table over its names give a formula the values of their valuations. -/
theorem Formula.mapM_evaluate_enumerate {f : Formula} {names : List String}
    (h : ∀ x ∈ f.leaves, x ∈ names) :
    (Assignment.enumerate names).mapM (fun a => f.evaluate a) =
      .ok ((List.range (rowCount names.length)).map
        fun row : Nat => f.value (rowValuation names row)) := by
  -- no row raises an error, as all names of the formula are listed
  rw [Assignment.enumerate, List.mapM_map]
  exact mapM_eq_ok fun row _ => f.evaluate_ofRow h row

/-- Numbering a list of values again and keeping the places of the true ones. -/
theorem filterMap_zipIdx_range (p : Nat → Bool) (n : Nat) :
    (((List.range n).map p).zipIdx.filterMap fun (value, row) => if value then some row else none) =
      (List.range n).filter p := by
  induction n with
  | zero => rfl
  | succ n ih =>
    -- the last row is numbered behind all others
    rw [List.range_succ, List.map_append, List.zipIdx_append, List.filterMap_append, ih,
      List.filter_append]
    cases h : p n <;> simp [h]

/-- The rows of the table over the names on which the formula is true. -/
def Formula.trueRowSet (f : Formula) (names : List String) : RowSet :=
  rowsWhere names.length fun row => f.value (rowValuation names row)

theorem isRow_of_mem_trueRowSet (f : Formula) (names : List String) :
    ∀ row ∈ f.trueRowSet names, IsRow names.length row :=
  fun _ hrow => (mem_rowsWhere.1 hrow).1

/-- The row of a valuation is among the true rows of a formula when the formula is true under it. -/
theorem rowNumber_mem_trueRowSet {f : Formula} (hnames : names.Nodup)
    (hleaves : ∀ x ∈ f.leaves, x ∈ names) (σ : String → Bool) :
    (rowNumber (names.map σ) : Int) ∈ f.trueRowSet names ↔ f.value σ = true := by
  -- off the names the two valuations may differ
  have hvalue : f.value (rowValuation names (rowNumber (names.map σ))) = f.value σ :=
    f.value_congr fun x hx => rowValuation_rowNumber hnames σ (hleaves x hx)
  rw [Formula.trueRowSet, mem_rowsWhere, hvalue]
  apply and_iff_right
  simpa using isRow_rowNumber (names.map σ)

/-- The true rows are empty for a formula that is never true, and only then. -/
theorem Formula.trueRowSet_eq_nil_iff {f : Formula} {names : List String} (hnames : names.Nodup)
    (hleaves : ∀ x ∈ f.leaves, x ∈ names) :
    (f.trueRowSet names).rows = [] ↔ ∀ σ : String → Bool, f.value σ = false := by
  rw [List.eq_nil_iff_forall_not_mem]
  constructor
  · intro h σ
    have hrow := h (rowNumber (names.map σ))
    rw [← RowSet.mem_def, rowNumber_mem_trueRowSet hnames hleaves] at hrow
    exact eq_false_of_ne_true hrow
  · intro h row hrow
    have htrue := (mem_rowsWhere.1 hrow).2
    rw [h] at htrue
    cases htrue

/-- A subject whose names are all listed is true exactly on these rows. -/
theorem Subject.trueRows_eq_ok {s : Subject} {names : List String}
    (h : ∀ x ∈ s.root.leaves, x ∈ names) :
    ∃ rows, s.trueRows (some names) = .ok rows ∧
      RowSet.ofList (rows.map Int.ofNat) = s.root.trueRowSet names := by
  have htruths : s.truths (some names) = .ok ((List.range (rowCount names.length)).map
      fun row : Nat => s.root.value (rowValuation names row)) :=
    Formula.mapM_evaluate_enumerate h
  refine ⟨(List.range (rowCount names.length)).filter
    fun row : Nat => s.root.value (rowValuation names row), ?_, rfl⟩
  unfold Subject.trueRows
  rw [htruths]
  exact congrArg Except.ok (filterMap_zipIdx_range _ _)

end PropCalc
