import Mathlib.Data.List.Nodup
import PropCalc.Proofs.PartOrder
/-!
# Values of labeled parts

What comes out when the labeled parts of a formula are evaluated on several rows: every label once,
and below it every row once.

* `FirstOccurrences` — a list without its repetitions, told by where the entries first stand, which
  is what erasing repetitions leaves (`firstOccurrences_eraseDups`) and what keeping the first part
  with each label leaves of the labels (`firstOccurrences_labeledParts`);
* `labeledValues_once_inner_first` — the whole list of values.
-/

namespace PropCalc

/-! ## First occurrences -/

section

variable {α : Type} [DecidableEq α] {l r : List α} {a b : α}

/-- The second list has the entries of the first, in the order in which they first occur there. -/
structure FirstOccurrences (l r : List α) : Prop where
  mem_iff : ∀ a, a ∈ r ↔ a ∈ l
  ordered : r.Pairwise fun a b => l.idxOf a < l.idxOf b

namespace FirstOccurrences

theorem nodup (h : FirstOccurrences l r) : r.Nodup := by
  refine h.ordered.imp fun hlt heq => ?_
  rw [heq] at hlt
  exact Nat.lt_irrefl _ hlt

/-- What first occurs earlier is listed earlier. -/
theorem idxOf_lt (h : FirstOccurrences l r) (ha : a ∈ l) (hb : b ∈ l)
    (hab : l.idxOf a < l.idxOf b) : r.idxOf a < r.idxOf b := by
  have hia := List.idxOf_lt_length_of_mem ((h.mem_iff a).2 ha)
  have hib := List.idxOf_lt_length_of_mem ((h.mem_iff b).2 hb)
  rcases Nat.lt_trichotomy (r.idxOf a) (r.idxOf b) with hlt | heq | hgt
  · exact hlt
  · -- one place holds one entry
    have hsame : a = b := by
      rw [← List.getElem_idxOf hia, ← List.getElem_idxOf hib]
      simp only [heq]
    rw [hsame] at hab
    exact absurd hab (Nat.lt_irrefl _)
  · have hba := List.pairwise_iff_getElem.1 h.ordered _ _ hib hia hgt
    rw [List.getElem_idxOf, List.getElem_idxOf] at hba
    omega

/-- One more entry in front comes first, and its later occurrences go. -/
theorem cons (h : FirstOccurrences l r) (a : α) :
    FirstOccurrences (a :: l) (a :: r.filter fun b => b != a) where
  mem_iff b := by
    by_cases hb : b = a
    · simp [hb]
    · simp [hb, h.mem_iff]
  ordered := by
    have hne : ∀ b ∈ r.filter fun b => b != a, b ≠ a := by
      intro b hb
      simpa using (List.mem_filter.1 hb).2
    refine List.pairwise_cons.2 ⟨fun b hb => ?_, ?_⟩
    · rw [List.idxOf_cons_self, List.idxOf_cons_ne _ (hne b hb).symm]
      exact Nat.succ_pos _
    · refine (h.ordered.filter _).imp_of_mem fun hb hc hlt => ?_
      rw [List.idxOf_cons_ne _ (hne _ hb).symm, List.idxOf_cons_ne _ (hne _ hc).symm]
      exact Nat.succ_lt_succ hlt

end FirstOccurrences

/-- Erasing repetitions and leaving out entries can be exchanged. -/
theorem eraseDups_filter (p : α → Bool) (l : List α) :
    (l.filter p).eraseDups = l.eraseDups.filter p := by
  -- on the length, as erasing goes on with a part of the tail
  induction hn : l.length using Nat.strongRecOn generalizing l with
  | ind n ih =>
    cases l with
    | nil => simp
    | cons a l =>
      have hrest := ih _ (Nat.lt_of_le_of_lt (List.length_filter_le _ l) (by simp [← hn]))
        (l.filter fun b => !b == a) rfl
      rw [List.eraseDups_cons, List.filter_cons, List.filter_cons, ← hrest]
      by_cases ha : p a = true
      · -- the first entry stays, and its repetitions go before or after the filter
        rw [if_pos ha, if_pos ha, List.eraseDups_cons, List.filter_comm]
      · -- the first entry goes, and the filter takes its repetitions with it
        have hsame : (l.filter fun b => !b == a).filter p = l.filter p := by
          rw [List.filter_filter]
          refine List.filter_congr fun b _ => ?_
          by_cases hb : b = a
          · simp [hb, ha]
          · simp [hb]
        rw [if_neg ha, if_neg ha, hsame]

theorem firstOccurrences_eraseDups (l : List α) : FirstOccurrences l l.eraseDups := by
  induction l with
  | nil => exact ⟨by simp, .nil⟩
  | cons a l ih =>
    rw [List.eraseDups_cons, eraseDups_filter]
    exact ih.cons a

end

/-! ## Values -/

namespace Formula

variable {f : Formula} {intermediate : Bool} {d : Dialect} {rows : List Assignment}

theorem firstOccurrences_firstOfLabel (es : List (String × Formula)) :
    FirstOccurrences (es.map (·.1)) ((firstOfLabel es).map (·.1)) := by
  induction es with
  | nil => exact ⟨by simp [firstOfLabel], .nil⟩
  | cons e es ih =>
    have hcons := ih.cons e.1
    rw [List.filter_map] at hcons
    exact hcons

theorem firstOccurrences_labeledParts (d : Dialect) (intermediate : Bool) (f : Formula) :
    FirstOccurrences ((f.parts intermediate).map (text d))
      ((f.labeledParts d intermediate).map (·.1)) := by
  have hfirst := firstOccurrences_firstOfLabel
    ((f.parts intermediate).map fun part => (part.text d, part))
  rw [List.map_map] at hfirst
  exact hfirst

/-- The value of a labeled part on a row that binds its names. -/
def valueOn (e : String × Formula) (row : Assignment) : LabeledValue :=
  ⟨e.1, row, e.2.value fun x => (row.get? x).getD false⟩

theorem labeledValues_eq_ok (hrows : ∀ row ∈ rows, ∀ x ∈ f.leaves, x ∈ row.names) :
    f.labeledValues d intermediate rows =
      .ok ((f.labeledParts d intermediate).flatMap fun e => rows.eraseDups.map (valueOn e)) := by
  have hvalues : ∀ e ∈ f.labeledParts d intermediate, e.2.valuesOn rows.eraseDups =
      .ok (rows.eraseDups.map fun row => e.2.value fun x => (row.get? x).getD false) := by
    intro e he
    refine mapM_eq_ok fun row hrow => evaluate_of_names fun x hx => ?_
    exact hrows row (List.mem_eraseDups.1 hrow) x ((of_mem_labeledParts he).2.leaves x hx)
  -- values that were computed row by row stand beside their rows
  have hzip : ∀ v : Assignment → Bool, rows.eraseDups.zip (rows.eraseDups.map v) =
      rows.eraseDups.map fun row => (row, v row) := by
    intro v
    rw [List.zip_map_right, List.zip_eq_zipWith, List.zipWith_self, List.map_map]
    rfl
  simp only [labeledValues]
  rw [mapM_eq_ok (g := fun e => rows.eraseDups.map (valueOn e))]
  · simp only [bind, Except.bind, pure, Except.pure, List.flatMap_def]
  · intro e he
    simp only [hvalues e he, hzip, bind, Except.bind, pure, Except.pure, List.map_map]
    rfl

/-- Evaluating the labeled parts on rows that bind every name gives every label once, in the order in
which the labels first occur, and below each of them every row once, in the order in which the rows
first occur. The value that stands with a label is the value of every labeled part that prints so,
and a labeled part comes before those that contain it. -/
theorem labeledValues_once_inner_first (f : Formula) (rows : List Assignment) (intermediate : Bool)
    (d : Dialect) (hf : f.IsLettered) (hrows : ∀ row ∈ rows, ∀ x ∈ f.leaves, x ∈ row.names) :
    ∃ values labels distinct, f.labeledValues d intermediate rows = .ok values ∧
      FirstOccurrences ((f.unfolded.filter fun g => isMarked intermediate g || g == f).map (text d))
        labels ∧
      FirstOccurrences rows distinct ∧
      values.map (fun v => (v.label, v.assignment)) =
        labels.flatMap (fun label => distinct.map fun row => (label, row)) ∧
      (values.map fun v => (v.label, v.assignment)).Nodup ∧
      (∀ label, label ∈ labels ↔ ∃ g, f.IsLabeled intermediate g ∧ g.text d = label) ∧
      (∀ g, f.IsLabeled intermediate g → ∀ row ∈ rows, ∃ b, g.evaluate row = .ok b ∧
        ⟨g.text d, row, b⟩ ∈ values) ∧
      ∀ g h, f.IsLabeled intermediate g → f.IsLabeled intermediate h → Inside g h →
        labels.idxOf (g.text d) < labels.idxOf (h.text d) := by
  have hlabels := firstOccurrences_labeledParts d intermediate f
  have hdistinct := firstOccurrences_eraseDups rows
  have hpairs : (((f.labeledParts d intermediate).flatMap fun e => rows.eraseDups.map (valueOn e)).map
      fun v => (v.label, v.assignment)) = ((f.labeledParts d intermediate).map (·.1)).flatMap
        (fun label => rows.eraseDups.map fun row => (label, row)) := by
    simp only [List.map_flatMap, List.flatMap_map, List.map_map]
    rfl
  refine ⟨_, _, _, labeledValues_eq_ok hrows, ?_, hdistinct, hpairs, ?_, ?_, ?_, ?_⟩
  · rw [← parts_eq_filter]
    exact hlabels
  · rw [hpairs]
    exact hlabels.nodup.product hdistinct.nodup
  · intro label
    rw [hlabels.mem_iff, List.mem_map]
    simp only [mem_parts_iff]
  · intro g hg row hrow
    have hnames : ∀ x ∈ g.leaves, x ∈ row.names := fun x hx => hrows row hrow x (hg.leaves x hx)
    refine ⟨_, evaluate_of_names hnames, ?_⟩
    -- the part that was kept prints like `g`
    rcases exists_labeledPart hg with ⟨e, he, hlabel⟩
    rcases of_mem_labeledParts he with ⟨htext, hkept⟩
    have hvalue := value_eq_of_text_eq (hkept.isLettered hf) (hg.isLettered hf)
      (htext.symm.trans hlabel)
    refine List.mem_flatMap.2 ⟨e, he, List.mem_map.2 ⟨row, List.mem_eraseDups.2 hrow, ?_⟩⟩
    rw [valueOn, hlabel, hvalue]
  · intro g h hg hh hin
    refine hlabels.idxOf_lt ?_ ?_ (idxOf_lt_of_inside hf hg hh hin)
    · exact List.mem_map_of_mem (mem_parts_iff.2 hg)
    · exact List.mem_map_of_mem (mem_parts_iff.2 hh)

/-- The body of a negated group that also stands elsewhere, where another dialect wrote it, and a row
that is given twice. -/
theorem labeledValues_once_inner_first_repeated :
    let group : Bool → Dialect → Formula := fun negated e =>
      .binary (.var "a" false) .and (.var "b" false) negated e
    let f : Formula := .binary (group true .code) .or (group false .logic) false .boolean
    let row : Bool → Assignment := fun b => ⟨[("b", b), ("a", true)]⟩
    let rows := [row true, row false, row true]
    f.IsLettered ∧ (∀ r ∈ rows, ∀ x ∈ f.leaves, x ∈ r.names) ∧
      f.IsLabeled true (group false .logic) ∧ Inside (group false .code) (group true .code) ∧
      ∃ values distinct, ∃ labels : List String, f.labeledValues .pseudo true rows = .ok values ∧
        FirstOccurrences rows distinct ∧
        values.map (fun v => (v.label, v.assignment)) =
          labels.flatMap (fun label => distinct.map fun r => (label, r)) ∧
        (values.map fun v => (v.label, v.assignment)).Nodup ∧
        (∃ b, (group false .logic).evaluate (row false) = .ok b ∧
          ⟨(group false .logic).text .pseudo, row false, b⟩ ∈ values) ∧
        labels.idxOf ((group false .code).text .pseudo) <
          labels.idxOf ((group true .code).text .pseudo) := by
  intro group f row rows
  have hf : f.IsLettered := by decide
  have hrows : ∀ r ∈ rows, ∀ x ∈ f.leaves, x ∈ r.names := by decide
  have hbare : f.IsLabeled true (group false .logic) := .step rfl (by decide) rfl
  have hnegated : f.IsLabeled true (group true .code) := .step rfl (by decide) rfl
  have hbody : f.IsLabeled true (group false .code) :=
    .body (g := group true .code) rfl (by decide) rfl rfl
  have hin : Inside (group false .code) (group true .code) :=
    .body (f := group true .code) rfl
  rcases labeledValues_once_inner_first f rows true .pseudo hf hrows with
    ⟨values, labels, distinct, hvalues, -, hdistinct, hpairs, hnodup, -, hvalue, horder⟩
  exact ⟨hf, hrows, hbare, hin, values, distinct, labels, hvalues, hdistinct, hpairs, hnodup,
    hvalue _ hbare _ (by decide), horder _ _ hbody hnegated hin⟩

end Formula

end PropCalc
