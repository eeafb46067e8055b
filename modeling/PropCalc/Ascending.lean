/-!
# Ascending lists

Finite sets with a fixed order of their members: lists that ascend strictly. Insertion finds the
place of the new member and drops it when it is there already.

The two facts about insertion, `mem_insert` and `pairwise_insert`, say that a list built this way has
the members it should have and ascends.
-/

namespace PropCalc.Ascending

variable {α : Type} [LT α] [DecidableLT α]

/-- Inserts a member into an ascending list. -/
def insert (a : α) : List α → List α
  | [] => [a]
  | b :: l => if a < b then a :: b :: l else if b < a then b :: insert a l else b :: l

/-- The members of a list in ascending order, each once. -/
def ofList (l : List α) : List α := l.foldr insert []

variable [LE α] [Std.IsLinearOrder α] [Std.LawfulOrderLT α]

theorem mem_insert {a x : α} {l : List α} : x ∈ insert a l ↔ x = a ∨ x ∈ l := by
  induction l with
  | nil => simp [insert]
  | cons b l ih =>
    simp only [insert]
    split
    · simp
    split
    · simp only [List.mem_cons, ih]
      exact or_left_comm
    · -- neither is smaller, so the member is there already
      next h₁ h₂ =>
      have : a = b := (Std.lt_trichotomy a b).resolve_left h₁ |>.resolve_right h₂
      simp [this]

theorem pairwise_insert {a : α} {l : List α} (h : l.Pairwise (· < ·)) :
    (insert a l).Pairwise (· < ·) := by
  induction l with
  | nil => simp [insert]
  | cons b l ih =>
    obtain ⟨hb, hl⟩ := List.pairwise_cons.1 h
    simp only [insert]
    split
    · next hab =>
      refine List.pairwise_cons.2 ⟨fun x hx => ?_, h⟩
      rcases List.mem_cons.1 hx with rfl | hx
      · exact hab
      · exact Std.lt_trans hab (hb x hx)
    split
    · next hba =>
      refine List.pairwise_cons.2 ⟨fun x hx => ?_, ih hl⟩
      rcases mem_insert.1 hx with rfl | hx
      · exact hba
      · exact hb x hx
    · exact h

theorem mem_ofList {x : α} {l : List α} : x ∈ ofList l ↔ x ∈ l := by
  induction l with
  | nil => simp [ofList]
  | cons a l ih =>
    rw [List.mem_cons, ← ih]
    exact mem_insert

theorem pairwise_ofList (l : List α) : (ofList l).Pairwise (· < ·) := by
  induction l with
  | nil => simp [ofList]
  | cons a l ih => exact pairwise_insert ih

end PropCalc.Ascending
