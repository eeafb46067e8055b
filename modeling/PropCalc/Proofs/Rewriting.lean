import PropCalc.Canonical
import PropCalc.Proofs.Printing
/-!
# Rewriting canonical words

A printed formula is made of pieces: operators, which every dialect spells its own way, and
characters that all dialects share. Rewriting the canonical words one after another changes the
spelling of the operators and nothing else (`render_spelled`), so a canonical text becomes the print
of the same formula.
-/

namespace PropCalc

/-! ## Replacing in parts of a text -/

namespace Text

/-- An occurrence at the front is replaced. -/
theorem replaceAll_append {word new : List Char} (h : word ≠ []) (cs : List Char) :
    replaceAll word new (word ++ cs) = new ++ replaceAll word new cs := by
  cases word with
  | nil => exact absurd rfl h
  | cons c word =>
    rw [List.cons_append, replaceAll, if_pos]
    · simp
    · rw [← List.cons_append]
      exact List.isPrefixOf_iff_prefix.2 (List.prefix_append _ _)

/-- Where no occurrence can start, the text is kept. -/
theorem replaceAll_append_of_notMem {c : Char} {word new xs : List Char} (h : c ∉ xs)
    (cs : List Char) :
    replaceAll (c :: word) new (xs ++ cs) = xs ++ replaceAll (c :: word) new cs := by
  induction xs with
  | nil => rfl
  | cons x xs ih =>
    -- the first letter of the word is missing here
    rw [List.mem_cons, not_or] at h
    rw [List.cons_append, replaceAll, if_neg, ih h.2, List.cons_append]
    simp [h.1]

/-- A text that contains a word has an occurrence of it. -/
theorem occurs_append (word xs ys : List Char) : occurs word (xs ++ (word ++ ys)) = true := by
  induction xs with
  | nil =>
    rw [List.nil_append]
    -- an occurrence at the front, where the empty word occurs in the empty text as well
    cases hw : word ++ ys with
    | nil =>
      rw [(List.append_eq_nil_iff.1 hw).1]
      rfl
    | cons c cs =>
      have hprefix : word.isPrefixOf (c :: cs) = true := by
        rw [← hw]
        exact List.isPrefixOf_iff_prefix.2 (List.prefix_append _ _)
      rw [occurs, hprefix, Bool.true_or]
  | cons x xs ih => rw [List.cons_append, occurs, ih, Bool.or_true]

end Text

/-! ## Pieces of a printed formula -/

/-- A piece of a printed formula: an operator, or a character that all dialects share. -/
inductive Piece where
  | operator (o : Operator)
  | char (c : Char)
deriving DecidableEq, Repr

namespace Piece

/-- The characters of a piece. -/
def chars (spell : Operator → String) : Piece → List Char
  | operator o => (spell o).toList
  | char c => [c]

/-- The operator of a piece, if it is one. -/
def operator? : Piece → Option Operator
  | operator o => some o
  | char _ => none

/-- The characters of several pieces. -/
def spelled (spell : Operator → String) (ps : List Piece) : List Char := ps.flatMap (chars spell)

@[simp] theorem spelled_append (spell : Operator → String) (ps qs : List Piece) :
    spelled spell (ps ++ qs) = spelled spell ps ++ spelled spell qs :=
  List.flatMap_append

@[simp] theorem spelled_cons (spell : Operator → String) (p : Piece) (ps : List Piece) :
    spelled spell (p :: ps) = p.chars spell ++ spelled spell ps :=
  List.flatMap_cons

@[simp] theorem spelled_nil (spell : Operator → String) : spelled spell [] = [] := rfl

theorem spelled_map_char (spell : Operator → String) (cs : List Char) :
    spelled spell (cs.map .char) = cs := by
  induction cs with
  | nil => rfl
  | cons c cs ih => simp [chars, ih]

end Piece

namespace Formula

/-- Pieces in parentheses, if they are needed. -/
def parenthesizedPieces (needed : Bool) (ps : List Piece) : List Piece :=
  if needed then .char '(' :: (ps ++ [.char ')']) else ps

/-- The pieces of a printed formula. -/
def pieces : Formula → List Piece
  | var x n => (if n then [.operator .not] else []) ++ x.toList.map .char
  | binary l c r n _ =>
    let body := parenthesizedPieces (l.needsParentheses c true) l.pieces
      ++ .char ' ' :: .operator (.binary c) :: .char ' '
      :: parenthesizedPieces (r.needsParentheses c false) r.pieces
    if n then .operator .not :: .char '(' :: (body ++ [.char ')']) else body

theorem toList_parenthesized_spelled {spell : Operator → String} {s : String} {ps : List Piece}
    (h : s.toList = Piece.spelled spell ps) (needed : Bool) :
    (parenthesized needed s).toList = Piece.spelled spell (parenthesizedPieces needed ps) := by
  cases needed with
  | false => exact h
  | true => simp [parenthesized, parenthesizedPieces, Piece.chars, String.toList_append, h]

/-- A dialect spells the operators among the pieces. -/
theorem toList_text (f : Formula) (d : Dialect) :
    (f.text d).toList = Piece.spelled (·.spelling d) f.pieces := by
  induction f with
  | var x n => cases n <;> simp [text, pieces, Piece.chars, Piece.spelled_map_char]
  | binary l c r n e ihl ihr =>
    have hl := toList_parenthesized_spelled ihl (l.needsParentheses c true)
    have hr := toList_parenthesized_spelled ihr (r.needsParentheses c false)
    cases n <;> simp [text, pieces, Piece.chars, String.toList_append, hl, hr]

end Formula

/-! ## Rewriting -/

namespace Canonical

/-- The canonical word of an operator. -/
def word : Operator → String
  | .not => notWord
  | .binary c => (Operator.binary c).name

/-- A piece that rewriting takes into account: an operator with a canonical word that is rewritten, or
a character that no such word starts with. -/
def IsPlain : Piece → Prop
  | .operator o => o = .not ∨ o = .binary .and ∨ o = .binary .or
  | .char c => c ≠ 'A' ∧ c ≠ 'O' ∧ c ≠ 'N'

/-- Rewriting piece by piece. -/
theorem replaceAll_spelled {w new : List Char} {spell spell' : Operator → String}
    {ps : List Piece}
    (h : ∀ p ∈ ps, ∀ cs, Text.replaceAll w new (p.chars spell ++ cs) =
      p.chars spell' ++ Text.replaceAll w new cs) :
    Text.replaceAll w new (Piece.spelled spell ps) = Piece.spelled spell' ps := by
  induction ps with
  | nil => rw [Piece.spelled_nil, Piece.spelled_nil, Text.replaceAll]
  | cons p ps ih =>
    rw [Piece.spelled_cons, Piece.spelled_cons, h p List.mem_cons_self, ih]
    exact fun q hq => h q (List.mem_cons_of_mem p hq)

/-- The spelling after the first step: conjunctions are rewritten. -/
def wordAfterAnd (d : Dialect) : Operator → String
  | .binary .and => (Operator.binary .and).spelling d
  | o => word o

/-- The spelling after the second step: only negations keep their word. -/
def wordAfterOr (d : Dialect) : Operator → String
  | .not => notWord
  | .binary c => (Operator.binary c).spelling d

variable {p : Piece} {ps : List Piece} {d : Dialect}

theorem spellOut_and (hp : IsPlain p) (cs : List Char) :
    spellOut andWord (.binary .and) d (p.chars word ++ cs) =
      p.chars (wordAfterAnd d) ++ spellOut andWord (.binary .and) d cs := by
  cases p with
  | char c =>
    have hc : 'A' ∉ [c] := by simpa using hp.1.symm
    exact Text.replaceAll_append_of_notMem hc cs
  | operator o =>
    rcases hp with rfl | rfl | rfl
    · exact Text.replaceAll_append_of_notMem (by decide) cs
    · exact Text.replaceAll_append (by decide) cs
    · exact Text.replaceAll_append_of_notMem (by decide) cs

theorem spellOut_or (hp : IsPlain p) (cs : List Char) :
    spellOut orWord (.binary .or) d (p.chars (wordAfterAnd d) ++ cs) =
      p.chars (wordAfterOr d) ++ spellOut orWord (.binary .or) d cs := by
  cases p with
  | char c =>
    have hc : 'O' ∉ [c] := by simpa using hp.2.1.symm
    exact Text.replaceAll_append_of_notMem hc cs
  | operator o =>
    rcases hp with rfl | rfl | rfl
    · -- the word for negation contains the first letter of this one
      simp [spellOut, Piece.chars, wordAfterAnd, wordAfterOr, word, notWord, orWord,
        Text.replaceAll]
    · -- conjunctions are spelled in the dialect by now, and no dialect uses this letter
      refine Text.replaceAll_append_of_notMem ?_ cs
      cases d <;> decide
    · exact Text.replaceAll_append (by decide) cs

theorem spellOut_not (hp : IsPlain p) (cs : List Char) :
    spellOut notWord .not d (p.chars (wordAfterOr d) ++ cs) =
      p.chars (·.spelling d) ++ spellOut notWord .not d cs := by
  cases p with
  | char c =>
    have hc : 'N' ∉ [c] := by simpa using hp.2.2.symm
    exact Text.replaceAll_append_of_notMem hc cs
  | operator o =>
    rcases hp with rfl | rfl | rfl
    · exact Text.replaceAll_append (by decide) cs
    · refine Text.replaceAll_append_of_notMem ?_ cs
      cases d <;> decide
    · refine Text.replaceAll_append_of_notMem ?_ cs
      cases d <;> decide

/-- Rewriting gives every operator the spelling of the dialect. -/
theorem render_spelled (hps : ∀ p ∈ ps, IsPlain p) (d : Dialect) :
    render (String.ofList (Piece.spelled word ps)) d =
      String.ofList (Piece.spelled (·.spelling d) ps) := by
  -- each step rewrites one operator and leaves the spellings of the others alone
  have hand : spellOut andWord (.binary .and) d (Piece.spelled word ps) =
      Piece.spelled (wordAfterAnd d) ps :=
    replaceAll_spelled fun p hp => spellOut_and (hps p hp)
  have hor : spellOut orWord (.binary .or) d (Piece.spelled (wordAfterAnd d) ps) =
      Piece.spelled (wordAfterOr d) ps :=
    replaceAll_spelled fun p hp => spellOut_or (hps p hp)
  have hnot : spellOut notWord .not d (Piece.spelled (wordAfterOr d) ps) =
      Piece.spelled (·.spelling d) ps :=
    replaceAll_spelled fun p hp => spellOut_not (hps p hp)
  simp only [render, String.toList_ofList, hand, hor, hnot]

end Canonical

end PropCalc
