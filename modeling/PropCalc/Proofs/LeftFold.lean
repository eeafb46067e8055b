import PropCalc.Proofs.Reading
import PropCalc.Proofs.RoundTrip
/-!
# Left folds

The tree of an expression, told without the grammar: cut the symbols at the connectives outside all
groups, take each segment for some negations before a letter or a group, and join the trees of the
segments from the left.

* `Cut.ofSymbols` cuts, and `Cut.FoldsTo` says which tree a cut has;
* `Cut.foldsTo_iff_reads` — these are the trees that the grammar builds;
* `parse_is_left_fold` — so every expression is the left fold of the tokens of its text.
-/

namespace PropCalc

open Grammar

/-! ## Cuts -/

/-- Symbols that were cut at connectives: the segment before the first of them, and each connective
with the segment behind it. -/
structure Cut where
  first : List Symbol
  rest : List (Connective × List Symbol)
deriving DecidableEq, Repr

namespace Cut

/-- Puts a symbol in front of the first segment. -/
def cons (x : Symbol) (k : Cut) : Cut := ⟨x :: k.first, k.rest⟩

/-- Two cuts with a connective between them. -/
def join (k : Cut) (c : Connective) (k' : Cut) : Cut :=
  ⟨k.first, k.rest ++ (c, k'.first) :: k'.rest⟩

/-- The number of open groups behind a symbol. -/
def depthBehind (depth : Nat) : Symbol → Nat
  | .lparen => depth + 1
  | .rparen => depth - 1
  | .operator _ | .letter _ => depth

/-- The connective at which symbols are cut: one that stands outside all groups. -/
def cutsAt? (depth : Nat) : Symbol → Option Connective
  | .operator (.binary c) => if depth = 0 then some c else none
  | .lparen | .rparen | .operator .not | .letter _ => none

/-- Cuts symbols at the connectives outside all groups, of which `depth` are open at the start. -/
def ofSymbols (depth : Nat) : List Symbol → Cut
  | [] => ⟨[], []⟩
  | x :: w =>
    let k := ofSymbols (depthBehind depth x) w
    match cutsAt? depth x with
    | some c => join ⟨[], []⟩ c k
    | none => k.cons x

/-- The tree of a cut. A single segment is a letter or a group behind some negations, each of which
turns the tree around; several segments are joined from the left. -/
inductive FoldsTo (d : Dialect) : Cut → Formula → Prop where
  | letter (m : Nat) (c : Char) :
      FoldsTo d ⟨List.replicate m (.operator .not) ++ [.letter c], []⟩
        (Nat.repeat Formula.negate m (.var c.toString false))
  | group (m : Nat) {w : List Symbol} {f : Formula} :
      FoldsTo d (ofSymbols 0 w) f →
      FoldsTo d ⟨List.replicate m (.operator .not) ++ .lparen :: (w ++ [.rparen]), []⟩
        (Nat.repeat Formula.negate m f)
  | joined {s t : List Symbol} {rest : List (Connective × List Symbol)} {f g : Formula}
      (c : Connective) :
      FoldsTo d ⟨s, rest⟩ f → FoldsTo d ⟨t, []⟩ g →
      FoldsTo d ⟨s, rest ++ [(c, t)]⟩ (.binary f c g false d)

/-! ## Where cuts fall -/

theorem ofSymbols_cons {depth : Nat} {x : Symbol} (h : cutsAt? depth x = none) (w : List Symbol) :
    ofSymbols depth (x :: w) = (ofSymbols (depthBehind depth x) w).cons x := by
  simp only [ofSymbols, h]

theorem ofSymbols_connective (c : Connective) (w : List Symbol) :
    ofSymbols 0 (.operator (.binary c) :: w) = join ⟨[], []⟩ c (ofSymbols 0 w) := rfl

theorem cutsAt?_of_ne_zero {depth : Nat} (h : depth ≠ 0) (x : Symbol) : cutsAt? depth x = none := by
  rcases x with _ | _ | (_ | c) | c
  · rfl
  · rfl
  · rfl
  · exact if_neg h
  · rfl

theorem eq_of_cutsAt? {depth : Nat} {x : Symbol} {c : Connective} (h : cutsAt? depth x = some c) :
    depth = 0 ∧ x = .operator (.binary c) := by
  rcases x with _ | _ | (_ | c') | c'
  · cases h
  · cases h
  · cases h
  · by_cases hdepth : depth = 0
    · rw [cutsAt?, if_pos hdepth] at h
      cases h
      exact ⟨hdepth, rfl⟩
    · rw [cutsAt?_of_ne_zero hdepth] at h
      cases h
  · cases h

theorem depthBehind_of_depthAfter? {depth e : Nat} {x : Symbol}
    (h : depthAfter? depth [x] = some e) : depthBehind depth x = e := by
  cases x with
  | lparen => exact Option.some.inj h
  | rparen =>
    cases depth with
    | zero => cases h
    | succ depth => exact Option.some.inj h
  | operator o => exact Option.some.inj h
  | letter c => exact Option.some.inj h

/-- Behind symbols that close all groups a connective cuts. -/
theorem ofSymbols_append {depth : Nat} {w : List Symbol} (h : depthAfter? depth w = some 0)
    (c : Connective) (v : List Symbol) :
    ofSymbols depth (w ++ .operator (.binary c) :: v) =
      (ofSymbols depth w).join c (ofSymbols 0 v) := by
  induction w generalizing depth with
  | nil =>
    obtain rfl := Option.some.inj h
    exact ofSymbols_connective c v
  | cons x w ih =>
    rw [depthAfter?_cons] at h
    rcases Option.bind_eq_some_iff.1 h with ⟨e, he, hw⟩
    have hrest := ih hw
    rw [List.cons_append]
    simp only [ofSymbols, depthBehind_of_depthAfter? he, hrest]
    cases cutsAt? depth x with
    | none => rfl
    | some c' => simp [join]

/-- No cut falls into a phrase within a group, nor into an operand anywhere. -/
theorem ofSymbols_phrase {p : Phrase} {w : List Symbol} (h : Derives p w) {depth : Nat}
    (hp : p = .expression → depth ≠ 0) (v : List Symbol) :
    ofSymbols depth (w ++ v) = ⟨w ++ (ofSymbols depth v).first, (ofSymbols depth v).rest⟩ := by
  -- on the derivation; `v` varies, as one part of a phrase stands before another
  induction h generalizing depth v with
  | single _ ih => exact ih (by simp) v
  | @joined w u c _ _ ihw ihu =>
    have hdepth := hp rfl
    rw [List.append_assoc, ihw hp, List.cons_append,
      ofSymbols_cons (cutsAt?_of_ne_zero hdepth _)]
    simp only [depthBehind, ihu (by simp), cons]
    simp
  | negated _ ih =>
    rw [List.cons_append, ofSymbols_cons rfl]
    simp only [depthBehind, ih (by simp), cons]
    simp
  | @group w _ ih =>
    -- the content lies one group deeper
    have hinside := @ih (depth + 1) (by simp) (.rparen :: v)
    rw [ofSymbols_cons rfl] at hinside
    rw [List.cons_append, ofSymbols_cons rfl, List.append_assoc]
    simp only [depthBehind, List.singleton_append, hinside, cons]
    simp
  | letter c =>
    rw [List.singleton_append, ofSymbols_cons rfl]
    rfl

/-- An operand is a single segment. -/
theorem ofSymbols_operand {w : List Symbol} (h : Derives .operand w) : ofSymbols 0 w = ⟨w, []⟩ := by
  simpa [ofSymbols] using ofSymbols_phrase h (by simp) []

/-! ## The tree of a cut -/

/-- One more negation turns the tree of a segment around once more. -/
theorem FoldsTo.negate {d : Dialect} {w : List Symbol} {f : Formula} (h : FoldsTo d ⟨w, []⟩ f) :
    FoldsTo d ⟨.operator .not :: w, []⟩ f.negate := by
  -- the cut is named for the case split, as its segments stand in the index
  generalize hk : Cut.mk w [] = k at h
  cases h with
  | letter m c =>
    cases hk
    exact .letter (m + 1) c
  | group m hf =>
    cases hk
    exact .group (m + 1) hf
  | joined c _ _ => simp at hk

/-- What the grammar builds is the tree of the cut. -/
theorem foldsTo_of_reads {d : Dialect} {p : Phrase} {w : List Symbol} {f : Formula}
    (h : Reads d p w f) : (ofSymbols 0 w).FoldsTo d f := by
  induction h with
  | single _ ih => exact ih
  | @joined w v f g c hw hv ihw ihv =>
    -- the last connective outside all groups cuts, and its right side is one segment
    rw [ofSymbols_append (hw.derives.depthAfter? 0), ofSymbols_operand hv.derives]
    rw [ofSymbols_operand hv.derives] at ihv
    exact .joined c ihw ihv
  | negated hw ih =>
    rw [ofSymbols_operand hw.derives] at ih
    rw [ofSymbols_operand (.negated hw.derives)]
    exact ih.negate
  | group hw ih =>
    rw [ofSymbols_operand (.group hw.derives)]
    exact .group 0 ih
  | letter c => exact .letter 0 c

/-- The symbols of a cut. -/
def symbols (k : Cut) : List Symbol :=
  k.first ++ k.rest.flatMap fun s => .operator (.binary s.1) :: s.2

/-- Cutting loses nothing. -/
theorem symbols_ofSymbols (depth : Nat) (w : List Symbol) : (ofSymbols depth w).symbols = w := by
  induction w generalizing depth with
  | nil => rfl
  | cons x w ih =>
    have hw := ih (depthBehind depth x)
    cases hcut : cutsAt? depth x with
    | none =>
      rw [ofSymbols_cons hcut]
      simpa [cons, symbols] using hw
    | some c =>
      -- a cut takes away the connective, which `symbols` puts back
      rcases eq_of_cutsAt? hcut with ⟨rfl, rfl⟩
      rw [ofSymbols_connective]
      simpa [join, symbols, depthBehind] using hw

theorem reads_negations {d : Dialect} {w : List Symbol} {f : Formula} (h : Reads d .operand w f)
    (m : Nat) :
    Reads d .operand (List.replicate m (.operator .not) ++ w) (Nat.repeat Formula.negate m f) := by
  induction m with
  | zero => exact h
  | succ m ih => exact .negated ih

/-- The grammar builds the tree of a cut from its symbols, that of a single segment as an operand. -/
theorem FoldsTo.reads {d : Dialect} {k : Cut} {f : Formula} (h : k.FoldsTo d f) :
    Reads d .expression k.symbols f ∧ (k.rest = [] → Reads d .operand k.first f) := by
  induction h with
  | letter m c =>
    have hread := reads_negations (.letter (d := d) c) m
    exact ⟨by simpa [symbols] using hread.expression, fun _ => hread⟩
  | group m _ ih =>
    -- the content of the group was cut as well, and cutting lost nothing of it
    rw [symbols_ofSymbols] at ih
    have hread := reads_negations (.group ih.1) m
    exact ⟨by simpa [symbols] using hread.expression, fun _ => hread⟩
  | joined c _ _ ihf ihg =>
    refine ⟨?_, by simp⟩
    simpa [symbols] using Reads.joined c ihf.1 (ihg.2 rfl)

/-- The trees of cut symbols are those that the grammar builds from them. -/
theorem foldsTo_iff_reads {d : Dialect} {w : List Symbol} {f : Formula} :
    (ofSymbols 0 w).FoldsTo d f ↔ Reads d .expression w f := by
  constructor
  · intro h
    simpa [symbols_ofSymbols] using h.reads.1
  · exact foldsTo_of_reads

end Cut

/-! ## Expressions -/

/-- A text is read as the left fold of its tokens, and as nothing else. All joined nodes carry the
dialect of the expression, and its names are the letters among the tokens in ascending order. -/
theorem parse_is_left_fold (text : String) (e : Expression) :
    Expression.parse text = .ok e ↔
      ∃ ts, tokenize text = .ok (ts, e.dialect) ∧
        (Cut.ofSymbols 0 (ts.map Token.symbol)).FoldsTo e.dialect e.root ∧
        (∀ l c r n d, .binary l c r n d ∈ e.root.postorder → d = e.dialect) ∧
        e.names.Pairwise (· < ·) ∧
        ∀ x, x ∈ e.names ↔ ∃ c, .letter c ∈ ts.map Token.symbol ∧ x = c.toString := by
  simp only [parse_eq_ok_iff, Cut.foldsTo_iff_reads]
  constructor
  · intro h
    rcases h with ⟨ts, htokens, hreads⟩
    refine ⟨ts, htokens, hreads, ?_, Formula.pairwise_names _, ?_⟩
    · intro l c r n d hnode
      exact hreads.dialect_eq hnode
    · intro x
      rw [Expression.names, Formula.mem_names, hreads.mem_leaves]
  · intro h
    -- the tree alone determines the expression
    rcases h with ⟨ts, htokens, hreads, -⟩
    exact ⟨ts, htokens, hreads⟩

end PropCalc
