import PropCalc.Proofs.Lexing
import PropCalc.Proofs.Placement
/-!
# Printed formulas

What a printed formula looks like to a reader. `Formula.lexemes` lists its lexical items;
`lexes_text` says that the text consists of them in every dialect, and `reads_lexemes` that the
grammar builds the same formula from them, marked with the dialect of the reader.
-/

namespace PropCalc

/-! ## Names and marks -/

/-- A name that a text can write: one variable letter. -/
def IsVariableName (x : String) : Prop := ∃ c, isVariableLetter c = true ∧ x = c.toString

theorem isVariableName_iff {x : String} :
    IsVariableName x ↔ x.toList.length = 1 ∧ x.toList.all isVariableLetter = true := by
  constructor
  · intro h
    rcases h with ⟨c, hc, rfl⟩
    simpa using hc
  · intro h
    rcases h with ⟨hlen, hall⟩
    -- the single character is the letter
    rcases List.length_eq_one_iff.1 hlen with ⟨c, hc⟩
    rw [hc] at hall
    refine ⟨c, by simpa using hall, ?_⟩
    rw [← String.toList_inj, hc]
    simp

instance (x : String) : Decidable (IsVariableName x) := decidable_of_iff' _ isVariableName_iff

namespace Formula

/-- All names in the formula can be written. -/
def IsLettered (f : Formula) : Prop := ∀ x ∈ f.leaves, IsVariableName x

instance (f : Formula) : Decidable f.IsLettered :=
  inferInstanceAs (Decidable (∀ x ∈ f.leaves, IsVariableName x))

theorem IsLettered.left {l r : Formula} {c : Connective} {n : Bool} {e : Dialect}
    (h : (binary l c r n e).IsLettered) : l.IsLettered :=
  fun x hx => h x (List.mem_append_left _ hx)

theorem IsLettered.right {l r : Formula} {c : Connective} {n : Bool} {e : Dialect}
    (h : (binary l c r n e).IsLettered) : r.IsLettered :=
  fun x hx => h x (List.mem_append_right _ hx)

/-- The formula with all joined nodes marked with one dialect. -/
def marked (d : Dialect) : Formula → Formula
  | var x n => var x n
  | binary l c r n _ => binary (l.marked d) c (r.marked d) n d

theorem same_marked (d : Dialect) (f : Formula) : (f.marked d).same f = true := by
  induction f with
  | var x n => simp [marked, same]
  | binary l c r n e ihl ihr => simp [marked, same, ihl, ihr]

@[simp] theorem leaves_marked (d : Dialect) (f : Formula) : (f.marked d).leaves = f.leaves := by
  induction f with
  | var x n => rfl
  | binary l c r n e ihl ihr => simp [marked, leaves, ihl, ihr]

@[simp] theorem names_marked (d : Dialect) (f : Formula) : (f.marked d).names = f.names := by
  simp [names]

theorem isVariable_marked (d : Dialect) (f : Formula) :
    (f.marked d).isVariable = f.isVariable := by
  cases f <;> rfl

theorem needsParentheses_marked (d : Dialect) (c : Connective) (isLeft : Bool) (f : Formula) :
    (f.marked d).needsParentheses c isLeft = f.needsParentheses c isLeft := by
  cases f <;> rfl

/-- The marks do not show in print. -/
theorem text_marked (d e : Dialect) (f : Formula) : (f.marked d).text e = f.text e := by
  induction f with
  | var x n => rfl
  | binary l c r n e ihl ihr =>
    simp only [marked, text, needsParentheses_marked, ihl, ihr]

end Formula

/-! ## Lexical items of a printed formula -/

/-- The dialect to which the printed spelling of an operator belongs. Some spellings are shared, and
those belong to the dialect of logic. -/
def Operator.readDialect : Operator → Dialect → Dialect
  | .binary .implies, .code | .binary .implies, .boolean => .logic
  | .binary .iff, .code | .binary .iff, .boolean => .logic
  | .binary .nand, .code | .binary .nor, .code => .logic
  | _, d => d

/-- The spelling under which a printed operator is read again. -/
def Operator.printed (o : Operator) (d : Dialect) : Spelling :=
  ⟨if o = .not ∧ d = .pseudo then "not" else o.spelling d, o, o.readDialect d⟩

theorem Operator.printed_mem (o : Operator) (d : Dialect) : o.printed d ∈ Spelling.all := by
  rcases o with _ | (_ | _ | _ | _ | _ | _) <;> cases d <;> decide

@[simp] theorem Operator.operator_printed (o : Operator) (d : Dialect) :
    (o.printed d).operator = o := rfl

theorem toList_spelling_binary (c : Connective) (d : Dialect) :
    ((Operator.binary c).spelling d).toList = ((Operator.binary c).printed d).chars := by
  simp [Operator.printed, Spelling.chars]

/-- Lexical items in parentheses, if they are needed. -/
def parenthesizedLexemes (needed : Bool) (ls : List Lexeme) : List Lexeme :=
  if needed then .lparen :: (ls ++ [.rparen]) else ls

/-- The lexical items of a formula in a dialect. -/
def Formula.lexemes (d : Dialect) : Formula → List Lexeme
  | var x n => (if n then [.operator (Operator.not.printed d)] else []) ++ x.toList.map .letter
  | binary l c r n _ =>
    let body := parenthesizedLexemes (l.needsParentheses c true) (l.lexemes d)
      ++ .operator ((Operator.binary c).printed d)
      :: parenthesizedLexemes (r.needsParentheses c false) (r.lexemes d)
    if n then .operator (Operator.not.printed d) :: .lparen :: (body ++ [.rparen]) else body

/-! ## The text consists of them -/

open Scan

/-- What may stand behind a variable in print: nothing, a blank or a closing parenthesis. -/
def EndsOperand (cs : List Char) : Prop := ∀ x, cs.head? = some x → x = ' ' ∨ x = ')'

theorem endsOperand_nil : EndsOperand [] := by simp [EndsOperand]

theorem endsOperand_blank (cs : List Char) : EndsOperand (' ' :: cs) := by simp [EndsOperand]

theorem endsOperand_rparen (cs : List Char) : EndsOperand (')' :: cs) := by simp [EndsOperand]

theorem lexes_lparen {cs : List Char} {ls : List Lexeme} (h : Lexes cs ls) :
    Lexes ('(' :: cs) (.lparen :: ls) :=
  Lexes.item (l := .lparen) rfl h

theorem lexes_rparen {cs : List Char} {ls : List Lexeme} (h : Lexes cs ls) :
    Lexes (')' :: cs) (.rparen :: ls) :=
  Lexes.item (l := .rparen) rfl h

theorem lexes_letter {c : Char} {cs : List Char} {ls : List Lexeme}
    (hc : isVariableLetter c = true) (hcs : EndsOperand cs) (h : Lexes cs ls) :
    Lexes (c :: cs) (.letter c :: ls) :=
  Lexes.item (l := .letter c) (Lexeme.startOf?_letter hc hcs) h

theorem lexes_operator {o : Operator} {d : Dialect} {cs : List Char} {ls : List Lexeme}
    (hcs : cs.head?.any Spelling.prolongs = false) (h : Lexes cs ls) :
    Lexes ((o.printed d).chars ++ cs) (.operator (o.printed d) :: ls) :=
  Lexes.item (l := .operator (o.printed d))
    (Lexeme.startOf?_operator (Operator.printed_mem o d) hcs) h

/-- A connective stands between blanks. -/
theorem lexes_connective {c : Connective} {d : Dialect} {cs : List Char} {ls : List Lexeme}
    (h : Lexes cs ls) :
    Lexes (' ' :: (((Operator.binary c).spelling d).toList ++ ' ' :: cs))
      (.operator ((Operator.binary c).printed d) :: ls) := by
  rw [toList_spelling_binary]
  exact .blank rfl (lexes_operator rfl (.blank rfl h))

/-- A negation stands right before its operand; the word brings a blank of its own. -/
theorem lexes_not {d : Dialect} {cs : List Char} {ls : List Lexeme}
    (hcs : cs.head?.any Spelling.prolongs = false) (h : Lexes cs ls) :
    Lexes ((Operator.not.spelling d).toList ++ cs) (.operator (Operator.not.printed d) :: ls) := by
  cases d with
  | pseudo =>
    -- the printed word ends with a blank that is no part of the item
    exact @lexes_operator .not .pseudo (' ' :: cs) ls rfl (.blank rfl h)
  | logic => exact lexes_operator (o := .not) (d := .logic) hcs h
  | code => exact lexes_operator (o := .not) (d := .code) hcs h
  | boolean => exact lexes_operator (o := .not) (d := .boolean) hcs h

theorem prolongs_of_isVariableLetter {c : Char} (h : isVariableLetter c = true) :
    Spelling.prolongs c = false := by
  cases hp : Spelling.prolongs c with
  | false => rfl
  | true =>
    simp only [Spelling.prolongs, Bool.or_eq_true, beq_iff_eq] at hp
    rcases hp with ((rfl | rfl) | rfl) | rfl <;> exact absurd h (by decide)

theorem toList_parenthesized (needed : Bool) (s : String) :
    (Formula.parenthesized needed s).toList =
      if needed then '(' :: (s.toList ++ [')']) else s.toList := by
  cases needed <;> simp [Formula.parenthesized, String.toList_append]

/-- Parentheses around a text put parentheses around its lexical items. -/
theorem lexes_parenthesized {s : String} {ls : List Lexeme}
    (h : ∀ cs ms, EndsOperand cs → Lexes cs ms → Lexes (s.toList ++ cs) (ls ++ ms))
    (needed : Bool) {cs : List Char} {ms : List Lexeme} (hcs : EndsOperand cs)
    (hms : Lexes cs ms) :
    Lexes ((Formula.parenthesized needed s).toList ++ cs)
      (parenthesizedLexemes needed ls ++ ms) := by
  rw [toList_parenthesized]
  cases needed with
  | false => exact h cs ms hcs hms
  | true =>
    simp only [if_pos, parenthesizedLexemes, List.cons_append, List.append_assoc, List.nil_append]
    exact lexes_lparen (h _ _ (endsOperand_rparen cs) (lexes_rparen hms))

/-- A printed formula consists of its lexical items, whatever may follow it. -/
theorem lexes_text_append {f : Formula} (d : Dialect) (hf : f.IsLettered) {cs : List Char}
    {ls : List Lexeme} (hcs : EndsOperand cs) (hls : Lexes cs ls) :
    Lexes ((f.text d).toList ++ cs) (f.lexemes d ++ ls) := by
  -- what follows varies: behind the left part come the connective and the right part
  induction f generalizing cs ls with
  | var x n =>
    rcases hf x (by simp [Formula.leaves]) with ⟨c, hc, rfl⟩
    have hletter := lexes_letter hc hcs hls
    cases n with
    | false => simpa [Formula.text, Formula.lexemes] using hletter
    | true =>
      have hnot := lexes_not (d := d) (by simp [prolongs_of_isVariableLetter hc]) hletter
      simpa [Formula.text, Formula.lexemes, String.toList_append] using hnot
  | binary l c r n e ihl ihr =>
    -- both parts with the connective between them, whether or not parentheses come around
    have hbody : ∀ cs ls, EndsOperand cs → Lexes cs ls →
        Lexes ((Formula.parenthesized (l.needsParentheses c true) (l.text d)).toList ++
            (' ' :: (((Operator.binary c).spelling d).toList ++ ' ' ::
              ((Formula.parenthesized (r.needsParentheses c false) (r.text d)).toList ++ cs))))
          (parenthesizedLexemes (l.needsParentheses c true) (l.lexemes d) ++
            (.operator ((Operator.binary c).printed d) ::
              (parenthesizedLexemes (r.needsParentheses c false) (r.lexemes d) ++ ls))) := by
      intro cs ls hcs hls
      have hr := lexes_parenthesized (fun _ _ => ihr hf.right)
        (r.needsParentheses c false) hcs hls
      exact lexes_parenthesized (fun _ _ => ihl hf.left) (l.needsParentheses c true)
        (endsOperand_blank _) (lexes_connective hr)
    cases n with
    | false => simpa [Formula.text, Formula.lexemes, String.toList_append] using hbody cs ls hcs hls
    | true =>
      -- a parenthesis follows the sign, and that prolongs no spelling
      have hgroup := lexes_lparen (hbody _ _ (endsOperand_rparen cs) (lexes_rparen hls))
      have hnot := lexes_not (d := d) rfl hgroup
      simpa [Formula.text, Formula.lexemes, String.toList_append] using hnot

theorem lexes_text {f : Formula} (d : Dialect) (hf : f.IsLettered) :
    Lexes (f.text d).toList (f.lexemes d) := by
  simpa using lexes_text_append d hf endsOperand_nil .nil

/-! ## The grammar builds the formula again -/

open Grammar

/-- The phrase as which a formula is printed: only an unnegated connective is no operand. -/
def Formula.phrase : Formula → Phrase
  | binary _ _ _ false _ => .expression
  | binary _ _ _ true _ | var _ _ => .operand

theorem needsParentheses_right (c : Connective) (f : Formula) :
    f.needsParentheses c false = true ↔ f.phrase = .expression := by
  rcases f with _ | ⟨l, c', r, n, e⟩
  · simp [Formula.needsParentheses, Formula.phrase]
  · cases n <;> simp [Formula.needsParentheses, Formula.phrase]

/-- Any phrase is an expression. -/
theorem Grammar.Reads.expression {d : Dialect} {p : Phrase} {w : List Symbol} {f : Formula}
    (h : Reads d p w f) : Reads d .expression w f := by
  cases p with
  | expression => exact h
  | operand => exact .single h

theorem reads_parenthesized {d : Dialect} {p : Phrase} {ls : List Lexeme} {f : Formula}
    (h : Reads d p (ls.map Lexeme.symbol) f) :
    Reads d .operand ((parenthesizedLexemes true ls).map Lexeme.symbol) f := by
  simpa [parenthesizedLexemes, Lexeme.symbol] using Reads.group h.expression

/-- The right part of a joined formula is printed as an operand. -/
theorem reads_right {e : Dialect} {c : Connective} {f g : Formula} {ls : List Lexeme}
    (h : Reads e f.phrase (ls.map Lexeme.symbol) g) :
    Reads e .operand
      ((parenthesizedLexemes (f.needsParentheses c false) ls).map Lexeme.symbol) g := by
  cases hneeded : f.needsParentheses c false with
  | true => exact reads_parenthesized h
  | false =>
    cases hphrase : f.phrase with
    | expression =>
      -- an expression would need parentheses here
      rw [(needsParentheses_right c f).2 hphrase] at hneeded
      exact absurd hneeded (by simp)
    | operand =>
      rw [hphrase] at h
      exact h

/-- The left part is printed as an expression, so a chain reads from the left without parentheses. -/
theorem reads_left {e : Dialect} {p : Phrase} {g : Formula} {ls : List Lexeme}
    (h : Reads e p (ls.map Lexeme.symbol) g) (needed : Bool) :
    Reads e .expression ((parenthesizedLexemes needed ls).map Lexeme.symbol) g := by
  cases needed with
  | true => exact (reads_parenthesized h).expression
  | false => exact h.expression

/-- The grammar builds a printed formula from its lexical items, marked with the dialect that the
reader takes it to be in. -/
theorem reads_lexemes {f : Formula} (d e : Dialect) (hf : f.IsLettered) :
    Reads e f.phrase ((f.lexemes d).map Lexeme.symbol) (f.marked e) := by
  induction f with
  | var x n =>
    rcases hf x (by simp [Formula.leaves]) with ⟨c, hc, rfl⟩
    have hletter := Reads.letter (d := e) c
    cases n with
    | false => simpa [Formula.lexemes, Lexeme.symbol, Formula.phrase, Formula.marked] using hletter
    | true =>
      simpa [Formula.lexemes, Lexeme.symbol, Formula.phrase, Formula.marked, Formula.negate]
        using hletter.negated
  | binary l c r n e' ihl ihr =>
    -- the left part is an expression and the right part an operand, as the rule asks
    have hbody := Reads.joined c (reads_left (ihl hf.left) (l.needsParentheses c true))
      (reads_right (c := c) (ihr hf.right))
    cases n with
    | false => simpa [Formula.lexemes, Lexeme.symbol, Formula.phrase, Formula.marked] using hbody
    | true =>
      simpa [Formula.lexemes, Lexeme.symbol, Formula.phrase, Formula.marked, Formula.negate]
        using (Reads.group hbody).negated

end PropCalc
