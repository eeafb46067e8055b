import PropCalc.Expression
/-!
# Readers

Readers that serve one text after the other. A reader of tokens keeps the first dialect it met; a
reader of expressions keeps the dialect of the last text that it could cut into tokens. Nothing else
is carried from one text to the next.
-/

namespace PropCalc

/-! ## Tokens -/

/-- A reader of tokens, with the dialect that an operator has fixed. -/
structure TokenReader where
  dialect? : Option Dialect
deriving DecidableEq, Repr

namespace TokenReader

/-- A reader that has not read anything. -/
def start : TokenReader := ⟨none⟩

/-- Takes note of a lexical item: an operator fixes the dialect, unless an earlier one has. -/
def note (r : TokenReader) (l : Lexeme) : TokenReader :=
  match r.dialect?, l.spelling? with
  | none, some s => ⟨some s.dialect⟩
  | _, _ => r

/-- Reads on from the given offset. Every item is noted before the reader goes on behind it. -/
def readFrom (r : TokenReader) (offset : Nat) : List Char → Scan × TokenReader
  | [] => (⟨[], none⟩, r)
  | c :: cs =>
    if isBlank c then r.readFrom (offset + 1) cs
    else match _h : Lexeme.startOf? (c :: cs) with
      | none => (⟨[], some ⟨c, offset⟩⟩, r)
      | some l =>
        let (rest, next) :=
          (r.note l).readFrom (offset + l.chars.length) ((c :: cs).drop l.chars.length)
        (⟨⟨l, offset⟩ :: rest.tokens, rest.illegal?⟩, next)
termination_by cs => cs.length
decreasing_by
  · simp
  · have := List.length_pos_iff.2 (Lexeme.chars_ne_nil_of_startOf? _h)
    simp only [List.length_drop, List.length_cons]
    omega

/-- Reads a text. -/
def read (r : TokenReader) (text : String) : Scan × TokenReader := r.readFrom 0 text.toList

end TokenReader

/-! ## Expressions -/

/-- A reader of expressions, with the dialect of the last text. -/
structure ExpressionReader where
  dialect : Dialect
deriving DecidableEq, Repr

namespace ExpressionReader

/-- A reader that has not read anything. -/
def start : ExpressionReader := ⟨.logic⟩

/-- The expression that tokens form, marked with the dialect that the reader holds. -/
def build (r : ExpressionReader) (ts : List Token) : Except ParseError Expression :=
  Expression.ofTokens r.dialect ts

/-- Reads a text. As soon as it is cut into tokens its dialect is taken over, also if they turn out
to form no expression. -/
def read (r : ExpressionReader) (text : String) :
    Except ParseError Expression × ExpressionReader :=
  match tokenize text with
  | .error e => (.error e, r)
  | .ok (tokens, d) =>
    let next : ExpressionReader := { r with dialect := d }
    (next.build tokens, next)

end ExpressionReader

/-! ## Several texts -/

/-- Reads texts one after the other with the same reader. Each answer comes with the reader as it is
afterwards. -/
def readAll {R A : Type} (read : R → String → A × R) (r : R) : List String → List (A × R)
  | [] => []
  | text :: texts => read r text :: readAll read (read r text).2 texts

end PropCalc
