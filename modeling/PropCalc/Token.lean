import PropCalc.Spelling
import PropCalc.Text.Digit
/-!
# Tokens

What a text is made of. A *lexeme* is a lexical item as it was written, a *symbol* is what remains
of it for the grammar: all spellings of an operator are the same symbol. A *token* is a lexeme with
the place where it stands.
-/

namespace PropCalc

/-! ## Lexical items -/

/-- What the grammar sees of a lexical item. -/
inductive Symbol where
  | lparen
  | rparen
  | operator (o : Operator)
  | letter (c : Char)
deriving DecidableEq, Repr

/-- A lexical item as written. -/
inductive Lexeme where
  | lparen
  | rparen
  | operator (spelling : Spelling)
  | letter (c : Char)
deriving DecidableEq, Repr

/-- The letters that name variables: all small ones except the letter that spells a disjunction. -/
def isVariableLetter (c : Char) : Bool :=
  'a' ≤ c && c ≤ 'z' && c != 'v'

/-- The characters that may stand between lexical items. -/
def isBlank (c : Char) : Bool :=
  c == ' ' || c == '\t' || c == '\r' || c == '\n'

namespace Lexeme

/-- What a lexical item means to the grammar. -/
def symbol : Lexeme → Symbol
  | lparen => .lparen
  | rparen => .rparen
  | operator s => .operator s.operator
  | letter c => .letter c

/-- The characters of a lexical item. -/
def chars : Lexeme → List Char
  | lparen => ['(']
  | rparen => [')']
  | operator s => s.chars
  | letter c => [c]

/-- The spelling of an operator. -/
def spelling? : Lexeme → Option Spelling
  | operator s => some s
  | _ => none

/-- The lexical item at the start of a text. Operators go before variables, so that `nand` is not
read as the variable `n`. -/
def startOf? : List Char → Option Lexeme
  | [] => none
  | c :: cs =>
    if c = '(' then some lparen
    else if c = ')' then some rparen
    else match Spelling.startOf? (c :: cs) with
      | some s => some (operator s)
      | none => if isVariableLetter c then some (letter c) else none

/-- A lexical item that was found is not empty. -/
theorem chars_ne_nil_of_startOf? {cs : List Char} {l : Lexeme} (h : startOf? cs = some l) :
    l.chars ≠ [] := by
  cases cs with
  | nil => simp [startOf?] at h
  | cons c cs =>
    simp only [startOf?] at h
    split at h
    · cases h; simp [chars]
    split at h
    · cases h; simp [chars]
    split at h
    · next s hs =>
      cases h
      exact Spelling.chars_ne_nil s (List.mem_of_find?_eq_some hs)
    · split at h
      · cases h; simp [chars]
      · cases h

end Lexeme

/-! ## Tokens -/

/-- A lexical item and the number of characters before it. -/
structure Token where
  lexeme : Lexeme
  offset : Nat
deriving DecidableEq, Repr

namespace Symbol

/-- The class of a symbol, as syntax errors name it. -/
def className : Symbol → String
  | lparen => "LPAREN"
  | rparen => "RPAREN"
  | operator (.binary .iff) => "IFF"
  | operator o => o.name
  | letter _ => "VAR"

/-- A symbol by itself: the character, or the name of the operator. -/
def value : Symbol → String
  | lparen => "("
  | rparen => ")"
  | operator o => o.name
  | letter c => c.toString

/-- The character of a symbol in the canonical form. -/
def canonical : Symbol → Char
  | lparen => '('
  | rparen => ')'
  | operator o => o.symbol
  | letter c => c

end Symbol

namespace Token

/-- What a token means to the grammar. -/
def symbol (t : Token) : Symbol := t.lexeme.symbol

/-- The spelling of the first operator among the tokens. -/
def firstSpelling? (ts : List Token) : Option Spelling :=
  ts.findSome? fun t => t.lexeme.spelling?

/-- The dialect that the first operator fixes. -/
def dialect? (ts : List Token) : Option Dialect :=
  (firstSpelling? ts).map (·.dialect)

/-- The canonical form: one character for every token, and nothing between them. -/
def canonicalText (ts : List Token) : String :=
  String.ofList (ts.map fun t => t.symbol.canonical)

end Token

end PropCalc
