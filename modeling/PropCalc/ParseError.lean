import PropCalc.Scan
/-!
# Parse errors

Everything that can be wrong with a text, by cause, and the wording of each.
-/

namespace PropCalc

/-- Why a text is no expression. -/
inductive ParseError where
  /-- There is no text at all. -/
  | absent
  /-- A character begins no lexical item. -/
  | illegal (bad : IllegalCharacter)
  /-- A group is closed that was never opened. -/
  | unopened (offset : Nat)
  /-- A group is not closed. -/
  | unclosed
  /-- A whole text or a group is empty. -/
  | emptyOperand
  /-- A closing parenthesis stands where none belongs. -/
  | strayClosing (offset : Nat)
  /-- An operator has nothing to its left. -/
  | noLeftOperand (o : Operator) (offset : Nat)
  /-- An operator has nothing to its right. -/
  | noRightOperand (o : Operator) (offset : Nat)
  /-- Two letters stand side by side. -/
  | runTogether (first second : Char)
  /-- Two operands stand side by side. -/
  | missingOperator (offset : Nat)
  /-- The grammar cannot go on with this token. -/
  | unexpectedToken (symbol : Symbol) (offset : Nat)
  /-- The grammar cannot stop here. -/
  | unexpectedEnd
deriving DecidableEq, Repr

namespace ParseError

/-- The kinds of rejection that callers tell apart. -/
inductive Kind where
  | invalid
  | unbalanced
deriving DecidableEq, Repr

/-- Parentheses that do not pair up are a kind of their own. -/
def kind : ParseError → Kind
  | unopened _ | unclosed => .unbalanced
  | _ => .invalid

/-- The wording for an illegal character. -/
def illegalMessage (bad : IllegalCharacter) : String :=
  if Text.isDigit bad.char then "numbers are not valid variables"
  else "Illegal character '" ++ bad.char.toString ++ "' encountered at position "
    ++ toString bad.offset

/-- A symbol as a syntax error shows it. -/
def shownSymbol : Symbol → String
  | .operator o => "Operator." ++ o.name
  | s => s.value

/-- The wording of an error. -/
def message : ParseError → String
  | absent => "Parse failed: 'NoneType' object is not subscriptable"
  | illegal bad => illegalMessage bad
  | unopened offset =>
    "Closing parenthesis at position " ++ toString offset ++ " has no opening partner."
  | unclosed => "You have a missing parenthesis somewhere."
  | emptyOperand => "That is an invalid expression: an operand is empty."
  | strayClosing offset => "Unexpected ')' at position " ++ toString offset ++ "."
  | noLeftOperand o offset =>
    "Operator " ++ o.name ++ " at position " ++ toString offset ++ " has no left operand."
  | noRightOperand o offset =>
    "Operator " ++ o.name ++ " at position " ++ toString offset ++ " has no right operand."
  | runTogether first second =>
    "'" ++ first.toString ++ second.toString
      ++ "' is not a valid variable; variables are single letters."
  | missingOperator offset => "Missing operator before position " ++ toString offset ++ "."
  | unexpectedToken s offset =>
    "Syntax error near '" ++ shownSymbol s ++ "' (type: " ++ s.className ++ ") at position "
      ++ toString offset
  | unexpectedEnd => "Syntax error: Unexpected end of expression"

end ParseError

/-! ## Tokens of a text -/

/-- The tokens of a text and its dialect; a text without operators counts as logic. -/
def tokenize (text : String) : Except ParseError (List Token × Dialect) :=
  let scan := Scan.ofString text
  match scan.illegal? with
  | some bad => .error (.illegal bad)
  | none => .ok (scan.tokens, (Token.dialect? scan.tokens).getD .logic)

/-- The canonical form of a text, and its dialect. -/
def normalize (text : String) : Except ParseError (String × Dialect) := do
  let (tokens, dialect) ← tokenize text
  return (Token.canonicalText tokens, dialect)

end PropCalc
