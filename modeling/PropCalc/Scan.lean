import PropCalc.Token
/-!
# Scans

Cutting a text into tokens. A scan always answers: with the tokens up to the end of the text, or
with those before the first character at which no lexical item begins.
-/

namespace PropCalc

/-- A character at which no lexical item begins. -/
structure IllegalCharacter where
  char : Char
  offset : Nat
deriving DecidableEq, Repr

/-- The tokens of a text, and where reading it had to stop short. -/
structure Scan where
  tokens : List Token
  illegal? : Option IllegalCharacter
deriving DecidableEq, Repr

namespace Scan

/-- Reads on from the given offset. Blanks are skipped one by one; any other character has to begin
a lexical item. -/
def ofChars (offset : Nat) : List Char → Scan
  | [] => ⟨[], none⟩
  | c :: cs =>
    if isBlank c then ofChars (offset + 1) cs
    else match _h : Lexeme.startOf? (c :: cs) with
      | none => ⟨[], some ⟨c, offset⟩⟩
      | some l =>
        let rest := ofChars (offset + l.chars.length) ((c :: cs).drop l.chars.length)
        ⟨⟨l, offset⟩ :: rest.tokens, rest.illegal?⟩
termination_by cs => cs.length
decreasing_by
  · simp
  · have := List.length_pos_iff.2 (Lexeme.chars_ne_nil_of_startOf? _h)
    simp only [List.length_drop, List.length_cons]
    omega

/-- The scan of a whole text. -/
def ofString (text : String) : Scan := ofChars 0 text.toList

/-- Where reading stopped: at the illegal character, or behind the last one. -/
def stop (s : Scan) (text : String) : Nat :=
  match s.illegal? with
  | some bad => bad.offset
  | none => text.length

end Scan

end PropCalc
