import PropCalc.Dialect
/-!
# Spellings

Every way of writing an operator that is read, with the operator it stands for and the dialect it
belongs to. The order of the table matters to a reader that takes the first spelling which fits: a
spelling that begins with another one stands before it (`<->` and `->` before `-`, `||` before `|`),
so the first fit is also the longest.
-/

namespace PropCalc

/-- A written form of an operator. -/
structure Spelling where
  text : String
  operator : Operator
  dialect : Dialect
deriving DecidableEq, Repr

namespace Spelling

/-- The spellings that are read, in the order in which they are tried. -/
def all : List Spelling :=
  [ ⟨"<->", .binary .iff, .logic⟩,
    ⟨"IFF", .binary .iff, .pseudo⟩,
    ⟨"iff", .binary .iff, .pseudo⟩,
    ⟨"->", .binary .implies, .logic⟩,
    ⟨"IMPLIES", .binary .implies, .pseudo⟩,
    ⟨"implies", .binary .implies, .pseudo⟩,
    ⟨"||", .binary .or, .code⟩,
    ⟨"+", .binary .or, .boolean⟩,
    ⟨"OR", .binary .or, .pseudo⟩,
    ⟨"or", .binary .or, .pseudo⟩,
    ⟨"v", .binary .or, .logic⟩,
    ⟨"-+", .binary .nor, .boolean⟩,
    ⟨"↓", .binary .nor, .logic⟩,
    ⟨"⬇", .binary .nor, .logic⟩,
    ⟨"NOR", .binary .nor, .pseudo⟩,
    ⟨"nor", .binary .nor, .pseudo⟩,
    ⟨"-*", .binary .nand, .boolean⟩,
    ⟨"|", .binary .nand, .logic⟩,
    ⟨"↑", .binary .nand, .logic⟩,
    ⟨"NAND", .binary .nand, .pseudo⟩,
    ⟨"nand", .binary .nand, .pseudo⟩,
    ⟨"&&", .binary .and, .code⟩,
    ⟨"*", .binary .and, .boolean⟩,
    ⟨"^", .binary .and, .logic⟩,
    ⟨"AND", .binary .and, .pseudo⟩,
    ⟨"and", .binary .and, .pseudo⟩,
    ⟨"~", .not, .logic⟩,
    ⟨"!", .not, .code⟩,
    ⟨"-", .not, .boolean⟩,
    ⟨"NOT", .not, .pseudo⟩,
    ⟨"not", .not, .pseudo⟩ ]

/-- The spelling with exactly the given text. -/
def find? (text : String) : Option Spelling :=
  all.find? fun s => s.text == text

/-- The characters of a spelling. -/
def chars (s : Spelling) : List Char := s.text.toList

/-- No spelling is empty, so reading one always moves on. -/
theorem chars_ne_nil : ∀ s ∈ all, s.chars ≠ [] := by decide

/-- The first spelling in the table with which the text begins. -/
def startOf? (cs : List Char) : Option Spelling :=
  all.find? fun s => s.chars.isPrefixOf cs

end Spelling

end PropCalc
