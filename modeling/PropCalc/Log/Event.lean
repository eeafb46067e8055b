import PropCalc.Expression
import PropCalc.Log.Message
import PropCalc.RowSet
import PropCalc.Text.Quoted
/-!
# Events

What happens while an expression is read, tabulated and minimized, as far as a log tells of it, and
the wording of each event. All events are of interest for debugging only; the results that a user
asked for are messages of their own.
-/

namespace PropCalc.Log

/-- A step of the work on an expression. -/
inductive Event where
  /-- Reading begins; the text may be absent. -/
  | reading (text? : Option String)
  /-- The first operator fixes the dialect. -/
  | dialectFixed (s : Spelling)
  | illegal (bad : IllegalCharacter)
  /-- The formula is built. -/
  | built (isVariable : Bool) (d : Dialect)
  | accepted (names : List String) (isSingle : Bool)
  | rejected
  /-- There is no text to read. -/
  | unreadable
  | failed
  /-- A round of merging is over. -/
  | merged (round terms primes : Int)
  | primesFound (patterns : List String)
  /-- An implicant is chosen for the cover. -/
  | chosen (kind pattern : String) (covered : List Int)
  | minimized (function : String)
  | rendered (d : Dialect) (text : String)
  | tabulated (columns rows : Nat)
deriving DecidableEq, Repr

namespace Event

/-- A truth value as a word. -/
def boolWord (b : Bool) : String := if b then "True" else "False"

/-- Numbers in ascending order, as often as they occur. -/
def sortedText (ns : List Int) : String := rowsText (ns.mergeSort (fun a b => decide (a ≤ b)))

/-- The wording of an event. -/
def text : Event → String
  | reading text? => "Parsing expression: " ++ text?.getD "None"
  | dialectFixed s => "Dialect " ++ s.dialect.title ++ " fixed by '" ++ s.text ++ "'"
  | illegal bad =>
    "Illegal character '" ++ bad.char.toString ++ "' at position " ++ toString bad.offset
  | built isVariable d =>
    "Successfully parsed expression into " ++ (if isVariable then "Variable" else "BinaryOp")
      ++ " (" ++ d.title ++ ")"
  | accepted names isSingle =>
    "Expression parsed with variables " ++ Text.bracketed (names.map Text.quoted)
      ++ ", single=" ++ boolWord isSingle
  | rejected => "Parse error encountered"
  | unreadable => "Unexpected parsing error: 'NoneType' object is not subscriptable"
  | failed => "Error encountered during expression parsing"
  | merged round terms primes =>
    "    🔧 Round " ++ toString round ++ ": " ++ toString terms ++ " merged terms, "
      ++ toString primes ++ " prime implicants so far"
  | primesFound patterns => "    🔍 Prime implicants: " ++ ", ".intercalate patterns
  | chosen kind pattern covered =>
    "      🟢 " ++ kind ++ " implicant " ++ pattern ++ " covers \x7b" ++ sortedText covered ++ "\x7d"
  | minimized function => "Minimized function: " ++ function
  | rendered d text => "Rendered minimized function in " ++ d.title ++ ": " ++ text
  | tabulated columns rows =>
    "Truth table built: " ++ toString columns ++ " columns x " ++ toString rows ++ " rows"

/-- The message that tells of an event. -/
def message (e : Event) : Message := ⟨.debug, e.text⟩

end Event

namespace Message

/-- The messages before the results for an expression; its dialect may be left out. -/
def heading (text : String) (dialect? : Option String) : List Message :=
  let dialect := dialect?.getD ""
  ⟨.info, "=== " ++ text ++ " ==="⟩ ::
    if dialect.isEmpty then [] else [⟨.info, "Dialect: " ++ dialect⟩]

/-- The message with the simplified form of an expression. -/
def simplified (text : String) : Message := ⟨.info, "Simplified: " ++ text⟩

end Message

end PropCalc.Log
