import PropCalc.Arguments
import PropCalc.Log.Trace
import PropCalc.Simplify
import PropCalc.TableLayout
/-!
# The console program

Simplifies the expressions given as arguments and prints their truth tables. An expression that is
rejected is reported and the next one is taken; the program then ends with a failure.
-/

namespace PropCalc.Console

open PropCalc.Log (Message Level)

/-! ## Texts -/

/-- The expressions that are taken when none are given. -/
def builtInExpressions : List String :=
  [ "a or (a and b)",
    "(not a and not b) or (not c or not b)",
    "~(a v b)",
    "(a ^ b) ^ c",
    "(a || b) && (!d || c)",
    "(p && q && r) || (p && q && !r) || (p && !q && !r)",
    "(a*b*c) + (a*-b*-d) + (a*b*-c) + (a*b*d)",
    "(a+b+c)*(a+-b+-d)*(a+b+-c)*(a+b+d)" ]

/-- The name of the program in its own messages. -/
def programName : String := "run_simplifier.py"

/-- The usage in two lines. -/
def usage : String :=
  "usage: " ++ programName ++ " [-h] [-v] [--debug] [--steps] [--no-table]\n" ++
  "                         [expressions ...]\n"

/-- The help text. -/
def help : String :=
  usage ++ "\n" ++
  "Proplogic propositional expression simplifier\n" ++
  "\n" ++
  "positional arguments:\n" ++
  "  expressions    Expressions to simplify (default: built-in examples)\n" ++
  "\n" ++
  "options:\n" ++
  "  -h, --help     show this help message and exit\n" ++
  "  -v, --verbose  Enable verbose output\n" ++
  "  --debug        Enable debug output (overrides --verbose)\n" ++
  "  --steps        Show a truth-table column for every intermediate step\n" ++
  "  --no-table     Only print the simplified expressions\n" ++
  "\n" ++
  "Examples:\n" ++
  "  python run_simplifier.py \"a or (a and b)\"\n" ++
  "  python run_simplifier.py \"~(a v b)\" \"(a || b) && !c\" --steps\n" ++
  "  python run_simplifier.py --debug \"(a*b) + (a*-b)\"\n" ++
  "\n" ++
  "Dialects:\n" ++
  "  pseudo-English   not a and (b or c)\n" ++
  "  logic-symbol     ~a ^ (b v c)\n" ++
  "  code-symbol      !a && (b || c)\n" ++
  "  Boolean-algebra  -a * (b + c)\n" ++
  "\n" ++
  "Without expressions the built-in examples are processed.\n" ++
  "        \n"

/-! ## Work on one expression -/

/-- What the program says about one expression, and whether it accepted the expression. -/
structure Report where
  messages : List Message
  accepted : Bool
deriving DecidableEq, Repr

/-- Messages about events. -/
def told (events : List Log.Event) : List Message := events.map (·.message)

/-- The message that rejects a text. -/
def rejection (text reason : String) : Message :=
  ⟨.error, "Expression error in '" ++ text ++ "': " ++ reason⟩

/-- The lines of the truth table of an expression. -/
def tableLines (e : Expression) (steps : Bool) : Except String (List String) := do
  let columns ← ((Subject.expression e).truthTable none steps none).mapError (·.message)
  (TableLayout.lines columns).mapError (·.message)

/-- The messages of the table, if one is wanted. -/
def tableMessages (o : Arguments.Options) (e : Expression) : Except String (List Message) := do
  if o.noTable then return []
  let lines ← tableLines e o.steps
  return told (Log.Trace.truthTable (.expression e) none o.steps none)
    ++ lines.map (⟨.info, ·⟩)

/-- Works on one text. -/
def report (o : Arguments.Options) (text : String) : Report :=
  let reading := told (Log.Trace.parse (some text))
  match Expression.parse text with
  | .error err => ⟨reading ++ [rejection text err.message], false⟩
  | .ok e =>
    let begun := reading ++ Message.heading text (some e.dialect.title)
      ++ told (Log.Trace.simplify (.expression e) none none)
    match (Subject.expression e).simplify none none with
    | .error err => ⟨begun ++ [rejection text err.message], false⟩
    | .ok simple =>
      let begun := begun ++ [Message.simplified simple]
      match tableMessages o e with
      | .error reason => ⟨begun ++ [rejection text reason], false⟩
      | .ok table => ⟨begun ++ table ++ [⟨.info, ""⟩], true⟩

/-! ## The program -/

/-- What the program leaves behind: its exit code and its two streams. -/
structure Outcome where
  exitCode : Nat
  output : String
  errors : String
deriving DecidableEq, Repr

/-- The level from which messages are shown. -/
def threshold (o : Arguments.Options) : Level := if o.debug then .debug else .info

/-- Works on all texts. -/
def process (o : Arguments.Options) : Outcome :=
  let texts := if o.expressions = [] then builtInExpressions else o.expressions
  let reports := texts.map (report o)
  { exitCode := if reports.all (·.accepted) then 0 else 2
    output := String.join (reports.map fun r => Log.written (threshold o) r.messages)
    errors := "" }

/-- Runs the program on its arguments. -/
def run (arguments : List String) : Outcome :=
  match Arguments.read arguments with
  | .error err => ⟨2, "", usage ++ programName ++ ": error: " ++ err.message ++ "\n"⟩
  | .ok .help => ⟨0, help, ""⟩
  | .ok (.run o) => process o

end PropCalc.Console
