import PropCalc.Text.Digit
import PropCalc.Text.Quoted
/-!
# Command-line arguments

Which arguments are switches, which are expressions, and what is wrong with the others.

* A long switch may be shortened as long as no other one begins that way. Short switches may be
  written together, also with an equals sign behind the first one. No switch takes a value.
* Expressions are taken from the first run of arguments that are no switches. All that stand
  elsewhere are not recognized.
* Behind `--` there are no switches. An argument with a dash may still be an expression: if it is the
  dash alone, looks like a negative number, or holds a blank and does not begin with a switch.
-/

namespace PropCalc.Arguments

/-! ## Switches -/

/-- A switch of the command line. -/
inductive Switch where
  | help
  | verbose
  | debug
  | steps
  | noTable
deriving DecidableEq, Repr

namespace Switch

/-- The ways to write the switches, in order. -/
def spellings : List (String × Switch) :=
  [ ("-h", help), ("--help", help), ("-v", verbose), ("--verbose", verbose), ("--debug", debug),
    ("--steps", steps), ("--no-table", noTable) ]

/-- The switch that is written exactly so. -/
def find? (text : String) : Option Switch := spellings.lookup text

/-- The spellings of a switch, as messages name it. -/
def title (s : Switch) : String :=
  "/".intercalate ((spellings.filter fun e => e.2 == s).map (·.1))

/-- The spellings that begin with a text. -/
def beginningWith (start : List Char) : List (String × Switch) :=
  spellings.filter fun e => start.isPrefixOf e.1.toList

end Switch

/-- What is wrong with the arguments. -/
inductive UsageError where
  /-- Several switches begin like this. -/
  | ambiguous (argument : String) (candidates : List String)
  /-- A value is given to a switch. -/
  | ignoredValue (s : Switch) (value : String)
  | unrecognized (arguments : List String)
deriving DecidableEq, Repr

/-- The wording of an error. -/
def UsageError.message : UsageError → String
  | ambiguous argument candidates =>
    "ambiguous option: " ++ argument ++ " could match " ++ ", ".intercalate candidates
  | ignoredValue s value =>
    "argument " ++ s.title ++ ": ignored explicit argument " ++ Text.quoted value
  | unrecognized arguments => "unrecognized arguments: " ++ " ".intercalate arguments

/-! ## Kinds of arguments -/

/-- What a single argument is. -/
inductive Argument where
  | expression (text : String)
  /-- A switch, with the short switches that are written together with it. -/
  | switches (first : Switch) (tail : List Char)
  /-- A switch with a value behind an equals sign. -/
  | valued (s : Switch) (value : String)
  /-- Begins like a switch but is none. -/
  | unknown (text : String)
deriving DecidableEq, Repr

/-- Splits at the first equals sign. -/
def splitEquals (cs : List Char) : List Char × Option (List Char) :=
  match cs.dropWhile (· != '=') with
  | [] => (cs, none)
  | _ :: value => (cs.takeWhile (· != '='), some value)

/-- Whether the characters behind a dash are digits with at most one point, which has digits behind
it; a line end may follow. -/
def looksNumeric (cs : List Char) : Bool :=
  let cs := if cs.getLast? = some '\n' then cs.dropLast else cs
  match cs.dropWhile Text.isDecimalDigit with
  | [] => !cs.isEmpty
  | '.' :: fraction => !fraction.isEmpty && fraction.all Text.isDecimalDigit
  | _ => false

/-- What an argument is that begins with a dash and no switch. -/
def unlisted (text : String) : Argument :=
  if looksNumeric (text.toList.drop 1) || text.toList.contains ' ' then .expression text
  else .unknown text

/-- What an argument is that begins with two dashes. -/
def classifyLong (text : String) : Except UsageError Argument :=
  let (start, value?) := splitEquals text.toList
  match Switch.beginningWith start with
  | [] => .ok (unlisted text)
  | [(_, s)] =>
    .ok (match value? with
      | none => .switches s []
      | some value => .valued s (String.ofList value))
  | several => .error (.ambiguous text (several.map (·.1)))

/-- What an argument is that begins with a single dash: `c` stands behind it, and then `tail`. An
equals sign right behind a switch sets off the short switches that follow. -/
def classifyShort (text : String) (c : Char) (tail : List Char) : Argument :=
  match Switch.find? (String.ofList ['-', c]), tail with
  | none, _ => unlisted text
  | some s, ['='] => .valued s ""
  | some s, '=' :: tail => .switches s tail
  | some s, tail => .switches s tail

/-- Tells what an argument is that stands before any `--`. -/
def classify (text : String) : Except UsageError Argument :=
  match text.toList with
  | '-' :: '-' :: _ => classifyLong text
  | '-' :: c :: tail => .ok (classifyShort text c tail)
  | _ => .ok (.expression text)

/-- An argument, or the mark behind which there are no switches. -/
inductive Item where
  | argument (a : Argument)
  | endOfSwitches
deriving DecidableEq, Repr

/-- Tells what all arguments are. -/
def classifyAll : List String → Except UsageError (List Item)
  | [] => .ok []
  | text :: texts =>
    if text = "--" then .ok (.endOfSwitches :: texts.map fun t => .argument (.expression t))
    else do
      let a ← classify text
      let items ← classifyAll texts
      return .argument a :: items

/-! ## Options -/

/-- What the arguments ask for. -/
structure Options where
  expressions : List String
  verbose : Bool
  debug : Bool
  steps : Bool
  noTable : Bool
deriving DecidableEq, Repr

/-- What to do: explain the usage, or work on expressions. -/
inductive Request where
  | help
  | run (o : Options)
deriving DecidableEq, Repr

/-- Takes a switch into account, unless it asks for help. -/
def Options.apply (o : Options) : Switch → Option Options
  | .help => none
  | .verbose => some { o with verbose := true }
  | .debug => some { o with debug := true }
  | .steps => some { o with steps := true }
  | .noTable => some { o with noTable := true }

/-- Takes switches into account one after the other, up to one that asks for help. -/
def Options.applyAll (o : Options) : List Switch → Option Options
  | [] => some o
  | s :: ss => (o.apply s).bind fun o => o.applyAll ss

/-- A switch and those written together with it. A character that is no switch makes all that stands
from it on a value of the switch before it. -/
def expand (s : Switch) : List Char → Except UsageError (List Switch)
  | [] => .ok [s]
  | c :: cs =>
    match Switch.find? (String.ofList ['-', c]) with
    | none => .error (.ignoredValue s (String.ofList (c :: cs)))
    | some next => do return s :: (← expand next cs)

/-- What has been read: the options, whether a run of expressions has been taken and is still going
on, and the arguments that are not recognized. -/
structure Progress where
  options : Options
  taking : Bool
  taken : Bool
  extras : List String
deriving DecidableEq, Repr

namespace Progress

/-- Nothing has been read. -/
def start : Progress := ⟨⟨[], false, false, false, false⟩, false, false, []⟩

/-- Adds to the first run of expressions. -/
def take (p : Progress) (texts : List String) : Progress :=
  { p with
    options := { p.options with expressions := p.options.expressions ++ texts }
    taking := true
    taken := true }

/-- Reads on behind switches, which end a run of expressions. -/
def switched (p : Progress) (o : Options) : Progress := { p with options := o, taking := false }

/-- Reads on behind something like a switch, which ends a run of expressions too. -/
def rejected (p : Progress) (text : String) : Progress :=
  { p with taking := false, extras := p.extras ++ [text] }

/-- Reads an item that is no switch: it joins the first run of expressions, or else is not
recognized. -/
def place (p : Progress) (shown : String) (texts : List String) : Progress :=
  if p.taking || !p.taken then p.take texts else { p with extras := p.extras ++ [shown] }

end Progress

/-- Reads the remaining items. Help is given as soon as it is asked for. -/
def readItems (p : Progress) : List Item → Except UsageError Request
  | [] => if p.extras = [] then .ok (.run p.options) else .error (.unrecognized p.extras)
  | .endOfSwitches :: items => readItems (p.place "--" []) items
  | .argument (.expression text) :: items => readItems (p.place text [text]) items
  | .argument (.unknown text) :: items => readItems (p.rejected text) items
  | .argument (.valued s value) :: _ => .error (.ignoredValue s value)
  | .argument (.switches first tail) :: items => do
    match p.options.applyAll (← expand first tail) with
    | none => return .help
    | some o => readItems (p.switched o) items

/-- Reads all arguments. -/
def read (arguments : List String) : Except UsageError Request := do
  readItems .start (← classifyAll arguments)

end PropCalc.Arguments
