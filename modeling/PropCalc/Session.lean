import PropCalc.Log.Trace
import PropCalc.Simplify
import PropCalc.TableLayout
/-!
# Sessions

Working on one expression step by step. A step that fails leaves the expression as it was.
-/

namespace PropCalc.Session

/-- The right side to combine with: a text to read, or a formula. -/
inductive Operand where
  | text (s : String)
  | formula (f : Formula)
deriving DecidableEq, Repr

/-- One step of a session. -/
inductive Step where
  | parse (text? : Option String)
  | negate
  /-- Joins the expression with a right side; the dialect is that of the new node only. -/
  | combine (o : Operator) (right : Operand) (negated : Bool) (d : Dialect)
  | setDialect (d : Dialect)
  /-- Prints the expression and reads the text. -/
  | reparse (dialect? : Option Dialect)
  /-- Reads the minimal form. -/
  | simplify (dialect? : Option Dialect)
  /-- Prints the truth table. -/
  | table (intermediate : Bool) (dialect? : Option Dialect)
deriving DecidableEq, Repr

/-- Why a step fails. -/
inductive StepError where
  /-- There is no expression yet. -/
  | noExpression
  | parse (e : ParseError)
  | combine (e : ConnectiveError)
  | simplify (e : SimplifyError)
  | missing (m : MissingValue)
  | ragged (e : TableLayout.RaggedTable)
deriving DecidableEq, Repr

/-- The wording of an error. -/
def StepError.message : StepError → String
  | noExpression => ""
  | parse e => e.message
  | combine e => e.message
  | simplify e => e.message
  | missing m => m.message
  | ragged e => e.message

/-- What a step answers: the expression with its truth values, or the lines of a table. -/
inductive Answer where
  | expression (e : Expression) (truths : List Bool)
  | table (lines : List String)
deriving DecidableEq, Repr

/-- Reads the right side of a combination. -/
def Operand.read : Operand → Except ParseError Formula
  | text s => return (← Expression.parse s).root
  | formula f => return f

/-- The answer that shows an expression. -/
def shown (e : Expression) : Except StepError Answer := do
  let truths ← ((Subject.expression e).truths none).mapError .missing
  return .expression e truths

/-- The expression after a step on an expression; printing a table does not change it. -/
def next (e : Expression) : Step → Except StepError Expression
  | .parse text? => (Expression.parse? text?).mapError .parse
  | .negate => .ok { e with root := e.root.negate }
  | .combine o right negated d => do
    let f ← right.read.mapError .parse
    let root ← (e.root.join o f negated d).mapError .combine
    return { e with root }
  | .setDialect d => .ok { e with dialect := d }
  | .reparse dialect? => (Expression.parse (e.root.text (dialect?.getD e.dialect))).mapError .parse
  | .simplify dialect? => do
    let text ← ((Subject.expression e).simplify none dialect?).mapError .simplify
    (Expression.parse text).mapError .parse
  | .table .. => .ok e

/-- The lines of the truth table. -/
def tableLines (e : Expression) (intermediate : Bool) (dialect? : Option Dialect) :
    Except StepError (List String) := do
  let columns ← ((Subject.expression e).truthTable none intermediate dialect?).mapError .missing
  (TableLayout.lines columns).mapError .ragged

/-- Carries out a step: the expression afterwards and the answer. -/
def step (current? : Option Expression) (s : Step) : Option Expression × Except StepError Answer :=
  let after : Except StepError (Expression × Answer) := do
    let e ← match current?, s with
      | some e, s => next e s
      | none, .parse text? => (Expression.parse? text?).mapError .parse
      | none, _ => throw .noExpression
    let answer ← match s with
      | .table intermediate dialect? => Answer.table <$> tableLines e intermediate dialect?
      | _ => shown e
    return (e, answer)
  match after with
  | .ok (e, answer) => (some e, .ok answer)
  | .error err => (current?, .error err)

/-- The events of a step. -/
def trace (current? : Option Expression) : Step → List Log.Event
  | .parse text? => Log.Trace.parse text?
  | s =>
    match current?, s with
    | some _, .combine _ (.text t) _ _ => Log.Trace.parse (some t)
    | some e, .reparse dialect? => Log.Trace.parse (some (e.root.text (dialect?.getD e.dialect)))
    | some e, .simplify dialect? =>
      Log.Trace.simplify (.expression e) none dialect? ++
        match (Subject.expression e).simplify none dialect? with
        | .ok text => Log.Trace.parse (some text)
        | .error _ => []
    | some e, .table intermediate dialect? =>
      Log.Trace.truthTable (.expression e) none intermediate dialect?
    | _, _ => []

/-- Carries out steps one after the other. -/
def run (current? : Option Expression) : List Step → List (Except StepError Answer)
  | [] => []
  | s :: ss =>
    let (next?, answer) := step current? s
    answer :: run next? ss

/-- The events of steps that are carried out one after the other. -/
def traces (current? : Option Expression) : List Step → List Log.Event
  | [] => []
  | s :: ss => trace current? s ++ traces (step current? s).1 ss

end PropCalc.Session
