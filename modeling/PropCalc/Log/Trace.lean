import PropCalc.Log.Event
import PropCalc.Simplify
import PropCalc.TruthTable
/-!
# Traces

The events of each job, in the order in which they happen. A trace is read off the intermediate
results of the job, so the jobs themselves know nothing of logs.
-/

namespace PropCalc.Log.Trace

/-! ## Reading -/

/-- The events of a scan; only a reader without dialect takes it from the first operator. -/
def scan (fixed? : Option Dialect) (s : Scan) : List Event :=
  let spelling? := if fixed?.isSome then none else Token.firstSpelling? s.tokens
  (spelling?.map Event.dialectFixed).toList ++ (s.illegal?.map Event.illegal).toList

/-- The events of cutting a text into tokens. -/
def tokens (text : String) : List Event := scan none (Scan.ofString text)

/-- The events of reading one of several texts. -/
def read (text : String) : List Event :=
  .reading (some text) :: tokens text ++
    match Expression.parse text with
    | .ok e => [.built e.isSingle e.dialect]
    | .error _ => [.rejected]

/-- The events of reading a text on its own; the text may be absent. -/
def parse : Option String → List Event
  | none => [.reading none, .reading none, .unreadable, .failed]
  | some text =>
    .reading (some text) :: read text ++
      match Expression.parse text with
      | .ok e => [.accepted e.names e.isSingle]
      | .error _ => [.failed]

/-! ## Tables -/

/-- The events of building a truth table. -/
def truthTable (s : Subject) (names? : Option (List String)) (intermediate : Bool)
    (dialect? : Option Dialect) : List Event :=
  match s.truthTable names? intermediate dialect? with
  | .ok columns => [.tabulated columns.length (rowCount (s.namesOr names?).length)]
  | .error _ => []

/-! ## Minimization -/

/-- The events of the search for prime implicants. -/
def primes (rounds : List Primes.Round) : List Event :=
  (rounds.zipIdx.map fun (r, i) => Event.merged (i + 1) r.merged.length r.primes.length)
    ++ [.primesFound ((Primes.ofRounds rounds).map (·.pattern.text))]

/-- The events of choosing a cover. -/
def cover (c : Cover) : List Event :=
  let tell (kind : String) (t : Implicant) : Event := .chosen kind t.pattern.text t.minterms.rows
  c.essential.map (tell "Essential") ++ c.greedy.map (tell "Greedy")

/-- The events of a search for primes that is followed by the choice of a cover. -/
def primesAndCover (width : Nat) (minterms : RowSet) : List Event :=
  let rounds := Primes.rounds width minterms
  primes rounds ++ cover (Cover.search (Primes.ofRounds rounds) minterms)

/-- The events of minimization. Functions that are always or never true need no search. -/
def minimize (names : List String) (minterms : RowSet) : List Event :=
  let domain := rowCount names.length
  if (minterms.outside domain).rows ≠ [] ∨ minterms.rows = [] ∨ minterms.size = domain then []
  else
    primesAndCover names.length minterms ++
      match PropCalc.minimize names minterms with
      | .ok function => [.minimized function]
      | .error _ => []

/-- The events of printing a canonical minimal form. -/
def printMinimized (canonical : String) (d : Dialect) : List Event :=
  if canonical = Canonical.alwaysTrue ∨ canonical = Canonical.alwaysFalse then []
  else
    let text := Canonical.render canonical d
    .rendered d text :: parse (some text)

/-- The events of simplification. -/
def simplify (s : Subject) (names? : Option (List String)) (dialect? : Option Dialect) :
    List Event :=
  match names? <|> s.names? with
  | none => []
  | some names =>
    match s.trueRows (some names) with
    | .error _ => []
    | .ok rows =>
      minimize names (.ofList (rows.map Int.ofNat)) ++
        match s.minimized names with
        | .ok canonical => printMinimized canonical (s.outputDialect dialect?)
        | .error _ => []

end PropCalc.Log.Trace
