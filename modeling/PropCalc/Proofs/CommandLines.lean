import PropCalc.Arguments
/-!
# Command lines

Every choice of switches and expressions can be asked for: `read_commandLine` gives arguments that
are read as it. The switches stand in front, and a mark behind them makes expressions of all that
follows, whatever it begins with.
-/

namespace PropCalc.Arguments

/-! ## Switches -/

/-- A switch in its long form. -/
def Switch.longForm : Switch → String
  | help => "--help"
  | verbose => "--verbose"
  | debug => "--debug"
  | steps => "--steps"
  | noTable => "--no-table"

theorem Switch.longForm_ne (s : Switch) : s.longForm ≠ "--" := by
  cases s <;> decide

theorem classify_longForm (s : Switch) : classify s.longForm = .ok (.switches s []) := by
  cases s <;> rfl

/-- The switches that options have turned on. -/
def Options.switches (o : Options) : List Switch :=
  (if o.verbose then [.verbose] else []) ++ (if o.debug then [.debug] else []) ++
    (if o.steps then [.steps] else []) ++ (if o.noTable then [.noTable] else [])

theorem Options.applyAll_switches (o : Options) :
    Progress.start.options.applyAll o.switches = some { o with expressions := [] } := by
  rcases o with ⟨texts, verbose, debug, steps, noTable⟩
  cases verbose <;> cases debug <;> cases steps <;> cases noTable <;> rfl

/-! ## Items -/

/-- A switch as an item. -/
def Switch.item (s : Switch) : Item := .argument (.switches s [])

/-- A text as an item behind the mark. -/
def expressionItem (text : String) : Item := .argument (.expression text)

theorem classifyAll_marked (ss : List Switch) (texts : List String) :
    classifyAll (ss.map Switch.longForm ++ "--" :: texts) =
      .ok (ss.map Switch.item ++ .endOfSwitches :: texts.map expressionItem) := by
  induction ss with
  | nil => rfl
  | cons s ss ih =>
    -- no long form is the mark itself, so the texts stay behind the mark
    rw [List.map_cons, List.cons_append, classifyAll, if_neg s.longForm_ne, classify_longForm, ih]
    rfl

variable {p : Progress}

/-- Switches change the options and nothing else, as long as no expression has been read. -/
theorem readItems_switches {ss : List Switch} {o : Options} (items : List Item)
    (hp : p.taking = false) (h : p.options.applyAll ss = some o) :
    readItems p (ss.map Switch.item ++ items) = readItems { p with options := o } items := by
  induction ss generalizing p with
  | nil =>
    cases h
    rfl
  | cons s ss ih =>
    rcases Option.bind_eq_some_iff.1 h with ⟨next, hnext, hrest⟩
    -- one switch is a group of its own, with no letters behind it
    have hone : p.options.applyAll [s] = some next := by
      rw [Options.applyAll, hnext]
      rfl
    have hstep : readItems p (s.item :: (ss.map Switch.item ++ items)) =
        readItems (p.switched next) (ss.map Switch.item ++ items) := by
      simp only [Switch.item, readItems, expand, bind, Except.bind, hone]
    rw [List.map_cons, List.cons_append, hstep, ih rfl hrest, Progress.switched, hp]

/-- Behind the mark all texts join the run of expressions. -/
theorem readItems_expressions (texts : List String) (hp : p.taking = true)
    (hextras : p.extras = []) :
    readItems p (texts.map expressionItem) =
      .ok (.run { p.options with expressions := p.options.expressions ++ texts }) := by
  induction texts generalizing p with
  | nil => simp [readItems, hextras]
  | cons text texts ih =>
    -- the run was begun by the mark, so nothing goes to the extras
    have hplace : p.place text [text] = p.take [text] := by
      rw [Progress.place, hp]
      rfl
    have hrest := @ih (p.take [text]) rfl hextras
    rw [List.map_cons, expressionItem, readItems, hplace, hrest]
    simp [Progress.take]

/-! ## Whole command lines -/

/-- Arguments that ask for the options. -/
def Options.commandLine (o : Options) : List String :=
  o.switches.map Switch.longForm ++ "--" :: o.expressions

/-- They are read as the options that they ask for. -/
theorem read_commandLine (o : Options) : read o.commandLine = .ok (.run o) := by
  rw [read, Options.commandLine, classifyAll_marked]
  show readItems .start _ = _
  -- first the switches, then the mark, then the texts
  rw [readItems_switches _ rfl o.applyAll_switches, readItems, readItems_expressions _ rfl rfl]
  rfl

end PropCalc.Arguments
