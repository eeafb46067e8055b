import PropCalc.Grammar
/-!
# Derivations of the grammar

The grammar as rules, apart from the machine that reads it. `Derives` says which lists of symbols
are expressions and operands; `Reads` adds the formula that each rule builds. The main result is
`Formula.ofTokens_eq_ok_iff`: the stack machine of `PropCalc.Grammar` ends with a formula exactly
when the rules build this formula, so it accepts exactly the sentences of the grammar.
-/

namespace PropCalc.Grammar

/-! ## The rules -/

/-- The two kinds of phrase. -/
inductive Phrase where
  | expression
  | operand
deriving DecidableEq, Repr

/-- The symbols form a phrase. -/
inductive Derives : Phrase → List Symbol → Prop where
  | single {w : List Symbol} : Derives .operand w → Derives .expression w
  | joined {w v : List Symbol} (c : Connective) :
      Derives .expression w → Derives .operand v →
      Derives .expression (w ++ .operator (.binary c) :: v)
  | negated {w : List Symbol} : Derives .operand w → Derives .operand (.operator .not :: w)
  | group {w : List Symbol} :
      Derives .expression w → Derives .operand (.lparen :: (w ++ [.rparen]))
  | letter (c : Char) : Derives .operand [.letter c]

/-- The symbols form a phrase, and its rules build the formula. Joined nodes are marked with the
dialect. -/
inductive Reads (d : Dialect) : Phrase → List Symbol → Formula → Prop where
  | single {w : List Symbol} {f : Formula} : Reads d .operand w f → Reads d .expression w f
  | joined {w v : List Symbol} {f g : Formula} (c : Connective) :
      Reads d .expression w f → Reads d .operand v g →
      Reads d .expression (w ++ .operator (.binary c) :: v) (.binary f c g false d)
  | negated {w : List Symbol} {f : Formula} :
      Reads d .operand w f → Reads d .operand (.operator .not :: w) f.negate
  | group {w : List Symbol} {f : Formula} :
      Reads d .expression w f → Reads d .operand (.lparen :: (w ++ [.rparen])) f
  | letter (c : Char) : Reads d .operand [.letter c] (.var c.toString false)

/-- Whatever the rules build, they derive. -/
theorem Reads.derives {d : Dialect} {p : Phrase} {w : List Symbol} {f : Formula}
    (h : Reads d p w f) : Derives p w := by
  induction h with
  | single _ ih => exact .single ih
  | joined c _ _ ihw ihv => exact .joined c ihw ihv
  | negated _ ih => exact .negated ih
  | group _ ih => exact .group ih
  | letter c => exact .letter c

/-- Every phrase has a formula. -/
theorem Derives.exists_reads {p : Phrase} {w : List Symbol} (h : Derives p w) (d : Dialect) :
    ∃ f, Reads d p w f := by
  induction h with
  | single _ ih =>
    rcases ih with ⟨f, hf⟩
    exact ⟨f, .single hf⟩
  | joined c _ _ ihw ihv =>
    rcases ihw with ⟨f, hf⟩
    rcases ihv with ⟨g, hg⟩
    exact ⟨_, .joined c hf hg⟩
  | negated _ ih =>
    rcases ih with ⟨f, hf⟩
    exact ⟨_, .negated hf⟩
  | group _ ih =>
    rcases ih with ⟨f, hf⟩
    exact ⟨f, .group hf⟩
  | letter c => exact ⟨_, .letter c⟩

/-- No phrase is empty. -/
theorem Derives.ne_nil {p : Phrase} {w : List Symbol} (h : Derives p w) : w ≠ [] := by
  induction h with
  | single _ ih => exact ih
  | joined => simp
  | negated => simp
  | group => simp
  | letter => simp

/-! ## Reading symbols -/

namespace State

/-- The state behind a list of symbols, if none of them is refused. -/
def readSymbols? (d : Dialect) (s : State) : List Symbol → Option State
  | [] => some s
  | x :: w => (s.step? d x).bind fun s' => s'.readSymbols? d w

@[simp] theorem readSymbols?_nil (d : Dialect) (s : State) : s.readSymbols? d [] = some s := rfl

@[simp] theorem readSymbols?_cons (d : Dialect) (s : State) (x : Symbol) (w : List Symbol) :
    s.readSymbols? d (x :: w) = (s.step? d x).bind fun s' => s'.readSymbols? d w := rfl

theorem readSymbols?_append (d : Dialect) (s : State) (w v : List Symbol) :
    s.readSymbols? d (w ++ v) = (s.readSymbols? d w).bind fun s' => s'.readSymbols? d v := by
  induction w generalizing s with
  | nil => rfl
  | cons x w ih =>
    simp only [List.cons_append, readSymbols?_cons, Option.bind_assoc, ih]

/-- Reading tokens comes down to reading their symbols; their places only show in errors. -/
theorem run_eq_ok_iff {d : Dialect} {s s' : State} {ts : List Token} :
    s.run d ts = .ok s' ↔ s.readSymbols? d (ts.map Token.symbol) = some s' := by
  induction ts generalizing s with
  | nil => simp [run]
  | cons t ts ih =>
    simp only [run, List.map_cons, readSymbols?_cons]
    cases hstep : s.step? d t.symbol with
    | none => simp
    | some r => simpa using ih

theorem result?_eq_some_iff {s : State} {f : Formula} : s.result? = some f ↔ s = behind f [] := by
  cases s with
  | before => simp [result?]
  | behind g outer => cases outer <;> simp [result?]

end State

/-! ## From the rules to the machine -/

theorem negate_negate (f : Formula) : f.negate.negate = f := by
  cases f <;> simp [Formula.negate]

@[simp] theorem Slot.fill_start (d : Dialect) (f : Formula) : Slot.start.fill d f = f := rfl

@[simp] theorem Slot.fill_joined (d : Dialect) (f g : Formula) (c : Connective) :
    (Slot.mk (some (f, c)) false).fill d g = .binary f c g false d := rfl

/-- A negation in front of an operand may as well be put into the slot. -/
theorem Slot.fill_not (d : Dialect) (slot : Slot) (f : Formula) :
    ({ slot with negated := !slot.negated } : Slot).fill d f = slot.fill d f.negate := by
  cases hn : slot.negated <;> simp [Slot.fill, hn, negate_negate]

/-- The machine reads an operand into the waiting slot, and an expression into a fresh one. -/
theorem readSymbols?_of_reads {d : Dialect} {p : Phrase} {w : List Symbol} {f : Formula}
    (h : Reads d p w f) (outer : List Slot) :
    match p with
    | .expression => (State.before .start outer).readSymbols? d w = some (.behind f outer)
    | .operand => ∀ slot : Slot,
        (State.before slot outer).readSymbols? d w = some (.behind (slot.fill d f) outer) := by
  -- on the derivation; the open groups vary, as a group is read on top of them
  induction h generalizing outer with
  | single _ ih => simpa using ih outer .start
  | @joined w v f g c _ _ ihw ihv =>
    rw [State.readSymbols?_append, ihw outer]
    -- behind the connective a slot with the left side waits for the operand
    simpa [State.step?] using ihv outer ⟨some (f, c), false⟩
  | negated _ ih =>
    intro slot
    have hread := ih outer { slot with negated := !slot.negated }
    rw [Slot.fill_not] at hread
    simpa [State.step?] using hread
  | group _ ih =>
    intro slot
    -- the slot waits on the stack until its group is closed
    simp only [State.readSymbols?_cons, State.step?, Option.bind_some]
    rw [State.readSymbols?_append, ih (slot :: outer)]
    simp [State.step?]
  | letter c =>
    intro slot
    simp [State.step?]

/-! ## From the machine to the rules -/

/-- The symbols that led to a slot: the left side and connective, if any, then negations. -/
inductive SlotReads (d : Dialect) : Slot → List Symbol → Prop where
  | start : SlotReads d .start []
  | joined {w : List Symbol} {f : Formula} (c : Connective) :
      Reads d .expression w f →
      SlotReads d ⟨some (f, c), false⟩ (w ++ [.operator (.binary c)])
  | not {slot : Slot} {w : List Symbol} :
      SlotReads d slot w →
      SlotReads d { slot with negated := !slot.negated } (w ++ [.operator .not])

/-- An operand in its slot completes an expression. -/
theorem SlotReads.fill {d : Dialect} {slot : Slot} {w v : List Symbol} {f : Formula}
    (hslot : SlotReads d slot w) (hf : Reads d .operand v f) :
    Reads d .expression (w ++ v) (slot.fill d f) := by
  induction hslot generalizing v f with
  | start => simpa using Reads.single hf
  | joined c hw => simpa using Reads.joined c hw hf
  | not _ ih => simpa [Slot.fill_not] using ih (.negated hf)

/-- The symbols that led into the open groups, innermost first. -/
inductive OuterReads (d : Dialect) : List Slot → List Symbol → Prop where
  | nil : OuterReads d [] []
  | cons {slot : Slot} {outer : List Slot} {w v : List Symbol} :
      OuterReads d outer w → SlotReads d slot v →
      OuterReads d (slot :: outer) (w ++ v ++ [.lparen])

/-- The symbols that led to a state. -/
inductive StateReads (d : Dialect) : State → List Symbol → Prop where
  | before {slot : Slot} {outer : List Slot} {w v : List Symbol} :
      OuterReads d outer w → SlotReads d slot v → StateReads d (.before slot outer) (w ++ v)
  | behind {f : Formula} {outer : List Slot} {w v : List Symbol} :
      OuterReads d outer w → Reads d .expression v f → StateReads d (.behind f outer) (w ++ v)

theorem stateReads_start (d : Dialect) : StateReads d .start [] :=
  .before .nil .start

/-- One step: the symbol taken is the next one that led here. -/
theorem StateReads.step {d : Dialect} {s s' : State} {w : List Symbol} {x : Symbol}
    (h : StateReads d s w) (hstep : s.step? d x = some s') : StateReads d s' (w ++ [x]) := by
  cases h with
  | @before slot outer w v houter hslot =>
    rcases x with _ | _ | (_ | c) | c <;> simp only [State.step?, Option.some.injEq,
      reduceCtorEq] at hstep <;> subst hstep
    · -- a group opens: the slot is put on the stack
      simpa using StateReads.before (.cons houter hslot) .start
    · simpa using StateReads.before houter hslot.not
    · -- a letter fills the slot
      simpa using StateReads.behind houter (hslot.fill (.letter c))
  | @behind f outer w v houter hf =>
    rcases x with _ | _ | (_ | c) | c
    · simp [State.step?] at hstep
    · -- a group closes: it becomes an operand of the slot below it
      cases houter with
      | nil => simp [State.step?] at hstep
      | cons houter hslot =>
        simp only [State.step?, Option.some.injEq] at hstep
        subst hstep
        simpa using StateReads.behind houter (hslot.fill (.group hf))
    · simp [State.step?] at hstep
    · simp only [State.step?, Option.some.injEq] at hstep
      subst hstep
      simpa using StateReads.before houter (.joined c hf)
    · simp [State.step?] at hstep

/-- A whole run: the symbols read are those that led to its last state. -/
theorem StateReads.readSymbols {d : Dialect} {s s' : State} {w v : List Symbol}
    (h : StateReads d s w) (hrun : s.readSymbols? d v = some s') : StateReads d s' (w ++ v) := by
  induction v generalizing s w with
  | nil =>
    cases hrun
    simpa using h
  | cons x v ih =>
    rcases Option.bind_eq_some_iff.1 hrun with ⟨r, hr, hrest⟩
    simpa using ih (h.step hr) hrest

/-! ## The machine decides the grammar -/

/-- The machine ends with a formula exactly when the rules build it from the symbols. -/
theorem readSymbols?_eq_behind_iff {d : Dialect} {w : List Symbol} {f : Formula} :
    State.start.readSymbols? d w = some (.behind f []) ↔ Reads d .expression w f := by
  constructor
  · intro h
    have hreads : StateReads d (.behind f []) w := by
      simpa using (stateReads_start d).readSymbols h
    cases hreads with
    | behind houter hf =>
      -- no group is open at the end, so all symbols belong to the expression
      cases houter
      simpa using hf
  · intro h
    exact readSymbols?_of_reads h []

end PropCalc.Grammar

namespace PropCalc

open Grammar in
/-- A list of tokens reads as a formula exactly when the grammar builds it from their symbols. -/
theorem Formula.ofTokens_eq_ok_iff {d : Dialect} {ts : List Token} {f : Formula} :
    Formula.ofTokens d ts = .ok f ↔ Reads d .expression (ts.map Token.symbol) f := by
  rw [← readSymbols?_eq_behind_iff, ← State.run_eq_ok_iff]
  unfold Formula.ofTokens
  cases hrun : State.start.run d ts with
  | error e => simp [bind, Except.bind]
  | ok s =>
    -- the machine may also end within a group, or where an operand is missing
    have hres : (∃ g, s.result? = some g) ∨ s.result? = none := by
      cases s.result? <;> simp
    rcases hres with ⟨g, hg⟩ | hnone
    · have hs : s = .behind g [] := State.result?_eq_some_iff.1 hg
      subst hs
      simp [bind, Except.bind, State.result?, pure, Except.pure]
    · have hs : s ≠ .behind f [] := by
        intro hs
        rw [hs] at hnone
        simp [State.result?] at hnone
      simp [bind, Except.bind, hnone, hs, throw, throwThe, MonadExceptOf.throw]

end PropCalc
