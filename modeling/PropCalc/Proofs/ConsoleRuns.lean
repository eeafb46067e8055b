import PropCalc.Console
import PropCalc.Proofs.CommandLines
import PropCalc.Proofs.PrimeTerms
import PropCalc.Proofs.SharedLog
import PropCalc.Proofs.TruthTables
/-!
# Runs of the console program

What the program does with several texts. A text is worked on by `report`, which knows the switches
but no other text:

* `exists_results_of_parse` — behind the reading of a text nothing can fail;
* `report_of_error`, `report_of_ok` — so a text is rejected before anything has been said about it,
  or not at all;
* `output_process`, `exitCode_process` — the reports are written one after the other, and one that
  rejects its text makes the program fail;
* `run_treats_texts_alone` — a run over several texts is the runs over the single texts.
-/

namespace PropCalc

variable {text : String} {e : Expression}

/-! ## Behind the reading -/

/-- Behind the reading nothing fails: there are a minimal form, a truth table and its lines. -/
theorem exists_results_of_parse (h : Expression.parse text = .ok e) (steps : Bool) :
    ∃ simple columns lines, (Subject.expression e).simplify none none = .ok simple ∧
      (Subject.expression e).truthTable none steps none = .ok columns ∧
      TableLayout.lines columns = .ok lines := by
  rcases exists_isSimplifiedTo_of_parse h none with ⟨simple, hsimple, -⟩
  rcases Expression.exists_lines (isLettered_of_parse h) steps none with
    ⟨columns, lines, hcolumns, hlines⟩
  exact ⟨simple, columns, lines, hsimple, hcolumns, hlines⟩

namespace Console

open Arguments (Options)
open Log (Message Registry)

variable {o : Options} {arguments : List String}

/-! ## One text -/

theorem report_of_error (o : Options) {err : ParseError} (h : Expression.parse text = .error err) :
    report o text =
      ⟨told (Log.Trace.parse (some text)) ++ [rejection text err.message], false⟩ := by
  simp only [report, h]

theorem report_of_ok (o : Options) (h : Expression.parse text = .ok e) :
    (report o text).accepted = true := by
  rcases exists_results_of_parse h o.steps with
    ⟨simple, columns, lines, hsimple, hcolumns, hlines⟩
  -- only a table that is asked for is laid out, and then there are lines
  have htable : ∃ messages, tableMessages o e = .ok messages := by
    rw [tableMessages]
    split
    · exact ⟨[], rfl⟩
    · rw [tableLines, hcolumns]
      show ∃ messages, ((TableLayout.lines columns).mapError _ >>= _) = Except.ok messages
      rw [hlines]
      exact ⟨_, rfl⟩
  rcases htable with ⟨messages, htable⟩
  simp only [report, h, hsimple, htable]

/-- A text is accepted exactly when it can be read. -/
theorem accepted_report_iff :
    (report o text).accepted = true ↔ ∃ e, Expression.parse text = .ok e := by
  cases h : Expression.parse text with
  | error err => simp [report_of_error o h]
  | ok e => simp [report_of_ok o h]

/-- A rejected text contributes the message that rejects it, and only debugging tells more. -/
theorem written_report_of_error {err : ParseError} (h : Expression.parse text = .error err) :
    Log.written .info (report o text).messages =
      "Expression error in '" ++ text ++ "': " ++ err.message ++ "\n" := by
  rw [report_of_error o h, Log.written_append, told, Log.written_events, String.empty_append,
    Log.written_cons]
  exact String.append_empty

/-! ## Several texts -/

theorem run_of_read (h : Arguments.read arguments = .ok (.run o)) : run arguments = process o := by
  rw [run, h]

theorem output_process (hne : o.expressions ≠ []) :
    (process o).output =
      String.join (o.expressions.map fun t => Log.written (threshold o) (report o t).messages) := by
  rw [process, if_neg hne, List.map_map]
  rfl

/-- The same switches with a single text give the report on this text. -/
theorem output_of_single {t : String}
    (h : Arguments.read arguments = .ok (.run { o with expressions := [t] })) :
    (run arguments).output = Log.written (threshold o) (report o t).messages := by
  rw [run_of_read h, output_process (List.cons_ne_nil t [])]
  show String.join [Log.written (threshold o) (report o t).messages] = _
  rw [String.join_cons]
  exact String.append_empty

theorem exitCode_process (hne : o.expressions ≠ []) :
    (process o).exitCode =
      if ∀ t ∈ o.expressions, (report o t).accepted = true then 0 else 2 := by
  simp only [process, if_neg hne, List.all_map, List.all_eq_true, Function.comp_apply]

theorem exitCode_process_eq_zero_iff (hne : o.expressions ≠ []) :
    (process o).exitCode = 0 ↔ ∀ t ∈ o.expressions, ∃ e, Expression.parse t = .ok e := by
  rw [exitCode_process hne]
  split
  · next h => exact iff_of_true rfl fun t ht => accepted_report_iff.1 (h t ht)
  · next h =>
    exact iff_of_false (by decide) fun hall => h fun t ht => accepted_report_iff.2 (hall t ht)

theorem exitCode_process_eq_two_iff (hne : o.expressions ≠ []) :
    (process o).exitCode = 2 ↔ ∃ t ∈ o.expressions, ∃ err, Expression.parse t = .error err := by
  rw [exitCode_process hne]
  split
  · next h =>
    -- all texts are accepted, so none of them was rejected
    refine iff_of_false (by decide) ?_
    rintro ⟨t, ht, err, herr⟩
    rcases accepted_report_iff.1 (h t ht) with ⟨e, he⟩
    rw [he] at herr
    cases herr
  · next h =>
    refine iff_of_true rfl ?_
    -- the text that is not accepted cannot be read
    simp only [Classical.not_forall] at h
    rcases h with ⟨t, ht, hrejected⟩
    cases hparse : Expression.parse t with
    | error err => exact ⟨t, ht, err, hparse⟩
    | ok e => exact absurd (report_of_ok o hparse) hrejected

/-- Every text is treated as if it came alone. Each of them can be given alone with the same
switches, and the output is what the runs over the single texts write, one after the other; that is
also what the one shared logger writes for all of them at the level that is set at the start. The
program ends with a failure exactly when a text cannot be read. Unless it debugs, such a text is
answered by the message that rejects it and by nothing else, and once a text has been read, its
minimal form, its truth table and the lines of the table are all there. -/
theorem run_treats_texts_alone (h : Arguments.read arguments = .ok (.run o))
    (hne : o.expressions ≠ []) :
    (∀ t ∈ o.expressions, ∃ single,
      Arguments.read single = .ok (.run { o with expressions := [t] })) ∧
    (∀ single : String → List String,
      (∀ t ∈ o.expressions,
        Arguments.read (single t) = .ok (.run { o with expressions := [t] })) →
      (run arguments).output =
        String.join (o.expressions.map fun t => (run (single t)).output)) ∧
    (run arguments).output =
      Registry.start.outputs (.configureForConsole ⟨o.verbose, o.debug⟩ ::
        o.expressions.map fun t => .log (report o t).messages) ∧
    (run arguments).errors = "" ∧
    ((run arguments).exitCode = 2 ↔
      ∃ t ∈ o.expressions, ∃ err, Expression.parse t = .error err) ∧
    ((run arguments).exitCode = 0 ↔ ∀ t ∈ o.expressions, ∃ e, Expression.parse t = .ok e) ∧
    (∀ t ∈ o.expressions, ∀ single,
      Arguments.read single = .ok (.run { o with expressions := [t] }) → o.debug = false →
      ∀ err, Expression.parse t = .error err →
        (run single).output = "Expression error in '" ++ t ++ "': " ++ err.message ++ "\n") ∧
    ∀ t ∈ o.expressions, ∀ e, Expression.parse t = .ok e →
      ∃ simple columns lines, (Subject.expression e).simplify none none = .ok simple ∧
        (Subject.expression e).truthTable none o.steps none = .ok columns ∧
        TableLayout.lines columns = .ok lines := by
  have hrun : run arguments = process o := run_of_read h
  have hlevel : Log.Switches.level .info ⟨o.verbose, o.debug⟩ = threshold o := by
    rw [Log.Switches.level, threshold, ite_self]
  refine ⟨fun t _ => ⟨_, Arguments.read_commandLine _⟩, fun single hsingle => ?_, ?_, ?_, ?_, ?_,
    fun t _ single hsingle hdebug err herr => ?_, fun t _ e he => ?_⟩
  · rw [hrun, output_process hne]
    refine congrArg String.join (List.map_congr_left fun t ht => ?_)
    exact (output_of_single (hsingle t ht)).symm
  · -- one logger for all texts, which stays at the level of the switches
    have hlogged := Registry.outputs_configureForConsole ⟨o.verbose, o.debug⟩
      (o.expressions.map fun t => (report o t).messages)
    rw [List.map_map, List.map_map, hlevel] at hlogged
    rw [hrun, output_process hne]
    exact hlogged.symm
  · rw [hrun]
    rfl
  · rw [hrun, exitCode_process_eq_two_iff hne]
  · rw [hrun, exitCode_process_eq_zero_iff hne]
  · -- without debugging the events of reading are not written
    have hthreshold : threshold o = .info := by
      rw [threshold, hdebug]
      rfl
    rw [output_of_single hsingle, hthreshold, written_report_of_error herr]
  · exact exists_results_of_parse he o.steps

/-- A text that can be read and one that cannot. -/
theorem run_treats_texts_alone_mixed :
    let arguments := ["--no-table", "~a v ~~a", "(a b", "-v"]
    let o : Options := ⟨["~a v ~~a", "(a b"], true, false, false, true⟩
    Arguments.read arguments = .ok (.run o) ∧ o.expressions ≠ [] ∧
    Expression.parse "(a b" = .error .unclosed ∧ (run arguments).exitCode = 2 ∧
    (run arguments).output = (run ["-v", "--no-table", "~a v ~~a"]).output ++
      "Expression error in '(a b': You have a missing parenthesis somewhere.\n" := by
  intro arguments o
  have h : Arguments.read arguments = .ok (.run o) := by rfl
  -- reading stops at the balance of the parentheses, before the missing operator is seen
  have hparse : Expression.parse "(a b" = .error .unclosed := by
    have hscan : Scan.ofString "(a b" =
        ⟨[⟨.lparen, 0⟩, ⟨.letter 'a', 1⟩, ⟨.letter 'b', 3⟩], none⟩ := by decide +kernel
    simp only [Expression.parse, tokenize, hscan]
    rfl
  rcases run_treats_texts_alone h (by decide) with ⟨-, houtput, -, -, hfailed, -, hrejected, -⟩
  have hsingle : ∀ t ∈ o.expressions,
      Arguments.read ["-v", "--no-table", t] = .ok (.run { o with expressions := [t] }) := by
    intro t ht
    rcases List.mem_cons.1 ht with rfl | ht
    · rfl
    · rw [List.mem_singleton.1 ht]
      rfl
  refine ⟨h, by decide, hparse, hfailed.2 ⟨"(a b", by decide, _, hparse⟩, ?_⟩
  rw [houtput (fun t => ["-v", "--no-table", t]) hsingle]
  have hmessage := hrejected "(a b" (by decide) _ (hsingle _ (by decide)) rfl _ hparse
  show String.join [_, (run ["-v", "--no-table", "(a b"]).output] = _
  rw [hmessage, String.join_cons]
  rfl

end Console

end PropCalc
