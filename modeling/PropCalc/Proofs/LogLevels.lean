import PropCalc.Proofs.SharedLog
/-!
# Levels of loggers

Loggers are made and made anew, and four commands set levels, of the shared logger or of the one in
use. Whatever comes in which order, a logger and its one handler stay at the same level.

* `find?_bind` — binding a name changes what that name stands for, and nothing else;
* `IsSound` — every logger is as if it had just been made;
* `IsSound.find?_run` — so a command makes the loggers anew that it asks a level of, and leaves the
  others;
* `IsSound.after` — hence the loggers are sound after any commands;
* `handlers_keep_level` — what is written through any of them, at any time.
-/

namespace PropCalc.Log

/-- The level that a command asks of the logger of a name, where `current` is the name in use. -/
def Command.asked? (current name : String) : Command → Option Level
  | .create name' level => if name = Registry.key name' then some level else none
  | .configure s => if name = Registry.sharedName then some (s.level .warning) else none
  | .configureForConsole s => if name = Registry.sharedName then some (s.level .info) else none
  | .setShared level => if name = Registry.sharedName then some level else none
  | .setCurrent level => if name = current then some level else none
  | .select _ | .log _ | .format .. => none

@[simp] theorem Logger.setLevel_fresh (level level' : Level) :
    (fresh level').setLevel level = fresh level := rfl

namespace Registry

variable {r : Registry} {name name' : String} {l : Logger}

/-! ## Names and loggers -/

/-- Leaving out the entries of one name does not hide those of another. -/
theorem lookup_filter_ne (h : name ≠ name') (loggers : List (String × Logger)) :
    (loggers.filter fun e => e.1 != name').lookup name = loggers.lookup name := by
  induction loggers with
  | nil => rfl
  | cons e loggers ih =>
    rcases e with ⟨x, lx⟩
    -- an entry of the other name is not the one looked for
    by_cases hx : x = name'
    · subst hx
      rw [List.filter_cons_of_neg (by simp), List.lookup_cons, beq_eq_false_iff_ne.2 h, ih]
    · rw [List.filter_cons_of_pos (by simpa using hx), List.lookup_cons, List.lookup_cons, ih]

theorem find?_bind (r : Registry) (name name' : String) (l : Logger) :
    (r.bind name' l).find? name = if name = name' then some l else r.find? name := by
  rw [find?, bind, List.lookup_cons]
  by_cases h : name = name'
  · rw [if_pos h, beq_iff_eq.2 h]
  · rw [if_neg h, beq_eq_false_iff_ne.2 h]
    exact lookup_filter_ne h r.loggers

theorem find?_modify_of_find? (h : r.find? name' = some l) (name : String) (f : Logger → Logger) :
    (r.modify name' f).find? name = if name = name' then some (f l) else r.find? name := by
  rw [modify, h]
  exact find?_bind r name name' (f l)

@[simp] theorem current_modify (r : Registry) (name : String) (f : Logger → Logger) :
    (r.modify name f).current = r.current := by
  rw [modify]
  split
  · rfl
  · rfl

theorem find?_select (r : Registry) (name name' : String) :
    (r.select name').find? name = r.find? name := by
  rw [select]
  split
  · rfl
  · rfl

/-- What is put in use is there, if the one in use before it was. -/
theorem exists_find?_current_select (h : ∃ l, r.find? r.current = some l) (name : String) :
    ∃ l, (r.select name).find? (r.select name).current = some l := by
  rw [find?_select, select]
  split
  · next hsome => exact Option.isSome_iff_exists.1 hsome
  · exact h

theorem find?_run_create (r : Registry) (name : String) (level : Level) :
    (r.run (.create name level)).1.find? (key name) = some (.fresh level) :=
  (find?_bind r (key name) (key name) (.fresh level)).trans (if_pos rfl)

/-! ## Sound loggers -/

/-- Every logger is as if it had just been made, and both the shared one and the one in use are
there. -/
structure IsSound (r : Registry) : Prop where
  eq_fresh : ∀ name l, r.find? name = some l → l = .fresh l.level
  shared : ∃ l, r.find? sharedName = some l
  current : ∃ l, r.find? r.current = some l

theorem isSound_start : start.IsSound where
  eq_fresh name l h := by
    rw [start, find?, List.lookup_cons] at h
    split at h
    · cases h
      rfl
    · cases h
  shared := ⟨.fresh .info, rfl⟩
  current := ⟨.fresh .info, rfl⟩

/-- Setting the level of a sound logger makes it anew. -/
theorem IsSound.find?_modify (h : r.IsSound) (hl : r.find? name' = some l) (name : String)
    (level : Level) :
    (r.modify name' (.setLevel level)).find? name =
      if name = name' then some (.fresh level) else r.find? name := by
  rw [find?_modify_of_find? hl, h.eq_fresh name' l hl, Logger.setLevel_fresh]

/-- A command makes the loggers anew of which it asks a level, and leaves the others as they are. -/
theorem IsSound.find?_run (h : r.IsSound) (c : Command) (name : String) :
    (r.run c).1.find? name =
      match c.asked? r.current name with
      | some level => some (.fresh level)
      | none => r.find? name := by
  -- both loggers whose level a command may set are there
  rcases h.shared with ⟨shared, hshared⟩
  rcases h.current with ⟨inUse, hinUse⟩
  cases c with
  | create name' level =>
    have hrun : (r.run (.create name' level)).1.find? name =
        (r.bind (key name') (.fresh level)).find? name := rfl
    rw [hrun, find?_bind, Command.asked?]
    split <;> rfl
  | select name' => exact find?_select r name (key name')
  | configure | configureForConsole | setShared =>
    simp only [run, Command.asked?, h.find?_modify hshared]
    split <;> rfl
  | setCurrent level =>
    simp only [run, Command.asked?, h.find?_modify hinUse]
    split <;> rfl
  | log | format => rfl

/-- No logger is lost. -/
theorem IsSound.exists_find?_run (h : r.IsSound) (c : Command)
    (hname : ∃ l, r.find? name = some l) : ∃ l, (r.run c).1.find? name = some l := by
  rw [h.find?_run]
  cases c.asked? r.current name with
  | some level => exact ⟨_, rfl⟩
  | none => exact hname

/-- One command keeps the loggers sound. -/
theorem IsSound.run (h : r.IsSound) (c : Command) : (r.run c).1.IsSound where
  eq_fresh name l hl := by
    rw [h.find?_run] at hl
    -- a logger was made anew by this command, or is the one of before
    cases hasked : c.asked? r.current name with
    | some level =>
      rw [hasked] at hl
      cases hl
      rfl
    | none =>
      rw [hasked] at hl
      exact h.eq_fresh name l hl
  shared := h.exists_find?_run c h.shared
  current := by
    cases c with
    | create name level => exact ⟨_, find?_run_create r name level⟩
    | select name => exact exists_find?_current_select h.current (key name)
    | configure | configureForConsole | setShared | setCurrent =>
      -- the name in use stays, and no logger is lost
      exact h.exists_find?_run _ (by simpa [Registry.run] using h.current)
    | log | format => exact h.current

/-! ## Many commands -/

/-- The loggers after commands carried out one after the other. -/
def after (r : Registry) (cs : List Command) : Registry := cs.foldl (fun r c => (r.run c).1) r

theorem after_append (r : Registry) (cs cs' : List Command) :
    r.after (cs ++ cs') = (r.after cs).after cs' := List.foldl_append

theorem IsSound.after (h : r.IsSound) (cs : List Command) : (r.after cs).IsSound := by
  induction cs generalizing r with
  | nil => exact h
  | cons c cs ih => exact ih (h.run c)

theorem IsSound.exists_find?_after (h : r.IsSound) (hname : ∃ l, r.find? name = some l)
    (cs : List Command) : ∃ l, (r.after cs).find? name = some l := by
  induction cs generalizing r with
  | nil => exact hname
  | cons c cs ih => exact ih (h.run c) (h.exists_find?_run c hname)

/-- A logger that was made is there from then on. -/
theorem exists_find?_after_of_create {cs : List Command} {level : Level}
    (h : .create name level ∈ cs) : ∃ l, (start.after cs).find? (key name) = some l := by
  rcases List.append_of_mem h with ⟨before, behind, rfl⟩
  have hsound := isSound_start.after before
  rw [after_append]
  exact (hsound.run (.create name level)).exists_find?_after ⟨_, find?_run_create _ name level⟩ behind

/-- A message through a sound logger that is put in use for it. -/
theorem IsSound.output_select_log (h : r.IsSound) (hl : r.find? (key name) = some l) (m : Message) :
    ((r.run (.select name)).1.run (.log [m])).2.output =
      if m.isShownAt l.level then m.formatted ++ "\n" else "" := by
  have hcurrent : (r.select (key name)).find? (r.select (key name)).current = some l := by
    rw [find?_select, select, if_pos (Option.isSome_iff_exists.2 ⟨l, hl⟩)]
    exact hl
  have hwrite : (r.select (key name)).write [m] = l.write m := by
    rw [write, hcurrent]
    exact String.join_cons.trans String.append_empty
  have hfresh := h.eq_fresh _ l hl
  -- a sound logger writes as one that was just made
  rw [← Logger.write_fresh, ← hfresh]
  exact hwrite

/-- Whatever is asked of the loggers in which order: every logger that was ever made has one handler,
which stands at its own level. A message is written through it once if its level allows it, and not
at all otherwise. A command changes the levels that it asks for, and no others. -/
theorem handlers_keep_level (cs : List Command) :
    (∀ name, (name = sharedName ∨ ∃ level, .create name level ∈ cs) →
      ∃ l, (start.after cs).find? (key name) = some l ∧ l.handlers = [l.level] ∧
        ∀ m : Message, (((start.after cs).run (.select name)).1.run (.log [m])).2.output =
          if l.level.number ≤ m.level.number then m.formatted ++ "\n" else "") ∧
    ∀ (c : Command) (name : String),
      (((start.after cs).run c).1.find? name).map Logger.level =
        (c.asked? (start.after cs).current name).or
          (((start.after cs).find? name).map Logger.level) := by
  have hsound := isSound_start.after cs
  refine ⟨fun name hname => ?_, fun c name => ?_⟩
  · have hmade : ∃ l, (start.after cs).find? (key name) = some l := by
      -- the shared logger is there from the start, the others since they were made
      rcases hname with rfl | ⟨level, hlevel⟩
      · exact hsound.shared
      · exact exists_find?_after_of_create hlevel
    rcases hmade with ⟨l, hl⟩
    have hfresh := hsound.eq_fresh _ l hl
    refine ⟨l, hl, congrArg Logger.handlers hfresh, fun m => ?_⟩
    rw [hsound.output_select_log hl]
    simp only [Message.isShownAt, decide_eq_true_eq]
  · rw [hsound.find?_run]
    cases c.asked? (start.after cs).current name with
    | some level => rfl
    | none => rfl

/-- A logger that is made anew while another one is in use, and levels that are set between. -/
theorem handlers_keep_level_remade :
    let cs : List Command := [.create "x" .debug, .setShared .error, .create "x" .warning,
      .select sharedName, .setCurrent .debug]
    .create "x" .debug ∈ cs ∧
      ∃ l, (start.after cs).find? (key "x") = some l ∧ l.handlers = [l.level] ∧
        (((start.after cs).run (.select "x")).1.run (.log [⟨.error, "late"⟩])).2.output = "late\n" ∧
        (((start.after cs).run (.select "x")).1.run (.log [⟨.info, "late"⟩])).2.output = "" := by
  intro cs
  have hmem : .create "x" .debug ∈ cs := List.mem_cons_self
  rcases (handlers_keep_level cs).1 "x" (.inr ⟨_, hmem⟩) with ⟨l, hl, hhandlers, houtput⟩
  -- the second `create` was the last command about this name
  obtain rfl : Logger.fresh .warning = l := Option.some.inj hl
  refine ⟨hmem, _, hl, hhandlers, ?_, ?_⟩
  · rw [houtput]
    rfl
  · rw [houtput]
    rfl

end Registry

end PropCalc.Log
