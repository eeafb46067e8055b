import PropCalc.Log.Event
import PropCalc.Log.Registry
/-!
# The shared logger

One logger serves all parts of the program, and it keeps its level from one message to the next.
Logging leaves the loggers as they are (`Registry.outputs_log`), so what is written for several jobs
is what is written for each of them at the level that was set at first
(`Registry.outputs_configureForConsole`).
-/

namespace PropCalc.Log

/-! ## What is written for messages -/

theorem written_cons (threshold : Level) (m : Message) (ms : List Message) :
    written threshold (m :: ms) =
      (if m.isShownAt threshold then m.formatted ++ "\n" else "") ++ written threshold ms := by
  rw [written, List.filter_cons]
  -- a message below the threshold is dropped before anything is written
  split
  · rw [List.map_cons, String.join_cons]
    rfl
  · rw [String.empty_append]
    rfl

theorem written_append (threshold : Level) (ms ms' : List Message) :
    written threshold (ms ++ ms') = written threshold ms ++ written threshold ms' := by
  rw [written, List.filter_append, List.map_append, String.join_append]
  rfl

/-- Events are of interest for debugging only. -/
theorem written_events (events : List Event) :
    written .info (events.map Event.message) = "" := by
  induction events with
  | nil => rfl
  | cons e events ih =>
    rw [List.map_cons, written_cons, ih]
    rfl

/-! ## The loggers -/

/-- A logger with a single handler at its own level writes a message once if the level allows it. -/
theorem Logger.write_fresh (level : Level) (m : Message) :
    (fresh level).write m = if m.isShownAt level then m.formatted ++ "\n" else "" := by
  rw [write, fresh]
  split
  · next h => simp [h, String.join_cons]
  · rfl

theorem Logger.join_write_fresh (level : Level) (ms : List Message) :
    String.join (ms.map (fresh level).write) = written level ms := by
  induction ms with
  | nil => rfl
  | cons m ms ih => rw [List.map_cons, String.join_cons, ih, write_fresh, written_cons]

namespace Registry

/-- What loggers write while they carry out commands one after the other. -/
def outputs (r : Registry) : List Command → String
  | [] => ""
  | c :: cs => (r.run c).2.output ++ outputs (r.run c).1 cs

/-- Messages do not change the loggers, so each job is written as if it came alone. -/
theorem outputs_log (r : Registry) (jobs : List (List Message)) :
    r.outputs (jobs.map Command.log) = String.join (jobs.map r.write) := by
  induction jobs with
  | nil => rfl
  | cons ms jobs ih =>
    rw [List.map_cons, outputs, List.map_cons, String.join_cons, ← ih]
    rfl

/-- The level that is set for the console holds for all jobs that follow. -/
theorem outputs_configureForConsole (s : Switches) (jobs : List (List Message)) :
    start.outputs (.configureForConsole s :: jobs.map Command.log) =
      String.join (jobs.map (written (s.level .info))) := by
  -- setting the level makes the one handler anew at this level
  have hwrite : (start.run (.configureForConsole s)).1.write = written (s.level .info) := by
    funext ms
    exact Logger.join_write_fresh (s.level .info) ms
  rw [outputs, outputs_log, hwrite]
  exact String.empty_append

end Registry

end PropCalc.Log
