import PropCalc.Log.Message
/-!
# Loggers

Loggers are known by their names, and asking for a name that is in use resets the logger of that
name. One of them is shared by all parts of the program. A logger filters messages by its level and
hands the rest to its handlers, which filter by levels of their own.
-/

namespace PropCalc.Log

/-- A logger: its level and the levels of its handlers. -/
structure Logger where
  level : Level
  handlers : List Level
deriving DecidableEq, Repr

namespace Logger

/-- A logger with a single handler, both at the same level. -/
def fresh (level : Level) : Logger := ⟨level, [level]⟩

/-- Changes the level of a logger and of all its handlers. -/
def setLevel (level : Level) (l : Logger) : Logger := ⟨level, l.handlers.map fun _ => level⟩

/-- What a logger writes for a message: one copy for every handler that shows it. -/
def write (l : Logger) (m : Message) : String :=
  if m.isShownAt l.level then
    String.join ((l.handlers.filter m.isShownAt).map fun _ => m.formatted ++ "\n")
  else ""

end Logger

/-- All loggers by name, and the name of the one in use. -/
structure Registry where
  loggers : List (String × Logger)
  current : String
deriving DecidableEq, Repr

/-- Switches that choose the level of the shared logger. -/
structure Switches where
  verbose : Bool
  debug : Bool
deriving DecidableEq, Repr

/-- The level that the switches ask for, where `quiet` is the default. -/
def Switches.level (quiet : Level) (s : Switches) : Level :=
  if s.debug then .debug else if s.verbose then .info else quiet

/-- What can be asked of the loggers. -/
inductive Command where
  /-- Makes the logger of a name anew and uses it. -/
  | create (name : String) (level : Level)
  /-- Uses a logger again that was made before. -/
  | select (name : String)
  /-- Sets the shared level where warnings are the default. -/
  | configure (s : Switches)
  /-- Sets the shared level where information is the default. -/
  | configureForConsole (s : Switches)
  | setShared (level : Level)
  | setCurrent (level : Level)
  | log (ms : List Message)
  /-- Writes nothing and answers how a message of that level would look. -/
  | format (number : Int) (text : String)
deriving DecidableEq, Repr

/-- What a command writes and answers. -/
structure Reply where
  output : String
  answer? : Option String
deriving DecidableEq, Repr

namespace Registry

/-- The name of the shared logger. -/
def sharedName : String := "proplogic"

/-- The name under which a logger is kept: the empty name is that of the root. -/
def key (name : String) : String := if name = "" then "root" else name

/-- The loggers at the start: only the shared one, for information. -/
def start : Registry := ⟨[(sharedName, .fresh .info)], sharedName⟩

/-- The logger of a name. -/
def find? (r : Registry) (name : String) : Option Logger := r.loggers.lookup name

/-- Binds a name to a logger. -/
def bind (name : String) (l : Logger) (r : Registry) : Registry :=
  { r with loggers := (name, l) :: r.loggers.filter fun e => e.1 != name }

/-- Changes the logger of a name, if there is one. -/
def modify (name : String) (f : Logger → Logger) (r : Registry) : Registry :=
  match r.find? name with
  | none => r
  | some l => r.bind name (f l)

/-- Puts the logger of a name in use, if there is one. -/
def select (name : String) (r : Registry) : Registry :=
  if (r.find? name).isSome then { r with current := name } else r

/-- What the current logger writes for messages. -/
def write (r : Registry) (ms : List Message) : String :=
  match r.find? r.current with
  | none => ""
  | some l => String.join (ms.map l.write)

/-- Carries out a command. -/
def run (r : Registry) : Command → Registry × Reply
  | .create name level =>
    ({ r.bind (key name) (.fresh level) with current := key name }, ⟨"", none⟩)
  | .select name => (r.select (key name), ⟨"", none⟩)
  | .configure s => (r.modify sharedName (.setLevel (s.level .warning)), ⟨"", none⟩)
  | .configureForConsole s => (r.modify sharedName (.setLevel (s.level .info)), ⟨"", none⟩)
  | .setShared level => (r.modify sharedName (.setLevel level), ⟨"", none⟩)
  | .setCurrent level => (r.modify r.current (.setLevel level), ⟨"", none⟩)
  | .log ms => (r, ⟨r.write ms, none⟩)
  | .format number text => (r, ⟨"", some (Log.format number text)⟩)

end Registry

end PropCalc.Log
