/-!
# Log messages

Messages have a level, and a log shows those from a certain level on. A debug message is marked as
such; messages for the user stand as they are.
-/

namespace PropCalc.Log

/-- How important a message is. -/
inductive Level where
  | debug
  | info
  | warning
  | error
deriving DecidableEq, Repr

/-- The number of a level; a higher number is more important. -/
def Level.number : Level → Nat
  | debug => 10
  | info => 20
  | warning => 30
  | error => 40

/-- A message with its level. -/
structure Message where
  level : Level
  text : String
deriving DecidableEq, Repr

/-- The names of the numbers below the level of information. -/
def lowLevelName (number : Int) : String :=
  if number = 0 then "NOTSET" else "Level " ++ toString number

/-- A message as it is written, by the number of its level. -/
def format (number : Int) (text : String) : String :=
  if 20 ≤ number then text
  else if number = 10 then "[DEBUG] " ++ text
  else "[" ++ lowLevelName number ++ "] " ++ text

namespace Message

/-- The message as it is written. -/
def formatted (m : Message) : String := format m.level.number m.text

/-- Whether a log that starts at a level shows the message. -/
def isShownAt (threshold : Level) (m : Message) : Bool := threshold.number ≤ m.level.number

end Message

/-- What a log writes that starts at a level: every message that is shown, with its line end. -/
def written (threshold : Level) (ms : List Message) : String :=
  String.join ((ms.filter (·.isShownAt threshold)).map fun m => m.formatted ++ "\n")

end PropCalc.Log
