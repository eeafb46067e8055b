import PropCalc.Console
/-!
# Command line

Runs the console program and hands its streams and exit code to the system.
-/

/-- Simplifies the expressions given as arguments. -/
def main (arguments : List String) : IO UInt32 := do
  let outcome := PropCalc.Console.run arguments
  IO.print outcome.output
  IO.eprint outcome.errors
  return outcome.exitCode.toUInt32
