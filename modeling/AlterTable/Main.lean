import AlterTable.CommandLine

/-!
# The program

Prints the report of a run and exits with its status.
-/

/-- Runs the command line on the arguments of the process. -/
def main (args : List String) : IO UInt32 := do
  let report := AlterTable.CommandLine.run args
  (← IO.getStdout).putStr report.output
  (← IO.getStderr).putStr report.errors
  return report.status.toUInt32
