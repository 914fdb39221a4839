import ObjectLayout.CommandLine

/-!
# The program

Prints what the command line asks for.
-/
def main (arguments : List String) : IO UInt32 := do
  let outcome := ObjectLayout.CommandLine.run arguments
  IO.print outcome.stdout
  IO.eprint outcome.stderr
  return outcome.exitCode.toUInt32
