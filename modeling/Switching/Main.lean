import Switching.CommandLine

/-! The command line: prints the report on the expression it is given. -/

def main (arguments : List String) : IO UInt32 := do
  let outcome := Switching.CommandLine.run arguments
  IO.print outcome.output
  unless outcome.diagnostic.isEmpty do IO.eprintln outcome.diagnostic
  return outcome.status.code.toUInt32
