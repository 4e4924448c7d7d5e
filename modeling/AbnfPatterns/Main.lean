import AbnfPatterns.CommandLine.Outcome

/-!
# The program

Prints the outcome of the command line that it is called with.
-/

namespace AbnfPatterns.CommandLine

/-- One report on a line of its own. -/
def logLine (event : Event) : String :=
  let details := match event with
    | .discovered grammar rules => " grammar=" ++ grammar ++ " rules=" ++ rules.repr
    | .referenced rule => " rule=" ++ rule
    | .referencedWithCommas rule => " rule=" ++ rule
    | .unresolved token grammar => " token=" ++ token ++ " grammar=" ++ grammar
  event.level.label ++ " " ++ event.message ++ details

end AbnfPatterns.CommandLine

def main (words : List String) : IO UInt32 := do
  let result := AbnfPatterns.CommandLine.outcome words
  for event in result.log do
    IO.eprintln (AbnfPatterns.CommandLine.logLine event)
  IO.print result.stdout
  IO.eprint result.stderr
  return result.exitCode
