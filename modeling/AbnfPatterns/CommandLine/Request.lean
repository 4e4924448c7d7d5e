import AbnfPatterns.CommandLine.Parameter
import AbnfPatterns.Standard.Basic

/-!
# Requests

What a command line asks for.
-/

namespace AbnfPatterns.CommandLine

/-- A pattern to **compose**, or a grammar to **list**. -/
structure Request where
  grammar : Standard := .rfc9110
  rules : List String := []
  commaRules : List String := []
  template : Option String := none
  anchor : Bool := false
  keepWhitespace : Bool := false
  list : Bool := false
  verbose : Bool := false
  deriving DecidableEq, Repr

end AbnfPatterns.CommandLine
