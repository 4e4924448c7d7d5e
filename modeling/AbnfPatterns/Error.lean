/-!
# Errors

What goes wrong when a rule or a grammar is asked for by a name that nothing goes by.
-/

namespace AbnfPatterns

/-- A name that leads nowhere. -/
inductive LookupError where
  /-- The grammar has no rule under the key. -/
  | ruleNotFound (grammar key : String)
  /-- No standard goes by this text, which is kept as it was given. -/
  | unknownGrammar (text : String)
  deriving DecidableEq, Repr

namespace LookupError

def message : LookupError → String
  | ruleNotFound grammar key => grammar ++ " does not define ABNF rule '" ++ key ++ "'"
  | unknownGrammar text =>
    "unknown grammar '" ++ text ++ "' (expected one of: core, rfc3986, rfc9110)"

theorem message_ruleNotFound (grammar key : String) :
    (ruleNotFound grammar key).message
      = grammar ++ " does not define ABNF rule '" ++ key ++ "'" :=
  rfl

end LookupError

end AbnfPatterns
