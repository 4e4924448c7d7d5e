import AbnfPatterns.CommandLine.Frontend
import AbnfPatterns.Error
import AbnfPatterns.Text.Plain

/-!
# Usage errors

What can be wrong with the words of a command line, and how a terminal shows it.
-/

namespace AbnfPatterns.CommandLine.Terminal

/-- A fault in the words of a command line. -/
inductive UsageError where
  /-- An option that does not exist, or a second template. -/
  | unexpectedArgument (word : String)
  /-- A value for an option that takes none. -/
  | unexpectedValue (value : String) (option : Switch)
  | missingValue (option : Setting)
  /-- An option that may be given once was given again. -/
  | repeated (option : Parameter)
  /-- The value of an option names no grammar. -/
  | invalidValue (value : String) (option : Setting) (cause : LookupError)
  /-- Parameters that exclude each other. -/
  | conflict (parameter : Parameter) (others : List Parameter)
  deriving DecidableEq, Repr

/-- How messages show a parameter. -/
def display : Parameter → String
  | .template => "[TEMPLATE]"
  | .switch s => "--" ++ s.long
  | .setting s => "--" ++ s.long ++ " <" ++ s.valueName ++ ">"

/-- Emphasized text between single quotes. -/
def quoted (text : String) : String :=
  "'" ++ emphasized text ++ "'"

namespace UsageError

def reason : UsageError → Reason
  | invalidValue _ _ _ => .invalidValue
  | conflict _ _ => .conflict
  | _ => .misuse

/-- The error in words, for a terminal.  Several conflicts are listed on lines of their own. -/
def message : UsageError → String
  | unexpectedArgument word => "unexpected argument " ++ quoted word ++ " found"
  | unexpectedValue value option =>
    "unexpected value " ++ quoted value ++ " for " ++ quoted (display (.switch option))
      ++ " found; no more were expected"
  | missingValue option =>
    "a value is required for " ++ quoted (display (.setting option)) ++ " but none was supplied"
  | repeated option =>
    "the argument " ++ quoted (display option) ++ " cannot be used multiple times"
  | invalidValue value option cause =>
    "invalid value " ++ quoted value ++ " for " ++ quoted (display (.setting option))
      ++ ": " ++ cause.message
  | conflict parameter [other] =>
    "the argument " ++ quoted (display parameter) ++ " cannot be used with "
      ++ quoted (display other)
  | conflict parameter others =>
    "the argument " ++ quoted (display parameter) ++ " cannot be used with:"
      ++ String.join (others.map fun other => "\n  " ++ emphasized (display other))

/-- What is printed for an error: its wording and where to find help, as plain text.  The text is
made plain as a whole, as a value may open an escape sequence that takes in what follows it. -/
def report (e : UsageError) : String :=
  plainText (emphasized "error:" ++ " " ++ e.message
    ++ "\n\nFor more information, try " ++ quoted "--help" ++ ".\n")

end UsageError

end AbnfPatterns.CommandLine.Terminal
