import AbnfPatterns.CommandLine.Terminal.Reading

/-!
# The program at a terminal

The front end that the program is run with, and its outcomes.  The exit code is 0 if all went well,
1 if the pattern could not be composed, and 2 if the command line was not understood.
-/

namespace AbnfPatterns.CommandLine

namespace Terminal

def helpText : String :=
  "Regular-expression fragments for RFC ABNF grammar rules, with a template-driven pattern" ++
  " composer.\n\n" ++
  "Usage: abnf-regex [OPTIONS] [TEMPLATE]\n\n" ++
  "Arguments:\n" ++
  "  [TEMPLATE]  Template with `:name` and `:#name` rule references\n\n" ++
  "Options:\n" ++
  "  -g, --grammar <GRAMMAR>  Grammar rule names resolve against (core, rfc3986, rfc9110)" ++
  " [default: rfc9110]\n" ++
  "  -r, --rule <NAME>        Append a rule's fragment before the template\n" ++
  "  -c, --comma <NAME>       Append a rule's fragment plus one comma-separated repeat\n" ++
  "  -a, --anchor             Wrap the pattern in ^ and $\n" ++
  "  -k, --keep-whitespace    Keep whitespace in the template\n" ++
  "  -l, --list               List the grammar's rules and exit\n" ++
  "  -v, --verbose            Log rule discovery and references to stderr\n" ++
  "  -h, --help               Print help\n" ++
  "  -V, --version            Print version\n"

def versionText : String :=
  "abnf-regex 0.1.0\n"

/-- The request in the words of a command line. -/
def read (words : List String) : Except Refusal Request :=
  match Intent.ofWords words with
  | .error e => .error { reason := e.reason, text := e.report }
  | .ok .help => .error { reason := .help, text := helpText }
  | .ok .version => .error { reason := .version, text := versionText }
  | .ok (.serve r) => .ok r

/-- Answers to questions go to standard output, all else is a fault. -/
def halt (refusal : Refusal) : Outcome :=
  if refusal.reason = .help ∨ refusal.reason = .version then
    { exitCode := 0, stdout := refusal.text }
  else { exitCode := 2, stderr := refusal.text }

/-- Text whose further lines are indented by four spaces. -/
def indented (text : String) : String :=
  String.ofList (text.toList.flatMap fun c => if c = '\n' then "\n    ".toList else [c])

/-- An error, with the cause behind it on lines of its own. -/
def render (report : ErrorReport) : String :=
  match report.cause with
  | none => report.message
  | some cause => report.message ++ "\n\nCaused by:\n    " ++ indented cause

end Terminal

/-- The front end of a **terminal**. -/
def Frontend.terminal : Frontend where
  read := Terminal.read
  halt := Terminal.halt
  render := Terminal.render

/-- **The outcome of a command line** at a terminal. -/
def outcome (words : List String) : Outcome :=
  Frontend.terminal.outcome words

end AbnfPatterns.CommandLine
