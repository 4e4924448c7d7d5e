/-!
# Events

What a registry and a composer report while they work.
-/

namespace AbnfPatterns

/-- How loud a report is. -/
inductive Level where
  | debug
  | trace
  deriving DecidableEq, Repr

def Level.label : Level → String
  | debug => "DEBUG"
  | trace => "TRACE"

/-- A **report** on one step of the work. -/
inductive Event where
  /-- The registry of a grammar was built; it has so many rules. -/
  | discovered (grammar : String) (rules : Nat)
  /-- A rule was referenced; the name is the rule's own. -/
  | referenced (rule : String)
  /-- A rule was referenced with a comma-separated repeat; the name is the rule's own. -/
  | referencedWithCommas (rule : String)
  /-- A token of a template names no rule of the grammar. -/
  | unresolved (token grammar : String)
  deriving DecidableEq, Repr

namespace Event

/-- Tokens that name no rule are common in templates, so they are reported more quietly. -/
def level : Event → Level
  | unresolved _ _ => .trace
  | _ => .debug

def message : Event → String
  | discovered _ _ => "discovered rules"
  | referenced _ => "reference"
  | referencedWithCommas _ => "comma-separated reference"
  | unresolved _ _ => "unresolved rule reference"

end Event

end AbnfPatterns
