import AbnfPatterns.Regex.Quantifier
import AbnfPatterns.Standard.Basic
import AbnfPatterns.Template

/-!
# Composers

A composer builds one pattern text from the rules of a grammar, piece after piece.
-/

namespace AbnfPatterns

/-- A **piece** to be added to a pattern. -/
inductive Addition where
  | literal (text : String)
  | reference (name : String)
  /-- The fragment of a rule, and one comma-separated repeat of it. -/
  | commaReference (name : String)
  /-- A group that captures nothing. -/
  | group (inner : String)
  /-- A group that captures what it matches, under a name if there is one. -/
  | capture (name : Option String) (inner : String)
  | quantifier (quantifier : Quantifier)
  /-- A template, whose ASCII blanks are dropped first if `collapse` is set. -/
  | template (text : String) (collapse : Bool)
  deriving DecidableEq, Repr

/-- The text that an addition stands for, and the reports on it. -/
structure Expansion where
  text : String
  events : List Event := []
  deriving DecidableEq, Repr

/-- The fragment of the core rule for optional whitespace.  A comma-separated repeat has it around
its comma, also where a grammar hides that rule. -/
def optionalWhitespace : String :=
  CoreRules.ows.fragment

namespace Registry

def discovery (reg : Registry) : Event :=
  .discovered reg.grammar.name reg.size

/-- **The text that an addition stands for.**  Only a reference to an unknown rule fails. -/
def expand (reg : Registry) : Addition → Except LookupError Expansion
  | .literal text => .ok { text := text }
  | .reference name =>
    match reg.lookup name with
    | .ok rule => .ok { text := rule.fragment, events := [.referenced rule.name] }
    | .error e => .error e
  | .commaReference name =>
    match reg.lookup name with
    | .ok rule => .ok
        { text := rule.fragment ++ PatternText.commaSuffix optionalWhitespace rule.fragment
          events := [.referencedWithCommas rule.name] }
    | .error e => .error e
  | .group inner => .ok { text := PatternText.group inner }
  | .capture name inner => .ok { text := PatternText.capture name inner }
  | .quantifier q => .ok { text := q.text }
  | .template text collapse =>
    let template := if collapse then Template.collapseBlanks text else text
    .ok
      { text := Template.resolve reg optionalWhitespace template
        events := Template.unresolved reg template }

end Registry

/-- A **composer**: the rules it draws on, and the pattern so far. -/
structure Composer where
  registry : Registry
  pattern : String := ""

namespace Composer

def ofGrammar (g : Grammar) : Composer where
  registry := Registry.ofGrammar g

/-- An empty composer for the standard that a text names. -/
def ofStandardText (text : String) : Except LookupError Composer :=
  match Standard.ofText text with
  | .ok s => .ok (ofGrammar s.grammar)
  | .error e => .error e

def grammar (c : Composer) : Grammar :=
  c.registry.grammar

def append (c : Composer) (text : String) : Composer :=
  { c with pattern := c.pattern ++ text }

/-- **The composer with one more piece**, and what the piece stands for. -/
def add (c : Composer) (a : Addition) : Except LookupError (Composer × Expansion) :=
  match c.registry.expand a with
  | .ok expansion => .ok (c.append expansion.text, expansion)
  | .error e => .error e

/-- The first piece of a list that could not be added, and the reports on those before it. -/
structure Failure where
  addition : Addition
  error : LookupError
  events : List Event
  deriving DecidableEq, Repr

/-- **The composer with a list of pieces**, and the reports on them, in order. -/
def addAll (c : Composer) : List Addition → Except Failure (Composer × List Event)
  | [] => .ok (c, [])
  | a :: rest =>
    match c.add a with
    | .error e => .error { addition := a, error := e, events := [] }
    | .ok (c, expansion) =>
      match c.addAll rest with
      | .ok (c, events) => .ok (c, expansion.events ++ events)
      | .error failure => .error { failure with events := expansion.events ++ failure.events }

end Composer

end AbnfPatterns
