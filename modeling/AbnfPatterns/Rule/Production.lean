import AbnfPatterns.Regex.Pattern
import AbnfPatterns.Rule.Basic

/-!
# Productions with patterns

The rules of a standard are written as productions: the ABNF text beside a pattern for it and the
characters that the pattern may take.  A production becomes a rule by writing its pattern out.
-/

namespace AbnfPatterns

/-- An ABNF **production** and the pattern that matches it. -/
structure Production where
  name : String
  abnf : String
  description : String
  /-- The characters that can occur in text the pattern matches. -/
  chars : CharSet
  pattern : Pattern

namespace Production

def key (p : Production) : String :=
  RuleName.key p.name

def fragment (p : Production) : String :=
  Pattern.text p.pattern

/-- The rule that a production stands for. -/
def rule (p : Production) : Rule where
  name := p.name
  abnf := p.abnf
  description := p.description
  chars := p.chars
  fragment := p.fragment

end Production

end AbnfPatterns
