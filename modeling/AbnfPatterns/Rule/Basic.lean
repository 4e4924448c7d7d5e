import AbnfPatterns.CharSet
import AbnfPatterns.Rule.Name

/-!
# Rules

A rule pairs an ABNF production with the regular expression fragment that matches it.  Rules are
plain values; two rules count as equal when they have the same fragment, whatever they are called.
-/

namespace AbnfPatterns

/-- A **rule**: an ABNF production and the regular expression fragment for it. -/
structure Rule where
  /-- The name as its standard spells it. -/
  name : String
  abnf : String
  description : String
  /-- The characters that can occur in text the rule matches. -/
  chars : CharSet := ∅
  /-- The regular expression for the rule, safe to put next to others. -/
  fragment : String

namespace Rule

/-- Rules are told apart by their fragments alone, so an alias equals the rule it renames. -/
instance : BEq Rule where
  beq a b := a.fragment == b.fragment

def renamed (r : Rule) (name : String) : Rule :=
  { r with name := name }

def withChars (r : Rule) (chars : CharSet) : Rule :=
  { r with chars := chars }

/-- Whether the character can occur in text that the rule matches. -/
def admits (r : Rule) (c : Char) : Bool :=
  decide (c ∈ r.chars)

def key (r : Rule) : String :=
  RuleName.key r.name

/-- The production as one line of ABNF. -/
def summary (r : Rule) : String :=
  r.name ++ " = " ++ r.abnf

end Rule

end AbnfPatterns
