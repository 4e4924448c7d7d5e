import Std.Data.TreeMap.Basic
import AbnfPatterns.Error
import AbnfPatterns.Grammar

/-!
# Registries

A registry is an index of all rules of a grammar by key, in ascending order of keys.
-/

namespace AbnfPatterns

/-- The rules of a grammar by key; later entries take the place of earlier ones. -/
def Grammar.index (g : Grammar) : Std.TreeMap String Rule :=
  g.entries.foldl (fun rules entry => rules.insert entry.1 entry.2) ∅

/-- A **registry**: a grammar with the index of its rules. -/
structure Registry where
  grammar : Grammar
  rules : Std.TreeMap String Rule
  /-- The greatest number of bytes in a key, zero if there are no keys. -/
  longestKey : Nat
  rules_eq : rules = grammar.index
  longestKey_eq : longestKey = (rules.keys.map String.utf8ByteSize).foldl max 0

namespace Registry

def ofGrammar (g : Grammar) : Registry where
  grammar := g
  rules := g.index
  longestKey := (g.index.keys.map String.utf8ByteSize).foldl max 0
  rules_eq := rfl
  longestKey_eq := rfl

/-- There is only one registry for a grammar. -/
theorem eq_ofGrammar (reg : Registry) : reg = ofGrammar reg.grammar := by
  obtain ⟨grammar, rules, longestKey, rfl, rfl⟩ := reg
  rfl

def size (reg : Registry) : Nat :=
  reg.rules.size

def isEmpty (reg : Registry) : Bool :=
  reg.rules.isEmpty

/-- All keys with their rules, in ascending order of keys. -/
def toList (reg : Registry) : List (String × Rule) :=
  reg.rules.toList

/-- The rule that a name stands for, whatever its case and separators. -/
def get? (reg : Registry) (name : String) : Option Rule :=
  reg.rules[RuleName.key name]?

def contains (reg : Registry) (name : String) : Bool :=
  (reg.get? name).isSome

/-- **The rule that a name stands for**, or the error that gives the key of the name. -/
def lookup (reg : Registry) (name : String) : Except LookupError Rule :=
  match reg.get? name with
  | some rule => .ok rule
  | none => .error (.ruleNotFound reg.grammar.name (RuleName.key name))

/-- The longest rule name among the starts of `run` of one to `limit` characters: how many
characters it has, and its rule. -/
def longestPrefixUpTo (reg : Registry) (run : List Char) : Nat → Option (Nat × Rule)
  | 0 => none
  | limit + 1 =>
    match reg.get? (String.ofList (run.take (limit + 1))) with
    | some rule => some (limit + 1, rule)
    | none => longestPrefixUpTo reg run limit

/-- **The longest rule name that `run` starts with**: how many characters it has, and its rule.
The empty start is never a name. -/
def longestPrefix (reg : Registry) (run : List Char) : Option (Nat × Rule) :=
  reg.longestPrefixUpTo run (min run.length reg.longestKey)

end Registry

end AbnfPatterns
