import AbnfPatterns.Abnf.Syntax
import AbnfPatterns.Standard.Basic

/-!
# Derivation

The texts that a production derives.
-/

namespace AbnfPatterns

def Production.find? (productions : List Production) (name : String) : Option Production :=
  productions.find? fun p => p.key == RuleName.key name

/-- **The production that a name leads to**, with the standard where it is at home.  A rule that
HTTP shares with the URI standard is at home there. -/
def Standard.production? (name : String) : Standard → Option (Standard × Production)
  | core => (Production.find? CoreRules.productions name).map fun p => (core, p)
  | rfc3986 =>
    match Production.find? UriRules.productions name with
    | some p => some (rfc3986, p)
    | none => (Production.find? CoreRules.productions name).map fun p => (core, p)
  | rfc9110 =>
    match Production.find? HttpRules.productions name with
    | some p =>
      some (if (Production.find? UriRules.productions name).isSome then rfc3986 else rfc9110, p)
    | none => (Production.find? CoreRules.productions name).map fun p => (core, p)

/-- The rule that a prose value stands for: the one that its first word names. -/
def proseRule (text : List Char) : String :=
  String.ofList (text.takeWhile RuleName.isNameChar)

/-- A prose value is read where the rule that it names is defined. -/
def Standard.prose? (text : List Char) : Option (Standard × Production) :=
  Standard.rfc3986.production? (proseRule text)

/-- **A right-hand side derives a text**, its rule names being those of a standard. -/
inductive Derives : Standard → Abnf → List Char → Prop where
  | rule {s home : Standard} {name w : List Char} {p : Production} {body : Abnf}
      (found : s.production? (String.ofList name) = some (home, p))
      (read : Abnf.read? p.abnf.toList = some body) (derived : Derives home body w) :
      Derives s (.rule name) w
  | prose {s home : Standard} {text w : List Char} {p : Production} {body : Abnf}
      (found : Standard.prose? text = some (home, p))
      (read : Abnf.read? p.abnf.toList = some body) (derived : Derives home body w) :
      Derives s (.prose text) w
  /-- Quoted text stands for itself; without regard to case, for any spelling of it. -/
  | exactly {s : Standard} {text : List Char} : Derives s (.quoted true text) text
  | ignoringCase {s : Standard} {text w : List Char}
      (same : w.map Char.toLower = text.map Char.toLower) : Derives s (.quoted false text) w
  | code {s : Standard} {lo hi : Nat} {c : Char} (le_code : lo ≤ c.toNat) (code_le : c.toNat ≤ hi) :
      Derives s (.codes lo hi) [c]
  | stop {s : Standard} {most : Option Nat} {item : Abnf} : Derives s (.repeated 0 most item) []
  /-- One more round of a repetition lowers both bounds by one. -/
  | round {s : Standard} {least : Nat} {most : Option Nat} {item : Abnf} {u v : List Char}
      (allowed : most ≠ some 0) (first : Derives s item u)
      (others : Derives s (.repeated (least - 1) (most.map (· - 1)) item) v) :
      Derives s (.repeated least most item) (u ++ v)
  | concat {s : Standard} {a b : Abnf} {u v : List Char} (first : Derives s a u)
      (second : Derives s b v) : Derives s (.concat a b) (u ++ v)
  | left {s : Standard} {a b : Abnf} {w : List Char} (derived : Derives s a w) :
      Derives s (.either a b) w
  | right {s : Standard} {a b : Abnf} {w : List Char} (derived : Derives s b w) :
      Derives s (.either a b) w

end AbnfPatterns
