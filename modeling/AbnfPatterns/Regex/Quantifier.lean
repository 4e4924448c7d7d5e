/-!
# Quantifiers

A quantifier follows one piece of a pattern and bounds how often the piece is repeated.
-/

namespace AbnfPatterns

/-- How often a piece of a pattern is repeated. -/
inductive Quantifier where
  | zeroOrOne
  | zeroOrMore
  | oneOrMore
  | exactly (count : UInt64)
  | atLeast (least : UInt64)
  | between (least most : UInt64)
  deriving DecidableEq, Repr

namespace Quantifier

def decimal (n : UInt64) : String :=
  n.toNat.repr

def braced (bounds : String) : String :=
  "\x7b" ++ bounds ++ "\x7d"

def text : Quantifier → String
  | zeroOrOne => "?"
  | zeroOrMore => "*"
  | oneOrMore => "+"
  | exactly count => braced (decimal count)
  | atLeast least => braced (decimal least ++ ",")
  | between least most => braced (decimal least ++ "," ++ decimal most)

/-- The upper bound that stands for no bound. -/
def unlimited : UInt64 := 18446744073709551615

/-- **Counted repetition.**  Without an upper bound the count is exact; the upper bound
`unlimited` asks for `least` or more. -/
def ofBounds (least : UInt64) : Option UInt64 → Quantifier
  | none => exactly least
  | some most => if most = unlimited then atLeast least else between least most

def least : Quantifier → Nat
  | zeroOrOne => 0
  | zeroOrMore => 0
  | oneOrMore => 1
  | exactly count => count.toNat
  | atLeast least => least.toNat
  | between least _ => least.toNat

/-- The most repetitions the quantifier allows, if it sets a limit. -/
def most : Quantifier → Option Nat
  | zeroOrOne => some 1
  | zeroOrMore => none
  | oneOrMore => none
  | exactly count => some count.toNat
  | atLeast _ => none
  | between _ most => some most.toNat

def Allows (q : Quantifier) (n : Nat) : Prop :=
  q.least ≤ n ∧ ∀ m ∈ q.most, n ≤ m

end Quantifier

end AbnfPatterns
