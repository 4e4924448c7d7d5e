/-!
# Pieces of pattern text

The ways in which texts of patterns are put together, whatever the inner texts hold.
-/

namespace AbnfPatterns.PatternText

/-- A group that captures nothing. -/
def group (inner : String) : String :=
  "(?:" ++ inner ++ ")"

/-- A group that captures what it matches, under a name if one is given. -/
def capture (name : Option String) (inner : String) : String :=
  match name with
  | none => "(" ++ inner ++ ")"
  | some name => "(?<" ++ name ++ ">" ++ inner ++ ")"

def anyOf (alternatives : List String) : String :=
  group ("|".intercalate alternatives)

/-- The upper-case hexadecimal digit of a number below sixteen. -/
def hexDigit (n : Nat) : Char :=
  (Nat.digitChar n).toUpper

/-- One byte as an escape with two upper-case hexadecimal digits. -/
def hexChar (byte : UInt8) : String :=
  String.ofList ['\\', 'x', hexDigit (byte.toNat / 16), hexDigit (byte.toNat % 16)]

/-- The bytes from `lo` through `hi` as a class.  Bounds in the wrong order are written as
they are. -/
def hexRange (lo hi : UInt8) : String :=
  "[" ++ hexChar lo ++ "-" ++ hexChar hi ++ "]"

/-- **One more item.**  A comma with optional whitespace around it, then the item, in a group
that is emitted once and left without a quantifier. -/
def commaSuffix (whitespace item : String) : String :=
  group (whitespace ++ "," ++ whitespace ++ item)

end AbnfPatterns.PatternText
