/-!
# ABNF

The right-hand sides of productions, as RFC 5234 defines them and RFC 7405 extends them.
-/

namespace AbnfPatterns

/-- The **right-hand side** of a production. -/
inductive Abnf where
  | rule (name : List Char)
  | quoted (caseSensitive : Bool) (text : List Char)
  /-- One character out of a range of code points. -/
  | codes (lo hi : Nat)
  /-- A description in words between angle brackets. -/
  | prose (text : List Char)
  /-- At least `least` and, if there is a limit, at most `most` times. -/
  | repeated (least : Nat) (most : Option Nat) (item : Abnf)
  | concat (first second : Abnf)
  | either (first second : Abnf)
  deriving DecidableEq, Repr

namespace Abnf

def optional (item : Abnf) : Abnf :=
  .repeated 0 (some 1) item

/-! ### Tokens -/

inductive Token where
  | item (item : Abnf)
  | times (least : Nat) (most : Option Nat)
  | slash
  | opening
  | closing
  | openingOption
  | closingOption
  deriving DecidableEq, Repr

namespace Token

def isNameChar (c : Char) : Bool :=
  c.isAlphanum || c == '-'

def hexValue (c : Char) : Nat :=
  if c.isDigit then c.toNat - '0'.toNat else c.toUpper.toNat - 'A'.toNat + 10

def hexNumber (digits : List Char) : Nat :=
  digits.foldl (fun n c => 16 * n + hexValue c) 0

def isHexDigit (c : Char) : Bool :=
  c.isDigit || ('A'.toNat ≤ c.toUpper.toNat && c.toUpper.toNat ≤ 'F'.toNat)

/-- The number that decimal digits denote, if there are any. -/
def number? (digits : List Char) : Option Nat :=
  if digits.isEmpty then none else some (Nat.ofDigitChars 10 digits 0)

/-- The text before the first character `stop`, and the text after it. -/
def upTo (stop : Char) (text : List Char) : Option (List Char × List Char) :=
  match text.dropWhile (· != stop) with
  | [] => none
  | _ :: rest => some (text.takeWhile (· != stop), rest)

/-- A code point or a range of code points, after `%x`. -/
def readCodes (text : List Char) : Option (Abnf × List Char) :=
  let first := text.takeWhile isHexDigit
  if first.isEmpty then none
  else match text.dropWhile isHexDigit with
    | '-' :: more =>
      let second := more.takeWhile isHexDigit
      if second.isEmpty then none
      else some (.codes (hexNumber first) (hexNumber second), more.dropWhile isHexDigit)
    | rest => some (.codes (hexNumber first) (hexNumber first), rest)

/-- A count or bounds of a repetition.  A lone count stands for both bounds; around an asterisk
either bound may be missing. -/
def readTimes (text : List Char) : Option (Token × List Char) :=
  let least := number? (text.takeWhile Char.isDigit)
  match text.dropWhile Char.isDigit with
  | '*' :: more =>
    some (.times (least.getD 0) (number? (more.takeWhile Char.isDigit)),
      more.dropWhile Char.isDigit)
  | rest => least.map fun n => (.times n (some n), rest)

/-- **The first token** of a text that starts with the character `c`, which is no blank. -/
def readFirst (c : Char) (rest : List Char) : Option (Token × List Char) :=
  match c, rest with
  | '/', rest => some (slash, rest)
  | '(', rest => some (opening, rest)
  | ')', rest => some (closing, rest)
  | '[', rest => some (openingOption, rest)
  | ']', rest => some (closingOption, rest)
  | '"', rest => (upTo '"' rest).map fun (text, rest) => (item (.quoted false text), rest)
  | '%', 's' :: '"' :: rest =>
    (upTo '"' rest).map fun (text, rest) => (item (.quoted true text), rest)
  | '%', 'x' :: rest => (readCodes rest).map fun (range, rest) => (item range, rest)
  | '<', rest => (upTo '>' rest).map fun (text, rest) => (item (.prose text), rest)
  | c, rest =>
    if c.isAlpha then
      some (item (.rule (c :: rest.takeWhile isNameChar)), rest.dropWhile isNameChar)
    else readTimes (c :: rest)

/-- The tokens of a text, read in at most `limit` steps. -/
def readUpTo : (limit : Nat) → List Char → Option (List Token)
  | _, [] => some []
  | 0, _ :: _ => none
  | limit + 1, c :: rest =>
    if c = ' ' then readUpTo limit rest
    else match readFirst c rest with
      | none => none
      | some (t, rest) => (readUpTo limit rest).map (t :: ·)

/-- **The tokens of a text.**  Each step takes at least one character. -/
def readAll (text : List Char) : Option (List Token) :=
  readUpTo text.length text

end Token

/-! ### Right-hand sides -/

def concatAll (first : Abnf) : List Abnf → Abnf
  | [] => first
  | second :: rest => .concat first (concatAll second rest)

def eitherOf (first : Abnf) : List Abnf → Abnf
  | [] => first
  | second :: rest => .either first (eitherOf second rest)

/-- A group or an option that is still open: the alternatives that are complete, the items of the
one that is not, and the repetition that waits for its item. -/
structure OpenGroup where
  complete : List Abnf := []
  items : List Abnf := []
  times : Option (Nat × Option Nat) := none
  deriving DecidableEq, Repr

namespace OpenGroup

/-- Put one more item behind the others, repeated if a repetition waits for it. -/
def push (g : OpenGroup) (item : Abnf) : OpenGroup :=
  match g.times with
  | none => { g with items := g.items ++ [item] }
  | some (least, most) => { g with items := g.items ++ [.repeated least most item], times := none }

/-- Complete the open alternative, which must have an item and no repetition without one. -/
def bar (g : OpenGroup) : Option OpenGroup :=
  match g.items, g.times with
  | first :: rest, none => some { complete := g.complete ++ [concatAll first rest] }
  | _, _ => none

def close (g : OpenGroup) : Option Abnf :=
  match g.bar with
  | some { complete := first :: rest, .. } => some (eitherOf first rest)
  | _ => none

end OpenGroup

/-- The innermost open group, and those around it with what opened the group inside them. -/
structure Assembly where
  inner : OpenGroup := {}
  outer : List (Bool × OpenGroup) := []
  deriving DecidableEq, Repr

namespace Assembly

/-- Close the innermost group, if it was opened as an option or as a group. -/
def close (a : Assembly) (isOption : Bool) : Option Assembly :=
  match a.outer, a.inner.close with
  | (opened, around) :: outer, some item =>
    if opened = isOption then
      some { inner := around.push (if isOption then optional item else item), outer := outer }
    else none
  | _, _ => none

def step (a : Assembly) : Token → Option Assembly
  | .item item => some { a with inner := a.inner.push item }
  | .times least most =>
    match a.inner.times with
    | none => some { a with inner := { a.inner with times := some (least, most) } }
    | some _ => none
  | .slash => a.inner.bar.map fun inner => { a with inner := inner }
  | .opening => some { inner := {}, outer := (false, a.inner) :: a.outer }
  | .openingOption => some { inner := {}, outer := (true, a.inner) :: a.outer }
  | .closing => a.close false
  | .closingOption => a.close true

end Assembly

def ofTokens? (tokens : List Token) : Option Abnf :=
  match tokens.foldlM Assembly.step {} with
  | some { inner, outer := [] } => inner.close
  | _ => none

/-- **The right-hand side that a text denotes.** -/
def read? (text : List Char) : Option Abnf :=
  (Token.readAll text).bind ofTokens?

end Abnf

end AbnfPatterns
