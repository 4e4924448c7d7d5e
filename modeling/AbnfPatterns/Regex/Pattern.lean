import AbnfPatterns.CharSet
import AbnfPatterns.Regex.Quantifier
import AbnfPatterns.Regex.Text

/-!
# Patterns

A pattern is a sequence of pieces: characters, classes, groups of alternative patterns, and
repeated pieces.  It also fixes how each character is spelled, so it has exactly one text.
-/

namespace AbnfPatterns

/-! ### Syntax -/

/-- A **character as it is spelled** in a pattern: as itself, or by the two hexadecimal digits
of its code. -/
inductive Glyph where
  | symbol (char : Char)
  | code (byte : UInt8)
  deriving DecidableEq, Repr

namespace Glyph

def char : Glyph → Char
  | symbol c => c
  | code byte => Char.ofUInt8 byte

/-- The spelling where `operators` have a meaning of their own and so need a backslash. -/
def text (operators : List Char) : Glyph → String
  | symbol c => if c ∈ operators then String.ofList ['\\', c] else String.ofList [c]
  | code byte => PatternText.hexChar byte

end Glyph

/-- One entry of a character class: a character, or all characters between two. -/
inductive ClassItem where
  | one (glyph : Glyph)
  | range (lo hi : Glyph)
  deriving DecidableEq, Repr

namespace ClassItem

/-- The characters with a meaning of their own inside a class. -/
def operators : List Char := ['\\', '[', ']', '-']

def text : ClassItem → String
  | one g => g.text operators
  | range lo hi => lo.text operators ++ "-" ++ hi.text operators

def chars : ClassItem → CharSet
  | one g => CharSet.empty.insert g.char
  | range lo hi => CharSet.ofRange lo.char hi.char

end ClassItem

/-- What the brackets of a group do besides grouping. -/
inductive GroupKind where
  /-- Nothing. -/
  | plain
  /-- ASCII letters inside match in either case. -/
  | ignoreCase
  /-- The group holds where what is inside does not match; it takes no text. -/
  | notAhead
  /-- The matched text is captured, under a name if there is one. -/
  | capture (name : Option String)
  deriving DecidableEq, Repr

def GroupKind.opening : GroupKind → String
  | plain => "(?:"
  | ignoreCase => "(?i:"
  | notAhead => "(?!"
  | capture none => "("
  | capture (some name) => "(?<" ++ name ++ ">"

/-- A **piece** of a pattern; a group lists its alternatives, each a sequence of pieces. -/
inductive Piece where
  | glyph (g : Glyph)
  | charIn (items : List ClassItem)
  | group (kind : GroupKind) (alternatives : List (List Piece))
  | repeated (piece : Piece) (quantifier : Quantifier)

/-- A **pattern** is a sequence of pieces. -/
abbrev Pattern := List Piece

/-- Induction over pieces: a group is reached through the pieces of its alternatives. -/
theorem Piece.induction {motive : Piece → Prop} (glyph : ∀ g, motive (.glyph g))
    (charIn : ∀ items, motive (.charIn items))
    (group : ∀ kind (alternatives : List Pattern),
      (∀ p ∈ alternatives, ∀ piece ∈ p, motive piece) → motive (.group kind alternatives))
    (repeated : ∀ piece q, motive piece → motive (.repeated piece q)) (piece : Piece) :
    motive piece := by
  refine @Piece.rec motive (fun alternatives => ∀ p ∈ alternatives, ∀ piece ∈ p, motive piece)
    (fun p => ∀ piece ∈ p, motive piece) glyph charIn group repeated ?_ ?_ ?_ ?_ piece
  · simp
  · intro first others hfirst hothers p hp
    rcases List.mem_cons.1 hp with rfl | hp
    · exact hfirst
    · exact hothers p hp
  · simp
  · intro first others hfirst hothers piece hpiece
    rcases List.mem_cons.1 hpiece with rfl | hpiece
    · exact hfirst
    · exact hothers piece hpiece

/-! ### Text -/

/-- The characters with a meaning of their own outside a class. -/
def Piece.operators : List Char :=
  ['\\', '.', '+', '*', '?', '(', ')', '|', '[', ']', '\x7b', '\x7d', '^', '$']

mutual

def Piece.text : Piece → String
  | .glyph g => g.text Piece.operators
  | .charIn items => "[" ++ String.join (items.map ClassItem.text) ++ "]"
  | .group kind alternatives => kind.opening ++ alternativesText alternatives ++ ")"
  | .repeated piece quantifier => piece.text ++ quantifier.text

/-- **The text of a pattern**: its pieces, one after the other. -/
def Pattern.text : Pattern → String
  | [] => ""
  | piece :: rest => piece.text ++ Pattern.text rest

/-- Alternatives with a bar between any two. -/
def alternativesText : List Pattern → String
  | [] => ""
  | first :: rest => Pattern.text first ++ barredText rest

/-- Alternatives with a bar before each. -/
def barredText : List Pattern → String
  | [] => ""
  | first :: rest => "|" ++ Pattern.text first ++ barredText rest

end

namespace Pattern

@[simp] theorem text_nil : Pattern.text [] = "" := by
  simp [Pattern.text]

@[simp] theorem text_cons (piece : Piece) (rest : Pattern) :
    Pattern.text (piece :: rest) = piece.text ++ Pattern.text rest := by
  simp [Pattern.text]

@[simp] theorem text_append (p q : Pattern) : Pattern.text (p ++ q) = p.text ++ q.text := by
  induction p with
  | nil => simp
  | cons piece rest ih => simp [ih, String.append_assoc]

end Pattern

/-! ### Builders -/

namespace Pattern

def literal (text : String) : Pattern :=
  text.toList.map fun c => .glyph (.symbol c)

/-- One character, written by its code. -/
def code (byte : UInt8) : Pattern :=
  [.glyph (.code byte)]

def charIn (items : List ClassItem) : Pattern :=
  [.charIn items]

/-- One character out of a range, written by its codes. -/
def codes (lo hi : UInt8) : Pattern :=
  charIn [.range (.code lo) (.code hi)]

/-- One entry of a class for every character of a text. -/
def itemsOf (text : String) : List ClassItem :=
  text.toList.map fun c => .one (.symbol c)

/-- The entry of a class for the characters between two. -/
def span (lo hi : Char) : ClassItem :=
  .range (.symbol lo) (.symbol hi)

/-- One of several patterns, tried in order. -/
def anyOf (alternatives : List Pattern) : Pattern :=
  [.group .plain alternatives]

theorem alternativesText_eq (alternatives : List Pattern) :
    alternativesText alternatives = "|".intercalate (alternatives.map Pattern.text) := by
  induction alternatives with
  | nil => simp [alternativesText]
  | cons first rest ih =>
    cases rest with
    | nil => simp [alternativesText, barredText]
    | cons second rest =>
      rw [List.map_cons, List.map_cons, String.intercalate_cons_cons, ← List.map_cons, ← ih]
      simp [alternativesText, barredText, String.append_assoc]

@[simp] theorem text_anyOf (alternatives : List Pattern) :
    (anyOf alternatives).text = PatternText.anyOf (alternatives.map Pattern.text) := by
  simp [anyOf, Piece.text, GroupKind.opening, PatternText.anyOf, PatternText.group,
    alternativesText_eq]

/-- A pattern whose ASCII letters match in either case. -/
def ignoringCase (p : Pattern) : Pattern :=
  [.group .ignoreCase [p]]

/-- A pattern that must not match here. -/
def notAhead (p : Pattern) : Pattern :=
  [.group .notAhead [p]]

/-- A pattern repeated as a whole: unless it is a single piece without a quantifier, it is put
into a group first. -/
def repeated (q : Quantifier) : Pattern → Pattern
  | [.glyph g] => [.repeated (.glyph g) q]
  | [.charIn items] => [.repeated (.charIn items) q]
  | [.group kind alternatives] => [.repeated (.group kind alternatives) q]
  | p => [.repeated (.group .plain [p]) q]

def optional (p : Pattern) : Pattern := p.repeated .zeroOrOne

def many (p : Pattern) : Pattern := p.repeated .zeroOrMore

def atLeastOnce (p : Pattern) : Pattern := p.repeated .oneOrMore

def times (p : Pattern) (count : UInt64) : Pattern := p.repeated (.exactly count)

def between (p : Pattern) (least most : UInt64) : Pattern := p.repeated (.between least most)

end Pattern

end AbnfPatterns
