import AbnfPatterns.Rule.Name

/-!
# Blank characters

The Unicode property `White_Space`, and the blanks of ASCII text without the vertical tab.
-/

namespace AbnfPatterns

/-- The code points with the Unicode property `White_Space`. -/
def blankCodes : List Nat :=
  [0x09, 0x0A, 0x0B, 0x0C, 0x0D, 0x20, 0x85, 0xA0, 0x1680, 0x2000, 0x2001, 0x2002, 0x2003, 0x2004,
    0x2005, 0x2006, 0x2007, 0x2008, 0x2009, 0x200A, 0x2028, 0x2029, 0x202F, 0x205F, 0x3000]

def isBlank (c : Char) : Bool :=
  blankCodes.contains c.toNat

def trimBlanks (text : List Char) : List Char :=
  ((text.dropWhile isBlank).reverse.dropWhile isBlank).reverse

/-- Whether the character is a space, horizontal tab, line feed, form feed or carriage return. -/
def isAsciiBlank (c : Char) : Bool :=
  c == ' ' || c == '\t' || c == '\n' || c == '\x0c' || c == '\r'

theorem isAsciiBlank_of_isNameChar {c : Char} (h : RuleName.isNameChar c = true) :
    isAsciiBlank c = false := by
  rw [← Bool.not_eq_true]
  intro hblank
  simp only [isAsciiBlank, Bool.or_eq_true, beq_iff_eq] at hblank
  rcases hblank with (((rfl | rfl) | rfl) | rfl) | rfl <;> revert h <;> decide

end AbnfPatterns
