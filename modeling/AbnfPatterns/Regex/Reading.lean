import AbnfPatterns.Regex.Pattern

/-!
# Reading patterns

The way back from text to patterns.  The text is cut into tokens, and the tokens are put together
with the open groups on a stack, so that a bar or a closing bracket always belongs to the innermost
open group.  Anchors, back references, lazy and stacked quantifiers are no part of the syntax.
-/

namespace AbnfPatterns.Pattern

/-- A **token** of pattern text. -/
inductive Token where
  /-- A character or a class. -/
  | piece (p : Piece)
  | quantifier (q : Quantifier)
  | opening (kind : GroupKind)
  | bar
  | closing

namespace Token

/-! ### Tokens -/

def hexValue? (c : Char) : Option Nat :=
  if '0' ≤ c ∧ c ≤ '9' then some (c.toNat - '0'.toNat)
  else if 'A' ≤ c ∧ c ≤ 'F' then some (c.toNat - 'A'.toNat + 10)
  else if 'a' ≤ c ∧ c ≤ 'f' then some (c.toNat - 'a'.toNat + 10)
  else none

/-- Printable ASCII characters other than letters, digits and the space. -/
def isPunctuation (c : Char) : Bool :=
  0x21 ≤ c.toNat && c.toNat ≤ 0x7E && !c.isAlphanum

/-- What follows a backslash: two hexadecimal digits after an `x`, or a punctuation character. -/
def readEscape : List Char → Option (Glyph × List Char)
  | 'x' :: high :: low :: rest =>
    match hexValue? high, hexValue? low with
    | some h, some l => some (.code (UInt8.ofNat (16 * h + l)), rest)
    | _, _ => none
  | c :: rest => if isPunctuation c then some (.symbol c, rest) else none
  | [] => none

/-- One character inside a class. -/
def readClassGlyph : List Char → Option (Glyph × List Char)
  | '\\' :: rest => readEscape rest
  | c :: rest => if c ∈ ClassItem.operators then none else some (.symbol c, rest)
  | [] => none

theorem length_readEscape {text rest : List Char} {g : Glyph}
    (h : readEscape text = some (g, rest)) : rest.length < text.length := by
  unfold readEscape at h
  split at h
  · split at h
    · cases h
      simp only [List.length_cons]
      omega
    · cases h
  · split at h
    · cases h
      simp
    · cases h
  · cases h

theorem length_readClassGlyph {text rest : List Char} {g : Glyph}
    (h : readClassGlyph text = some (g, rest)) : rest.length < text.length := by
  unfold readClassGlyph at h
  split at h
  · have := length_readEscape h
    simp only [List.length_cons]
    omega
  · split at h
    · cases h
    · cases h
      simp
  · cases h

/-- One entry of a class: a character, or two in ascending order around a hyphen. -/
def readClassItem (text : List Char) : Option (ClassItem × List Char) :=
  match readClassGlyph text with
  | none => none
  | some (lo, '-' :: rest) =>
    match readClassGlyph rest with
    | none => none
    | some (hi, rest) =>
      if lo.char.toNat ≤ hi.char.toNat then some (.range lo hi, rest) else none
  | some (g, rest) => some (.one g, rest)

theorem length_readClassItem {text rest : List Char} {item : ClassItem}
    (h : readClassItem text = some (item, rest)) : rest.length < text.length := by
  unfold readClassItem at h
  split at h
  · cases h
  · rename_i lo after hlo
    have hlen := length_readClassGlyph hlo
    split at h
    · cases h
    · rename_i hi last hhi
      have := length_readClassGlyph hhi
      split at h
      · cases h
        simp only [List.length_cons] at hlen
        omega
      · cases h
  · cases h
    apply length_readClassGlyph
    assumption

/-- The entries of a class, up to its closing bracket. -/
def readClassItems (text : List Char) : Option (List ClassItem × List Char) :=
  match text with
  | ']' :: rest => some ([], rest)
  | text =>
    match _h : readClassItem text with
    | none => none
    | some (item, rest) =>
      match readClassItems rest with
      | none => none
      | some (items, rest) => some (item :: items, rest)
termination_by text.length
decreasing_by exact length_readClassItem _h

/-- A class after its opening bracket: at least one entry, and no circumflex in front. -/
def readClass (text : List Char) : Option (Piece × List Char) :=
  if text.head? = some '^' then none
  else match readClassItems text with
    | some (item :: items, rest) => some (.charIn (item :: items), rest)
    | _ => none

/-- The number that decimal digits denote, if it has at least one digit and 64 bits at most. -/
def readCount (digits : List Char) : Option UInt64 :=
  let n := Nat.ofDigitChars 10 digits 0
  if digits = [] ∨ UInt64.size ≤ n then none else some (UInt64.ofNat n)

/-- A count or bounds after an opening brace; bounds must be in ascending order. -/
def readBounds (text : List Char) : Option (Quantifier × List Char) :=
  match readCount (text.takeWhile Char.isDigit) with
  | none => none
  | some least =>
    match text.dropWhile Char.isDigit with
    | '\x7d' :: rest => some (.exactly least, rest)
    | ',' :: '\x7d' :: rest => some (.atLeast least, rest)
    | ',' :: more =>
      match readCount (more.takeWhile Char.isDigit), more.dropWhile Char.isDigit with
      | some most, '\x7d' :: rest =>
        if least ≤ most then some (.between least most, rest) else none
      | _, _ => none
    | _ => none

/-- The characters after the first one of a capture name. -/
def isCaptureNameChar (c : Char) : Bool :=
  c.isAlphanum || c == '_'

/-- The name of a capture: ASCII letters, digits and underscores, no digit first. -/
def isCaptureName : List Char → Bool
  | [] => false
  | c :: rest => (c.isAlpha || c == '_') && rest.all isCaptureNameChar

def readCaptureName (text : List Char) : Option (GroupKind × List Char) :=
  let name := text.takeWhile isCaptureNameChar
  match text.dropWhile isCaptureNameChar with
  | '>' :: rest =>
    if isCaptureName name then some (.capture (some (String.ofList name)), rest) else none
  | _ => none

/-- How a group opens, after its bracket. -/
def readOpening : List Char → Option (GroupKind × List Char)
  | '?' :: ':' :: rest => some (.plain, rest)
  | '?' :: '!' :: rest => some (.notAhead, rest)
  | '?' :: 'i' :: ':' :: rest => some (.ignoreCase, rest)
  | '?' :: '<' :: rest => readCaptureName rest
  -- any other group that begins with a question mark is not one of ours
  | '?' :: _ => none
  | rest => some (.capture none, rest)

/-- **The first token** of a text that is not empty. -/
def readFirst (c : Char) (rest : List Char) : Option (Token × List Char) :=
  match c with
  | '\\' => (readEscape rest).map fun (g, rest) => (piece (.glyph g), rest)
  | '[' => (readClass rest).map fun (p, rest) => (piece p, rest)
  | '(' => (readOpening rest).map fun (kind, rest) => (opening kind, rest)
  | ')' => some (closing, rest)
  | '|' => some (bar, rest)
  | '?' => some (quantifier .zeroOrOne, rest)
  | '*' => some (quantifier .zeroOrMore, rest)
  | '+' => some (quantifier .oneOrMore, rest)
  | '\x7b' => (readBounds rest).map fun (q, rest) => (quantifier q, rest)
  | c => if c ∈ Piece.operators then none else some (piece (.glyph (.symbol c)), rest)

theorem length_readClassItems {text rest : List Char} {items : List ClassItem}
    (h : readClassItems text = some (items, rest)) : rest.length < text.length := by
  fun_induction readClassItems text generalizing items with
  | case1 rest =>
    cases h
    simp
  | case2 => cases h
  | case3 => cases h
  | case4 text _ item after hitem items after' hitems ih =>
    cases h
    have := length_readClassItem hitem
    have := ih hitems
    omega

theorem length_readClass {text rest : List Char} {p : Piece}
    (h : readClass text = some (p, rest)) : rest.length < text.length := by
  unfold readClass at h
  split at h
  · cases h
  · split at h
    · rename_i hitems
      cases h
      exact length_readClassItems hitems
    · cases h

theorem length_readBounds {text rest : List Char} {q : Quantifier}
    (h : readBounds text = some (q, rest)) : rest.length < text.length := by
  have hdigits : (text.dropWhile Char.isDigit).length ≤ text.length :=
    (List.dropWhile_suffix _).length_le
  unfold readBounds at h
  split at h
  · cases h
  · split at h
    · rename_i heq
      cases h
      rw [heq, List.length_cons] at hdigits
      omega
    · rename_i heq
      cases h
      simp only [heq, List.length_cons] at hdigits
      omega
    · rename_i more _ heq
      have hmore : (more.dropWhile Char.isDigit).length ≤ more.length :=
        (List.dropWhile_suffix _).length_le
      rw [heq, List.length_cons] at hdigits
      split at h
      · rename_i hrest
        split at h
        · cases h
          rw [hrest, List.length_cons] at hmore
          omega
        · cases h
      · cases h
    · cases h

theorem length_readCaptureName {text rest : List Char} {kind : GroupKind}
    (h : readCaptureName text = some (kind, rest)) : rest.length < text.length := by
  have hname : (text.dropWhile isCaptureNameChar).length ≤ text.length :=
    (List.dropWhile_suffix _).length_le
  simp only [readCaptureName] at h
  split at h
  · rename_i heq
    split at h
    · cases h
      rw [heq, List.length_cons] at hname
      omega
    · cases h
  · cases h

theorem length_readOpening {text rest : List Char} {kind : GroupKind}
    (h : readOpening text = some (kind, rest)) : rest.length ≤ text.length := by
  unfold readOpening at h
  split at h
  · cases h
    simp only [List.length_cons]
    omega
  · cases h
    simp only [List.length_cons]
    omega
  · cases h
    simp only [List.length_cons]
    omega
  · have := length_readCaptureName h
    simp only [List.length_cons]
    omega
  · cases h
  · cases h
    exact Nat.le_refl _

/-- Reading a token takes at least one character. -/
theorem length_readFirst {c : Char} {text rest : List Char} {t : Token}
    (h : readFirst c text = some (t, rest)) : rest.length ≤ text.length := by
  unfold readFirst at h
  split at h
  · obtain ⟨⟨_, _⟩, hread, heq⟩ := Option.map_eq_some_iff.1 h
    cases heq
    exact Nat.le_of_lt (length_readEscape hread)
  · obtain ⟨⟨_, _⟩, hread, heq⟩ := Option.map_eq_some_iff.1 h
    cases heq
    exact Nat.le_of_lt (length_readClass hread)
  · obtain ⟨⟨_, _⟩, hread, heq⟩ := Option.map_eq_some_iff.1 h
    cases heq
    exact length_readOpening hread
  · cases h
    exact Nat.le_refl _
  · cases h
    exact Nat.le_refl _
  · cases h
    exact Nat.le_refl _
  · cases h
    exact Nat.le_refl _
  · cases h
    exact Nat.le_refl _
  · obtain ⟨⟨_, _⟩, hread, heq⟩ := Option.map_eq_some_iff.1 h
    cases heq
    exact Nat.le_of_lt (length_readBounds hread)
  · split at h
    · cases h
    · cases h
      exact Nat.le_refl _

/-- **The tokens of a text**, if it can be cut into tokens. -/
def readAll (text : List Char) : Option (List Token) :=
  match text with
  | [] => some []
  | c :: text =>
    match _h : readFirst c text with
    | none => none
    | some (t, rest) =>
      match readAll rest with
      | none => none
      | some ts => some (t :: ts)
termination_by text.length
decreasing_by exact Nat.lt_succ_of_le (length_readFirst _h)

end Token

/-! ### Assembly -/

/-- A group that is still open, or the text around all groups: the alternatives that are complete,
and the pieces of the one that is not. -/
structure OpenPattern where
  complete : List Pattern := []
  current : Pattern := []

namespace OpenPattern

/-- The alternatives, the open one included. -/
def alternatives (p : OpenPattern) : List Pattern :=
  p.complete ++ [p.current]

def push (p : OpenPattern) (piece : Piece) : OpenPattern :=
  { p with current := p.current ++ [piece] }

/-- Close the open alternative and start the next one. -/
def bar (p : OpenPattern) : OpenPattern where
  complete := p.alternatives

/-- Put a quantifier on the last piece, which must not have one yet. -/
def quantify (p : OpenPattern) (q : Quantifier) : Option OpenPattern :=
  match p.current.getLast? with
  | none => none
  -- a second quantifier would say how to choose among the repetitions, not how many there are
  | some (.repeated _ _) => none
  | some piece => some { p with current := p.current.dropLast ++ [.repeated piece q] }

end OpenPattern

/-- A **pattern under construction**: the innermost open group, and the groups around it with the
brackets that opened what is inside them. -/
structure Assembly where
  inner : OpenPattern := {}
  outer : List (GroupKind × OpenPattern) := []

namespace Assembly

def step (a : Assembly) : Token → Option Assembly
  | .piece p => some { a with inner := a.inner.push p }
  | .quantifier q => (a.inner.quantify q).map fun inner => { a with inner := inner }
  | .bar => some { a with inner := a.inner.bar }
  | .opening kind => some { inner := {}, outer := (kind, a.inner) :: a.outer }
  | .closing =>
    match a.outer with
    | [] => none
    | (kind, around) :: outer =>
      some { inner := around.push (.group kind a.inner.alternatives), outer := outer }

def run (a : Assembly) (tokens : List Token) : Option Assembly :=
  tokens.foldlM step a

end Assembly

/-- The alternatives that a list of tokens denotes, if all groups are closed. -/
def ofTokens? (tokens : List Token) : Option (List Pattern) :=
  match Assembly.run {} tokens with
  | some { inner, outer := [] } => some inner.alternatives
  | _ => none

/-- **The alternatives that a text denotes.** -/
def read? (text : List Char) : Option (List Pattern) :=
  (Token.readAll text).bind ofTokens?

end AbnfPatterns.Pattern
