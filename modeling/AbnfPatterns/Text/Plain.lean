/-!
# Plain text

What is left of a text for a terminal on a stream that is none.  An escape sequence that is left
open takes in what follows it, up to its end or to the next escape character.
-/

namespace AbnfPatterns

/-- Text that a terminal shows in bold type. -/
def emphasized (text : String) : String :=
  "\x1b[1m" ++ text ++ "\x1b[0m"

/-- How far the reader of a text is into an escape sequence. -/
inductive EscapeState where
  | outside
  /-- After the escape character, or after intermediate characters that follow it. -/
  | escape
  | intermediate
  /-- Inside a control sequence, up to its final character. -/
  | control
  /-- At the head of a device control string: its parameters, then its intermediates. -/
  | device
  | deviceParameters
  | deviceIntermediates
  /-- Inside a control string, up to the byte of the string terminator. -/
  | string
  /-- Inside an operating-system command, up to the bell. -/
  | command
  deriving DecidableEq, Repr

/-- The control characters that are part of plain text. -/
def isKeptControl (c : Char) : Bool :=
  c == '\t' || c == '\n' || c == '\x0c' || c == '\r'

def isPlain (c : Char) : Bool :=
  isKeptControl c || (0x20 ≤ c.toNat && c.toNat != 0x7F)

/-- Whether the UTF-8 form of a character holds the byte that terminates a control string. -/
def holdsTerminator (c : Char) : Bool :=
  (String.utf8EncodeChar c).contains 0x9C

namespace EscapeState

/-- The state after a printable ASCII character that follows the escape character. -/
def afterEscape (c : Char) : EscapeState :=
  if c == '[' then control
  else if c == ']' then command
  else if c == 'P' then device
  else if c == 'X' || c == '^' || c == '_' then string
  else if c.toNat < 0x30 then intermediate
  else outside

/-- The state after a printable ASCII character at the head of a device control string.  Parameters
are digits, colons and semicolons; private marks may stand in front of them only, and at any other
place begin a string. -/
def afterDevice (c : Char) (first : Bool) : EscapeState :=
  if c.toNat < 0x30 then deviceIntermediates
  else if c.isDigit || c == ':' || c == ';' then deviceParameters
  else if first && c.toNat < 0x40 then deviceParameters
  else string

/-- The state after a printable ASCII character inside a sequence. -/
def afterPrintable (c : Char) : EscapeState → EscapeState
  | outside => outside
  | escape => afterEscape c
  | intermediate => if c.toNat < 0x30 then intermediate else outside
  | control => if c.toNat < 0x40 then control else outside
  | device => afterDevice c true
  | deviceParameters => afterDevice c false
  | deviceIntermediates => if c.toNat < 0x30 then deviceIntermediates else string
  | string => string
  | command => command

/-- The state after a control character inside a sequence, and whether it is plain text: sequences
let line ends and tabs through, strings do not. -/
def afterControl (c : Char) : EscapeState → EscapeState × Bool
  | escape => (escape, isKeptControl c)
  | intermediate => (intermediate, isKeptControl c)
  | control => (control, isKeptControl c)
  | command => (if c == '\x07' then outside else command, false)
  | state => (state, false)

/-- One step of a reader: the next state, and whether the character is plain text. -/
def step (state : EscapeState) (c : Char) : EscapeState × Bool :=
  if c.toNat = 0x1B then (escape, false)
  -- cancel and substitute break off any sequence
  else if c.toNat = 0x18 ∨ c.toNat = 0x1A then (outside, false)
  else if state = outside then (outside, isPlain c)
  else if c.toNat < 0x20 then state.afterControl c
  else if c.toNat < 0x7F then (state.afterPrintable c, false)
  else if state = string ∧ holdsTerminator c then (outside, false)
  else (state, false)

end EscapeState

/-- A **reader** that copies the plain text. -/
structure PlainReader where
  /-- The open sequence; while text is copied, the one that the text interrupts. -/
  state : EscapeState := .outside
  copying : Bool := false
  deriving DecidableEq, Repr

namespace PlainReader

/-- One step of the reader, and whether the character is copied.  Characters beyond ASCII close the
sequence that the text interrupts. -/
def step (r : PlainReader) (c : Char) : PlainReader × Bool :=
  if r.copying && isPlain c then
    ({ r with state := if c.toNat < 0x80 then r.state else .outside }, true)
  else
    let (state, kept) := r.state.step c
    ({ state, copying := kept }, kept)

/-- The characters of a text that the reader copies. -/
def filter (r : PlainReader) : List Char → List Char
  | [] => []
  | c :: rest =>
    let (next, kept) := r.step c
    if kept then c :: next.filter rest else next.filter rest

end PlainReader

/-- The text without escape sequences and control characters. -/
def plainText (text : String) : String :=
  String.ofList (({} : PlainReader).filter text.toList)

end AbnfPatterns
