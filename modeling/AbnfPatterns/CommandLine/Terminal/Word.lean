import AbnfPatterns.CommandLine.Terminal.UsageError

/-!
# Words of a command line

A word is the separator `--`, a long option, a cluster of short options, or an operand.
-/

namespace AbnfPatterns.CommandLine.Terminal

def options : List Parameter :=
  Switch.all.map .switch ++ Setting.all.map .setting

/-- The name after two hyphens, for options. -/
def long? : Parameter → Option String
  | .template => none
  | .switch s => some s.long
  | .setting s => some s.long

/-- The letter after one hyphen, for options. -/
def short? : Parameter → Option Char
  | .template => none
  | .switch s => some s.short
  | .setting s => some s.short

def ofLong? (name : String) : Option Parameter :=
  options.find? fun p => long? p == some name

def ofShort? (letter : Char) : Option Parameter :=
  options.find? fun p => short? p == some letter

/-- What the options of one word amount to: the complete ones, the one that needs the next word for
its value, and the fault that ended the reading. -/
structure OptionWord where
  found : List Argument := []
  awaiting : Option Setting := none
  fault : Option UsageError := none
  deriving DecidableEq, Repr

/-- A word **read by itself**. -/
inductive Word where
  | separator
  | options (reading : OptionWord)
  | operand (text : String)
  deriving DecidableEq, Repr

namespace OptionWord

/-- The long option `name`, with the text after its equals sign if there is one. -/
def ofLong (name : String) (value : Option String) : OptionWord :=
  match ofLong? name, value with
  | some (.switch s), none => { found := [.switch s] }
  | some (.switch s), some value => { fault := some (.unexpectedValue value s) }
  | some (.setting s), some value => { found := [.setting s value] }
  | some (.setting s), none => { awaiting := some s }
  | _, _ => { fault := some (.unexpectedArgument ("--" ++ name)) }

/-- The value of an option at the end of a cluster. -/
def attachedValue : List Char → String
  | '=' :: rest => String.ofList rest
  | text => String.ofList text

/-- The letters of a cluster of short options. -/
def ofCluster : List Char → OptionWord
  | [] => {}
  | letter :: rest =>
    match ofShort? letter with
    | some (.switch s) =>
      let reading := ofCluster rest
      { reading with found := .switch s :: reading.found }
    | some (.setting s) =>
      if rest.isEmpty then { awaiting := some s }
      else { found := [.setting s (attachedValue rest)] }
    | _ => { fault := some (.unexpectedArgument (String.ofList ['-', letter])) }

end OptionWord

namespace Word

/-- The text before the first equals sign, and the text after it. -/
def splitValue (text : List Char) : String × Option String :=
  match text.dropWhile (· != '=') with
  | [] => (String.ofList text, none)
  | _ :: value => (String.ofList (text.takeWhile (· != '=')), some (String.ofList value))

/-- **How a word is read** by itself.  A lone hyphen is an operand. -/
def ofString (text : String) : Word :=
  match text.toList with
  | ['-', '-'] => separator
  | '-' :: '-' :: rest =>
    let (name, value) := splitValue rest
    options (OptionWord.ofLong name value)
  | '-' :: letter :: rest => options (OptionWord.ofCluster (letter :: rest))
  | _ => operand text

end Word

end AbnfPatterns.CommandLine.Terminal
