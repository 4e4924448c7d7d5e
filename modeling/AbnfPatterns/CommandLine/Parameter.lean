/-!
# Command-line parameters

The options of the program and the template, which is given without an option.
-/

namespace AbnfPatterns.CommandLine

/-- An option **without a value**. -/
inductive Switch where
  | anchor
  | keepWhitespace
  | list
  | verbose
  | help
  | version
  deriving DecidableEq, Repr

/-- An option **with a value**. -/
inductive Setting where
  | grammar
  | rule
  | comma
  deriving DecidableEq, Repr

namespace Switch

def all : List Switch := [anchor, keepWhitespace, list, verbose, help, version]

def long : Switch → String
  | anchor => "anchor"
  | keepWhitespace => "keep-whitespace"
  | list => "list"
  | verbose => "verbose"
  | help => "help"
  | version => "version"

def short : Switch → Char
  | anchor => 'a'
  | keepWhitespace => 'k'
  | list => 'l'
  | verbose => 'v'
  | help => 'h'
  | version => 'V'

end Switch

namespace Setting

def all : List Setting := [grammar, rule, comma]

def long : Setting → String
  | grammar => "grammar"
  | rule => "rule"
  | comma => "comma"

def short : Setting → Char
  | grammar => 'g'
  | rule => 'r'
  | comma => 'c'

def valueName : Setting → String
  | grammar => "GRAMMAR"
  | rule => "NAME"
  | comma => "NAME"

end Setting

/-- The value of the option for the grammar where none is given. -/
def defaultGrammar : String := "rfc9110"

/-- Anything that can be given on the command line. -/
inductive Parameter where
  | template
  | switch (s : Switch)
  | setting (s : Setting)
  deriving DecidableEq, Repr

/-- Whether the rule list excludes a parameter. -/
def Parameter.conflictsWithList : Parameter → Bool
  | template => true
  | setting .rule => true
  | setting .comma => true
  | switch .anchor => true
  | switch .keepWhitespace => true
  | _ => false

/-- A parameter **as it is given**: an option, with its value if it needs one, or a template. -/
inductive Argument where
  | switch (s : Switch)
  | setting (s : Setting) (value : String)
  | template (text : String)
  deriving DecidableEq, Repr

/-- The parameter that is given. -/
def Argument.parameter : Argument → Parameter
  | switch s => .switch s
  | setting s _ => .setting s
  | template _ => .template

end AbnfPatterns.CommandLine
