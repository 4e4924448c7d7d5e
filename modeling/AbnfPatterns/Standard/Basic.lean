import AbnfPatterns.Error
import AbnfPatterns.Grammar
import AbnfPatterns.Standard.Http
import AbnfPatterns.Text.Blank

/-!
# Standards

The grammars that come with the library, and the names they go by.
-/

namespace AbnfPatterns

/-- A **standard** whose rules come with the library. -/
inductive Standard where
  /-- The core rules of ABNF and the whitespace rules of HTTP. -/
  | core
  /-- The generic syntax of URIs. -/
  | rfc3986
  /-- HTTP semantics. -/
  | rfc9110
  deriving DecidableEq, Repr

namespace Standard

def all : List Standard := [core, rfc3986, rfc9110]

def coreTable : RuleTable :=
  RuleTable.ofProductions CoreRules.productions (by decide +kernel)

def uriTable : RuleTable :=
  RuleTable.ofProductions UriRules.productions (by decide +kernel)

def httpTable : RuleTable :=
  RuleTable.ofProductions HttpRules.productions (by decide +kernel)

/-- The core grammar, base of the others. -/
def coreGrammar : Grammar := .standalone "CORE" coreTable

def uriGrammar : Grammar := .extending coreGrammar "RFC3986" uriTable

def httpGrammar : Grammar := .extending coreGrammar "RFC9110" httpTable

/-- **The grammar of a standard.** -/
def grammar : Standard → Grammar
  | core => coreGrammar
  | rfc3986 => uriGrammar
  | rfc9110 => httpGrammar

def label (s : Standard) : String :=
  String.ofList (s.grammar.name.toList.map Char.toLower)

/-- Whether two texts differ at most in the case of ASCII letters. -/
def sameIgnoringCase (a b : List Char) : Bool :=
  a.map Char.toLower == b.map Char.toLower

/-- The standard that a text names. -/
def ofText? (text : String) : Option Standard :=
  all.find? fun s => sameIgnoringCase s.grammar.name.toList (trimBlanks text.toList)

/-- **The standard that a text names**, or the error that quotes the text as it is. -/
def ofText (text : String) : Except LookupError Standard :=
  match ofText? text with
  | some s => .ok s
  | none => .error (.unknownGrammar text)

end Standard

end AbnfPatterns
