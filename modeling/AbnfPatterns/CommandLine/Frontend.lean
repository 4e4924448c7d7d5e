import AbnfPatterns.CommandLine.Request
import AbnfPatterns.Composer

/-!
# Runs of the program

A run serves the request that a front end reads from the words of a command line.  How words are
read, how a run ends whose words make no request, and how errors look is up to the front end.
-/

namespace AbnfPatterns.CommandLine

/-- The **outcome** of a run.  Its reports are shown on standard error, in front of all else. -/
structure Outcome where
  exitCode : UInt32
  stdout : String := ""
  stderr : String := ""
  log : List Event := []
  deriving DecidableEq, Repr

/-- Why the words of a command line make no request. -/
inductive Reason where
  | help
  | version
  /-- The value of an option does not name what it should. -/
  | invalidValue
  /-- Two parameters exclude each other. -/
  | conflict
  | misuse
  deriving DecidableEq, Repr

/-- Words that make no request: why not, and what there is to say about it. -/
structure Refusal where
  reason : Reason
  text : String
  deriving DecidableEq, Repr

/-- An error that ends a run, and the error behind it. -/
structure ErrorReport where
  message : String
  cause : Option String := none
  deriving DecidableEq, Repr

/-- A **front end**. -/
structure Frontend where
  /-- The request that the words of a command line make. -/
  read : List String → Except Refusal Request
  /-- How a run ends whose words make no request. -/
  halt : Refusal → Outcome
  /-- The wording of an error. -/
  render : ErrorReport → String

namespace Request

/-- Whether there is nothing to compose a pattern from. -/
def isEmpty (r : Request) : Bool :=
  r.template.isNone && r.rules.isEmpty && r.commaRules.isEmpty

/-- The pieces of the requested pattern: rules, then comma-separated rules, then the template,
between anchors if they are asked for. -/
def additions (r : Request) : List Addition :=
  (if r.anchor then [.literal "^"] else [])
    ++ r.rules.map .reference
    ++ r.commaRules.map .commaReference
    ++ r.template.toList.map (fun text => .template text !r.keepWhitespace)
    ++ (if r.anchor then [.literal "$"] else [])

/-- The option that a piece was asked for with. -/
def origin : Addition → String
  | .reference name => "--rule " ++ name
  | .commaReference name => "--comma " ++ name
  | _ => ""

def listing (r : Request) : String :=
  String.join ((Registry.ofGrammar r.grammar.grammar).toList.map fun entry =>
    entry.2.summary ++ "\n")

/-- **How a request is served**, with errors worded by `render`. -/
def outcome (render : ErrorReport → String) (r : Request) : Outcome :=
  let c := Composer.ofGrammar r.grammar.grammar
  let shown := fun (events : List Event) =>
    if r.verbose then (c.registry.discovery :: events).filter (·.level = .debug) else []
  let failed := fun (report : ErrorReport) (events : List Event) =>
    { exitCode := 1, stderr := "Error: " ++ render report ++ "\n", log := shown events : Outcome }
  if r.list then { exitCode := 0, stdout := r.listing, log := shown [] }
  else if r.isEmpty then
    failed { message := "nothing to compose: give a TEMPLATE, --rule or --comma" } []
  else match c.addAll r.additions with
    | .ok (c, events) => { exitCode := 0, stdout := c.pattern ++ "\n", log := shown events }
    | .error failure =>
      failed { message := origin failure.addition, cause := failure.error.message } failure.events

end Request

/-- **The outcome of a command line.** -/
def Frontend.outcome (f : Frontend) (words : List String) : Outcome :=
  match f.read words with
  | .error refusal => f.halt refusal
  | .ok r => r.outcome f.render

end AbnfPatterns.CommandLine
