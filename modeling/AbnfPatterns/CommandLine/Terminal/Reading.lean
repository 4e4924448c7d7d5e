import AbnfPatterns.CommandLine.Terminal.Occurrences

/-!
# Reading a request

A request is drafted argument by argument; conflicts are looked for once all of them are known.
-/

namespace AbnfPatterns.CommandLine.Terminal

/-- A request, or a question about the program itself. -/
inductive Intent where
  | help
  | version
  | serve (request : Request)
  deriving DecidableEq, Repr

/-- A request with the parameters that made it, in order of first appearance. -/
structure Draft where
  request : Request := {}
  seen : List Parameter := []
  deriving DecidableEq, Repr

namespace Draft

def note (d : Draft) (p : Parameter) : Draft :=
  if p ∈ d.seen then d else { d with seen := d.seen ++ [p] }

def turnOn (d : Draft) (s : Switch) : Draft :=
  { d with
    request := match s with
      | .anchor => { d.request with anchor := true }
      | .keepWhitespace => { d.request with keepWhitespace := true }
      | .list => { d.request with list := true }
      | .verbose => { d.request with verbose := true }
      | _ => d.request }

def assign (d : Draft) (s : Setting) (value : String) : Except UsageError Draft :=
  match s with
  | .rule => .ok { d with request := { d.request with rules := d.request.rules ++ [value] } }
  | .comma =>
    .ok { d with request := { d.request with commaRules := d.request.commaRules ++ [value] } }
  | .grammar =>
    if .setting .grammar ∈ d.seen then .error (.repeated (.setting .grammar))
    else match Standard.ofText value with
      | .ok g => .ok { d with request := { d.request with grammar := g } }
      | .error e => .error (.invalidValue value .grammar e)

/-- The first parameter that excludes another one, with those it excludes.  All conflicts are with
the rule list. -/
def conflict? (d : Draft) : Option UsageError :=
  let others := d.seen.filter Parameter.conflictsWithList
  if .switch .list ∈ d.seen ∧ others ≠ [] then
    match d.seen.find? fun p => p.conflictsWithList || p == .switch .list with
    | some p =>
      if p = .switch .list then some (.conflict p others)
      else some (.conflict p [.switch .list])
    | none => none
  else none

end Draft

namespace Intent

/-- What a list of occurrences asks for, on top of what is known already. -/
def ofOccurrences (d : Draft) : List Occurrence → Except UsageError Intent
  | [] =>
    match d.conflict? with
    | some e => .error e
    | none => .ok (.serve d.request)
  | .fault e :: _ => .error e
  | .argument (.switch .help) :: _ => .ok .help
  | .argument (.switch .version) :: _ => .ok .version
  | .argument (.switch s) :: rest =>
    if .switch s ∈ d.seen then .error (.repeated (.switch s))
    else ofOccurrences ((d.turnOn s).note (.switch s)) rest
  | .argument (.setting s value) :: rest =>
    match d.assign s value with
    | .error e => .error e
    | .ok d => ofOccurrences (d.note (.setting s)) rest
  | .argument (.template text) :: rest =>
    ofOccurrences ({ d with request := { d.request with template := some text } }.note .template)
      rest

/-- **What the words of a command line ask for.** -/
def ofWords (words : List String) : Except UsageError Intent :=
  ofOccurrences {} (occurrences words)

end Intent

end AbnfPatterns.CommandLine.Terminal
