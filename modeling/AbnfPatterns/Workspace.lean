import Std.Data.TreeMap.Basic
import AbnfPatterns.Composer

/-!
# Workspaces

Several composers, each under a name, built side by side.  A step that fails changes nothing.
-/

namespace AbnfPatterns

/-- A **workspace**: composers by name. -/
abbrev Workspace := Std.TreeMap String Composer

namespace Workspace

/-- A step on the composer under the name `on`. -/
inductive Step where
  /-- Put an empty composer for a grammar under the name. -/
  | create (on : String) (grammar : Grammar)
  /-- Put an empty composer for the standard that a text names under the name. -/
  | createStandard (on : String) (text : String)
  /-- Put a copy of another composer under the name. -/
  | copy (on source : String)
  | add (on : String) (addition : Addition)
  /-- Add the pattern of a composer as a group that captures nothing. -/
  | groupOf (on source : String)
  /-- Add the pattern of a composer as a group that captures what it matches. -/
  | captureOf (on source : String) (name : Option String)

inductive Failure where
  | noComposer (name : String)
  | lookup (error : LookupError)
  deriving DecidableEq, Repr

/-- What a successful step leaves behind: the workspace, the text added, and the reports. -/
structure Effect where
  workspace : Workspace
  added : String := ""
  events : List Event := []

def composer (w : Workspace) (name : String) : Except Failure Composer :=
  match w[name]? with
  | some c => .ok c
  | none => .error (.noComposer name)

def start (w : Workspace) (on : String) (c : Composer) : Effect where
  workspace := w.insert on c
  events := [c.registry.discovery]

def addTo (w : Workspace) (on : String) (a : Addition) : Except Failure Effect :=
  match w.composer on with
  | .error e => .error e
  | .ok c =>
    match c.add a with
    | .error e => .error (.lookup e)
    | .ok (c, expansion) =>
      .ok { workspace := w.insert on c, added := expansion.text, events := expansion.events }

/-- **The effect of one step.** -/
def step (w : Workspace) : Step → Except Failure Effect
  | .create on grammar => .ok (w.start on (Composer.ofGrammar grammar))
  | .createStandard on text =>
    match Composer.ofStandardText text with
    | .error e => .error (.lookup e)
    | .ok c => .ok (w.start on c)
  | .copy on source =>
    match w.composer source with
    | .error e => .error e
    | .ok c => .ok { workspace := w.insert on c }
  | .add on addition => w.addTo on addition
  | .groupOf on source =>
    match w.composer source with
    | .error e => .error e
    | .ok c => w.addTo on (.group c.pattern)
  | .captureOf on source name =>
    match w.composer source with
    | .error e => .error e
    | .ok c => w.addTo on (.capture name c.pattern)

/-- **The effect of a list of steps.**  A step that fails is left out. -/
def run (w : Workspace) : List Step → Workspace × List Event
  | [] => (w, [])
  | s :: rest =>
    match w.step s with
    | .error _ => w.run rest
    | .ok effect =>
      let (final, events) := run effect.workspace rest
      (final, effect.events ++ events)

end Workspace

end AbnfPatterns
