import AbnfPatterns.Proofs.Registry.Layers
import AbnfPatterns.Proofs.Template.Unresolved
import AbnfPatterns.Proofs.Workspace.Runs

/-!
# Events of a run

What is reported while composers are built, said by the steps alone.
-/

namespace AbnfPatterns

namespace Grammar

/-- The report on a new composer: the grammar's name, and how many keys it has. -/
def announcement (g : Grammar) : Event :=
  .discovered g.name g.distinctKeys.length

/-- Whether a text is a name of a rule. -/
def knows (g : Grammar) (name : List Char) : Bool :=
  (g.rule? (String.ofList name)).isSome

/-- **The reports on a piece**: a rule that is referred to is reported by its own name, and a
template by its unresolved tokens. -/
def reports (g : Grammar) : Addition → List Event
  | .reference name => ((g.rule? name).map fun rule => .referenced rule.name).toList
  | .commaReference name => ((g.rule? name).map fun rule => .referencedWithCommas rule.name).toList
  | .template text collapse =>
    let template := if collapse then Template.withoutBlanks text else text
    (Template.unresolvedTokens g.knows template.toList).map fun token =>
      .unresolved (String.ofList token) g.name
  | .literal _ => []
  | .group _ => []
  | .capture _ _ => []
  | .quantifier _ => []

end Grammar

namespace Registry

variable {reg : Registry} {a : Addition}

theorem discovery_ofGrammar (g : Grammar) : (ofGrammar g).discovery = g.announcement := by
  rw [discovery, Grammar.announcement, ← Grammar.size_index]
  rfl

theorem knows_eq (reg : Registry) : reg.knows = reg.grammar.knows := by
  funext name
  rw [← get?_isSome, Grammar.get?_eq_rule?, Grammar.knows]

/-- **What is reported on a piece**, nothing if it cannot be added. -/
theorem events_expansion (reg : Registry) (a : Addition) :
    (reg.expansion a).events = reg.grammar.reports a := by
  cases a with
  | reference name =>
    rw [Grammar.reports, ← Grammar.get?_eq_rule?]
    cases hget : reg.get? name with
    | none =>
      rw [expansion, expand_reference_of_none hget]
      rfl
    | some rule =>
      rw [expansion, expand_reference hget]
      rfl
  | commaReference name =>
    rw [Grammar.reports, ← Grammar.get?_eq_rule?]
    cases hget : reg.get? name with
    | none =>
      rw [expansion, expand_commaReference_of_none hget]
      rfl
    | some rule =>
      rw [expansion, expand_commaReference hget]
      rfl
  | template text collapse =>
    rw [Grammar.reports, ← knows_eq, ← Template.collapseBlanks_eq]
    exact Template.unresolved_eq reg _
  | literal text => rfl
  | group inner => rfl
  | capture name inner => rfl
  | quantifier q => rfl

theorem events_of_expand {expansion : Expansion} (h : reg.expand a = .ok expansion) :
    expansion.events = reg.grammar.reports a := by
  rw [← events_expansion, Registry.expansion, h]

theorem reports_of_expand_error {e : LookupError} (h : reg.expand a = .error e) :
    reg.grammar.reports a = [] := by
  rw [← events_expansion, expansion, h]

end Registry

namespace Workspace

/-- **The reports on a step** that is taken in a workspace. -/
def Step.reports (w : Workspace) : Step → List Event
  | create _ grammar => [grammar.announcement]
  | createStandard _ text =>
    ((Standard.ofText? text).map fun s => s.grammar.announcement).toList
  | copy _ _ => []
  | add on a => (w[on]?).toList.flatMap fun c => c.grammar.reports a
  | groupOf _ _ => []
  | captureOf _ _ _ => []

variable {w : Workspace} {s : Step} {c : Composer}

theorem reports_of_fresh (h : s.fresh? w = some c) : s.announcement c = s.reports w := by
  cases s with
  | create on grammar =>
    cases h
    exact congrArg (fun e => [e]) (Registry.discovery_ofGrammar grammar)
  | createStandard on text =>
    obtain ⟨standard, hstandard, rfl⟩ := Option.map_eq_some_iff.1 h
    rw [Step.reports, hstandard]
    exact congrArg (fun e => [e]) (Registry.discovery_ofGrammar standard.grammar)
  | copy on source => rfl
  | add on a => cases h
  | groupOf on source => cases h
  | captureOf on source name => cases h

/-- Groups that hold the pattern of a composer are added in silence. -/
theorem reports_of_addition {a : Addition} (hc : w[s.on]? = some c) (ha : s.addition? w = some a) :
    s.reports w = c.grammar.reports a := by
  cases s with
  | create on grammar => cases ha
  | createStandard on text => cases ha
  | copy on source => cases ha
  | add on a =>
    cases ha
    rw [Step.on] at hc
    rw [Step.reports, hc, Option.toList_some, List.flatMap_singleton]
  | groupOf on source =>
    obtain ⟨inner, -, rfl⟩ := Option.map_eq_some_iff.1 ha
    rfl
  | captureOf on source name =>
    obtain ⟨inner, -, rfl⟩ := Option.map_eq_some_iff.1 ha
    rfl

/-- What a step reports that does not fail. -/
theorem events_of_step {effect : Effect} (h : w.step s = .ok effect) :
    effect.events = s.reports w := by
  obtain ⟨c, hfresh, rfl⟩ | ⟨c, a, expansion, -, hc, ha, hexpand, rfl⟩ := step_cases h
  · exact reports_of_fresh hfresh
  · exact (Registry.events_of_expand hexpand).trans (reports_of_addition hc ha).symm

/-- Nothing is reported on a step that fails. -/
theorem reports_of_step_error {f : Failure} (h : w.step s = .error f) : s.reports w = [] := by
  cases s with
  | create on grammar => cases h
  | createStandard on text =>
    have hfresh := fresh?_of_step_error h
    rw [Step.fresh?, Option.map_eq_none_iff] at hfresh
    rw [Step.reports, hfresh]
    rfl
  | copy on source => rfl
  | add on a =>
    cases hc : w[on]? with
    | none =>
      rw [Step.reports, hc]
      rfl
    | some c =>
      cases hexpand : c.registry.expand a with
      | ok expansion =>
        simp only [step, addTo, composer_of_eq_some hc, Composer.add_of_expand hexpand] at h
        cases h
      | error e =>
        rw [Step.reports, hc, Option.toList_some, List.flatMap_singleton]
        exact Registry.reports_of_expand_error hexpand
  | groupOf on source => rfl
  | captureOf on source name => rfl

/-- What is reported on a step and on all after it: the steps before the later ones are those before
them in their own run, with the first step in front. -/
theorem reports_cons (w : Workspace) (s : Step) (rest : List Step) :
    ((s :: rest).inits.zip (s :: rest)).flatMap (fun (earlier, t) => t.reports (w.run earlier).1)
      = s.reports w ++ (rest.inits.zip rest).flatMap
          fun (earlier, t) => t.reports (w.run (s :: earlier)).1 := by
  rw [List.inits_cons, List.zip_cons_cons, List.flatMap_cons, List.zip_map_left, List.flatMap_map]
  rfl

/-- **A run reports what its steps report**, in order, each in the workspace that the steps before
it have left. -/
theorem run_events (w : Workspace) (steps : List Step) :
    (w.run steps).2
      = (steps.inits.zip steps).flatMap fun (earlier, s) => s.reports (w.run earlier).1 := by
  induction steps generalizing w with
  | nil => rfl
  | cons s rest ih =>
    rw [reports_cons]
    cases hstep : w.step s with
    | error f => simp only [run_cons_error hstep, reports_of_step_error hstep, List.nil_append, ih]
    | ok effect => simp only [run_cons_ok hstep, events_of_step hstep, ih]

/-- A copy, an unknown grammar, an unknown rule, a lone colon and a token with the name `digit` in
it pass in silence; the rule goes by its own name, and the token is quoted with its mark. -/
example :
    (run ∅ [.createStandard "a" " Core", .copy "b" "a", .createStandard "b" "rfc1",
      .add "b" (.reference "bit"), .add "b" (.reference "no-such-rule"),
      .add "a" (.template ": :#x- y :digits" false)]).2
      = [.discovered "CORE" 19, .referenced "BIT", .unresolved ":#x-" "CORE"] := by
  decide +kernel

/-- Without its blanks, a template can hold longer tokens, and other ones. -/
example :
    (run ∅ [.createStandard "a" "core", .add "a" (.template ": no :#x\r\n-1 \x0b" true)]).2
      = [.discovered "CORE" 19, .unresolved ":no" "CORE", .unresolved ":#x-1" "CORE"]
    ∧ (run ∅ [.createStandard "a" "core", .add "a" (.template ": no :#x\r\n-1 \x0b" false)]).2
      = [.discovered "CORE" 19, .unresolved ":#x" "CORE"] := by
  decide +kernel

end Workspace

end AbnfPatterns
