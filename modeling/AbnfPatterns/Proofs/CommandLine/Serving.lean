import AbnfPatterns.Proofs.CommandLine.Terminal.Reading
import AbnfPatterns.Proofs.Composer.Additions
import AbnfPatterns.Proofs.Registry.Layers
import AbnfPatterns.Proofs.Rule.Spelling

/-!
# Answers to a command line

What is printed for a request depends on the request alone.
-/

namespace AbnfPatterns

namespace Grammar

/-- The fragment of the rule that a name stands for. -/
def fragment (g : Grammar) (name : String) : String :=
  (g.rule? name).elim "" Rule.fragment

/-- The fragment with one comma-separated repeat. -/
def commaFragment (g : Grammar) (name : String) : String :=
  (g.rule? name).elim "" fun rule =>
    rule.fragment ++ PatternText.commaSuffix optionalWhitespace rule.fragment

theorem expansion_reference (g : Grammar) (name : String) :
    ((Registry.ofGrammar g).expansion (.reference name)).text = g.fragment name := by
  rw [Registry.expansion, fragment, ← get?_ofGrammar]
  cases h : (Registry.ofGrammar g).get? name with
  | none => rw [Registry.expand_reference_of_none h]; rfl
  | some rule => rw [Registry.expand_reference h]; rfl

theorem expansion_commaReference (g : Grammar) (name : String) :
    ((Registry.ofGrammar g).expansion (.commaReference name)).text = g.commaFragment name := by
  rw [Registry.expansion, commaFragment, ← get?_ofGrammar]
  cases h : (Registry.ofGrammar g).get? name with
  | none => rw [Registry.expand_commaReference_of_none h]; rfl
  | some rule => rw [Registry.expand_commaReference h]; rfl

end Grammar

namespace CommandLine

namespace Request

variable {r : Request}

/-- The rules of the grammar. -/
def registry (r : Request) : Registry :=
  Registry.ofGrammar r.grammar.grammar

/-- Whether a name leads to a rule of the grammar. -/
def Knows (r : Request) (name : String) : Prop :=
  (r.grammar.grammar.rule? name).isSome

instance (name : String) : Decidable (r.Knows name) :=
  inferInstanceAs (Decidable ((r.grammar.grammar.rule? name).isSome = true))

/-- The template with its references replaced. -/
def resolved (r : Request) (text : String) : String :=
  Template.resolve r.registry optionalWhitespace
    (if r.keepWhitespace then text else Template.withoutBlanks text)

/-- **The pattern that is asked for.** -/
def pattern (r : Request) : String :=
  (if r.anchor then "^" else "")
    ++ String.join (r.rules.map r.grammar.grammar.fragment)
    ++ String.join (r.commaRules.map r.grammar.grammar.commaFragment)
    ++ r.template.elim "" r.resolved
    ++ (if r.anchor then "$" else "")

/-- **A report of a name** that leads to no rule, under the option that it was given with.  Below
the name stands what was looked for, if that is a single line. -/
structure ReportsUnknown (r : Request) (option name stderr : String) : Prop where
  heading : ∃ rest, stderr = "Error: " ++ option ++ " " ++ name ++ "\n\nCaused by:\n" ++ rest
  cause : '\n' ∉ name.toList → ∃ rest, stderr = "Error: " ++ option ++ " " ++ name
    ++ "\n\nCaused by:\n    " ++ r.grammar.grammar.name ++ " does not define ABNF rule '"
    ++ RuleName.key name ++ "'" ++ rest

/-- **What is printed for a request** to compose a pattern. -/
structure AnsweredBy (r : Request) (o : Outcome) : Prop where
  nothing : r.template = none → r.rules = [] → r.commaRules = [] → o.exitCode = 1 ∧ o.stdout = ""
  composed : (r.template.isSome ∨ r.rules ≠ [] ∨ r.commaRules ≠ []) →
    (∀ name ∈ r.rules ++ r.commaRules, r.Knows name) →
    o.exitCode = 0 ∧ o.stdout = r.pattern ++ "\n"
  unknownRule : ∀ before name after, r.rules = before ++ name :: after →
    (∀ n ∈ before, r.Knows n) → ¬ r.Knows name →
    o.exitCode = 1 ∧ o.stdout = "" ∧ r.ReportsUnknown "--rule" name o.stderr
  /-- The comma-separated rules come after all others. -/
  unknownComma : ∀ before name after, r.commaRules = before ++ name :: after →
    (∀ n ∈ r.rules ++ before, r.Knows n) → ¬ r.Knows name →
    o.exitCode = 1 ∧ o.stdout = "" ∧ r.ReportsUnknown "--comma" name o.stderr

/-! ### The pieces of a pattern -/

theorem exists_rule {name : String} (h : r.Knows name) :
    ∃ rule, r.registry.get? name = some rule := by
  rw [registry, Grammar.get?_ofGrammar]
  exact Option.isSome_iff_exists.mp h

theorem get?_eq_none {name : String} (h : ¬ r.Knows name) : r.registry.get? name = none := by
  rw [registry, Grammar.get?_ofGrammar]
  simpa [Knows] using h

/-- The anchor at either end of the pattern. -/
def anchors (r : Request) (text : String) : List Addition :=
  if r.anchor then [.literal text] else []

theorem canAdd_anchors (text : String) :
    ∀ a ∈ r.anchors text, r.registry.CanAdd a := by
  intro a ha
  unfold anchors at ha
  split at ha
  · obtain rfl := List.mem_singleton.mp ha
    exact ⟨_, rfl⟩
  · cases ha

theorem canAdd_references {names : List String} (h : ∀ name ∈ names, r.Knows name) :
    ∀ a ∈ names.map Addition.reference, r.registry.CanAdd a := by
  rw [List.forall_mem_map]
  intro name hname
  obtain ⟨rule, hrule⟩ := exists_rule (h name hname)
  exact ⟨_, Registry.expand_reference hrule⟩

theorem canAdd_commaReferences {names : List String} (h : ∀ name ∈ names, r.Knows name) :
    ∀ a ∈ names.map Addition.commaReference, r.registry.CanAdd a := by
  rw [List.forall_mem_map]
  intro name hname
  obtain ⟨rule, hrule⟩ := exists_rule (h name hname)
  exact ⟨_, Registry.expand_commaReference hrule⟩

theorem canAdd_additions (h : ∀ name ∈ r.rules ++ r.commaRules, r.Knows name) :
    ∀ a ∈ r.additions, r.registry.CanAdd a := by
  obtain ⟨hrules, hcomma⟩ := List.forall_mem_append.mp h
  have htemplate : ∀ a ∈ r.template.toList.map fun text => .template text !r.keepWhitespace,
      r.registry.CanAdd a :=
    List.forall_mem_map.mpr fun text _ => ⟨_, rfl⟩
  unfold additions
  simp only [List.forall_mem_append]
  exact ⟨⟨⟨⟨canAdd_anchors _, canAdd_references hrules⟩, canAdd_commaReferences hcomma⟩, htemplate⟩,
    canAdd_anchors _⟩

/-- What a list of pieces stands for. -/
def textOf (r : Request) (additions : List Addition) : String :=
  String.join (additions.map fun a => (r.registry.expansion a).text)

theorem textOf_singleton (a : Addition) : r.textOf [a] = (r.registry.expansion a).text := by
  rw [textOf, List.map_singleton, String.join_cons, String.join_nil, String.append_empty]

theorem textOf_append (as bs : List Addition) :
    r.textOf (as ++ bs) = r.textOf as ++ r.textOf bs := by
  rw [textOf, List.map_append, String.join_append]
  rfl

theorem textOf_anchors (text : String) :
    r.textOf (r.anchors text) = if r.anchor then text else "" := by
  unfold anchors
  split
  · exact textOf_singleton _
  · rfl

theorem textOf_references (names : List String) :
    r.textOf (names.map .reference) = String.join (names.map r.grammar.grammar.fragment) := by
  rw [textOf, List.map_map]
  refine congrArg String.join (List.map_congr_left fun name _ => ?_)
  exact Grammar.expansion_reference _ name

theorem textOf_commaReferences (names : List String) :
    r.textOf (names.map .commaReference)
      = String.join (names.map r.grammar.grammar.commaFragment) := by
  rw [textOf, List.map_map]
  refine congrArg String.join (List.map_congr_left fun name _ => ?_)
  exact Grammar.expansion_commaReference _ name

theorem textOf_template :
    r.textOf (r.template.toList.map fun text => .template text !r.keepWhitespace)
      = r.template.elim "" r.resolved := by
  cases r.template with
  | none => rfl
  | some text =>
    rw [Option.toList_some, List.map_singleton, textOf_singleton, Option.elim_some, resolved,
      ← Template.collapseBlanks_eq]
    cases r.keepWhitespace <;> rfl

/-- The texts of all pieces make up the pattern. -/
theorem textOf_additions (r : Request) : r.textOf r.additions = r.pattern := by
  have hpieces : r.additions = r.anchors "^" ++ r.rules.map .reference
      ++ r.commaRules.map .commaReference
      ++ r.template.toList.map (fun text => .template text !r.keepWhitespace) ++ r.anchors "$" :=
    rfl
  rw [hpieces, textOf_append, textOf_append, textOf_append, textOf_append, textOf_anchors,
    textOf_anchors, textOf_references, textOf_commaReferences, textOf_template]
  rfl

/-! ### The answer -/

theorem isEmpty_eq_false (h : r.template.isSome ∨ r.rules ≠ [] ∨ r.commaRules ≠ []) :
    r.isEmpty = false := by
  rcases h with h | h | h
  · simp [isEmpty, Option.isNone_eq_false_iff.mpr h]
  · simp [isEmpty, h]
  · simp [isEmpty, h]

section

variable {f : Frontend}

theorem outcome_of_ok {c : Composer} {events : List Event} (hlist : r.list = false)
    (hempty : r.isEmpty = false)
    (h : (Composer.ofGrammar r.grammar.grammar).addAll r.additions = .ok (c, events)) :
    (r.outcome f.render).exitCode = 0 ∧ (r.outcome f.render).stdout = c.pattern ++ "\n" := by
  simp [outcome, hlist, hempty, h]

/-- What was looked for fits on a line if the name does. -/
theorem newline_not_mem_message {name : String} (h : '\n' ∉ name.toList) :
    '\n' ∉ (LookupError.ruleNotFound r.grammar.grammar.name
      (RuleName.key name)).message.toList := by
  have hgrammar : '\n' ∉ r.grammar.grammar.name.toList := by
    cases r.grammar <;> decide +kernel
  have hkey : '\n' ∉ (RuleName.key name).toList := by
    rw [RuleName.toList_key, List.mem_map]
    rintro ⟨c, hc, hnewline⟩
    obtain rfl := (RuleName.keyChar_eq_iff_of_not_nameChar (by decide)).mp hnewline
    exact h hc
  have htext : '\n' ∉ " does not define ABNF rule '".toList := by decide
  have hquote : '\n' ∉ "'".toList := by decide
  simp only [LookupError.message_ruleNotFound, String.toList_append, List.mem_append, not_or]
  exact ⟨⟨⟨hgrammar, htext⟩, hkey⟩, hquote⟩

/-- A lawful front end shows which name leads to no rule. -/
theorem reportsUnknown (hf : f.Lawful) (option name : String) :
    r.ReportsUnknown option name ("Error: " ++ f.render ⟨option ++ " " ++ name,
      (LookupError.ruleNotFound r.grammar.grammar.name (RuleName.key name)).message⟩
      ++ "\n") where
  heading := by
    obtain ⟨rest, hrest⟩ := hf.heading (option ++ " " ++ name)
      (LookupError.ruleNotFound r.grammar.grammar.name (RuleName.key name)).message
    refine ⟨rest ++ "\n", ?_⟩
    rw [hrest]
    simp only [String.append_assoc]
  cause hline := by
    obtain ⟨rest, hrest⟩ :=
      hf.cause (option ++ " " ++ name) _ (newline_not_mem_message (r := r) hline)
    refine ⟨rest ++ "\n", ?_⟩
    rw [hrest]
    simp only [LookupError.message_ruleNotFound, String.append_assoc]

theorem origin_reference (name : String) :
    origin (.reference name) = "--rule" ++ " " ++ name := by
  have hoption : "--rule" ++ " " = "--rule " := by decide
  rw [hoption, origin]

theorem origin_commaReference (name : String) :
    origin (.commaReference name) = "--comma" ++ " " ++ name := by
  have hoption : "--comma" ++ " " = "--comma " := by decide
  rw [hoption, origin]

/-- **The first piece that cannot be added** is all that is reported. -/
theorem outcome_of_unknown {before after : List Addition} {a : Addition} {option name : String}
    (hf : f.Lawful) (hlist : r.list = false) (hempty : r.isEmpty = false)
    (hpieces : r.additions = before ++ a :: after) (hbefore : ∀ b ∈ before, r.registry.CanAdd b)
    (horigin : origin a = option ++ " " ++ name)
    (ha : r.registry.expand a
      = .error (.ruleNotFound r.grammar.grammar.name (RuleName.key name))) :
    (r.outcome f.render).exitCode = 1 ∧ (r.outcome f.render).stdout = ""
      ∧ r.ReportsUnknown option name (r.outcome f.render).stderr := by
  have hadd := Composer.addAll_eq_error (c := .ofGrammar r.grammar.grammar) after hbefore ha
  rw [← hpieces] at hadd
  have hreport := reportsUnknown (r := r) hf option name
  rw [← horigin] at hreport
  simpa [outcome, hlist, hempty, hadd] using hreport

/-- **How a request is answered.** -/
theorem answeredBy_outcome (hf : f.Lawful) (hlist : r.list = false) :
    r.AnsweredBy (r.outcome f.render) where
  nothing htemplate hrules hcomma := by
    have hempty : r.isEmpty = true := by
      simp [isEmpty, htemplate, hrules, hcomma]
    simp [outcome, hlist, hempty]
  composed hsome hknown := by
    have hadd := Composer.addAll_eq_ok (c := .ofGrammar r.grammar.grammar) (canAdd_additions hknown)
    obtain ⟨hexit, hstdout⟩ := outcome_of_ok hlist (isEmpty_eq_false hsome) hadd
    refine ⟨hexit, hstdout.trans ?_⟩
    rw [← textOf_additions]
    exact congrArg (· ++ "\n") String.empty_append
  unknownRule before name after hrules hknown hunknown := by
    have hempty : r.isEmpty = false := isEmpty_eq_false (.inr (.inl (by simp [hrules])))
    have hpieces : r.additions = (r.anchors "^" ++ before.map .reference)
        ++ .reference name :: (after.map .reference ++ r.commaRules.map .commaReference
          ++ r.template.toList.map (fun text => .template text !r.keepWhitespace)
          ++ r.anchors "$") := by
      simp [additions, anchors, hrules]
    have hbefore := List.forall_mem_append.mpr ⟨canAdd_anchors "^", canAdd_references hknown⟩
    exact outcome_of_unknown hf hlist hempty hpieces hbefore (origin_reference name)
      (Registry.expand_reference_of_none (get?_eq_none hunknown))
  unknownComma before name after hcomma hknown hunknown := by
    have hempty : r.isEmpty = false := isEmpty_eq_false (.inr (.inr (by simp [hcomma])))
    have hpieces : r.additions
        = (r.anchors "^" ++ r.rules.map .reference ++ before.map .commaReference)
          ++ .commaReference name :: (after.map .commaReference
            ++ r.template.toList.map (fun text => .template text !r.keepWhitespace)
            ++ r.anchors "$") := by
      simp [additions, anchors, hcomma]
    obtain ⟨hrules, hknown⟩ := List.forall_mem_append.mp hknown
    have hbefore := List.forall_mem_append.mpr
      ⟨List.forall_mem_append.mpr ⟨canAdd_anchors "^", canAdd_references hrules⟩,
        canAdd_commaReferences hknown⟩
    exact outcome_of_unknown hf hlist hempty hpieces hbefore (origin_commaReference name)
      (Registry.expand_commaReference_of_none (get?_eq_none hunknown))

theorem outcome_of_list (hlist : r.list) :
    (r.outcome f.render).exitCode = 0 ∧ (r.outcome f.render).stdout = r.listing := by
  simp [outcome, hlist]

end

end Request

/-! ### Command lines -/

namespace Frontend

variable {f : Frontend} {words : List String} {given : List Argument} {choice : Option String}
  {r : Request}

/-- **How a command line is answered** by any lawful front end, whatever the order of its arguments
and however they are spelled; and with the option for the list of rules at any place. -/
theorem outcome_of_arranged (hf : f.Lawful) (hwords : Spells words given)
    (hgiven : Arranges given choice r) (hlist : r.list = false) :
    (∀ e, chosen choice = .error e →
      (f.outcome words).exitCode = 2 ∧ (f.outcome words).stdout = "")
    ∧ (∀ g, chosen choice = .ok g → r.AnsweredBy (f.outcome words))
    ∧ ∀ before after listWords, given = before ++ after →
      Spells listWords (before ++ .switch .list :: after) →
      (r.Composes → (f.outcome listWords).exitCode = 2 ∧ (f.outcome listWords).stdout = ""
        ∧ ∀ g, chosen choice = .ok g →
          ∃ refusal, f.outcome listWords = f.halt refusal ∧ refusal.reason = .conflict)
      ∧ (¬ r.Composes → ∀ g, chosen choice = .ok g →
        (f.outcome listWords).exitCode = 0 ∧ (f.outcome listWords).stdout = r.listing) := by
  refine ⟨fun e he => hf.outcome_of_invalid hwords hgiven he, ?_, ?_⟩
  · intro g hg
    rw [outcome, hf.read_eq hwords hgiven hg (.inl hlist)]
    exact Request.answeredBy_outcome hf hlist
  · rintro before after listWords rfl hspells
    have hlisted := hgiven.insert_list hlist
    constructor
    · intro hcomposes
      cases hchosen : chosen choice with
      | error e =>
        obtain ⟨hexit, hstdout⟩ := hf.outcome_of_invalid hspells hlisted hchosen
        exact ⟨hexit, hstdout, fun g hg => by cases hg⟩
      | ok g =>
        obtain ⟨refusal, houtcome, hreason⟩ :=
          hf.outcome_of_conflict hspells hlisted hchosen rfl hcomposes
        obtain ⟨hexit, hstdout⟩ := hf.halt refusal (by simp [hreason]) (by simp [hreason])
        rw [houtcome]
        exact ⟨hexit, hstdout, fun _ _ => ⟨refusal, rfl, hreason⟩⟩
    · intro hcomposes g hg
      rw [outcome, hf.read_eq hspells hlisted hg (.inr hcomposes)]
      exact Request.outcome_of_list rfl

/-- At a terminal: `-ar digit --comma=SP -gCore ":bit x"` is a cluster, a value in the next word,
one behind an equals sign, one right behind its letter, and a template.  With the option for the
list of rules slipped into the last cluster, nothing is composed.  Of two unknown names the one of
`--rule` is reported, also where the other stands in front of it. -/
theorem digitThenSpace_outcome :
    ((CommandLine.outcome ["-ar", "digit", "--comma=SP", "-gCore", ":bit x"]).exitCode = 0
      ∧ (CommandLine.outcome ["-ar", "digit", "--comma=SP", "-gCore", ":bit x"]).stdout
        = "^[\\x30-\\x39]\\x20(?:[\\x20\\x09]*,[\\x20\\x09]*\\x20)[01]x$\n")
    ∧ ((CommandLine.outcome ["-ar", "digit", "--comma=SP", "-lgCore", ":bit x"]).exitCode = 2
      ∧ (CommandLine.outcome ["-ar", "digit", "--comma=SP", "-lgCore", ":bit x"]).stdout = "")
    ∧ (CommandLine.outcome ["-c", "no-such", "-ar", "digit", "--rule=nope", "-gCore"]).exitCode = 1
    ∧ (CommandLine.outcome ["-c", "no-such", "-ar", "digit", "--rule=nope", "-gCore"]).stdout = ""
    ∧ ∃ rest,
      (CommandLine.outcome ["-c", "no-such", "-ar", "digit", "--rule=nope", "-gCore"]).stderr
        = "Error: --rule nope\n\nCaused by:\n"
          ++ "    CORE does not define ABNF rule 'NOPE'" ++ rest := by
  let r : Request :=
    { grammar := .core, rules := ["digit"], commaRules := ["SP"], template := some ":bit x"
      anchor := true }
  let before : List Argument := [.switch .anchor, .setting .rule "digit", .setting .comma "SP"]
  let after : List Argument := [.setting .grammar "Core", .template ":bit x"]
  let unknown : Request :=
    { grammar := .core, rules := ["digit", "nope"], commaRules := ["no-such"], anchor := true }
  let unknownGiven : List Argument :=
    [.setting .comma "no-such", .switch .anchor, .setting .rule "digit", .setting .rule "nope",
      .setting .grammar "Core"]
  have hwords : Spells ["-ar", "digit", "--comma=SP", "-gCore", ":bit x"] (before ++ after) :=
    .detached (.clusterSetting [.anchor] .rule) (by decide)
      (.options (.longValue .comma "SP" (by decide))
        (.options (.clusterValue [] .grammar "Core" (by decide) (by decide))
          (.template (by decide) .nil)))
  have hlistWords : Spells ["-ar", "digit", "--comma=SP", "-lgCore", ":bit x"]
      (before ++ .switch .list :: after) :=
    .detached (.clusterSetting [.anchor] .rule) (by decide)
      (.options (.longValue .comma "SP" (by decide))
        (.options (.clusterValue [.list] .grammar "Core" (by decide) (by decide))
          (.template (by decide) .nil)))
  have hunknownWords : Spells ["-c", "no-such", "-ar", "digit", "--rule=nope", "-gCore"]
      unknownGiven :=
    .detached (.clusterSetting [] .comma) (by decide)
      (.detached (.clusterSetting [.anchor] .rule) (by decide)
        (.options (.longValue .rule "nope" (by decide))
          (.options (.clusterValue [] .grammar "Core" (by decide) (by decide)) .nil)))
  have hchosen : ∀ g, chosen (some "Core") = .ok g → g = .core := fun g hg => by
    cases hg
    decide +kernel
  have hgiven : Arranges (before ++ after) (some "Core") r :=
    { grammar := by decide
      standard := hchosen
      rules := by decide
      commaRules := by decide
      template := by decide
      switches := fun s => by cases s <;> decide }
  have hunknownGiven : Arranges unknownGiven (some "Core") unknown :=
    { grammar := by decide
      standard := hchosen
      rules := by decide
      commaRules := by decide
      template := by decide
      switches := fun s => by cases s <;> decide }
  have hcore : chosen (some "Core") = .ok .core := by decide +kernel
  have hknown : ∀ name ∈ r.rules ++ r.commaRules, r.Knows name := by decide +kernel
  have hpattern : r.pattern = "^[\\x30-\\x39]\\x20(?:[\\x20\\x09]*,[\\x20\\x09]*\\x20)[01]x$" := by
    decide +kernel
  obtain ⟨-, hserved, hlisted⟩ := outcome_of_arranged terminal_lawful hwords hgiven rfl
  obtain ⟨hexit, hstdout⟩ := (hserved .core hcore).composed (.inl rfl) hknown
  obtain ⟨hlistExit, hlistStdout, -⟩ := (hlisted before after _ rfl hlistWords).1 (.inl rfl)
  obtain ⟨-, hrefused, -⟩ := outcome_of_arranged terminal_lawful hunknownWords hunknownGiven rfl
  obtain ⟨hunknownExit, hunknownStdout, hreport⟩ :=
    (hrefused .core hcore).unknownRule ["digit"] "nope" [] rfl (by decide +kernel)
      (by decide +kernel)
  obtain ⟨rest, hrest⟩ := hreport.cause (by decide)
  refine ⟨⟨hexit, hstdout.trans ?_⟩, ⟨hlistExit, hlistStdout⟩, hunknownExit, hunknownStdout, rest,
    hrest.trans ?_⟩
  · rw [hpattern]
    decide
  · refine congrArg (· ++ rest) ?_
    decide +kernel

end Frontend

end CommandLine

end AbnfPatterns
