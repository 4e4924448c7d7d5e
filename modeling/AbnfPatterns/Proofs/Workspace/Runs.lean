import AbnfPatterns.Proofs.Composer.Additions
import AbnfPatterns.Workspace
import Mathlib.Data.List.Induction
import Std.Data.TreeMap.Lemmas

/-!
# Runs in a workspace

Composers only grow, each on its own; a step that fails leaves no trace.
-/

namespace AbnfPatterns

namespace Workspace

namespace Step

/-- The name of the composer that a step works on. -/
def on : Step → String
  | create on _ => on
  | createStandard on _ => on
  | copy on _ => on
  | add on _ => on
  | groupOf on _ => on
  | captureOf on _ _ => on

/-- The name of the composer that a step reads, if it reads one. -/
def source? : Step → Option String
  | copy _ source => some source
  | groupOf _ source => some source
  | captureOf _ source _ => some source
  | _ => none

/-- **The composer that a step puts under its name**, if it is not one that adds to the composer
there. -/
def fresh? (w : Workspace) : Step → Option Composer
  | create _ grammar => some (Composer.ofGrammar grammar)
  | createStandard _ text => (Standard.ofText? text).map fun s => Composer.ofGrammar s.grammar
  | copy _ source => w[source]?
  | _ => none

/-- The piece that a step adds, if it is one that adds. -/
def addition? (w : Workspace) : Step → Option Addition
  | add _ addition => some addition
  | groupOf _ source => w[source]?.map fun c => .group c.pattern
  | captureOf _ source name => w[source]?.map fun c => .capture name c.pattern
  | _ => none

/-- The reports on a composer that a step puts under its name: a copy is made without a word. -/
def announcement (c : Composer) : Step → List Event
  | copy _ _ => []
  | _ => [c.registry.discovery]

end Step

variable {w w' : Workspace} {s : Step} {effect : Effect} {name : String}

/-! ### One step -/

theorem composer_eq_ok_iff {c : Composer} : w.composer name = .ok c ↔ w[name]? = some c := by
  unfold composer
  split <;> simp_all

theorem addTo_eq_ok {on : String} {a : Addition} (h : w.addTo on a = .ok effect) :
    ∃ c expansion, w[on]? = some c ∧ c.registry.expand a = .ok expansion ∧
      effect =
        { workspace := w.insert on (c.append expansion.text)
          added := expansion.text
          events := expansion.events } := by
  unfold addTo at h
  split at h
  · cases h
  · rename_i c hc
    rw [composer_eq_ok_iff] at hc
    cases hexpand : c.registry.expand a with
    | error e =>
      simp only [Composer.add_of_expand_error hexpand] at h
      cases h
    | ok expansion =>
      simp only [Composer.add_of_expand hexpand] at h
      cases h
      exact ⟨c, expansion, hc, hexpand, rfl⟩

/-- **All that a step can do**: put a composer under its name, or add a text to the one there. -/
theorem step_cases (h : w.step s = .ok effect) :
    (∃ c, s.fresh? w = some c ∧
      effect = { workspace := w.insert s.on c, events := s.announcement c }) ∨
      ∃ c a expansion, s.fresh? w = none ∧ w[s.on]? = some c ∧ s.addition? w = some a ∧
        c.registry.expand a = .ok expansion ∧
        effect =
          { workspace := w.insert s.on (c.append expansion.text)
            added := expansion.text
            events := expansion.events } := by
  cases s with
  | create on grammar =>
    cases h
    exact .inl ⟨_, rfl, rfl⟩
  | createStandard on text =>
    simp only [step, Composer.ofStandardText, Standard.ofText] at h
    cases hstandard : Standard.ofText? text with
    | none =>
      simp only [hstandard] at h
      cases h
    | some standard =>
      simp only [hstandard] at h
      cases h
      exact .inl ⟨Composer.ofGrammar standard.grammar, by rw [Step.fresh?, hstandard]; rfl, rfl⟩
  | copy on source =>
    simp only [step] at h
    split at h
    · cases h
    · rename_i c hc
      cases h
      exact .inl ⟨c, composer_eq_ok_iff.1 hc, rfl⟩
  | add on a =>
    obtain ⟨c, expansion, hc, hexpand, heffect⟩ := addTo_eq_ok h
    exact .inr ⟨c, a, expansion, rfl, hc, rfl, hexpand, heffect⟩
  | groupOf on source =>
    simp only [step] at h
    split at h
    · cases h
    · rename_i inner hinner
      rw [composer_eq_ok_iff] at hinner
      obtain ⟨c, expansion, hc, hexpand, heffect⟩ := addTo_eq_ok h
      exact .inr ⟨c, _, expansion, rfl, hc, by rw [Step.addition?, hinner]; rfl, hexpand, heffect⟩
  | captureOf on source name =>
    simp only [step] at h
    split at h
    · cases h
    · rename_i inner hinner
      rw [composer_eq_ok_iff] at hinner
      obtain ⟨c, expansion, hc, hexpand, heffect⟩ := addTo_eq_ok h
      exact .inr ⟨c, _, expansion, rfl, hc, by rw [Step.addition?, hinner]; rfl, hexpand, heffect⟩

theorem getElem?_insert_of_ne {c : Composer} {on : String} (h : name ≠ on) :
    (w.insert on c)[name]? = w[name]? := by
  have hcompare : compare on name ≠ .eq := fun heq => h (Std.LawfulEqCmp.eq_of_compare heq).symm
  rw [Std.TreeMap.getElem?_insert, if_neg hcompare]

/-- A step changes the composer that it works on and no other. -/
theorem getElem?_step_of_ne (h : w.step s = .ok effect) (hne : name ≠ s.on) :
    effect.workspace[name]? = w[name]? := by
  obtain ⟨c, -, rfl⟩ | ⟨c, a, expansion, -, -, -, -, rfl⟩ := step_cases h
  · exact getElem?_insert_of_ne hne
  · exact getElem?_insert_of_ne hne

theorem getElem?_step_of_fresh {c : Composer} (h : w.step s = .ok effect)
    (hfresh : s.fresh? w = some c) : effect.workspace[s.on]? = some c := by
  obtain ⟨c', hc', rfl⟩ | ⟨c', a, expansion, hnone, -⟩ := step_cases h
  · rw [hfresh] at hc'
    cases hc'
    exact Std.TreeMap.getElem?_insert_self
  · rw [hfresh] at hnone
    cases hnone

/-- A step that puts no new composer under its name adds its text to the one there, which keeps its
registry. -/
theorem getElem?_step_of_not_fresh (h : w.step s = .ok effect) (hfresh : s.fresh? w = none) :
    ∃ c, w[s.on]? = some c ∧ effect.workspace[s.on]? = some (c.append effect.added) := by
  obtain ⟨c, hc, rfl⟩ | ⟨c, a, expansion, -, hc, -, -, rfl⟩ := step_cases h
  · rw [hfresh] at hc
    cases hc
  · exact ⟨c, hc, Std.TreeMap.getElem?_insert_self⟩

theorem composer_of_eq_some {c : Composer} (h : w[name]? = some c) : w.composer name = .ok c :=
  composer_eq_ok_iff.2 h

theorem composer_of_eq_none (h : w[name]? = none) : w.composer name = .error (.noComposer name) := by
  rw [composer, h]

/-- The text of a piece depends on the grammar of the composer that it is added to. -/
theorem added_addTo_eq {on : String} (a : Addition)
    (h : (w[on]?).map Composer.grammar = (w'[on]?).map Composer.grammar) :
    (w.addTo on a).map Effect.added = (w'.addTo on a).map Effect.added := by
  cases hc : w[on]? with
  | none =>
    rw [hc, eq_comm, Option.map_none, Option.map_eq_none_iff] at h
    simp only [addTo, composer_of_eq_none hc, composer_of_eq_none h]
  | some c =>
    rw [hc, eq_comm, Option.map_some, Option.map_eq_some_iff] at h
    obtain ⟨c', hc', hgrammar⟩ := h
    have hregistry : c'.registry = c.registry := by
      rw [c.registry.eq_ofGrammar, c'.registry.eq_ofGrammar]
      exact congrArg Registry.ofGrammar hgrammar
    simp only [addTo, composer_of_eq_some hc, composer_of_eq_some hc', Composer.add, hregistry]
    cases c.registry.expand a with
    | error e => rfl
    | ok expansion => rfl

/-- **What the text that a step adds depends on**: the grammar of the composer that it works on, and
the pattern of the composer that it reads.  What the buffer holds already is not looked at. -/
theorem added_step_eq
    (hgrammar : (w[s.on]?).map Composer.grammar = (w'[s.on]?).map Composer.grammar)
    (hsource : ∀ source ∈ s.source?,
      (w[source]?).map Composer.pattern = (w'[source]?).map Composer.pattern) :
    (w.step s).map Effect.added = (w'.step s).map Effect.added := by
  -- a composer that is read is there in both workspaces, with one pattern, or in none of them
  have hread : ∀ source ∈ s.source?, (w[source]? = none ∧ w'[source]? = none) ∨
      ∃ c c', w[source]? = some c ∧ w'[source]? = some c' ∧ c.pattern = c'.pattern := by
    intro source hmem
    have hpattern := hsource source hmem
    cases hc : w[source]? with
    | none =>
      rw [hc, eq_comm, Option.map_none, Option.map_eq_none_iff] at hpattern
      exact .inl ⟨rfl, hpattern⟩
    | some c =>
      rw [hc, eq_comm, Option.map_some, Option.map_eq_some_iff] at hpattern
      obtain ⟨c', hc', heq⟩ := hpattern
      exact .inr ⟨c, c', rfl, hc', heq.symm⟩
  cases s with
  | create on grammar => rfl
  | createStandard on text =>
    simp only [step]
    cases Composer.ofStandardText text with
    | error e => rfl
    | ok c => rfl
  | copy on source =>
    obtain ⟨hnone, hnone'⟩ | ⟨c, c', hc, hc', -⟩ := hread source rfl
    · simp only [step, composer_of_eq_none hnone, composer_of_eq_none hnone']
    · simp only [step, composer_of_eq_some hc, composer_of_eq_some hc']
      rfl
  | add on a => exact added_addTo_eq a hgrammar
  | groupOf on source =>
    obtain ⟨hnone, hnone'⟩ | ⟨c, c', hc, hc', heq⟩ := hread source rfl
    · simp only [step, composer_of_eq_none hnone, composer_of_eq_none hnone']
    · simp only [step, composer_of_eq_some hc, composer_of_eq_some hc', heq]
      exact added_addTo_eq _ hgrammar
  | captureOf on source name =>
    obtain ⟨hnone, hnone'⟩ | ⟨c, c', hc, hc', heq⟩ := hread source rfl
    · simp only [step, composer_of_eq_none hnone, composer_of_eq_none hnone']
    · simp only [step, composer_of_eq_some hc, composer_of_eq_some hc', heq]
      exact added_addTo_eq _ hgrammar

/-! ### Runs -/

theorem run_cons_error {f : Failure} (h : w.step s = .error f) (steps : List Step) :
    w.run (s :: steps) = w.run steps := by
  simp only [run, h]

theorem run_cons_ok (h : w.step s = .ok effect) (steps : List Step) :
    w.run (s :: steps)
      = ((effect.workspace.run steps).1, effect.events ++ (effect.workspace.run steps).2) := by
  simp only [run, h]

theorem run_append (earlier later : List Step) :
    w.run (earlier ++ later)
      = (((w.run earlier).1.run later).1,
          (w.run earlier).2 ++ ((w.run earlier).1.run later).2) := by
  induction earlier generalizing w with
  | nil => rfl
  | cons s earlier ih =>
    rw [List.cons_append]
    cases hstep : w.step s with
    | error f => rw [run_cons_error hstep, run_cons_error hstep, ih]
    | ok effect => rw [run_cons_ok hstep, run_cons_ok hstep, ih, List.append_assoc]

theorem run_snoc_error {earlier : List Step} {f : Failure}
    (h : (w.run earlier).1.step s = .error f) : (w.run (earlier ++ [s])).1 = (w.run earlier).1 := by
  rw [run_append, run_cons_error h, run]

theorem run_snoc_ok {earlier : List Step} (h : (w.run earlier).1.step s = .ok effect) :
    (w.run (earlier ++ [s])).1 = effect.workspace := by
  rw [run_append, run_cons_ok h, run]

/-- **The texts that a run adds to the composer under a name**, in order. -/
def added (w : Workspace) (name : String) : List Step → List String
  | [] => []
  | s :: rest =>
    match w.step s with
    | .error _ => w.added name rest
    | .ok effect =>
      (if s.on = name then [effect.added] else []) ++ added effect.workspace name rest

theorem added_append (earlier later : List Step) :
    w.added name (earlier ++ later)
      = w.added name earlier ++ (w.run earlier).1.added name later := by
  induction earlier generalizing w with
  | nil => rfl
  | cons s earlier ih =>
    rw [List.cons_append]
    cases hstep : w.step s with
    | error f => simp only [added, hstep, run_cons_error hstep, ih]
    | ok effect => simp only [added, hstep, run_cons_ok hstep, ih, List.append_assoc]

theorem added_singleton_ok (h : w.step s = .ok effect) :
    w.added name [s] = if s.on = name then [effect.added] else [] := by
  simp only [added, h, List.append_nil]

theorem added_singleton_error {f : Failure} (h : w.step s = .error f) : w.added name [s] = [] := by
  simp only [added, h]

/-- **A run cut at the last creation of a composer.**  The step `s` puts the composer `start` under
the name, and no step after it puts another one there. -/
structure Since (steps : List Step) (name : String) (earlier : List Step) (s : Step)
    (later : List Step) (start : Composer) : Prop where
  split : steps = earlier ++ s :: later
  on_eq : s.on = name
  fresh : s.fresh? (run ∅ earlier).1 = some start
  last : ∀ between s' after, later = between ++ s' :: after → s'.on = name →
    s'.fresh? (run ∅ (earlier ++ s :: between)).1 = none

/-- A step that puts a composer under its name does not fail. -/
theorem fresh?_of_step_error {f : Failure} (h : w.step s = .error f) : s.fresh? w = none := by
  cases s with
  | create on grammar => cases h
  | createStandard on text =>
    simp only [step, Composer.ofStandardText, Standard.ofText] at h
    cases hstandard : Standard.ofText? text with
    | none => rw [Step.fresh?, hstandard, Option.map_none]
    | some standard =>
      simp only [hstandard] at h
      cases h
  | copy on source =>
    simp only [step, composer] at h
    cases hsource : w[source]? with
    | none => exact hsource
    | some c =>
      simp only [hsource] at h
      cases h
  | add on a => rfl
  | groupOf on source => rfl
  | captureOf on source name => rfl

section Since

variable {steps earlier later : List Step} {s' : Step} {start : Composer}

/-- Steps behind the creation that create nothing under the name belong to the same composer. -/
theorem Since.snoc (h : Since steps name earlier s later start)
    (hfresh : s'.on = name → s'.fresh? (run ∅ steps).1 = none) :
    Since (steps ++ [s']) name earlier s (later ++ [s']) start where
  split := by rw [h.split, List.append_assoc, List.cons_append]
  on_eq := h.on_eq
  fresh := h.fresh
  last between t after hsplit hon := by
    rcases List.eq_nil_or_concat after with rfl | ⟨after, final, rfl⟩
    · obtain ⟨rfl, hlast⟩ := List.append_inj' hsplit rfl
      cases hlast
      rw [← h.split]
      exact hfresh hon
    · have hinner : later ++ [s'] = (between ++ t :: after) ++ [final] := by
        rw [hsplit, List.concat_eq_append, List.append_assoc, List.cons_append]
      exact h.last between t after (List.append_inj' hinner rfl).1 hon

theorem Since.run_eq (h : Since steps name earlier s later start) :
    (run ∅ steps).1 = ((run ∅ (earlier ++ [s])).1.run later).1 := by
  rw [h.split, List.append_cons, run_append]

/-- **A composer is what it was created as, with the texts that were added since.**  The induction
takes the last step of the run away. -/
theorem exists_since {c : Composer} (h : (run ∅ steps).1[name]? = some c) :
    ∃ earlier s later start, Since steps name earlier s later start ∧
      c = start.append (String.join ((run ∅ (earlier ++ [s])).1.added name later)) := by
  induction steps using List.reverseRecOn generalizing c with
  | nil =>
    rw [run, Std.TreeMap.getElem?_emptyc] at h
    cases h
  | append_singleton steps s' ih =>
    -- a composer that is not put there by the last step was there before, with a shorter pattern
    have hkept : ∀ before, (run ∅ steps).1[name]? = some before →
        (s'.on = name → s'.fresh? (run ∅ steps).1 = none) →
        ∃ earlier s later start, Since (steps ++ [s']) name earlier s later start ∧
          before.append (String.join ((run ∅ steps).1.added name [s']))
            = start.append (String.join ((run ∅ (earlier ++ [s])).1.added name later)) := by
      intro before hbefore hfresh
      obtain ⟨earlier, s, later, start, hsince, rfl⟩ := ih hbefore
      refine ⟨earlier, s, later ++ [s'], start, hsince.snoc hfresh, ?_⟩
      rw [added_append, String.join_append, ← Composer.append_append, ← hsince.run_eq]
    cases hstep : (run ∅ steps).1.step s' with
    | error f =>
      rw [run_snoc_error hstep] at h
      have hsince := hkept c h fun _ => fresh?_of_step_error hstep
      rwa [added_singleton_error hstep, String.join_nil, Composer.append_empty] at hsince
    | ok effect =>
      rw [run_snoc_ok hstep] at h
      by_cases hon : s'.on = name
      · subst hon
        cases hfresh : s'.fresh? (run ∅ steps).1 with
        | some start =>
          rw [getElem?_step_of_fresh hstep hfresh] at h
          cases h
          refine ⟨steps, s', [], c, ⟨rfl, rfl, hfresh, by simp⟩, ?_⟩
          rw [added, String.join_nil, Composer.append_empty]
        | none =>
          obtain ⟨before, hbefore, hafter⟩ := getElem?_step_of_not_fresh hstep hfresh
          rw [hafter] at h
          cases h
          have hsince := hkept before hbefore fun _ => hfresh
          rwa [added_singleton_ok hstep, if_pos rfl, String.join_cons, String.join_nil,
            String.append_empty] at hsince
      · rw [getElem?_step_of_ne hstep (Ne.symm hon)] at h
        have hsince := hkept c h fun heq => absurd heq hon
        rwa [added_singleton_ok hstep, if_neg hon, String.join_nil, Composer.append_empty] at hsince

end Since

/-! ### Failing steps -/

/-- **The steps of a run that do not fail.** -/
def succeeding (w : Workspace) : List Step → List Step
  | [] => []
  | s :: rest =>
    match w.step s with
    | .error _ => w.succeeding rest
    | .ok effect => s :: succeeding effect.workspace rest

/-- A failing step may as well be left out of the run. -/
theorem run_append_cons_error {earlier : List Step} {f : Failure}
    (h : (w.run earlier).1.step s = .error f) (later : List Step) :
    w.run (earlier ++ s :: later) = w.run (earlier ++ later) := by
  rw [run_append, run_cons_error h, run_append]

theorem run_succeeding (steps : List Step) : w.run (w.succeeding steps) = w.run steps := by
  induction steps generalizing w with
  | nil => rfl
  | cons s rest ih =>
    cases hstep : w.step s with
    | error f => rw [run_cons_error hstep, succeeding, hstep, ih]
    | ok effect =>
      rw [run_cons_ok hstep, succeeding, hstep]
      simp only
      rw [run_cons_ok hstep, ih]

/-- Of the steps that are left, none fails. -/
theorem exists_step_of_succeeding {steps earlier later : List Step}
    (h : w.succeeding steps = earlier ++ s :: later) :
    ∃ effect, (w.run earlier).1.step s = .ok effect := by
  induction steps generalizing w earlier with
  | nil => simp [succeeding] at h
  | cons t rest ih =>
    cases hstep : w.step t with
    | error f =>
      rw [succeeding, hstep] at h
      exact ih h
    | ok effect =>
      rw [succeeding, hstep] at h
      cases earlier with
      | nil =>
        obtain ⟨rfl, -⟩ := List.cons.inj h
        exact ⟨effect, hstep⟩
      | cons t' earlier =>
        obtain ⟨rfl, hrest⟩ := List.cons.inj h
        rw [run_cons_ok hstep]
        exact ih hrest

/-- **Runs only append.**  Of a run that starts without any composer:

* each composer is what it was created as, with the texts that steps on it have added since;
* a step changes no composer but its own; a step that fails changes none and may as well be left out
  of the run; any other step that creates nothing adds its text to the composer and keeps the
  registry, and with it the grammar;
* two steps of one wording add the same text, or both fail, if the composers that they work on have
  one grammar and the composers that they read have one pattern, whatever else is there;
* without all its failing steps, the run comes to the same end. -/
theorem run_appends (steps : List Step) :
    (∀ name c, (run ∅ steps).1[name]? = some c →
      ∃ earlier s later start, Since steps name earlier s later start ∧
        c = start.append (String.join ((run ∅ (earlier ++ [s])).1.added name later))) ∧
    (∀ earlier s later, steps = earlier ++ s :: later →
      (∀ name, name ≠ s.on →
        (run ∅ (earlier ++ [s])).1[name]? = (run ∅ earlier).1[name]?) ∧
      (∀ f, (run ∅ earlier).1.step s = .error f →
        (run ∅ (earlier ++ [s])).1 = (run ∅ earlier).1 ∧
          run ∅ steps = run ∅ (earlier ++ later)) ∧
      (∀ effect, (run ∅ earlier).1.step s = .ok effect → s.fresh? (run ∅ earlier).1 = none →
        ∃ c, (run ∅ earlier).1[s.on]? = some c ∧
          (run ∅ (earlier ++ [s])).1[s.on]? = some (c.append effect.added))) ∧
    (∀ (w w' : Workspace) (s : Step),
      (w[s.on]?).map Composer.grammar = (w'[s.on]?).map Composer.grammar →
      (∀ source ∈ s.source?,
        (w[source]?).map Composer.pattern = (w'[source]?).map Composer.pattern) →
      (w.step s).map Effect.added = (w'.step s).map Effect.added) ∧
    run ∅ (succeeding ∅ steps) = run ∅ steps ∧
    ∀ earlier s later, succeeding ∅ steps = earlier ++ s :: later →
      ∃ effect, (run ∅ earlier).1.step s = .ok effect := by
  refine ⟨fun _ _ => exists_since, ?_, fun _ _ _ => added_step_eq, run_succeeding steps,
    fun _ _ _ => exists_step_of_succeeding⟩
  intro earlier s later hsplit
  refine ⟨fun name hne => ?_, fun f hstep => ?_, fun effect hstep hfresh => ?_⟩
  · cases hstep : (run ∅ earlier).1.step s with
    | error f => rw [run_snoc_error hstep]
    | ok effect => rw [run_snoc_ok hstep, getElem?_step_of_ne hstep hne]
  · rw [hsplit]
    exact ⟨run_snoc_error hstep, run_append_cons_error hstep later⟩
  · rw [run_snoc_ok hstep]
    exact getElem?_step_of_not_fresh hstep hfresh

/-- Two composers side by side: one is copied, grows by a group of itself, and is captured by the
copy; an unknown rule and an unknown grammar are asked for in between. -/
def sideBySide : List Step :=
  [.create "a" Standard.coreGrammar, .add "a" (.literal "x"), .copy "b" "a", .groupOf "a" "a",
    .add "b" (.reference "no-such-rule"), .createStandard "b" "no-such-grammar",
    .captureOf "b" "a" (some "n"), .add "b" (.commaReference "bit")]

/-- The copy starts from the pattern at that moment, and failing steps leave it as it is. -/
theorem sideBySide_run :
    ∃ c, (run ∅ sideBySide).1["b"]? = some c ∧
      c.pattern = "x(?<n>x(?:x))[01](?:[\\x20\\x09]*,[\\x20\\x09]*[01])" ∧
      (∃ earlier s later start, Since sideBySide "b" earlier s later start ∧
        c = start.append (String.join ((run ∅ (earlier ++ [s])).1.added "b" later))) ∧
      run ∅ (succeeding ∅ sideBySide) = run ∅ sideBySide ∧
      (succeeding ∅ sideBySide).length = 6 := by
  have hpattern : ((run ∅ sideBySide).1["b"]?).map Composer.pattern
      = some "x(?<n>x(?:x))[01](?:[\\x20\\x09]*,[\\x20\\x09]*[01])" := by
    decide +kernel
  obtain ⟨c, hc, hc'⟩ := Option.map_eq_some_iff.1 hpattern
  obtain ⟨hsince, -, -, hsucceeding, -⟩ := run_appends sideBySide
  exact ⟨c, hc, hc', hsince "b" c hc, hsucceeding, by decide +kernel⟩

end Workspace

end AbnfPatterns
