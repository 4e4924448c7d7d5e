import AbnfPatterns.CommandLine.Frontend
import AbnfPatterns.Proofs.CommandLine.Arrangement
import AbnfPatterns.Proofs.CommandLine.Spelling

/-!
# Lawful front ends

A lawful front end reads the same request from all the command lines for it.
-/

namespace AbnfPatterns.CommandLine

namespace Frontend

/-- **What comes of reading arguments** that may be given together: a request that holds them as
they are given, or a refusal if the grammar does not exist or if two of them exclude each other. -/
structure Reads (result : Except Refusal Request) (given : List Argument)
    (choice : Option String) : Prop where
  accepts : ∀ g, chosen choice = .ok g → ¬ InConflict given → ∃ r, result = .ok r
  /-- The value for the grammar, or the one that stands in for it, is read as a standard. -/
  grammar : ∀ r, result = .ok r → chosen choice = .ok r.grammar
  /-- The values of an option are collected in the order in which they are given. -/
  values : ∀ r, result = .ok r → ∀ s ≠ .grammar, r.values s = given.filterMap (Argument.value? s)
  template : ∀ r, result = .ok r → r.template.toList = given.filterMap Argument.template?
  switches : ∀ r, result = .ok r → ∀ s, r.isSet s ↔ .switch s ∈ given
  /-- A value that no standard goes by is refused, whatever else is given. -/
  invalid : ∀ e, chosen choice = .error e →
    ∃ refusal, result = .error refusal ∧ refusal.reason = .invalidValue
  /-- Options that are declared to exclude each other are refused together. -/
  conflict : ∀ g, chosen choice = .ok g → InConflict given →
    ∃ refusal, result = .error refusal ∧ refusal.reason = .conflict

namespace Reads

variable {given : List Argument} {choice : Option String} {refusal : Refusal}

theorem of_refusal (hinvalid : ∀ e, chosen choice = .error e → refusal.reason = .invalidValue)
    (hconflict : ∀ g, chosen choice = .ok g → InConflict given ∧ refusal.reason = .conflict) :
    Reads (.error refusal) given choice where
  accepts g hg hfree := absurd (hconflict g hg).1 hfree
  grammar _ hr := nomatch hr
  values _ hr := nomatch hr
  template _ hr := nomatch hr
  switches _ hr := nomatch hr
  invalid e he := ⟨refusal, rfl, hinvalid e he⟩
  conflict g hg _ := ⟨refusal, rfl, (hconflict g hg).2⟩

theorem of_arranges {r : Request} (h : Arranges given choice r)
    (hg : chosen choice = .ok r.grammar) (hfree : ¬ InConflict given) :
    Reads (.ok r) given choice where
  accepts _ _ _ := ⟨r, rfl⟩
  grammar r' hr := by
    cases hr
    exact hg
  values r' hr s hs := by
    cases hr
    exact (h.values hs).symm
  template r' hr := by
    cases hr
    exact h.template.symm
  switches r' hr s := by
    cases hr
    exact h.mem_switch_iff.symm
  invalid e he := by
    rw [hg] at he
    cases he
  conflict _ _ hconflict := absurd hconflict hfree

end Reads

/-- **A lawful front end.** -/
structure Lawful (f : Frontend) : Prop where
  /-- However arguments are spelled, they are read as given. -/
  read : ∀ {words given choice}, Spells words given → Proper given choice →
    Reads (f.read words) given choice
  /-- Words that make no request end the run with exit code 2 and go to standard error, unless they
  ask about the program itself. -/
  halt : ∀ refusal : Refusal, refusal.reason ≠ .help → refusal.reason ≠ .version →
    (f.halt refusal).exitCode = 2 ∧ (f.halt refusal).stdout = ""
  /-- An error is shown with its message first, and under a heading what it was caused by. -/
  heading : ∀ message cause,
    ∃ rest, f.render ⟨message, some cause⟩ = message ++ "\n\nCaused by:\n" ++ rest
  /-- A cause of a single line is indented by four spaces. -/
  cause : ∀ message cause, '\n' ∉ cause.toList →
    ∃ rest, f.render ⟨message, some cause⟩ = message ++ "\n\nCaused by:\n    " ++ cause ++ rest

namespace Lawful

variable {f : Frontend} {words : List String} {given : List Argument} {choice : Option String}
  {r : Request}

/-- **All the command lines for a request are read as that request.** -/
theorem read_eq (hf : f.Lawful) (hwords : Spells words given) (hgiven : Arranges given choice r)
    {g : Standard} (hg : chosen choice = .ok g) (hr : r.list = false ∨ ¬ r.Composes) :
    f.read words = .ok r := by
  have hread := hf.read hwords hgiven.proper
  have hfree : ¬ InConflict given := by
    rw [hgiven.inConflict_iff]
    rintro ⟨hlist, hcomposes⟩
    rcases hr with h | h
    · exact Bool.eq_false_iff.mp h hlist
    · exact h hcomposes
  obtain ⟨r', hr'⟩ := hread.accepts g hg hfree
  have heq : r' = r := by
    refine Request.eq_of_values_eq ?_ ?_ ?_ ?_
    · exact hgiven.standard _ (hread.grammar r' hr')
    · intro s hs
      rw [hread.values r' hr' s hs, hgiven.values hs]
    · have htemplate := (hread.template r' hr').trans hgiven.template
      simpa using congrArg List.head? htemplate
    · intro s
      rw [Bool.eq_iff_iff, hread.switches r' hr' s, hgiven.mem_switch_iff]
  rw [hr', heq]

/-- A text that names no grammar ends the run. -/
theorem outcome_of_invalid (hf : f.Lawful) (hwords : Spells words given)
    (hgiven : Arranges given choice r) {e : LookupError} (he : chosen choice = .error e) :
    (f.outcome words).exitCode = 2 ∧ (f.outcome words).stdout = "" := by
  obtain ⟨refusal, hrefusal, hreason⟩ := (hf.read hwords hgiven.proper).invalid e he
  rw [outcome, hrefusal]
  exact hf.halt refusal (by simp [hreason]) (by simp [hreason])

/-- The list of rules, asked for together with anything that composes a pattern, ends the run. -/
theorem outcome_of_conflict (hf : f.Lawful) (hwords : Spells words given)
    (hgiven : Arranges given choice r) {g : Standard} (hg : chosen choice = .ok g)
    (hlist : r.list) (hr : r.Composes) :
    ∃ refusal, f.outcome words = f.halt refusal ∧ refusal.reason = .conflict := by
  obtain ⟨refusal, hrefusal, hreason⟩ :=
    (hf.read hwords hgiven.proper).conflict g hg (hgiven.inConflict_iff.mpr ⟨hlist, hr⟩)
  exact ⟨refusal, by rw [outcome, hrefusal], hreason⟩

end Lawful

end Frontend

end AbnfPatterns.CommandLine
