import AbnfPatterns.Proofs.Regex.Language
import AbnfPatterns.Proofs.Regex.ReadBack
import AbnfPatterns.Standard.Basic

/-!
# Fragments of the standards

What a fragment of the standards matches is the language of a shape.
-/

namespace AbnfPatterns.Standard

def productions : Standard → List Production
  | core => CoreRules.productions
  | rfc3986 => UriRules.productions
  | rfc9110 => HttpRules.productions

theorem entries_table (s : Standard) :
    s.grammar.table.entries = s.productions.map fun p => (p.key, p.rule) := by
  cases s <;> rfl

/-- Every entry of a standard is a production, of the standard itself or of its base. -/
theorem exists_production {s : Standard} {key : String} {rule : Rule}
    (h : (key, rule) ∈ s.grammar.entries) :
    ∃ home, ∃ p ∈ productions home, p.rule = rule := by
  have hentry : ∀ home : Standard, (key, rule) ∈ home.grammar.table.entries →
      ∃ home, ∃ p ∈ productions home, p.rule = rule := by
    intro home h
    rw [entries_table] at h
    obtain ⟨p, hp, heq⟩ := List.mem_map.1 h
    cases heq
    exact ⟨home, p, hp, rfl⟩
  cases s with
  | core => exact hentry core h
  -- the core rules are entries of the other grammars as well
  | rfc3986 => exact (List.mem_append.1 h).elim (hentry core) (hentry rfc3986)
  | rfc9110 => exact (List.mem_append.1 h).elim (hentry core) (hentry rfc9110)

variable {s : Standard} {p : Production}

theorem spellable_pattern (hp : p ∈ s.productions) : p.pattern.spellable = true := by
  revert p
  cases s <;> decide +kernel

/-- At the end of a text no look-ahead of a standard fails. -/
theorem settled_pattern (hp : p ∈ s.productions) : p.pattern.settled false ∅ = true := by
  revert p
  cases s <;> decide +kernel

/-- **A fragment denotes the pattern of its production.** -/
theorem read?_fragment (hp : p ∈ s.productions) :
    Pattern.read? p.fragment.toList = some [p.pattern] :=
  Pattern.read?_text (spellable_pattern hp)

/-- **A fragment matches the texts of the shape** of its pattern. -/
theorem fragmentMatches_iff (hp : p ∈ s.productions) {w : List Char} :
    FragmentMatches p.fragment w ↔ w ∈ (p.pattern.shape false).language := by
  have hend : StartsIn ∅ [] := by
    rintro c ⟨⟩
  rw [Production.fragment, Pattern.fragmentMatches_text (spellable_pattern hp),
    Pattern.accepts_iff_mem_language (settled_pattern hp) hend]

theorem chars_eq (hp : p ∈ s.productions) : p.chars = (p.pattern.shape false).chars := by
  revert p
  cases s <;> decide +kernel

/-- **The characters of a rule are exactly those of the texts that it matches**: the rule admits
every character of such a text, and every character of the rule occurs in one. -/
theorem admits_iff_occurs {key : String} {rule : Rule}
    (h : (key, rule) ∈ s.grammar.table.entries) :
    (∀ w, FragmentMatches rule.fragment w → ∀ c ∈ w, rule.admits c = true)
      ∧ ∀ c ∈ rule.chars, ∃ w, FragmentMatches rule.fragment w ∧ c ∈ w := by
  rw [entries_table] at h
  obtain ⟨p, hp, heq⟩ := List.mem_map.1 h
  cases heq
  -- both halves say what the characters of the shape are
  have hchars : ∀ c, c ∈ p.chars ↔ ∃ w, FragmentMatches p.fragment w ∧ c ∈ w := by
    intro c
    rw [chars_eq hp, Shape.mem_chars_iff]
    exact exists_congr fun w => and_congr_left fun _ => (fragmentMatches_iff hp).symm
  constructor
  · intro w hw c hc
    exact decide_eq_true ((hchars c).2 ⟨w, hw, hc⟩)
  · intro c hc
    exact (hchars c).1 hc

/-- A plus sign occurs in some scheme, and no scheme has an underscore in it. -/
theorem plus_occurs_in_scheme :
    (∃ w, FragmentMatches UriRules.scheme.fragment w ∧ '+' ∈ w)
      ∧ ∀ w, FragmentMatches UriRules.scheme.fragment w → '_' ∉ w := by
  have hentry : (UriRules.scheme.key, UriRules.scheme.rule) ∈ rfc3986.grammar.table.entries := by
    rw [entries_table]
    exact List.mem_map_of_mem (by simp [productions, UriRules.productions])
  obtain ⟨hsound, hexact⟩ := admits_iff_occurs hentry
  refine ⟨hexact '+' (by decide +kernel), fun w hw hc => ?_⟩
  exact absurd (hsound w hw '_' hc) (by decide +kernel)

end AbnfPatterns.Standard
