import AbnfPatterns.Proofs.Regex.Builders
import AbnfPatterns.Proofs.Standard.Fragments

/-!
# Marks

A mark in front of a part or behind it tells that the part is there.
-/

namespace AbnfPatterns

/-- **The texts of a rule**: what its fragment matches as a whole. -/
def Production.language (p : Production) : Language Char :=
  {w | FragmentMatches p.fragment w}

namespace Uri

open Pattern

variable {w : List Char}

theorem mem_language_iff {p : Production} (hp : p ∈ UriRules.productions) :
    w ∈ p.language ↔ w ∈ p.pattern.texts :=
  Standard.fragmentMatches_iff (s := .rfc3986) hp

/-- A character that is not one of a rule is in none of its texts. -/
theorem not_mem_of_mem_language {p : Production} {c : Char} (hp : p ∈ UriRules.productions)
    (hw : w ∈ p.language) (hc : c ∉ p.chars) : c ∉ w := by
  rw [Standard.chars_eq (s := .rfc3986) hp] at hc
  exact not_mem_of_texts ((mem_language_iff hp).1 hw) hc

/-- A part with a mark in front of it, if there is one. -/
def preceded (mark : String) : Option (List Char) → List Char
  | none => []
  | some part => mark.toList ++ part

/-- A part with a mark behind it, if there is one. -/
def followed (mark : String) : Option (List Char) → List Char
  | none => []
  | some part => part ++ mark.toList

section

variable {p : Production} {mark : String} {c d : Char} {delimiters u v r t : List Char}
  {o o' : Option (List Char)}

/-- What is written of an optional part: nothing, or the part in some way. -/
theorem exists_option_iff {L : Language Char} {written : Option (List Char) → List Char}
    (hnone : written none = []) :
    (∃ o, (∀ v ∈ o, v ∈ L) ∧ w = written o) ↔ w = [] ∨ ∃ v ∈ L, w = written (some v) := by
  constructor
  · rintro ⟨o, ho, rfl⟩
    cases o with
    | none => exact .inl hnone
    | some v => exact .inr ⟨v, ho v rfl, rfl⟩
  · rintro (rfl | ⟨v, hv, rfl⟩)
    · exact ⟨none, nofun, hnone.symm⟩
    · refine ⟨some v, ?_, rfl⟩
      rintro _ ⟨⟩
      exact hv

theorem mem_texts_preceded (hp : p ∈ UriRules.productions) :
    w ∈ (literal mark ++ p.pattern).optional.texts ↔
      ∃ o, (∀ v ∈ o, v ∈ p.language) ∧ w = preceded mark o := by
  rw [exists_option_iff rfl, mem_texts_optional, mem_texts_literal_append]
  simp only [mem_language_iff hp, preceded]

theorem mem_texts_followed (hp : p ∈ UriRules.productions) :
    w ∈ (p.pattern ++ literal mark).optional.texts ↔
      ∃ o, (∀ v ∈ o, v ∈ p.language) ∧ w = followed mark o := by
  rw [exists_option_iff rfl, mem_texts_optional, mem_texts_append]
  simp only [mem_texts_literal, exists_eq_left, mem_language_iff hp, followed, eq_comm (b := w)]

/-- A character that is neither in the mark nor one of the rule. -/
theorem not_mem_preceded (hp : p ∈ UriRules.productions) (ho : ∀ v ∈ o, v ∈ p.language)
    (hc : c ∉ mark.toList ∧ c ∉ p.chars) : c ∉ preceded mark o := by
  cases o with
  | none => exact List.not_mem_nil
  | some v => exact List.not_mem_append hc.1 (not_mem_of_mem_language hp (ho v rfl) hc.2)

theorem not_mem_followed (hp : p ∈ UriRules.productions) (ho : ∀ v ∈ o, v ∈ p.language)
    (hc : c ∉ p.chars ∧ c ∉ mark.toList) : c ∉ followed mark o := by
  cases o with
  | none => exact List.not_mem_nil
  | some v => exact List.not_mem_append (not_mem_of_mem_language hp (ho v rfl) hc.1) hc.2

theorem mem_head?_preceded (hmark : mark.toList = [d]) : ∀ c ∈ (preceded mark o).head?, c = d := by
  intro c hc
  cases o with
  | none => cases hc
  | some part =>
    rw [preceded, hmark] at hc
    cases hc
    rfl

theorem preceded_inj (hmark : mark.toList ≠ []) (h : preceded mark o = preceded mark o') :
    o = o' := by
  cases o with
  | none =>
    cases o' with
    | none => rfl
    | some part => exact absurd (List.append_eq_nil_iff.1 h.symm).1 hmark
  | some part =>
    cases o' with
    | none => exact absurd (List.append_eq_nil_iff.1 h).1 hmark
    | some part' => rw [List.append_cancel_left h]

/-- A text without the mark is cut off in front of a part that has the mark in front of it. -/
theorem append_preceded_inj (hmark : mark.toList = [d]) (hu : d ∉ u) (hv : d ∉ v)
    (h : u ++ preceded mark o = v ++ preceded mark o') : u = v ∧ o = o' := by
  obtain ⟨rfl, hpreceded⟩ := eq_of_append_eq_of_delimiter hu hv (mem_head?_preceded hmark)
    (mem_head?_preceded hmark) h
  exact ⟨rfl, preceded_inj (by simp [hmark]) hpreceded⟩

/-- Whether a character does not occur in a text in front of the first of some delimiters. -/
def Clear (d : Char) (delimiters s : List Char) : Prop :=
  ∃ u t, s = u ++ t ∧ (∀ e ∈ d :: delimiters, e ∉ u) ∧ ∀ c ∈ t.head?, c ∈ delimiters

theorem Clear.ne (hd : d ∉ delimiters) (hv : ∀ e ∈ d :: delimiters, e ∉ v)
    (h : Clear d delimiters t) : t ≠ v ++ d :: r := by
  obtain ⟨u, t, rfl, hu, ht⟩ := h
  intro heq
  obtain ⟨-, rfl⟩ := eq_of_append_eq_of_delimited hu hv
    (fun c hc => List.mem_cons_of_mem d (ht c hc)) (by simp) heq
  exact hd (ht d rfl)

/-- A part with a mark behind it is cut off from a text where the mark does not come first. -/
theorem followed_append_inj (hmark : mark.toList = [d]) (hd : d ∉ delimiters)
    (ho : ∀ u ∈ o, ∀ e ∈ d :: delimiters, e ∉ u) (ho' : ∀ u ∈ o', ∀ e ∈ d :: delimiters, e ∉ u)
    (hr : o = none → Clear d delimiters r) (ht : o' = none → Clear d delimiters t)
    (h : followed mark o ++ r = followed mark o' ++ t) : o = o' ∧ r = t := by
  cases o with
  | none =>
    cases o' with
    | none => exact ⟨rfl, h⟩
    | some v =>
      rw [followed, followed, hmark, List.append_assoc] at h
      exact absurd h ((hr rfl).ne hd (ho' v rfl))
  | some u =>
    cases o' with
    | none =>
      rw [followed, followed, hmark, List.append_assoc] at h
      exact absurd h.symm ((ht rfl).ne hd (ho u rfl))
    | some v =>
      rw [followed, followed, hmark, List.append_assoc, List.append_assoc] at h
      obtain ⟨rfl, htail⟩ := eq_of_append_eq_of_delimited (ho u rfl) (ho' v rfl)
        (by simp) (by simp) h
      exact ⟨rfl, List.append_cancel_left htail⟩

end

end Uri

end AbnfPatterns
