import AbnfPatterns.Rule.Name
import Mathlib.Data.List.Forall2

/-!
# Spellings of rule names

Names with one key are equally long and alike place by place.
-/

namespace AbnfPatterns.RuleName

/-- **Characters that differ in spelling only**: one character up to the case of ASCII letters, or
separators both. -/
def Alike (c d : Char) : Prop :=
  c.toUpper = d.toUpper ∨ (c = '-' ∨ c = '_') ∧ (d = '-' ∨ d = '_')

/-- **Names that differ in spelling only**: of one length, and alike place by place. -/
def Variants (name other : String) : Prop :=
  List.Forall₂ Alike name.toList other.toList

variable {c d : Char}

theorem keyChar_eq_keyChar_iff : keyChar c = keyChar d ↔ Alike c d := by
  have hdash : ∀ {c : Char}, c.toUpper = '-' ↔ c = '-' := toUpper_eq_iff_of_not_alpha (by decide)
  have hunder : ∀ {c : Char}, c.toUpper = '_' ↔ c = '_' := toUpper_eq_iff_of_not_alpha (by decide)
  unfold keyChar Alike
  by_cases hc : c = '-'
  · by_cases hd : d = '-'
    · simp [hc, hd]
    · have hup : ¬ '-' = d.toUpper := fun h => hd (hdash.1 h.symm)
      rw [if_pos hc, if_neg hd, eq_comm, hunder, hc]
      simp [hd, hup]
  · by_cases hd : d = '-'
    · have hup : ¬ c.toUpper = '-' := fun h => hc (hdash.1 h)
      rw [if_neg hc, if_pos hd, hunder, hd]
      simp [hc, hup]
    · rw [if_neg hc, if_neg hd]
      constructor
      · exact .inl
      · rintro (h | ⟨h | h, h' | h'⟩)
        · exact h
        · exact absurd h hc
        · exact absurd h hc
        · exact absurd h' hd
        · rw [h, h']

/-- **Names have one key if and only if they differ in spelling only.** -/
theorem key_eq_key_iff {name other : String} : key name = key other ↔ Variants name other := by
  rw [← String.toList_inj, toList_key, toList_key, ← List.forall₂_eq_eq_eq,
    List.forall₂_map_left_iff, List.forall₂_map_right_iff, Variants]
  simp only [keyChar_eq_keyChar_iff]

theorem key_ofList_map_keyChar (name : List Char) :
    key (String.ofList (name.map keyChar)) = key (String.ofList name) := by
  rw [← String.toList_inj, toList_key, toList_key, String.toList_ofList, String.toList_ofList,
    List.map_map]
  exact List.map_congr_left fun c _ => keyChar_keyChar c

/-- A character outside of names is its own key. -/
theorem keyChar_of_not_nameChar (h : isNameChar c = false) : keyChar c = c := by
  simp only [isNameChar, Char.isAlphanum, Bool.or_eq_false_iff, beq_eq_false_iff_ne] at h
  obtain ⟨⟨⟨halpha, -⟩, hdash⟩, -⟩ := h
  rw [keyChar, if_neg hdash, toUpper_of_not_lower]
  intro hlower
  rw [isAlpha_of_lower hlower] at halpha
  cases halpha

/-- Spelling does not change which characters belong to names. -/
theorem isNameChar_keyChar (c : Char) : isNameChar (keyChar c) = isNameChar c := by
  by_cases hdash : c = '-'
  · rw [hdash]
    rfl
  rw [keyChar, if_neg hdash]
  by_cases hlower : 'a'.val ≤ c.val ∧ c.val ≤ 'z'.val
  · -- a lower-case letter becomes an upper-case one
    simp [isNameChar, Char.isAlphanum, isAlpha_of_lower hlower, isAlpha_toUpper_of_lower hlower]
  · rw [toUpper_of_not_lower hlower]

theorem keyChar_eq_iff_of_not_nameChar (hd : isNameChar d = false) : keyChar c = d ↔ c = d := by
  constructor
  · rintro rfl
    rw [isNameChar_keyChar] at hd
    exact (keyChar_of_not_nameChar hd).symm
  · rintro rfl
    exact keyChar_of_not_nameChar hd

end AbnfPatterns.RuleName
