import AbnfPatterns.Proofs.Regex.Builders
import AbnfPatterns.Standard.Http

/-!
# Characters of HTTP text

The single characters that quoted text, comments and field values are made of.
-/

namespace AbnfPatterns.Http

open CoreRules (htab sp vchar)
open HttpRules (obsText quotedPair ctext fieldVchar)
open Pattern

variable {w : List Char} {c : Char}

/-- Whether a character is **visible**: printable ASCII other than the space, or a byte above the
ASCII range. -/
def IsVisible (c : Char) : Prop :=
  (0x21 ≤ c.toNat ∧ c.toNat ≤ 0x7E) ∨ (0x80 ≤ c.toNat ∧ c.toNat ≤ 0xFF)

instance (c : Char) : Decidable (IsVisible c) :=
  inferInstanceAs (Decidable (_ ∨ _))

/-- Whether a character is a **text character**: a tab, a space, or a visible one. -/
def IsTextChar (c : Char) : Prop :=
  c = '\t' ∨ c = ' ' ∨ IsVisible c

instance (c : Char) : Decidable (IsTextChar c) :=
  inferInstanceAs (Decidable (_ ∨ _))

theorem IsVisible.ne_blank (h : IsVisible c) : c ≠ ' ' ∧ c ≠ '\t' := by
  constructor <;> rintro rfl <;> revert h <;> decide

theorem IsTextChar.isVisible (h : IsTextChar c) (hblank : c ≠ ' ' ∧ c ≠ '\t') : IsVisible c :=
  (h.resolve_left hblank.2).resolve_left hblank.1

/-- The text characters as a set. -/
def textChars : CharSet :=
  CharSet.unions [.ofText "\t ", .ofRange '!' '~', .ofRange '\u0080' '\u00FF']

theorem mem_textChars : c ∈ textChars ↔ IsTextChar c := by
  simp [textChars, IsTextChar, IsVisible, or_assoc]

/-- The texts of a pattern for the text characters. -/
theorem mem_texts_of_textChars {p : Pattern} (h : (p.shape false).single = true)
    (hs : (p.shape false).chars = textChars) : w ∈ p.texts ↔ ∃ c, IsTextChar c ∧ w = [c] := by
  rw [mem_texts_of_single h hs]
  exact exists_congr fun c => and_congr_left fun _ => mem_textChars

theorem mem_texts_fieldVchar : w ∈ fieldVchar.pattern.texts ↔ ∃ c, IsVisible c ∧ w = [c] := by
  rw [mem_texts_of_single (s := fieldVchar.chars) (by decide) (by decide)]
  refine exists_congr fun c => and_congr_left fun _ => ?_
  simp [fieldVchar, vchar, obsText, IsVisible]

theorem mem_texts_ctext :
    w ∈ ctext.pattern.texts ↔ ∃ c, ctext.rule.admits c = true ∧ w = [c] := by
  rw [mem_texts_of_single (s := ctext.chars) (by decide) (by decide)]
  exact exists_congr fun c => and_congr_left fun _ => decide_eq_true_iff.symm

theorem mem_texts_quotedPair :
    w ∈ quotedPair.pattern.texts ↔ ∃ c, IsTextChar c ∧ w = ['\\', c] := by
  rw [quotedPair, mem_texts_literal_append]
  constructor
  · rintro ⟨v, hv, rfl⟩
    obtain ⟨c, hc, rfl⟩ := (mem_texts_of_textChars (by decide) (by decide)).1 hv
    exact ⟨c, hc, rfl⟩
  · rintro ⟨c, hc, rfl⟩
    exact ⟨[c], (mem_texts_of_textChars (by decide) (by decide)).2 ⟨c, hc, rfl⟩, rfl⟩

/-- The parentheses and the backslash have a meaning of their own in a comment. -/
theorem ne_of_admits_ctext (h : ctext.rule.admits c = true) : c ≠ '\\' ∧ c ≠ '(' ∧ c ≠ ')' := by
  refine ⟨?_, ?_, ?_⟩ <;> rintro rfl <;> revert h <;> decide

end AbnfPatterns.Http
