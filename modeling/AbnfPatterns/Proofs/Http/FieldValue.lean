import AbnfPatterns.Proofs.Http.Characters
import AbnfPatterns.Proofs.Standard.Fragments

/-!
# Field values

There are many ways to cut a field value into contents; the values themselves are the lines of text
characters that neither start nor end with a blank.
-/

namespace AbnfPatterns.Http

open HttpRules (fieldVchar fieldContent fieldValue)
open Pattern
open scoped Computability

variable {u v w : List Char} {c d : Char}

/-- Whether a text neither starts nor ends with a space or a tab. -/
def IsTrimmed (w : List Char) : Prop :=
  (∀ c ∈ w.head?, c ≠ ' ' ∧ c ≠ '\t') ∧ (∀ c ∈ w.getLast?, c ≠ ' ' ∧ c ≠ '\t')

instance (w : List Char) : Decidable (IsTrimmed w) :=
  -- the characters of the text are to be tried, not all that there are
  have (o : Option Char) : Decidable (∀ c ∈ o, c ≠ ' ' ∧ c ≠ '\t') := o.decidableForallMem
  inferInstanceAs (Decidable (_ ∧ _))

/-- **A trimmed line**: text characters only, and no blank at either end. -/
def IsFieldLine (w : List Char) : Prop :=
  (∀ c ∈ w, IsTextChar c) ∧ IsTrimmed w

instance (w : List Char) : Decidable (IsFieldLine w) :=
  have : Decidable (∀ c ∈ w, IsTextChar c) := List.decidableBAll _ w
  inferInstanceAs (Decidable (_ ∧ _))

namespace IsFieldLine

theorem nil : IsFieldLine [] := by
  decide

theorem append (hu : IsFieldLine u) (hv : IsFieldLine v) : IsFieldLine (u ++ v) := by
  obtain ⟨hchars, hhead, hlast⟩ := hu
  obtain ⟨hchars', hhead', hlast'⟩ := hv
  refine ⟨?_, ?_, ?_⟩
  · intro c hc
    exact (List.mem_append.1 hc).elim (hchars c) (hchars' c)
  · intro c hc
    rw [List.head?_append, Option.mem_def, Option.or_eq_some_iff] at hc
    exact hc.elim (hhead c) fun h => hhead' c h.2
  · intro c hc
    rw [List.getLast?_append, Option.mem_def, Option.or_eq_some_iff] at hc
    exact hc.elim (hlast' c) fun h => hlast c h.2

theorem isVisible_head (h : IsFieldLine (c :: w)) : IsVisible c :=
  (h.1 c List.mem_cons_self).isVisible (h.2.1 c rfl)

theorem isVisible_last (h : IsFieldLine (w ++ [c])) : IsVisible c :=
  (h.1 c List.mem_concat_self).isVisible (h.2.2 c List.getLast?_concat)

/-- A line with a visible character at either end. -/
theorem of_ends (hc : IsVisible c) (hd : IsVisible d) (hw : ∀ e ∈ w, IsTextChar e) :
    IsFieldLine (c :: (w ++ [d])) := by
  refine ⟨?_, ?_, ?_⟩
  · rw [List.forall_mem_cons, List.forall_mem_append, List.forall_mem_singleton]
    exact ⟨.inr (.inr hc), hw, .inr (.inr hd)⟩
  · rintro _ ⟨⟩
    exact hc.ne_blank
  · rw [← List.cons_append, List.getLast?_concat]
    rintro _ ⟨⟩
    exact hd.ne_blank

theorem singleton (hc : IsVisible c) : IsFieldLine [c] := by
  refine ⟨List.forall_mem_singleton.2 (.inr (.inr hc)), ?_, ?_⟩ <;>
  · rintro _ ⟨⟩
    exact hc.ne_blank

end IsFieldLine

/-- **A field content** is one visible character, or two of them with any text characters in
between, at least one. -/
theorem mem_texts_fieldContent :
    w ∈ fieldContent.pattern.texts ↔
      ∃ c, IsVisible c ∧ (w = [c] ∨ ∃ d, IsVisible d ∧ ∃ v ≠ [], (∀ e ∈ v, IsTextChar e) ∧
        w = c :: (v ++ [d])) := by
  have hinner : ∀ v, v ∈ (anyOf [CoreRules.sp.pattern, CoreRules.htab.pattern,
      fieldVchar.pattern]).atLeastOnce.texts ↔ v ≠ [] ∧ ∀ e ∈ v, IsTextChar e := fun v =>
    mem_texts_atLeastOnce fun _ => mem_texts_of_textChars (by decide) (by decide)
  rw [fieldContent]
  simp only [mem_texts_append, mem_texts_optional, mem_texts_fieldVchar, hinner]
  constructor
  · rintro ⟨_, ⟨c, hc, rfl⟩, _, rfl | ⟨v, ⟨hne, hv⟩, _, ⟨d, hd, rfl⟩, rfl⟩, rfl⟩
    · exact ⟨c, hc, .inl rfl⟩
    · exact ⟨c, hc, .inr ⟨d, hd, v, hne, hv, rfl⟩⟩
  · rintro ⟨c, hc, rfl | ⟨d, hd, v, hne, hv, rfl⟩⟩
    · exact ⟨[c], ⟨c, hc, rfl⟩, [], .inl rfl, rfl⟩
    · exact ⟨[c], ⟨c, hc, rfl⟩, _, .inr ⟨v, ⟨hne, hv⟩, [d], ⟨d, hd, rfl⟩, rfl⟩, rfl⟩

theorem IsFieldLine.of_fieldContent (hw : w ∈ fieldContent.pattern.texts) : IsFieldLine w := by
  obtain ⟨c, hc, rfl | ⟨d, hd, v, -, hv, rfl⟩⟩ := mem_texts_fieldContent.1 hw
  · exact .singleton hc
  · exact .of_ends hc hd hv

/-- A trimmed line can be cut into at most two contents.  Two are needed for two characters. -/
theorem IsFieldLine.mem_kstar (h : IsFieldLine w) : w ∈ fieldContent.pattern.texts∗ := by
  have hone : ∀ {c}, IsVisible c → [c] ∈ fieldContent.pattern.texts := fun hc =>
    mem_texts_fieldContent.2 ⟨_, hc, .inl rfl⟩
  have hrow : ∀ {u}, u ∈ fieldContent.pattern.texts → u ∈ fieldContent.pattern.texts∗ := by
    intro u hu
    rw [← List.append_nil u]
    exact append_mem_kstar hu (Language.nil_mem_kstar _)
  cases w with
  | nil => exact Language.nil_mem_kstar _
  | cons c w =>
    have hc := h.isVisible_head
    rcases List.eq_nil_or_concat w with rfl | ⟨v, d, rfl⟩
    · exact hrow (hone hc)
    · rw [List.concat_eq_append] at h ⊢
      have hd : IsVisible d := IsFieldLine.isVisible_last (w := c :: v) h
      by_cases hv : v = []
      · subst hv
        exact append_mem_kstar (hone hc) (hrow (hone hd))
      · have hchars : ∀ e ∈ v, IsTextChar e := fun e he =>
          h.1 e (List.mem_cons_of_mem c (List.mem_append_left _ he))
        exact hrow (mem_texts_fieldContent.2 ⟨c, hc, .inr ⟨d, hd, v, hv, hchars, rfl⟩⟩)

theorem mem_texts_fieldValue : w ∈ fieldValue.pattern.texts ↔ IsFieldLine w := by
  rw [fieldValue, texts_many]
  constructor
  · exact forall_mem_kstar .nil (fun u hu v hv => (IsFieldLine.of_fieldContent hu).append hv) w
  · exact IsFieldLine.mem_kstar

/-- **The fragment of the rule for field values matches exactly the trimmed lines**: the empty text,
and the texts of text characters that have a blank neither at the start nor at the end. -/
theorem fragmentMatches_fieldValue_iff :
    FragmentMatches fieldValue.fragment w ↔
      w = [] ∨ (∀ c ∈ w, IsTextChar c) ∧ IsTrimmed w := by
  refine (Standard.fragmentMatches_iff (s := .rfc9110)
    (by simp [Standard.productions, HttpRules.productions])).trans (mem_texts_fieldValue.trans ?_)
  constructor
  · exact .inr
  · rintro (rfl | h)
    · exact IsFieldLine.nil
    · exact h

/-- Any blanks may stand inside a value, but no line break. -/
example : IsFieldLine "no-cache, \t max-age=0".toList ∧ ¬ IsFieldLine "folded\r\n value".toList := by
  decide

end AbnfPatterns.Http
