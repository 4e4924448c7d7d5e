import AbnfPatterns.Proofs.Regex.Embedding
import AbnfPatterns.Regex.Matching

/-!
# Reading back what was written

The text that a pattern is written as denotes that very pattern, unless no text denotes it at all.
-/

namespace AbnfPatterns

mutual

/-- Whether a piece is read back as it is written. -/
def Piece.spellable : Piece → Bool
  | .glyph _ => true
  | .charIn items => ClassItem.spellable items
  | .group kind alternatives =>
    kind.spellable && !alternatives.isEmpty && alternativesSpellable alternatives
  | .repeated piece q => piece.spellable && !piece.isRepeated && q.ordered

/-- **Whether a pattern is read back as it is written.** -/
def Pattern.spellable : Pattern → Bool
  | [] => true
  | piece :: rest => piece.spellable && Pattern.spellable rest

def alternativesSpellable : List Pattern → Bool
  | [] => true
  | first :: rest => Pattern.spellable first && alternativesSpellable rest

end

namespace Pattern

theorem spellable_iff {p : Pattern} : p.spellable = true ↔ ∀ piece ∈ p, piece.spellable = true := by
  induction p with
  | nil => simp [Pattern.spellable]
  | cons piece rest ih => simp [Pattern.spellable, ih]

theorem alternativesSpellable_iff {alternatives : List Pattern} :
    alternativesSpellable alternatives = true ↔ ∀ p ∈ alternatives, p.spellable = true := by
  induction alternatives with
  | nil => simp [alternativesSpellable]
  | cons first rest ih => simp [alternativesSpellable, ih]

/-- Pieces that are read back one by one are read back in a row. -/
theorem read?_text_of_pieces {p : Pattern}
    (h : ∀ piece ∈ p, read? piece.text.toList = some [[piece]]) :
    read? p.text.toList = some [p] := by
  induction p with
  | nil =>
    rw [text_nil]
    exact read?_nil
  | cons piece rest ih =>
    have hpiece := h piece List.mem_cons_self
    have hrest := ih fun other hother => h other (List.mem_cons_of_mem _ hother)
    rw [text_cons, String.toList_append]
    exact read?_join hpiece hrest

/-- Alternatives that are read back one by one are read back with bars between them. -/
theorem read?_text_of_alternatives {alternatives : List Pattern} (hne : alternatives ≠ [])
    (h : ∀ p ∈ alternatives, read? p.text.toList = some [p]) :
    read? (alternativesText alternatives).toList = some alternatives := by
  induction alternatives with
  | nil => exact absurd rfl hne
  | cons first rest ih =>
    have hfirst := h first List.mem_cons_self
    cases rest with
    | nil => simpa [alternativesText, barredText] using hfirst
    | cons second rest =>
      -- the bar behind the first alternative keeps it apart from the others
      have hrest := ih (List.cons_ne_nil _ _) fun p hp => h p (List.mem_cons_of_mem _ hp)
      have htext : (alternativesText (first :: second :: rest)).toList
          = first.text.toList ++ '|' :: (alternativesText (second :: rest)).toList := by
        simp [alternativesText, barredText]
      rw [htext]
      exact read?_bar hfirst hrest

end Pattern

theorem Piece.read?_text {piece : Piece} (h : piece.spellable = true) :
    Pattern.read? piece.text.toList = some [[piece]] := by
  induction piece using Piece.induction with
  | glyph g =>
    rw [Piece.text]
    exact Pattern.read?_piece (Pattern.Token.readAll_text_glyph g)
  | charIn items => exact Pattern.read?_piece (Pattern.Token.readAll_text_class h)
  | group kind alternatives ih =>
    simp only [Piece.spellable, Bool.and_eq_true, Bool.not_eq_true', List.isEmpty_eq_false_iff] at h
    obtain ⟨⟨hkind, hne⟩, halternatives⟩ := h
    rw [Pattern.alternativesSpellable_iff] at halternatives
    have hread := Pattern.read?_text_of_alternatives hne fun p hp =>
      Pattern.read?_text_of_pieces fun piece hpiece =>
        ih p hp piece hpiece (Pattern.spellable_iff.1 (halternatives p hp) piece hpiece)
    have htext : (Piece.text (.group kind alternatives)).toList
        = kind.opening.toList ++ ((alternativesText alternatives).toList ++ [')']) := by
      simp [Piece.text]
    rw [htext]
    exact Pattern.read?_group hkind hread
  | repeated piece q ih =>
    simp only [Piece.spellable, Bool.and_eq_true, Bool.not_eq_true'] at h
    obtain ⟨⟨hpiece, hrepeated⟩, hq⟩ := h
    rw [Piece.text, String.toList_append]
    exact Pattern.read?_quantifier (l := []) (p := []) (ih hpiece) hrepeated
      (Pattern.Token.readAll_text_quantifier hq)

/-- **The text of a pattern denotes that pattern.** -/
theorem Pattern.read?_text {p : Pattern} (h : p.spellable = true) :
    Pattern.read? p.text.toList = some [p] :=
  read?_text_of_pieces fun piece hpiece => Piece.read?_text (spellable_iff.1 h piece hpiece)

/-- What a pattern accepts is what its text, read as a pattern, matches as a whole. -/
theorem Pattern.fragmentMatches_text {p : Pattern} (h : p.spellable = true) {w : List Char} :
    FragmentMatches p.text w ↔ Pattern.Accepts false p w [] := by
  rw [FragmentMatches, Pattern.read?_text h]
  simp [alternativesAccept]

end AbnfPatterns
