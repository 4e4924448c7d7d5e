import AbnfPatterns.Regex.Pattern
import AbnfPatterns.Text.Blank
import Mathlib.Data.String.Basic

/-!
# Patterns without blanks in their texts

The blanks in the text of a pattern are those that the pattern spells as themselves.
-/

namespace AbnfPatterns

/-- Whether a text has **no ASCII blank** in it. -/
def BlankFree (text : String) : Prop :=
  ∀ c ∈ text.toList, isAsciiBlank c = false

instance (text : String) : Decidable (BlankFree text) :=
  List.decidableBAll _ text.toList

namespace BlankFree

variable {a b : String}

theorem append (ha : BlankFree a) (hb : BlankFree b) : BlankFree (a ++ b) := by
  intro c hc
  rw [String.toList_append, List.mem_append] at hc
  exact hc.elim (ha c) (hb c)

theorem join {texts : List String} (h : ∀ text ∈ texts, BlankFree text) :
    BlankFree (String.join texts) := by
  intro c hc
  rw [String.toList_join] at hc
  obtain ⟨chars, hchars, hc⟩ := List.mem_flatten.1 hc
  obtain ⟨text, htext, rfl⟩ := List.mem_map.1 hchars
  exact h text htext c hc

end BlankFree

theorem blankFree_quantifier (q : Quantifier) : BlankFree q.text := by
  have hdecimal : ∀ n, BlankFree (Quantifier.decimal n) := by
    intro n c hc
    rw [Quantifier.decimal, Nat.toList_repr] at hc
    have hdigit := Nat.isDigit_of_mem_toDigits (by decide) (by decide) hc
    exact isAsciiBlank_of_isNameChar (by simp [RuleName.isNameChar, Char.isAlphanum, hdigit])
  have hcomma : BlankFree "," := by decide
  have hbraced : ∀ {bounds}, BlankFree bounds → BlankFree (Quantifier.braced bounds) :=
    fun h => .append (.append (by decide) h) (by decide)
  cases q with
  | zeroOrOne => decide
  | zeroOrMore => decide
  | oneOrMore => decide
  | exactly count => exact hbraced (hdecimal count)
  | atLeast least => exact hbraced (.append (hdecimal least) hcomma)
  | between least most =>
    exact hbraced (.append (.append (hdecimal least) hcomma) (hdecimal most))

def Glyph.blankFree : Glyph → Bool
  | symbol c => !isAsciiBlank c
  | code _ => true

def ClassItem.blankFree : ClassItem → Bool
  | one g => g.blankFree
  | range lo hi => lo.blankFree && hi.blankFree

def GroupKind.blankFree : GroupKind → Bool
  | capture (some name) => name.toList.all fun c => !isAsciiBlank c
  | _ => true

mutual

/-- Whether a piece spells no ASCII blank as itself. -/
def Piece.blankFree : Piece → Bool
  | .glyph g => g.blankFree
  | .charIn items => items.all ClassItem.blankFree
  | .group kind alternatives => kind.blankFree && alternativesBlankFree alternatives
  | .repeated piece _ => piece.blankFree

/-- **Whether a pattern spells no ASCII blank as itself.** -/
def Pattern.blankFree : Pattern → Bool
  | [] => true
  | piece :: rest => piece.blankFree && Pattern.blankFree rest

def alternativesBlankFree : List Pattern → Bool
  | [] => true
  | first :: rest => Pattern.blankFree first && alternativesBlankFree rest

end

theorem Pattern.blankFree_iff {p : Pattern} :
    p.blankFree = true ↔ ∀ piece ∈ p, piece.blankFree = true := by
  induction p with
  | nil => simp [Pattern.blankFree]
  | cons piece rest ih => simp [Pattern.blankFree, ih]

theorem alternativesBlankFree_iff {alternatives : List Pattern} :
    alternativesBlankFree alternatives = true ↔ ∀ p ∈ alternatives, p.blankFree = true := by
  induction alternatives with
  | nil => simp [alternativesBlankFree]
  | cons first rest ih => simp [alternativesBlankFree, ih]

theorem Glyph.blankFree_text {operators : List Char} {g : Glyph} (h : g.blankFree = true) :
    BlankFree (g.text operators) := by
  have hbackslash : isAsciiBlank '\\' = false := by decide
  cases g with
  | symbol c =>
    have hc : isAsciiBlank c = false := by simpa [blankFree] using h
    rw [text]
    split <;> simp [BlankFree, hc, hbackslash]
  | code byte =>
    have hbyte := byte.toNat_lt
    have hdigit : ∀ n < 16, isAsciiBlank (PatternText.hexDigit n) = false := by decide
    have hhigh := hdigit (byte.toNat / 16) (by omega)
    have hlow := hdigit (byte.toNat % 16) (by omega)
    have hx : isAsciiBlank 'x' = false := by decide
    simp [BlankFree, text, PatternText.hexChar, hbackslash, hx, hhigh, hlow]

theorem ClassItem.blankFree_text {item : ClassItem} (h : item.blankFree = true) :
    BlankFree item.text := by
  cases item with
  | one g => exact Glyph.blankFree_text h
  | range lo hi =>
    rw [blankFree, Bool.and_eq_true] at h
    exact .append (.append (Glyph.blankFree_text h.1) (by decide)) (Glyph.blankFree_text h.2)

theorem GroupKind.blankFree_opening {kind : GroupKind} (h : kind.blankFree = true) :
    BlankFree kind.opening := by
  cases kind with
  | plain => decide
  | ignoreCase => decide
  | notAhead => decide
  | capture name =>
    cases name with
    | none => decide
    | some name =>
      have hname : BlankFree name := by simpa [blankFree, BlankFree] using h
      exact .append (.append (by decide) hname) (by decide)

/-- Pieces without blanks make up a pattern without blanks. -/
theorem Pattern.blankFree_of_pieces {p : Pattern} (h : ∀ piece ∈ p, BlankFree piece.text) :
    BlankFree p.text := by
  induction p with
  | nil =>
    rw [text_nil]
    decide
  | cons piece rest ih =>
    rw [text_cons]
    exact .append (h piece List.mem_cons_self) (ih fun q hq => h q (List.mem_cons_of_mem _ hq))

theorem blankFree_alternatives {alternatives : List Pattern}
    (h : ∀ p ∈ alternatives, BlankFree p.text) : BlankFree (alternativesText alternatives) := by
  have hbarred : ∀ {rest : List Pattern}, (∀ p ∈ rest, BlankFree p.text) →
      BlankFree (barredText rest) := by
    intro rest hrest
    induction rest with
    | nil =>
      rw [barredText]
      decide
    | cons first rest ih =>
      rw [barredText]
      exact .append (.append (by decide) (hrest first List.mem_cons_self))
        (ih fun p hp => hrest p (List.mem_cons_of_mem _ hp))
  cases alternatives with
  | nil =>
    rw [alternativesText]
    decide
  | cons first rest =>
    rw [alternativesText]
    exact .append (h first List.mem_cons_self) (hbarred fun p hp => h p (List.mem_cons_of_mem _ hp))

theorem Piece.blankFree_text {piece : Piece} (h : piece.blankFree = true) :
    BlankFree piece.text := by
  induction piece using Piece.induction with
  | glyph g =>
    rw [Piece.text]
    exact Glyph.blankFree_text h
  | charIn items =>
    rw [Piece.blankFree, List.all_eq_true] at h
    rw [Piece.text]
    refine .append (.append (by decide) (.join ?_)) (by decide)
    intro text htext
    obtain ⟨item, hitem, rfl⟩ := List.mem_map.1 htext
    exact ClassItem.blankFree_text (h item hitem)
  | group kind alternatives ih =>
    rw [Piece.blankFree, Bool.and_eq_true, alternativesBlankFree_iff] at h
    have halternatives : ∀ p ∈ alternatives, BlankFree p.text := fun p hp =>
      Pattern.blankFree_of_pieces fun piece hpiece =>
        ih p hp piece hpiece (Pattern.blankFree_iff.1 (h.2 p hp) piece hpiece)
    rw [Piece.text]
    exact .append (.append (GroupKind.blankFree_opening h.1) (blankFree_alternatives halternatives))
      (by decide)
  | repeated piece q ih =>
    rw [Piece.text]
    exact .append (ih (by rwa [Piece.blankFree] at h)) (blankFree_quantifier q)

/-- **A pattern that spells no blank as itself has a text without blanks.** -/
theorem Pattern.blankFree_text {p : Pattern} (h : p.blankFree = true) : BlankFree p.text :=
  blankFree_of_pieces fun piece hpiece => Piece.blankFree_text (blankFree_iff.1 h piece hpiece)

end AbnfPatterns
