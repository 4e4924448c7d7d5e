import AbnfPatterns.Composer
import AbnfPatterns.Proofs.Regex.Tokens
import Mathlib.Tactic.SplitIfs

/-!
# The texts of quantifiers

The text of a quantifier says which kind it is of and what its bounds are.
-/

namespace AbnfPatterns

namespace Quantifier

open Pattern.Token

/-! ### Reading a quantifier back -/

/-- What follows the comma behind `least`: the greater bound, if there is one, and the brace. -/
def readMost (least : UInt64) (text : List Char) : Option Quantifier :=
  match readCount (text.takeWhile Char.isDigit), text.dropWhile Char.isDigit with
  | some most, ['\x7d'] => some (.between least most)
  -- so is a bound of more than 64 bits, but the text is not the one that is read back
  | none, ['\x7d'] => some (.atLeast least)
  | _, _ => none

/-- The count or the bounds between braces, behind the opening one. -/
def readBraced (text : List Char) : Option Quantifier :=
  match readCount (text.takeWhile Char.isDigit), text.dropWhile Char.isDigit with
  | some count, ['\x7d'] => some (.exactly count)
  | some least, ',' :: more => readMost least more
  | _, _ => none

def readText : List Char → Option Quantifier
  | ['?'] => some .zeroOrOne
  | ['*'] => some .zeroOrMore
  | ['+'] => some .oneOrMore
  | '\x7b' :: bounds => readBraced bounds
  | _ => none

/-- **The quantifier that a text is written for**, if it is written for one. -/
def ofText? (text : String) : Option Quantifier :=
  (readText text.toList).filter fun q => q.text = text

theorem readText_text (q : Quantifier) : readText q.text.toList = some q := by
  cases q with
  | zeroOrOne => rfl
  | zeroOrMore => rfl
  | oneOrMore => rfl
  | exactly count =>
    obtain ⟨htake, hdrop⟩ := takeWhile_decimal count (c := '\x7d') (by decide) []
    rw [toList_text_exactly, readText, readBraced, htake, hdrop, readCount_decimal]
    rfl
  | atLeast least =>
    obtain ⟨htake, hdrop⟩ := takeWhile_decimal least (c := ',') (by decide) ['\x7d']
    rw [toList_text_atLeast, readText, readBraced, htake, hdrop, readCount_decimal]
    rfl
  | between least most =>
    obtain ⟨htake, hdrop⟩ := takeWhile_decimal least (c := ',') (by decide)
      ((decimal most).toList ++ ['\x7d'])
    obtain ⟨htake', hdrop'⟩ := takeWhile_decimal most (c := '\x7d') (by decide) []
    have hmost : readMost least ((decimal most).toList ++ ['\x7d'])
        = some (.between least most) := by
      rw [readMost, htake', hdrop', readCount_decimal]
      rfl
    rw [toList_text_between, readText, readBraced, htake, hdrop, readCount_decimal]
    exact hmost

/-- **Texts are read back as what they were written for.** -/
theorem ofText?_eq_some_iff {text : String} {q : Quantifier} :
    ofText? text = some q ↔ q.text = text := by
  rw [ofText?, Option.filter_eq_some_iff, decide_eq_true_eq]
  constructor
  · rintro ⟨-, htext⟩
    exact htext
  · rintro rfl
    exact ⟨readText_text q, rfl⟩

theorem text_inj {q q' : Quantifier} : q.text = q'.text ↔ q = q' := by
  constructor
  · intro h
    have hread : ofText? q.text = some q' := ofText?_eq_some_iff.2 h.symm
    rw [ofText?_eq_some_iff.2 rfl] at hread
    exact Option.some.inj hread
  · rintro rfl
    rfl

/-! ### Counted repetition -/

section

variable {least least' : UInt64} {most most' : Option UInt64}

theorem ofBounds_eq_exactly_iff :
    ofBounds least most = .exactly least' ↔ least = least' ∧ most = none := by
  cases most with
  | none => simp [ofBounds]
  | some m =>
    rw [ofBounds]
    split_ifs <;> simp

theorem ofBounds_eq_atLeast_iff :
    ofBounds least most = .atLeast least' ↔ least = least' ∧ most = some unlimited := by
  cases most with
  | none => simp [ofBounds]
  | some m =>
    rw [ofBounds]
    split_ifs with h <;> simp [h]

theorem ofBounds_eq_between_iff {m : UInt64} :
    ofBounds least most = .between least' m ↔ least = least' ∧ most = some m ∧ m ≠ unlimited := by
  cases most with
  | none => simp [ofBounds]
  | some n =>
    rw [ofBounds]
    split_ifs with h
    · simp only [Option.some.injEq, false_iff]
      rintro ⟨-, rfl, hne⟩
      exact hne h
    · simp only [between.injEq, Option.some.injEq]
      refine and_congr_right fun _ => ⟨?_, And.left⟩
      rintro rfl
      exact ⟨rfl, h⟩

/-- **Counted repetition keeps its bounds apart.** -/
theorem ofBounds_inj :
    ofBounds least most = ofBounds least' most' ↔ least = least' ∧ most = most' := by
  constructor
  · intro h
    cases most' with
    | none => exact ofBounds_eq_exactly_iff.1 h
    | some m =>
      by_cases hm : m = unlimited
      · rw [hm]
        exact ofBounds_eq_atLeast_iff.1 (h.trans (if_pos hm))
      · obtain ⟨hleast, hmost, -⟩ := ofBounds_eq_between_iff.1 (h.trans (if_neg hm))
        exact ⟨hleast, hmost⟩
  · rintro ⟨rfl, rfl⟩
    rfl

end

end Quantifier

/-! ### What is left in a composer -/

/-- The pattern of a composer with one more piece, if the piece can be added. -/
def Composer.patternWith? (c : Composer) (a : Addition) : Option String :=
  match c.add a with
  | .ok (c, _) => some c.pattern
  | .error _ => none

namespace Quantifier

variable {c : Composer}

theorem patternWith?_quantifier (c : Composer) (q : Quantifier) :
    c.patternWith? (.quantifier q) = some (c.pattern ++ q.text) :=
  rfl

/-- Behind the same pattern, different quantifiers leave different patterns. -/
theorem patternWith?_eq_iff {q q' : Quantifier} :
    c.patternWith? (.quantifier q) = some (c.pattern ++ q'.text) ↔ q = q' := by
  rw [patternWith?_quantifier, Option.some_inj, String.append_right_inj, text_inj]

/-- **The text that repeats a piece tells how often.**  Every quantifier can be read back from its
text, so different ones have different texts.  Whatever pattern a composer holds, a quantifier puts
its text behind it.  For counted repetition the new pattern tells both bounds: it ends in an exact
count without an upper bound, in `least` or more if that bound is the greatest 64-bit number, and in
the two bounds otherwise, so that the greatest number itself is never written as an upper bound. -/
theorem text_unambiguous :
    (∀ q text, ofText? text = some q ↔ q.text = text) ∧
    (∀ q q' : Quantifier, q.text = q'.text ↔ q = q') ∧
    (∀ (c : Composer) (q : Quantifier),
      c.patternWith? (.quantifier q) = some (c.pattern ++ q.text)) ∧
    (∀ (c : Composer) (least most least' most'),
      c.patternWith? (.quantifier (ofBounds least most))
          = c.patternWith? (.quantifier (ofBounds least' most')) ↔
        least = least' ∧ most = most') ∧
    ∀ (c : Composer) (least most),
      (c.patternWith? (.quantifier (ofBounds least most))
          = some (c.pattern ++ text (.exactly least)) ↔
        most = none) ∧
      (c.patternWith? (.quantifier (ofBounds least most))
          = some (c.pattern ++ text (.atLeast least)) ↔
        most = some 18446744073709551615) ∧
      (∀ m, c.patternWith? (.quantifier (ofBounds least most))
          = some (c.pattern ++ text (.between least m)) ↔
        most = some m ∧ m ≠ 18446744073709551615) ∧
      ∀ least', c.patternWith? (.quantifier (ofBounds least most))
        ≠ some (c.pattern ++ text (.between least' 18446744073709551615)) := by
  have hunlimited : unlimited = 18446744073709551615 := rfl
  refine ⟨fun _ _ => ofText?_eq_some_iff, fun _ _ => text_inj, patternWith?_quantifier, ?_, ?_⟩
  · intro c least most least' most'
    rw [patternWith?_quantifier c (ofBounds least' most'), patternWith?_eq_iff, ofBounds_inj]
  · intro c least most
    simp only [ne_eq, patternWith?_eq_iff, ofBounds_eq_exactly_iff, ofBounds_eq_atLeast_iff,
      ofBounds_eq_between_iff, hunlimited]
    simp

/-- Behind `[a]`, three or more is neither exactly three nor up to the greatest number. -/
theorem text_unambiguous_behind_class :
    let c := (Composer.ofGrammar Standard.core.grammar).append "[a]"
    c.patternWith? (.quantifier (ofBounds 3 (some 18446744073709551615))) = some "[a]\x7b3,\x7d" ∧
    c.patternWith? (.quantifier (ofBounds 3 none)) = some "[a]\x7b3\x7d" ∧
    c.patternWith? (.quantifier (ofBounds 3 (some 18446744073709551615)))
      ≠ c.patternWith? (.quantifier (ofBounds 3 none)) ∧
    c.patternWith? (.quantifier (ofBounds 3 (some 18446744073709551615)))
      ≠ some "[a]\x7b3,18446744073709551615\x7d" := by
  intro c
  have hpattern : c.pattern = "[a]" := by decide +kernel
  obtain ⟨-, -, hadded, hbounds, hkinds⟩ := text_unambiguous
  obtain ⟨-, -, -, hnever⟩ := hkinds c 3 (some 18446744073709551615)
  have hnever := hnever 3
  rw [hpattern] at hnever
  refine ⟨?_, ?_, ?_, ?_⟩
  · rw [hadded, hpattern]
    decide
  · rw [hadded, hpattern]
    decide
  · rw [Ne, hbounds]
    simp
  · intro h
    refine hnever (h.trans ?_)
    decide

end Quantifier

end AbnfPatterns
