import AbnfPatterns.Proofs.Regex.Builders
import AbnfPatterns.Standard.Uri

/-!
# Digits

The texts of the rules for hexadecimal digits, decimal digits, and the decimal numerals of one byte.
-/

namespace AbnfPatterns

/-- Whether a character is a **hexadecimal digit**, in either case. -/
def IsHexDigit (c : Char) : Prop :=
  ('0' ≤ c ∧ c ≤ '9') ∨ ('A' ≤ c ∧ c ≤ 'F') ∨ ('a' ≤ c ∧ c ≤ 'f')

instance (c : Char) : Decidable (IsHexDigit c) :=
  inferInstanceAs (Decidable (_ ∨ _))

namespace Uri

open CoreRules (digit hexdig)
open UriRules (decOctet)
open Pattern

variable {w : List Char}

theorem mem_texts_hexdig : w ∈ hexdig.pattern.texts ↔ ∃ c, IsHexDigit c ∧ w = [c] := by
  rw [hexdig, mem_texts_charIn]
  refine exists_congr fun c => and_congr_left fun _ => ?_
  simp only [CharSet.mem_unions, span, List.map_cons, List.map_nil, ClassItem.chars, Glyph.char,
    List.mem_cons, List.not_mem_nil, or_false, exists_eq_or_imp, exists_eq_left,
    CharSet.mem_ofRange, IsHexDigit]
  exact Iff.rfl

/-- A class of some consecutive decimal digits. -/
theorem mem_texts_codes (lo hi : UInt8) {a b : Nat} (hlo : lo.toNat = 48 + a)
    (hhi : hi.toNat = 48 + b) (hb : b < 10) :
    w ∈ (codes lo hi).texts ↔ ∃ d, a ≤ d ∧ d ≤ b ∧ w = [Nat.digitChar d] := by
  have hchars : ∀ c, c ∈ CharSet.unions ([ClassItem.range (.code lo) (.code hi)].map
      ClassItem.chars) ↔ 48 + a ≤ c.toNat ∧ c.toNat ≤ 48 + b := by
    intro c
    rw [← hlo, ← hhi]
    simp only [CharSet.mem_unions, List.map_cons, List.map_nil, ClassItem.chars, Glyph.char,
      List.mem_singleton, exists_eq_left, CharSet.mem_ofRange]
    exact Iff.rfl
  rw [codes, mem_texts_charIn]
  simp only [hchars]
  constructor
  · rintro ⟨c, ⟨hlo, hhi⟩, rfl⟩
    refine ⟨c.toNat - 48, by omega, by omega, ?_⟩
    have hc : (Nat.digitChar (c.toNat - 48)).toNat = c.toNat := by
      rw [Nat.toNat_digitChar_of_lt_ten (by omega)]
      omega
    rw [Char.toNat_inj.1 hc]
  · rintro ⟨d, ha, hd, rfl⟩
    refine ⟨Nat.digitChar d, ?_, rfl⟩
    rw [Nat.toNat_digitChar_of_lt_ten (by omega)]
    omega

theorem mem_texts_digit : w ∈ digit.pattern.texts ↔ ∃ d < 10, w = [Nat.digitChar d] := by
  rw [digit, mem_texts_codes _ _ (a := 0) (b := 9) rfl rfl (by decide)]
  refine exists_congr fun d => ?_
  rw [and_iff_right (Nat.zero_le d), Nat.lt_succ_iff]

theorem toDigits_two {a d : Nat} (ha : 0 < a) (ha' : a < 10) (hd : d < 10) :
    Nat.toDigits 10 (10 * a + d) = [Nat.digitChar a, Nat.digitChar d] := by
  rw [← Nat.toDigits_append_toDigits (by decide) ha hd, Nat.toDigits_of_lt_base ha',
    Nat.toDigits_of_lt_base hd]
  rfl

theorem toDigits_three {a b d : Nat} (ha : 0 < a) (ha' : a < 10) (hb : b < 10) (hd : d < 10) :
    Nat.toDigits 10 (10 * (10 * a + b) + d)
      = [Nat.digitChar a, Nat.digitChar b, Nat.digitChar d] := by
  rw [← Nat.toDigits_append_toDigits (by decide) (by omega) hd, toDigits_two ha ha' hb,
    Nat.toDigits_of_lt_base hd]
  rfl

/-- One digit in front of others. -/
theorem mem_texts_codes_append (lo hi : UInt8) {a b : Nat} {p : Pattern}
    (hlo : lo.toNat = 48 + a) (hhi : hi.toNat = 48 + b) (hb : b < 10) :
    w ∈ (codes lo hi ++ p).texts ↔
      ∃ d, a ≤ d ∧ d ≤ b ∧ ∃ v ∈ p.texts, w = Nat.digitChar d :: v := by
  simp only [mem_texts_append, mem_texts_codes lo hi hlo hhi hb]
  constructor
  · rintro ⟨_, ⟨d, ha, hd, rfl⟩, v, hv, rfl⟩
    exact ⟨d, ha, hd, v, hv, rfl⟩
  · rintro ⟨d, ha, hd, v, hv, rfl⟩
    exact ⟨_, ⟨d, ha, hd, rfl⟩, v, hv, rfl⟩

/-- **The texts of `DEC-OCTET` are the decimal numerals below 256**, without leading zeros. -/
theorem mem_texts_decOctet : w ∈ decOctet.pattern.texts ↔ ∃ n < 256, w = Nat.toDigits 10 n := by
  simp only [decOctet, mem_texts_anyOf, List.mem_cons, List.not_mem_nil, or_false,
    exists_eq_or_imp, exists_eq_left, List.append_assoc, mem_texts_literal_append,
    mem_texts_times_two fun _ => mem_texts_digit,
    mem_texts_codes_append 0x30 0x34 (a := 0) (b := 4) rfl rfl (by decide),
    mem_texts_codes_append 0x31 0x39 (a := 1) (b := 9) rfl rfl (by decide),
    mem_texts_codes 0x30 0x35 (a := 0) (b := 5) rfl rfl (by decide),
    mem_texts_digit]
  constructor
  · rintro (h | h | h | h | h)
    · obtain ⟨_, ⟨d, -, hd, rfl⟩, rfl⟩ := h
      exact ⟨10 * (10 * 2 + 5) + d, by omega,
        (toDigits_three (a := 2) (b := 5) (by decide) (by decide) (by decide) (by omega)).symm⟩
    · obtain ⟨_, ⟨b, -, hb, _, ⟨d, hd, rfl⟩, rfl⟩, rfl⟩ := h
      exact ⟨10 * (10 * 2 + b) + d, by omega,
        (toDigits_three (a := 2) (by decide) (by decide) (by omega) hd).symm⟩
    · obtain ⟨_, ⟨b, d, hb, hd, rfl⟩, rfl⟩ := h
      exact ⟨10 * (10 * 1 + b) + d, by omega,
        (toDigits_three (a := 1) (by decide) (by decide) hb hd).symm⟩
    · obtain ⟨a, ha, ha', _, ⟨d, hd, rfl⟩, rfl⟩ := h
      exact ⟨10 * a + d, by omega, (toDigits_two ha (by omega) hd).symm⟩
    · obtain ⟨d, hd, rfl⟩ := h
      exact ⟨d, by omega, (Nat.toDigits_of_lt_base hd).symm⟩
  · rintro ⟨n, hn, rfl⟩
    rcases Nat.lt_or_ge n 10 with h | h
    · exact .inr <| .inr <| .inr <| .inr ⟨n, h, Nat.toDigits_of_lt_base h⟩
    obtain ⟨m, d, hd, rfl⟩ : ∃ m d, d < 10 ∧ n = 10 * m + d :=
      ⟨n / 10, n % 10, by omega, by omega⟩
    rcases Nat.lt_or_ge m 10 with h' | h'
    · exact .inr <| .inr <| .inr <| .inl
        ⟨m, by omega, by omega, _, ⟨d, hd, rfl⟩, toDigits_two (by omega) h' hd⟩
    obtain ⟨a, b, hb, rfl⟩ : ∃ a b, b < 10 ∧ m = 10 * a + b :=
      ⟨m / 10, m % 10, by omega, by omega⟩
    rw [toDigits_three (by omega) (by omega) hb hd]
    obtain rfl | rfl : a = 1 ∨ a = 2 := by omega
    · exact .inr <| .inr <| .inl ⟨_, ⟨b, d, hb, hd, rfl⟩, rfl⟩
    · rcases Nat.lt_or_ge b 5 with h5 | h5
      · exact .inr <| .inl ⟨_, ⟨b, by omega, by omega, _, ⟨d, hd, rfl⟩, rfl⟩, rfl⟩
      · obtain rfl : b = 5 := by omega
        exact .inl ⟨_, ⟨d, by omega, by omega, rfl⟩, rfl⟩

end Uri

end AbnfPatterns
