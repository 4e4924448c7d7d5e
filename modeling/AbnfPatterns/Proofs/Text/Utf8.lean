import Mathlib.Data.String.Basic

/-!
# The order of texts and of their bytes

Texts are in the same order as their UTF-8 forms, which are compared byte by byte.
-/

namespace AbnfPatterns

/-- The bytes of a text in **UTF-8**. -/
def utf8 (text : String) : List UInt8 :=
  text.toUTF8.data.toList

namespace Utf8

variable {m n j k : Nat} {c d : Char}

/-- The mark in the first byte of a form with so many continuation bytes. -/
def mark : Nat → Nat
  | 0 => 0
  | 1 => 192
  | 2 => 224
  | _ => 240

/-- **The form of a number** with so many continuation bytes after `lead`, which marks the first
byte: the digits in base 64, the highest first. -/
def form (lead : Nat) : Nat → Nat → List UInt8
  | 0, n => [UInt8.ofNat (n + lead)]
  | k + 1, n => form lead k (n / 64) ++ [UInt8.ofNat (n % 64 + 128)]

theorem ofNat_lt_ofNat (h : m < n) (hn : n < 256) : UInt8.ofNat m < UInt8.ofNat n := by
  rw [UInt8.lt_iff_toNat_lt, UInt8.toNat_ofNat_of_lt' (h.trans hn), UInt8.toNat_ofNat_of_lt' hn]
  exact h

/-- The first byte of a form has the mark and the highest digit. -/
theorem exists_form_eq_cons (lead k n : Nat) :
    ∃ rest, form lead k n = UInt8.ofNat (n / 64 ^ k + lead) :: rest := by
  induction k generalizing n with
  | zero => exact ⟨[], by rw [form, pow_zero, Nat.div_one]⟩
  | succ k ih =>
    obtain ⟨rest, hrest⟩ := ih (n / 64)
    refine ⟨rest ++ [UInt8.ofNat (n % 64 + 128)], ?_⟩
    rw [form, hrest, List.cons_append, Nat.div_div_eq_div_mul, pow_succ']

/-- Forms of one length are in the order of the numbers: either all digits but the last differ
already, or the last digits do. -/
theorem form_append_lt {lead : Nat} (h : m < n) (hn : n / 64 ^ k + lead < 256) (s t : List UInt8) :
    form lead k m ++ s < form lead k n ++ t := by
  induction k generalizing m n s t with
  | zero =>
    rw [pow_zero, Nat.div_one] at hn
    exact List.cons_lt_cons_iff.2 (.inl (ofNat_lt_ofNat (Nat.add_lt_add_right h lead) hn))
  | succ k ih =>
    rw [pow_succ', ← Nat.div_div_eq_div_mul] at hn
    rw [form, form, List.append_assoc, List.append_assoc]
    obtain hdigits | hdigits := (Nat.div_le_div_right (c := 64) h.le).lt_or_eq
    · exact ih hdigits hn _ _
    · rw [hdigits]
      have hlast : UInt8.ofNat (m % 64 + 128) < UInt8.ofNat (n % 64 + 128) :=
        ofNat_lt_ofNat (by omega) (by omega)
      exact List.append_left_lt (List.cons_lt_cons_iff.2 (.inl hlast))

/-- The first byte of a longer form is the greater one. -/
theorem form_append_lt_of_length {lead lead' : Nat} (h : m / 64 ^ j + lead < n / 64 ^ k + lead')
    (hn : n / 64 ^ k + lead' < 256) (s t : List UInt8) :
    form lead j m ++ s < form lead' k n ++ t := by
  obtain ⟨rest, hrest⟩ := exists_form_eq_cons lead j m
  obtain ⟨rest', hrest'⟩ := exists_form_eq_cons lead' k n
  rw [hrest, hrest']
  exact List.cons_lt_cons_iff.2 (.inl (ofNat_lt_ofNat h hn))

/-- How many continuation bytes the form of a number has. -/
def continuations (n : Nat) : Nat :=
  if n ≤ 0x7F then 0 else if n ≤ 0x7FF then 1 else if n ≤ 0xFFFF then 2 else 3

/-- The first byte of the form of a number. -/
def first (n : Nat) : Nat :=
  n / 64 ^ continuations n + mark (continuations n)

theorem first_lt (hn : n < 0x110000) : first n < 256 := by
  unfold first continuations
  split_ifs <;> simp only [mark] <;> omega

/-- The ranges of the first bytes lie one after the other. -/
theorem first_lt_first (h : continuations m < continuations n) : first m < first n := by
  unfold first
  unfold continuations at *
  split_ifs at * <;> simp only [mark] at * <;> omega

theorem toNat_lt (c : Char) : c.toNat < 0x110000 := by
  obtain h | ⟨-, h⟩ := c.valid
  · exact Nat.lt_trans h (by decide)
  · exact h

theorem encode_eq_form (c : Char) :
    String.utf8EncodeChar c
      = form (mark (continuations c.toNat)) (continuations c.toNat) c.toNat := by
  have hbound := toNat_lt c
  have hval : c.val.toNat = c.toNat := rfl
  rw [String.utf8EncodeChar.eq_1, continuations, hval]
  generalize c.toNat = n at *
  split_ifs
  · rfl
  · have hfirst : n / 64 % 32 = n / 64 := by omega
    rw [hfirst]
    rfl
  · have hfirst : n / 4096 % 16 = n / 64 / 64 := by omega
    rw [hfirst]
    rfl
  · have hfirst : n / 262144 % 8 = n / 64 / 64 / 64 := by omega
    have hsecond : n / 4096 = n / 64 / 64 := by omega
    rw [hfirst, hsecond]
    rfl

/-- **The form of the lesser of two characters comes first**, whatever follows. -/
theorem encode_append_lt (h : c < d) (s t : List UInt8) :
    String.utf8EncodeChar c ++ s < String.utf8EncodeChar d ++ t := by
  have hlt : c.toNat < d.toNat := h
  have hbound : first d.toNat < 256 := first_lt (toNat_lt d)
  rw [encode_eq_form, encode_eq_form]
  obtain hcont | hcont | hcont :=
    Nat.lt_trichotomy (continuations c.toNat) (continuations d.toNat)
  · exact form_append_lt_of_length (first_lt_first hcont) hbound s t
  · rw [hcont]
    exact form_append_lt hlt hbound s t
  · -- a greater number has no shorter form
    unfold continuations at hcont
    split_ifs at hcont <;> omega

theorem flatMap_encode_lt {cs ds : List Char} (h : cs < ds) :
    cs.flatMap String.utf8EncodeChar < ds.flatMap String.utf8EncodeChar := by
  induction h with
  | @nil d ds =>
    obtain ⟨rest, hrest⟩ := exists_form_eq_cons (mark (continuations d.toNat)) _ d.toNat
    rw [List.flatMap_nil, List.flatMap_cons, encode_eq_form, hrest]
    exact List.nil_lt_cons _ _
  | rel hlt =>
    rw [List.flatMap_cons, List.flatMap_cons]
    exact encode_append_lt hlt _ _
  | cons _ ih =>
    rw [List.flatMap_cons, List.flatMap_cons]
    exact List.append_left_lt ih

end Utf8

theorem utf8_eq_flatMap (text : String) :
    utf8 text = text.toList.flatMap String.utf8EncodeChar := by
  rw [utf8, String.toUTF8_eq_toByteArray, ← String.utf8Encode_toList, List.utf8Encode,
    List.data_toByteArray, List.toList_toArray]

/-- Every character takes at least one byte. -/
theorem length_le_utf8ByteSize (text : String) : text.length ≤ text.utf8ByteSize := by
  suffices h : ∀ cs : List Char, cs.length ≤ (String.ofList cs).utf8ByteSize by
    have htext := h text.toList
    rwa [String.ofList_toList, String.length_toList] at htext
  intro cs
  induction cs with
  | nil => exact Nat.zero_le _
  | cons c cs ih =>
    have hpos : 0 < c.utf8Size := Char.utf8Size_pos c
    rw [String.ofList_cons, String.utf8ByteSize_append, String.utf8ByteSize_singleton,
      List.length_cons]
    omega

/-- **Texts are in the order of their UTF-8 forms.** -/
theorem utf8_lt_utf8_iff {s t : String} : utf8 s < utf8 t ↔ s < t := by
  have hlt : ∀ {s t : String}, s < t → utf8 s < utf8 t := by
    intro s t h
    rw [utf8_eq_flatMap, utf8_eq_flatMap]
    exact Utf8.flatMap_encode_lt (String.lt_iff_toList_lt.1 h)
  refine ⟨fun h => ?_, hlt⟩
  obtain hst | rfl | hts := lt_trichotomy s t
  · exact hst
  · exact absurd h (List.lt_irrefl _)
  · exact absurd h (List.lt_asymm (hlt hts))

end AbnfPatterns
