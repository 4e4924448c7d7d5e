/-!
# Rule names

ABNF reads rule names without regard to case; here hyphens and underscores are the same as well.
-/

namespace AbnfPatterns.RuleName

def keyChar (c : Char) : Char :=
  if c = '-' then '_' else c.toUpper

/-- The **key** of a rule name: ASCII letters in upper case, hyphens as underscores. -/
def key (name : String) : String :=
  String.ofList (name.toList.map keyChar)

/-- The characters that a rule name in running text is made of: ASCII letters and digits,
hyphens and underscores. -/
def isNameChar (c : Char) : Bool :=
  c.isAlphanum || c == '-' || c == '_'

@[simp] theorem toList_key (name : String) : (key name).toList = name.toList.map keyChar :=
  String.toList_ofList

theorem toUpper_of_not_lower {c : Char} (h : ¬('a'.val ≤ c.val ∧ c.val ≤ 'z'.val)) :
    c.toUpper = c :=
  dif_neg h

theorem toNat_toUpper_of_lower {c : Char} (h : 'a'.val ≤ c.val ∧ c.val ≤ 'z'.val) :
    c.toUpper.val.toNat + 32 = c.val.toNat := by
  have hup : c.toUpper = ⟨c.val + ('A'.val - 'a'.val), _⟩ := dif_pos h
  simp only [UInt32.le_iff_toNat_le, show 'a'.val.toNat = 97 from rfl,
    show 'z'.val.toNat = 122 from rfl] at h
  rw [hup, UInt32.toNat_add, show ('A'.val - 'a'.val).toNat = 4294967264 from rfl]
  omega

/-- An upper-case character has no upper case of its own. -/
theorem toUpper_toUpper (c : Char) : c.toUpper.toUpper = c.toUpper := by
  by_cases h : 'a'.val ≤ c.val ∧ c.val ≤ 'z'.val
  · -- the letter moves down by 32, below every lower-case letter
    have hup := toNat_toUpper_of_lower h
    apply toUpper_of_not_lower
    simp only [UInt32.le_iff_toNat_le, show 'a'.val.toNat = 97 from rfl,
      show 'z'.val.toNat = 122 from rfl] at h ⊢
    omega
  · rw [toUpper_of_not_lower h, toUpper_of_not_lower h]

theorem isAlpha_of_lower {c : Char} (h : 'a'.val ≤ c.val ∧ c.val ≤ 'z'.val) : c.isAlpha = true :=
  have hlower : c.isLower = true :=
    Bool.and_eq_true_iff.2 ⟨decide_eq_true h.1, decide_eq_true h.2⟩
  Bool.or_eq_true_iff.2 (.inr hlower)

theorem isAlpha_toUpper_of_lower {c : Char} (h : 'a'.val ≤ c.val ∧ c.val ≤ 'z'.val) :
    c.toUpper.isAlpha = true := by
  have hup := toNat_toUpper_of_lower h
  have hupper : 'A'.val ≤ c.toUpper.val ∧ c.toUpper.val ≤ 'Z'.val := by
    simp only [UInt32.le_iff_toNat_le, show 'A'.val.toNat = 65 from rfl,
      show 'Z'.val.toNat = 90 from rfl, show 'a'.val.toNat = 97 from rfl,
      show 'z'.val.toNat = 122 from rfl] at h ⊢
    omega
  exact Bool.or_eq_true_iff.2 (.inl (decide_eq_true hupper))

/-- Letters become letters, and everything else stays as it is. -/
theorem toUpper_eq_iff_of_not_alpha {c d : Char} (hd : d.isAlpha = false) :
    c.toUpper = d ↔ c = d := by
  by_cases hc : 'a'.val ≤ c.val ∧ c.val ≤ 'z'.val
  · constructor
    · rintro rfl
      rw [isAlpha_toUpper_of_lower hc] at hd
      cases hd
    · rintro rfl
      rw [isAlpha_of_lower hc] at hd
      cases hd
  · rw [toUpper_of_not_lower hc]

theorem keyChar_keyChar (c : Char) : keyChar (keyChar c) = keyChar c := by
  by_cases h : c = '-'
  · rw [h]
    rfl
  · have hup : c.toUpper ≠ '-' := fun hup => h ((toUpper_eq_iff_of_not_alpha (by decide)).1 hup)
    simp only [keyChar, h, hup, if_false, toUpper_toUpper]

@[simp] theorem key_key (name : String) : key (key name) = key name := by
  rw [← String.toList_inj]
  simp only [toList_key, List.map_map]
  exact List.map_congr_left fun c _ => keyChar_keyChar c

@[simp] theorem length_key (name : String) : (key name).length = name.length := by
  rw [← String.length_toList, ← String.length_toList, toList_key, List.length_map]

end AbnfPatterns.RuleName
