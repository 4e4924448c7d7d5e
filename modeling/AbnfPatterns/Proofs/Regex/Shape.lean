import Mathlib.Computability.Language
import AbnfPatterns.CharSet

/-!
# Shapes

A shape is a regular expression over sets of characters: what is left of a pattern or of a
right-hand side when spelling, groups and rule names are forgotten.
-/

namespace AbnfPatterns

/-- A **shape**: a regular expression over sets of characters. -/
inductive Shape where
  /-- No text at all. -/
  | never
  /-- The empty text. -/
  | nothing
  /-- One character out of a set. -/
  | oneOf (chars : CharSet)
  | concat (first second : Shape)
  | either (first second : Shape)
  /-- At least `least` and, if there is a limit, at most `most` times. -/
  | repeated (least : Nat) (most : Option Nat) (item : Shape)
  deriving DecidableEq

namespace Shape

/-- Whether a count lies between two bounds, the upper one of which may be missing. -/
def Within (least : Nat) (most : Option Nat) (n : Nat) : Prop :=
  least ≤ n ∧ ∀ m ∈ most, n ≤ m

/-- **The texts of a shape.** -/
def language : Shape → Language Char
  | never => 0
  | nothing => 1
  | oneOf s => {w | ∃ c ∈ s, w = [c]}
  | concat a b => a.language * b.language
  | either a b => a.language + b.language
  | repeated least most item => {w | ∃ n, Within least most n ∧ w ∈ item.language ^ n}

variable {a b item : Shape} {s : CharSet} {least : Nat} {most : Option Nat} {w : List Char}

@[simp] theorem not_mem_language_never : ¬ w ∈ never.language :=
  Language.notMem_zero w

@[simp] theorem mem_language_nothing : w ∈ nothing.language ↔ w = [] :=
  Language.mem_one w

@[simp] theorem mem_language_oneOf : w ∈ (oneOf s).language ↔ ∃ c ∈ s, w = [c] :=
  Iff.rfl

theorem mem_language_concat :
    w ∈ (concat a b).language ↔ ∃ u v, w = u ++ v ∧ u ∈ a.language ∧ v ∈ b.language := by
  rw [language, Language.mem_mul]
  constructor
  · rintro ⟨u, hu, v, hv, rfl⟩
    exact ⟨u, v, rfl, hu, hv⟩
  · rintro ⟨u, v, rfl, hu, hv⟩
    exact ⟨u, hu, v, hv, rfl⟩

@[simp] theorem mem_language_either :
    w ∈ (either a b).language ↔ w ∈ a.language ∨ w ∈ b.language :=
  Iff.rfl

theorem mem_language_repeated :
    w ∈ (repeated least most item).language ↔
      ∃ n, Within least most n ∧ w ∈ item.language ^ n :=
  Iff.rfl

/-! ### How texts start -/

/-- Whether the empty text may be among the texts. -/
def nullable : Shape → Bool
  | never => false
  | nothing => true
  | oneOf _ => false
  | concat a b => a.nullable && b.nullable
  | either a b => a.nullable || b.nullable
  | repeated least _ item => least == 0 || item.nullable

/-- The characters that a text may start with. -/
def firsts : Shape → CharSet
  | never => ∅
  | nothing => ∅
  | oneOf s => s
  | concat a b => if a.nullable then a.firsts ∪ b.firsts else a.firsts
  | either a b => a.firsts ∪ b.firsts
  | repeated _ _ item => item.firsts

theorem nullable_of_nil_mem (h : [] ∈ a.language) : a.nullable = true := by
  induction a with
  | never => exact absurd h not_mem_language_never
  | nothing => rfl
  | oneOf s =>
    obtain ⟨c, -, hc⟩ := h
    cases hc
  | concat a b iha ihb =>
    obtain ⟨u, v, heq, hu, hv⟩ := mem_language_concat.1 h
    obtain ⟨rfl, rfl⟩ := List.append_eq_nil_iff.1 heq.symm
    rw [nullable, iha hu, ihb hv]
    rfl
  | either a b iha ihb =>
    rw [nullable, Bool.or_eq_true]
    exact (mem_language_either.1 h).imp iha ihb
  | repeated least most item ih =>
    obtain ⟨n, ⟨hleast, -⟩, hn⟩ := h
    rw [nullable, Bool.or_eq_true, beq_iff_eq]
    cases n with
    | zero => exact .inl (Nat.le_zero.1 hleast)
    | succ n =>
      rw [pow_succ, Language.mem_mul] at hn
      obtain ⟨u, -, v, hv, heq⟩ := hn
      obtain ⟨rfl, rfl⟩ := List.append_eq_nil_iff.1 heq
      exact .inr (ih hv)

theorem head_mem_firsts {c : Char} (h : c :: w ∈ a.language) : c ∈ a.firsts := by
  induction a generalizing w with
  | never => exact absurd h not_mem_language_never
  | nothing => cases mem_language_nothing.1 h
  | oneOf s =>
    obtain ⟨d, hd, heq⟩ := h
    cases heq
    exact hd
  | concat a b iha ihb =>
    obtain ⟨u, v, heq, hu, hv⟩ := mem_language_concat.1 h
    rw [firsts]
    cases u with
    | nil =>
      -- the first character is one of the second text
      rw [if_pos (nullable_of_nil_mem hu), CharSet.mem_union]
      cases heq
      exact .inr (ihb hv)
    | cons d u =>
      cases heq
      split
      · exact CharSet.mem_union.2 (.inl (iha hu))
      · exact iha hu
  | either a b iha ihb =>
    rw [firsts, CharSet.mem_union]
    exact (mem_language_either.1 h).imp iha ihb
  | repeated least most item ih =>
    obtain ⟨n, -, hn⟩ := h
    -- the first round that takes any text starts the whole text.
    induction n with
    | zero => cases (Language.mem_one _).1 hn
    | succ n ihn =>
      rw [pow_succ', Language.mem_mul] at hn
      obtain ⟨u, hu, v, hv, heq⟩ := hn
      cases u with
      | nil =>
        rw [List.nil_append] at heq
        exact ihn (heq ▸ hv)
      | cons d u =>
        cases heq
        exact ih hu

/-! ### Characters of the texts -/

/-- Whether there is a text at all. -/
def inhabited : Shape → Bool
  | never => false
  | nothing => true
  | oneOf s => !s.runs.isEmpty
  | concat a b => a.inhabited && b.inhabited
  | either a b => a.inhabited || b.inhabited
  | repeated least most item =>
    most.all (least ≤ ·) && (least == 0 || item.inhabited)

/-- **The characters that occur** in the texts. -/
def chars : Shape → CharSet
  | never => ∅
  | nothing => ∅
  | oneOf s => s
  | concat a b => if a.inhabited && b.inhabited then a.chars ∪ b.chars else ∅
  | either a b => a.chars ∪ b.chars
  | repeated least most item =>
    if most.all fun m => least ≤ m && 0 < m then item.chars else ∅

theorem exists_within_iff :
    (∃ n, Within least most n) ↔ most.all (least ≤ ·) = true := by
  rw [Option.all_eq_true]
  simp only [decide_eq_true_eq]
  constructor
  · rintro ⟨n, hleast, hmost⟩ m hm
    exact hleast.trans (hmost m hm)
  · intro h
    exact ⟨least, Nat.le_refl _, h⟩

theorem exists_mem_runs {s : CharSet} : s.runs.isEmpty = false ↔ ∃ c, c ∈ s := by
  rw [List.isEmpty_eq_false_iff_exists_mem]
  constructor
  · rintro ⟨r, hr⟩
    exact ⟨r.first, r, hr, Nat.le_refl _, r.first_le_last⟩
  · rintro ⟨c, r, hr, -⟩
    exact ⟨r, hr⟩

theorem exists_mem_pow {L : Language Char} (h : ∃ w, w ∈ L) (n : Nat) : ∃ w, w ∈ L ^ n := by
  induction n with
  | zero => exact ⟨[], Language.nil_mem_one⟩
  | succ n ih =>
    obtain ⟨u, hu⟩ := h
    obtain ⟨v, hv⟩ := ih
    refine ⟨u ++ v, ?_⟩
    rw [pow_succ']
    exact Language.append_mem_mul hu hv

theorem inhabited_iff : a.inhabited = true ↔ ∃ w, w ∈ a.language := by
  induction a with
  | never => simp [inhabited]
  | nothing => simp [inhabited]
  | oneOf s =>
    rw [inhabited, Bool.not_eq_true', exists_mem_runs]
    constructor
    · rintro ⟨c, hc⟩
      exact ⟨[c], c, hc, rfl⟩
    · rintro ⟨w, c, hc, -⟩
      exact ⟨c, hc⟩
  | concat a b iha ihb =>
    rw [inhabited, Bool.and_eq_true, iha, ihb]
    constructor
    · rintro ⟨⟨u, hu⟩, v, hv⟩
      exact ⟨u ++ v, mem_language_concat.2 ⟨u, v, rfl, hu, hv⟩⟩
    · rintro ⟨w, hw⟩
      obtain ⟨u, v, -, hu, hv⟩ := mem_language_concat.1 hw
      exact ⟨⟨u, hu⟩, v, hv⟩
  | either a b iha ihb =>
    rw [inhabited, Bool.or_eq_true, iha, ihb, ← exists_or]
    rfl
  | repeated least most item ih =>
    rw [inhabited, Bool.and_eq_true, Bool.or_eq_true, beq_iff_eq, ih, ← exists_within_iff]
    constructor
    · rintro ⟨⟨n, hn⟩, rfl | hitem⟩
      · exact ⟨[], 0, ⟨Nat.le_refl _, fun _ _ => Nat.zero_le _⟩, Language.nil_mem_one⟩
      · obtain ⟨w, hw⟩ := exists_mem_pow hitem n
        exact ⟨w, n, hn, hw⟩
    · rintro ⟨w, n, hn, hw⟩
      refine ⟨⟨n, hn⟩, ?_⟩
      cases n with
      | zero => exact .inl (Nat.le_zero.1 hn.1)
      | succ n =>
        rw [pow_succ', Language.mem_mul] at hw
        obtain ⟨u, hu, -⟩ := hw
        exact .inr ⟨u, hu⟩

/-- A character of several texts in a row is one of a single text. -/
theorem exists_mem_of_mem_pow {L : Language Char} {n : Nat} {c : Char} (hw : w ∈ L ^ n)
    (hc : c ∈ w) : ∃ u ∈ L, c ∈ u := by
  induction n generalizing w with
  | zero =>
    obtain rfl := (Language.mem_one _).1 hw
    cases hc
  | succ n ih =>
    rw [pow_succ', Language.mem_mul] at hw
    obtain ⟨u, hu, v, hv, rfl⟩ := hw
    rcases List.mem_append.1 hc with hc | hc
    · exact ⟨u, hu, hc⟩
    · exact ih hv hc

/-- **The characters of a shape are exactly those that occur in its texts.** -/
theorem mem_chars_iff {c : Char} : c ∈ a.chars ↔ ∃ w ∈ a.language, c ∈ w := by
  induction a with
  | never => simp [chars]
  | nothing => simp [chars]
  | oneOf s =>
    constructor
    · intro h
      exact ⟨[c], ⟨c, h, rfl⟩, List.mem_singleton.2 rfl⟩
    · rintro ⟨w, ⟨d, hd, rfl⟩, hc⟩
      obtain rfl := List.mem_singleton.1 hc
      exact hd
  | concat a b iha ihb =>
    rw [chars]
    split
    · rename_i h
      -- a text of either part is completed by some text of the other part
      obtain ⟨ha, hb⟩ := Bool.and_eq_true_iff.1 h
      obtain ⟨u, hu⟩ := inhabited_iff.1 ha
      obtain ⟨v, hv⟩ := inhabited_iff.1 hb
      rw [CharSet.mem_union, iha, ihb]
      constructor
      · rintro (⟨w, hw, hc⟩ | ⟨w, hw, hc⟩)
        · exact ⟨w ++ v, mem_language_concat.2 ⟨w, v, rfl, hw, hv⟩, List.mem_append_left v hc⟩
        · exact ⟨u ++ w, mem_language_concat.2 ⟨u, w, rfl, hu, hw⟩, List.mem_append_right u hc⟩
      · rintro ⟨w, hw, hc⟩
        obtain ⟨x, y, rfl, hx, hy⟩ := mem_language_concat.1 hw
        exact (List.mem_append.1 hc).imp (fun hc => ⟨x, hx, hc⟩) fun hc => ⟨y, hy, hc⟩
    · rename_i h
      constructor
      · intro hc
        exact absurd hc (CharSet.not_mem_empty c)
      · rintro ⟨w, hw, -⟩
        obtain ⟨x, y, -, hx, hy⟩ := mem_language_concat.1 hw
        exact absurd (Bool.and_eq_true_iff.2 ⟨inhabited_iff.2 ⟨x, hx⟩, inhabited_iff.2 ⟨y, hy⟩⟩) h
  | either a b iha ihb =>
    rw [chars, CharSet.mem_union, iha, ihb]
    simp only [mem_language_either, or_and_right, exists_or]
  | repeated least most item ih =>
    rw [chars]
    split
    · rename_i h
      simp only [Option.all_eq_true, Bool.and_eq_true, decide_eq_true_eq] at h
      rw [ih]
      constructor
      · rintro ⟨u, hu, hc⟩
        -- one round has the character, and any texts make up the least number of rounds
        obtain ⟨v, hv⟩ := exists_mem_pow ⟨u, hu⟩ (least - 1)
        refine ⟨u ++ v, ⟨least - 1 + 1, ⟨by omega, ?_⟩, ?_⟩, List.mem_append_left v hc⟩
        · intro m hm
          have := h m hm
          omega
        · rw [pow_succ']
          exact Language.append_mem_mul hu hv
      · rintro ⟨w, ⟨n, -, hw⟩, hc⟩
        exact exists_mem_of_mem_pow hw hc
    · rename_i h
      constructor
      · intro hc
        exact absurd hc (CharSet.not_mem_empty c)
      · rintro ⟨w, ⟨n, hn, hw⟩, hc⟩
        refine absurd ?_ h
        simp only [Option.all_eq_true, Bool.and_eq_true, decide_eq_true_eq]
        intro m hm
        have hle := hn.2 m hm
        have hleast := hn.1
        -- a text with a character in it takes at least one round.
        cases n with
        | zero =>
          obtain rfl := (Language.mem_one _).1 hw
          cases hc
        | succ n => omega

end Shape

end AbnfPatterns
