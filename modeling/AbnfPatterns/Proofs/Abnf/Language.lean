import AbnfPatterns.Abnf.Derivation
import AbnfPatterns.Proofs.Regex.Language

/-!
# Languages of right-hand sides

What a right-hand side derives is the language of a shape.
-/

namespace AbnfPatterns

/-- A **reference** to a rule: the standard whose names count, and the name. -/
abbrev RuleReference := Standard × List Char

def RuleReference.Derives (r : RuleReference) (w : List Char) : Prop :=
  AbnfPatterns.Derives r.1 (.rule r.2) w

namespace CharSet

def casesOf (c : Char) : CharSet :=
  (CharSet.empty.insert c.toLower).insert c.toLower.toUpper

theorem toLower_lower : ∀ n < 26,
    (Char.ofNat ('a'.toNat + n)).toLower = Char.ofNat ('a'.toNat + n) := by
  decide

theorem toLower_toLower (c : Char) : c.toLower.toLower = c.toLower := by
  by_cases h : c.toLower = c
  · rw [h, h]
  · obtain ⟨n, hn, rfl⟩ := exists_upper h
    rw [(toLower_toUpper_letter n hn).2, toLower_lower n hn]

theorem toLower_toUpper {c : Char} (h : c.toLower = c) : c.toUpper.toLower = c := by
  by_cases hc : c.toUpper = c
  · rw [hc, h]
  · obtain ⟨n, hn, rfl⟩ := exists_lower hc
    rw [(toLower_toUpper_letter n hn).1, (toLower_toUpper_letter n hn).2]

/-- The cases of a character are the characters that differ from it at most in case. -/
theorem mem_casesOf {c d : Char} : d ∈ casesOf c ↔ d.toLower = c.toLower := by
  have hlower := toLower_toLower c
  rw [casesOf, mem_insert, mem_insert]
  constructor
  · rintro (rfl | rfl | h)
    · exact toLower_toUpper hlower
    · exact hlower
    · exact absurd h (not_mem_empty d)
  · intro h
    -- `d` is the lower case itself, or the capital letter above it
    by_cases hd : d.toLower = d
    · exact .inr (.inl (hd.symm.trans h))
    · obtain ⟨n, hn, rfl⟩ := exists_upper hd
      refine .inl ?_
      rw [← h, (toLower_toUpper_letter n hn).2, (toLower_toUpper_letter n hn).1]

end CharSet

namespace Abnf

def references (s : Standard) : Abnf → List RuleReference
  | rule name => [(s, name)]
  | quoted _ _ => []
  | codes _ _ => []
  | prose text => [(.rfc3986, text.takeWhile RuleName.isNameChar)]
  | repeated _ _ item => item.references s
  | concat a b => a.references s ++ b.references s
  | either a b => a.references s ++ b.references s

def rowOf (sets : List CharSet) : Shape :=
  sets.foldr (fun s rest => .concat (.oneOf s) rest) .nothing

/-- **The shape of a right-hand side**, given the shapes of the rules that it refers to. -/
def shape? (ruleShape? : RuleReference → Option Shape) (s : Standard) : Abnf → Option Shape
  | rule name => ruleShape? (s, name)
  | quoted true text => some (rowOf (text.map fun c => (∅ : CharSet).insert c))
  | quoted false text => some (rowOf (text.map CharSet.casesOf))
  | codes lo hi =>
    if lo < 0xD800 ∧ hi < 0xD800 then some (.oneOf (.ofRange (Char.ofNat lo) (Char.ofNat hi)))
    else none
  | prose text => ruleShape? (.rfc3986, text.takeWhile RuleName.isNameChar)
  | repeated least most item => (item.shape? ruleShape? s).map (.repeated least most)
  | concat a b =>
    match a.shape? ruleShape? s, b.shape? ruleShape? s with
    | some a, some b => some (.concat a b)
    | _, _ => none
  | either a b =>
    match a.shape? ruleShape? s, b.shape? ruleShape? s with
    | some a, some b => some (.either a b)
    | _, _ => none

end Abnf

/-! ### Derivations, one constructor at a time -/

section

variable {s : Standard} {a b item : Abnf} {w : List Char}

theorem derives_exactly_iff {text : List Char} : Derives s (.quoted true text) w ↔ w = text := by
  constructor
  · intro h
    cases h with
    | exactly => rfl
  · rintro rfl
    exact .exactly

theorem derives_ignoringCase_iff {text : List Char} :
    Derives s (.quoted false text) w ↔ w.map Char.toLower = text.map Char.toLower := by
  constructor
  · intro h
    cases h with
    | ignoringCase same => exact same
  · exact .ignoringCase

theorem derives_codes_iff {lo hi : Nat} :
    Derives s (.codes lo hi) w ↔ ∃ c, w = [c] ∧ lo ≤ c.toNat ∧ c.toNat ≤ hi := by
  constructor
  · intro h
    cases h with
    | code le_code code_le => exact ⟨_, rfl, le_code, code_le⟩
  · rintro ⟨c, rfl, le_code, code_le⟩
    exact .code le_code code_le

theorem derives_concat_iff :
    Derives s (.concat a b) w ↔ ∃ u v, w = u ++ v ∧ Derives s a u ∧ Derives s b v := by
  constructor
  · intro h
    cases h with
    | concat first second => exact ⟨_, _, rfl, first, second⟩
  · rintro ⟨u, v, rfl, first, second⟩
    exact .concat first second

theorem derives_either_iff : Derives s (.either a b) w ↔ Derives s a w ∨ Derives s b w := by
  constructor
  · intro h
    cases h with
    | left derived => exact .inl derived
    | right derived => exact .inr derived
  · rintro (h | h)
    · exact .left h
    · exact .right h

theorem derives_prose_iff {text : List Char} :
    Derives s (.prose text) w ↔
      RuleReference.Derives (.rfc3986, text.takeWhile RuleName.isNameChar) w := by
  constructor
  · intro h
    cases h with
    | prose found read derived => exact .rule found read derived
  · intro h
    cases h with
    | rule found read derived => exact .prose found read derived

/-- A round less is within bounds that are lower by one. -/
theorem within_succ {least n : Nat} {most : Option Nat} :
    Shape.Within least most (n + 1) ↔
      most ≠ some 0 ∧ Shape.Within (least - 1) (most.map (· - 1)) n := by
  cases most with
  | none =>
    simp only [Shape.Within, Option.mem_def, reduceCtorEq, false_implies, implies_true, and_true,
      ne_eq, not_false_eq_true, true_and, Option.map_none]
    omega
  | some m =>
    simp only [Shape.Within, Option.mem_def, Option.some.injEq, forall_eq', ne_eq,
      Option.map_some]
    omega

/-- **A repetition derives** what some number of rounds within its bounds derives. -/
theorem derives_repeated_iff {L : Language Char} (hitem : ∀ w, Derives s item w ↔ w ∈ L)
    {least : Nat} {most : Option Nat} :
    Derives s (.repeated least most item) w ↔ ∃ n, Shape.Within least most n ∧ w ∈ L ^ n := by
  constructor
  · intro h
    -- by induction on the derivation, the bounds being lowered round by round
    generalize hbody : Abnf.repeated least most item = body at h
    induction h generalizing least most with
    | stop =>
      cases hbody
      exact ⟨0, ⟨Nat.le_refl 0, fun _ _ => Nat.zero_le _⟩, Language.nil_mem_one⟩
    | round allowed first others _ ih =>
      cases hbody
      obtain ⟨n, hn, hv⟩ := ih hitem rfl
      refine ⟨n + 1, within_succ.2 ⟨allowed, hn⟩, ?_⟩
      rw [pow_succ']
      exact Language.append_mem_mul ((hitem _).1 first) hv
    | _ => cases hbody
  · rintro ⟨n, hn, hw⟩
    induction n generalizing least most w with
    | zero =>
      obtain rfl := (Language.mem_one _).1 hw
      obtain rfl := Nat.le_zero.1 hn.1
      exact .stop
    | succ n ih =>
      obtain ⟨allowed, hn⟩ := within_succ.1 hn
      rw [pow_succ', Language.mem_mul] at hw
      obtain ⟨u, hu, v, hv, rfl⟩ := hw
      exact .round allowed ((hitem u).2 hu) (ih hn hv)

end

/-! ### Texts of the shape -/

namespace Abnf

theorem mem_language_rowOf {sets : List CharSet} {w : List Char} :
    w ∈ (rowOf sets).language ↔ List.Forall₂ (· ∈ ·) w sets := by
  induction sets generalizing w with
  | nil =>
    rw [List.forall₂_nil_right_iff]
    exact Shape.mem_language_nothing
  | cons s sets ih =>
    rw [rowOf, List.foldr_cons, ← rowOf, Shape.mem_language_concat, List.forall₂_cons_right_iff]
    constructor
    · rintro ⟨u, v, rfl, ⟨c, hc, rfl⟩, hv⟩
      exact ⟨c, v, hc, ih.1 hv, rfl⟩
    · rintro ⟨c, v, hc, hv, rfl⟩
      exact ⟨[c], v, rfl, ⟨c, hc, rfl⟩, ih.2 hv⟩

/-- A row of sets has the texts whose characters are in them, place by place. -/
theorem mem_language_row {text w : List Char} {set : Char → CharSet} {f : Char → Char}
    (hset : ∀ c d, d ∈ set c ↔ f d = f c) :
    w ∈ (rowOf (text.map set)).language ↔ w.map f = text.map f := by
  have heq : w.map f = text.map f ↔ List.Forall₂ (fun d c => f d = f c) w text := by
    rw [← List.forall₂_eq_eq_eq, List.forall₂_map_left_iff, List.forall₂_map_right_iff]
  rw [mem_language_rowOf, List.forall₂_map_right_iff, heq]
  simp only [hset]

theorem toNat_ofNat_of_lt {n : Nat} (h : n < 0xD800) : (Char.ofNat n).toNat = n := by
  have hvalid : n.isValidChar := .inl h
  rw [Char.ofNat, dif_pos hvalid]
  rfl

/-- **A right-hand side derives the texts of its shape**, if the rules that it refers to derive the
texts of theirs. -/
theorem derives_iff_mem_language {ruleShape? : RuleReference → Option Shape} {s : Standard}
    {body : Abnf} {shape : Shape} (hshape : body.shape? ruleShape? s = some shape)
    (hrules : ∀ r ∈ body.references s, ∀ t, ruleShape? r = some t →
      ∀ w, r.Derives w ↔ w ∈ t.language) (w : List Char) :
    Derives s body w ↔ w ∈ shape.language := by
  induction body generalizing shape w with
  | rule name =>
    exact hrules _ (List.mem_singleton.2 rfl) shape hshape w
  | quoted caseSensitive text =>
    cases caseSensitive with
    | true =>
      cases hshape
      have hset : ∀ c d, d ∈ (∅ : CharSet).insert c ↔ id d = id c := by
        simp [CharSet.mem_insert]
      rw [derives_exactly_iff, mem_language_row hset, List.map_id, List.map_id]
    | false =>
      cases hshape
      rw [derives_ignoringCase_iff, mem_language_row fun c d => CharSet.mem_casesOf]
  | codes lo hi =>
    simp only [shape?] at hshape
    split at hshape
    · rename_i hvalid
      -- below the surrogates every code point is a character
      cases hshape
      have hlo : (Char.ofNat lo).toNat = lo := toNat_ofNat_of_lt hvalid.1
      have hhi : (Char.ofNat hi).toNat = hi := toNat_ofNat_of_lt hvalid.2
      simp only [derives_codes_iff, Shape.mem_language_oneOf, CharSet.mem_ofRange, hlo, hhi,
        and_comm]
    · cases hshape
  | prose text =>
    rw [derives_prose_iff]
    exact hrules _ (List.mem_singleton.2 rfl) shape hshape w
  | repeated least most item ih =>
    obtain ⟨t, ht, rfl⟩ := Option.map_eq_some_iff.1 hshape
    rw [derives_repeated_iff (ih ht hrules)]
    rfl
  | concat a b iha ihb =>
    simp only [shape?] at hshape
    split at hshape
    · rename_i ta tb hta htb
      cases hshape
      have ha := iha hta fun r hr => hrules r (List.mem_append_left _ hr)
      have hb := ihb htb fun r hr => hrules r (List.mem_append_right _ hr)
      rw [derives_concat_iff, Shape.mem_language_concat]
      simp only [ha, hb]
    · cases hshape
  | either a b iha ihb =>
    simp only [shape?] at hshape
    split at hshape
    · rename_i ta tb hta htb
      cases hshape
      have ha := iha hta fun r hr => hrules r (List.mem_append_left _ hr)
      have hb := ihb htb fun r hr => hrules r (List.mem_append_right _ hr)
      rw [derives_either_iff, Shape.mem_language_either, ha, hb]
    · cases hshape

end Abnf

end AbnfPatterns
