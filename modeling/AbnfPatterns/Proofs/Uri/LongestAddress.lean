import AbnfPatterns.Proofs.Regex.Preference
import AbnfPatterns.Proofs.Uri.Address

/-!
# Addresses inside of texts

A search for an address that may be followed by anything takes the whole of it.
-/

namespace AbnfPatterns.Uri

open UriRules (decOctet ipv4address h16 h16Colon ls32 ipv6address)
open Pattern

variable {a b n : Nat} {u v w x y : List Char}

/-! ### Numbers and dotted addresses -/

/-- The longer ones of the alternatives for numbers come first. -/
theorem longestFirst_decOctet : decOctet.pattern.LongestFirst :=
  longestFirst_anyOf_of_widths [3, 3, 3, 2, 1] (by decide +kernel) (by decide)

theorem longestFirst_ipv4address : ipv4address.pattern.LongestFirst := by
  have hnumber : PrefixFree (decOctet.pattern ++ literal ".").texts :=
    prefixFree_append_literal (d := '.') (by simp) (by decide +kernel)
  refine LongestFirst.append ?_ longestFirst_decOctet
  -- the dots tell the numbers in front of the last one apart
  have hnumbers := (hnumber.mul hnumber).mul hnumber
  simpa only [texts_append, mul_assoc] using hnumbers

theorem prefixFree_h16Colon : PrefixFree h16Colon.texts :=
  prefixFree_append_literal (d := ':') (by simp) (by decide +kernel)

theorem longestFirst_h16 : h16.pattern.LongestFirst :=
  longestFirst_repeated_charIn _ _

theorem longestFirst_ls32 : ls32.pattern.LongestFirst := by
  refine longestFirst_anyOf ?_ ?_
  · simp only [List.forall_mem_cons, List.not_mem_nil, false_imp_iff, implies_true, and_true]
    exact ⟨LongestFirst.append prefixFree_h16Colon longestFirst_h16, longestFirst_ipv4address⟩
  · refine List.pairwise_pair.2 fun u hu v hv h => ?_
    -- two groups have a colon between them, and a dotted address has none
    have hcolon : ':' ∈ u := by
      rw [List.append_assoc, mem_texts_append_literal_append] at hu
      obtain ⟨g, -, g', -, rfl⟩ := hu
      simp
    exact absurd (h.mem hcolon) (IsDotted.colon_not_mem (mem_texts_ipv4address.1 hv))

/-! ### Counting by prefixes -/

namespace Pieces

variable {p q : Pieces}

theorem count_colon_flatMap {parts : List (List Char)} (h : ∀ g ∈ parts, ':' ∉ g) :
    (parts.flatMap (· ++ [':'])).count ':' = parts.length := by
  induction parts with
  | nil => rfl
  | cons g parts ih =>
    obtain ⟨hg, hparts⟩ := List.forall_mem_cons.1 h
    rw [List.flatMap_cons, List.count_append, List.count_append, List.count_eq_zero.2 hg,
      ih hparts, List.length_cons]
    simp [Nat.add_comm]

theorem count_colon_text (h : p.parts ≠ []) : p.text.count ':' + 1 = p.parts.length := by
  rw [← count_colon_flatMap fun g hg => (p.mem_parts hg).2, ← text_append_colon h,
    List.count_append, List.count_singleton_self]

theorem dot_mem_text_iff : '.' ∈ p.text ↔ p.dotted ≠ none := by
  constructor
  · intro h hdotted
    have hparts : p.parts ≠ [] := by
      intro hparts
      rw [text, hparts] at h
      cases h
    -- the dot would be in one of the groups
    have hmem : '.' ∈ p.text ++ [':'] := List.mem_append_left _ h
    rw [text_append_colon hparts, parts, hdotted, Option.toList_none, List.append_nil] at hmem
    obtain ⟨g, hg, hmem⟩ := List.mem_flatMap.1 hmem
    rcases List.mem_append.1 hmem with hmem | hmem
    · exact absurd ((p.isGroup g hg).2.2 '.' hmem) (by decide)
    · exact absurd (List.mem_singleton.1 hmem) (by decide)
  · intro h
    obtain ⟨d, hd⟩ := Option.ne_none_iff_exists'.1 h
    rw [text_of_dotted hd]
    exact List.mem_append_right _ (p.isDotted d hd).dot_mem

theorem text_ne_nil (h : p.parts ≠ []) : p.text ≠ [] := by
  obtain ⟨init, last, hparts⟩ := (List.eq_nil_or_concat' p.parts).resolve_left h
  have hlast := (p.mem_parts (w := last) (by simp [hparts])).1
  rw [text, hparts, ← flatMap_append_eq_intercalate]
  exact List.append_ne_nil_of_right_ne_nil _ hlast

theorem count_eq : p.count = p.parts.length + p.dotted.toList.length := by
  rw [count, parts, List.length_append]
  omega

/-- **Pieces that go on count no less**: there are no less colons, and there is a dot if there was
one. -/
theorem count_le_of_prefix (h : p.text <+: q.text) : p.count ≤ q.count := by
  have hdotted : p.dotted.toList.length ≤ q.dotted.toList.length := by
    cases hp : p.dotted with
    | none => exact Nat.zero_le _
    | some d =>
      have hdot : '.' ∈ p.text := dot_mem_text_iff.2 (by simp [hp])
      obtain ⟨e, he⟩ := Option.ne_none_iff_exists'.1 (dot_mem_text_iff.1 (h.mem hdot))
      rw [he]
      exact Nat.le_refl 1
  have hparts : p.parts.length ≤ q.parts.length := by
    by_cases hp : p.parts = []
    · rw [hp]
      exact Nat.zero_le _
    · have hq : q.parts ≠ [] := by
        intro hq
        rw [text, text, hq] at h
        exact text_ne_nil hp (List.prefix_nil.1 h)
      rw [← count_colon_text hp, ← count_colon_text hq]
      exact Nat.succ_le_succ (h.sublist.count_le ':')
  rw [count_eq, count_eq]
  omega

end Pieces

/-! ### The double colon -/

/-- A text without a double colon ends before the double colon that follows. -/
theorem prefix_of_prefix_doubled (hx : ¬ [':', ':'] <:+: x ++ [':'])
    (h : x <+: y ++ [':', ':'] ++ w) : x <+: y := by
  obtain ⟨t, ht⟩ := h
  rw [List.append_assoc] at ht
  rcases List.append_eq_append_iff.1 ht with ⟨s, rfl, -⟩ | ⟨s, rfl, hs⟩
  · exact List.prefix_append x s
  · cases s with
    | nil => simp
    | cons c s =>
      -- one colon at the end of `x`, or two, would make a double colon
      obtain ⟨rfl, htail⟩ := List.cons.inj hs
      obtain ⟨r, hr⟩ : ∃ r, s ++ [':'] = ':' :: r := by
        cases s with
        | nil => exact ⟨[], rfl⟩
        | cons d s =>
          obtain ⟨rfl, -⟩ := List.cons.inj htail
          exact ⟨s ++ [':'], rfl⟩
      refine absurd ⟨y, r, ?_⟩ hx
      simp [hr]

/-- What stands in front of the first double colon is the same, and so is what stands behind it. -/
theorem eq_of_prefix_doubled (hx : ¬ [':', ':'] <:+: x ++ [':']) (hy : ¬ [':', ':'] <:+: y ++ [':'])
    (h : x ++ [':', ':'] ++ u <+: y ++ [':', ':'] ++ v) : x = y ∧ u <+: v := by
  have hxy : x <+: y := by
    refine prefix_of_prefix_doubled hx (List.IsPrefix.trans ?_ h)
    rw [List.append_assoc]
    exact List.prefix_append x _
  have hyx : y <+: x := by
    obtain ⟨t, ht⟩ := h
    refine prefix_of_prefix_doubled (w := u ++ t) hy ⟨[':', ':'] ++ v, ?_⟩
    rw [← List.append_assoc, ← List.append_assoc, ht]
  obtain rfl := hxy.eq_of_length_le hyx.length_le
  exact ⟨rfl, (List.prefix_append_right_inj _).1 h⟩

theorem prefixFree_leftPattern (hb : b ≤ 7) :
    PrefixFree (leftPattern b ++ literal "::").texts := by
  intro u hu v hv h
  simp only [mem_texts_append, mem_texts_literal, mem_texts_leftPattern hb] at hu hv
  obtain ⟨_, ⟨p, -, -, rfl⟩, _, rfl, rfl⟩ := hu
  obtain ⟨_, ⟨q, -, -, rfl⟩, _, rfl, rfl⟩ := hv
  obtain ⟨heq, -⟩ := eq_of_prefix_doubled (u := []) (v := []) p.not_infix q.not_infix
    (by simpa using h)
  rw [heq]

/-! ### Alternatives for addresses -/

theorem longestFirst_times_append_ls32 (count : UInt64) :
    (h16Colon.times count ++ ls32.pattern).LongestFirst := by
  refine LongestFirst.append ?_ longestFirst_ls32
  rw [texts_times]
  exact prefixFree_h16Colon.pow _

theorem longestFirst_rightPattern (a : Nat) : (rightPattern a).LongestFirst := by
  match a with
  | 0 => exact longestFirst_nil
  | 1 => exact longestFirst_h16
  | 2 => exact longestFirst_ls32
  | 3 => exact LongestFirst.append prefixFree_h16Colon longestFirst_ls32
  | a + 4 => exact longestFirst_times_append_ls32 _

theorem longestFirst_elidedPattern (a : Nat) : (elidedPattern a).LongestFirst := by
  rw [elidedPattern, ← List.append_assoc]
  exact LongestFirst.append (prefixFree_leftPattern (Nat.sub_le 7 a)) (longestFirst_rightPattern a)

/-- **With more groups behind the double colon** a text is not the start of one with less. -/
theorem outlasts_elidedPattern (hab : b < a) (ha : a ≤ 7) :
    Outlasts (elidedPattern a).texts (elidedPattern b).texts := by
  intro u hu v hv h
  obtain ⟨left, right, -, rfl, -, rfl⟩ := (mem_texts_elidedPattern ha).1 hu
  obtain ⟨left', right', -, rfl, -, rfl⟩ := (mem_texts_elidedPattern (by omega)).1 hv
  obtain ⟨-, hright⟩ := eq_of_prefix_doubled left.not_infix left'.not_infix h
  exact absurd (Pieces.count_le_of_prefix hright) (Nat.not_le_of_lt hab)

/-- Eight groups do not go on with a double colon behind the first seven or less of them. -/
theorem outlasts_full (ha : a ≤ 7) :
    Outlasts (h16Colon.times 6 ++ ls32.pattern).texts (elidedPattern a).texts := by
  intro u hu v hv h
  rw [texts_append, texts_times] at hu
  obtain ⟨p, hcount, rfl⟩ := mem_texts_groups_ls32.1 hu
  obtain ⟨left, right, -, -, hle, rfl⟩ := (mem_texts_elidedPattern ha).1 hv
  have hcount' : (6 : UInt64).toNat + 2 ≤ left.count :=
    hcount ▸ Pieces.count_le_of_prefix (prefix_of_prefix_doubled p.not_infix h)
  have height : (6 : UInt64).toNat + 2 = 8 := rfl
  omega

theorem longestFirst_ipv6address : ipv6address.pattern.LongestFirst := by
  rw [ipv6address_pattern]
  refine longestFirst_anyOf ?_ ?_
  · intro p hp
    rcases List.mem_cons.1 hp with rfl | hp
    · exact longestFirst_times_append_ls32 6
    · obtain ⟨a, -, rfl⟩ := List.mem_map.1 hp
      exact longestFirst_elidedPattern a
  · have hle : ∀ a ∈ (List.range 8).reverse, a ≤ 7 := by decide
    have hdescending : (List.range 8).reverse.Pairwise fun a b => b < a := by decide
    refine List.pairwise_cons.2 ⟨?_, List.pairwise_map.2 (hdescending.imp_of_mem ?_)⟩
    · intro p hp
      obtain ⟨a, ha, rfl⟩ := List.mem_map.1 hp
      exact outlasts_full (hle a ha)
    · intro a b ha _ hab
      exact outlasts_elidedPattern hab (hle a ha)

/-! ### Fragments -/

/-- **The patterns for addresses and their numbers prefer the longest match.** -/
theorem longestFirst_address {p : Production}
    (hp : p ∈ [decOctet, ls32, ipv4address, ipv6address]) : p.pattern.LongestFirst := by
  simp only [List.mem_cons, List.not_mem_nil, or_false] at hp
  rcases hp with rfl | rfl | rfl | rfl
  · exact longestFirst_decOctet
  · exact longestFirst_ls32
  · exact longestFirst_ipv4address
  · exact longestFirst_ipv6address

/-- **A search for an address takes the whole of it**: at each place of a text, there is a preferred
match if there is any, and it is the longest one. -/
theorem preferredLength?_address {p : Production}
    (hp : p ∈ [decOctet, ls32, ipv4address, ipv6address]) (s : List Char) (place : Nat) :
    (preferredLength? p.fragment s place = none ↔ ∀ n, ¬ MatchesAt p.fragment s place n)
      ∧ ∀ n, preferredLength? p.fragment s place = some n →
        IsGreatest {m | MatchesAt p.fragment s place m} n := by
  have hmem : p ∈ UriRules.productions := by
    revert p
    simp [UriRules.productions]
  have hspellable := Standard.spellable_pattern (s := .rfc3986) hmem
  exact ⟨preferredLength?_eq_none_iff hspellable,
    fun n hn => (longestFirst_address hp).isGreatest hspellable hn⟩

/-- The search goes on from the group `1` to the dotted address, and to the last digit of it. -/
theorem preferredLength?_dottedAddress :
    ipv6address ∈ [decOctet, ls32, ipv4address, ipv6address]
      ∧ preferredLength? ipv6address.fragment "at ::1.2.3.45:80".toList 3 = some 10
      ∧ IsGreatest {m | MatchesAt ipv6address.fragment "at ::1.2.3.45:80".toList 3 m} 10 := by
  have hp : ipv6address ∈ [decOctet, ls32, ipv4address, ipv6address] := by simp
  have hpreferred :
      preferredLength? ipv6address.fragment "at ::1.2.3.45:80".toList 3 = some 10 := by
    rw [Production.fragment, preferredLength?_text (by decide +kernel)]
    decide +kernel
  exact ⟨hp, hpreferred, (preferredLength?_address hp _ _).2 10 hpreferred⟩

end AbnfPatterns.Uri
