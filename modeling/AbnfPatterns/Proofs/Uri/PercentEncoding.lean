import AbnfPatterns.Proofs.Regex.Preference
import AbnfPatterns.Proofs.Standard.Fragments
import AbnfPatterns.Proofs.Uri.Digits

/-!
# Percent-encoding

No rule for URIs cuts an encoded octet: in the shape of each of them, the percent sign occurs within
whole encoded octets only.
-/

namespace AbnfPatterns

/-! ### Confined characters -/

namespace Shape

/-- Whether a character occurs in the texts of a shape **within whole texts of a unit only**. -/
def confines (c : Char) (unit : Shape) : Shape → Bool
  | never => true
  | nothing => true
  | oneOf s => decide (c ∉ s)
  | concat a b => decide (concat a b = unit) || (confines c unit a && confines c unit b)
  | either a b => confines c unit a && confines c unit b
  | repeated _ _ item => confines c unit item

variable {P : List Char → Prop} {c : Char} {unit a : Shape} {L : Language Char} {w : List Char}

theorem forall_mem_pow (hnil : P []) (happend : ∀ {u v}, P u → P v → P (u ++ v))
    (hL : ∀ w ∈ L, P w) {n : Nat} (hw : w ∈ L ^ n) : P w := by
  induction n generalizing w with
  | zero =>
    obtain rfl := (Language.mem_one w).1 hw
    exact hnil
  | succ n ih =>
    rw [pow_succ', Language.mem_mul] at hw
    obtain ⟨u, hu, v, hv, rfl⟩ := hw
    exact happend (hL u hu) (ih hv)

/-- **A property that joining keeps** holds for the texts of a shape that confines a character, if
it holds for the texts of the unit and for all other characters. -/
theorem forall_mem_of_confines (hnil : P []) (happend : ∀ {u v}, P u → P v → P (u ++ v))
    (hunit : ∀ w ∈ unit.language, P w) (hother : ∀ d, d ≠ c → P [d])
    (ha : confines c unit a = true) : ∀ w ∈ a.language, P w := by
  induction a with
  | never => exact fun w hw => absurd hw not_mem_language_never
  | nothing =>
    intro w hw
    rw [mem_language_nothing.1 hw]
    exact hnil
  | oneOf s =>
    rintro _ ⟨d, hd, rfl⟩
    refine hother d ?_
    rintro rfl
    exact of_decide_eq_true ha hd
  | concat a b iha ihb =>
    rw [confines, Bool.or_eq_true, Bool.and_eq_true, decide_eq_true_eq] at ha
    rcases ha with rfl | ⟨ha, hb⟩
    · exact hunit
    · intro w hw
      obtain ⟨u, v, rfl, hu, hv⟩ := mem_language_concat.1 hw
      exact happend (iha ha u hu) (ihb hb v hv)
  | either a b iha ihb =>
    rw [confines, Bool.and_eq_true] at ha
    exact fun w hw => (mem_language_either.1 hw).elim (iha ha.1 w) (ihb ha.2 w)
  | repeated least most item ih =>
    rintro w ⟨n, -, hw⟩
    exact forall_mem_pow hnil happend (ih ha) hw

end Shape

/-! ### Encoded octets -/

/-- **Every percent sign has two hexadecimal digits behind it**, all within the text. -/
def IsPercentEncoded (w : List Char) : Prop :=
  ∀ i, w[i]? = some '%' → (∃ c ∈ w[i + 1]?, IsHexDigit c) ∧ ∃ d ∈ w[i + 2]?, IsHexDigit d

namespace IsPercentEncoded

variable {u v : List Char}

theorem nil : IsPercentEncoded [] := by
  intro i hi
  cases hi

theorem singleton {c : Char} (hc : c ≠ '%') : IsPercentEncoded [c] := by
  intro i hi
  rw [List.getElem?_singleton] at hi
  split at hi
  · exact absurd (Option.some.inj hi) hc
  · cases hi

theorem append (hu : IsPercentEncoded u) (hv : IsPercentEncoded v) : IsPercentEncoded (u ++ v) := by
  have hleft : ∀ {j : Nat} {c : Char}, u[j]? = some c → (u ++ v)[j]? = some c := by
    intro j c h
    rw [List.getElem?_append_left (List.getElem?_eq_some_iff.1 h).1, h]
  intro i hi
  rcases Nat.lt_or_ge i u.length with hlt | hge
  · -- the digits are in the first text as well
    rw [List.getElem?_append_left hlt] at hi
    obtain ⟨⟨c, hc, hcdigit⟩, d, hd, hddigit⟩ := hu i hi
    exact ⟨⟨c, hleft hc, hcdigit⟩, d, hleft hd, hddigit⟩
  · rw [List.getElem?_append_right hge] at hi
    rw [List.getElem?_append_right (by omega), List.getElem?_append_right (by omega),
      Nat.sub_add_comm hge, Nat.sub_add_comm hge]
    exact hv _ hi

/-- An encoded octet has its one percent sign at the start. -/
theorem octet {c d : Char} (hc : IsHexDigit c) (hd : IsHexDigit d) :
    IsPercentEncoded ['%', c, d] := by
  have hpercent : ¬ IsHexDigit '%' := by decide
  intro i hi
  match i with
  | 0 => exact ⟨⟨c, rfl, hc⟩, d, rfl, hd⟩
  | 1 =>
    cases hi
    exact absurd hc hpercent
  | 2 =>
    cases hi
    exact absurd hd hpercent
  | i + 3 => cases hi

end IsPercentEncoded

namespace Uri

open UriRules (pctEncoded)
open Pattern

theorem mem_texts_pctEncoded {w : List Char} :
    w ∈ pctEncoded.pattern.texts ↔ ∃ c d, IsHexDigit c ∧ IsHexDigit d ∧ w = ['%', c, d] := by
  rw [pctEncoded, mem_texts_literal_append]
  simp only [mem_texts_times_two (f := id) fun _ => mem_texts_hexdig]
  constructor
  · rintro ⟨_, ⟨c, d, hc, hd, rfl⟩, rfl⟩
    exact ⟨c, d, hc, hd, rfl⟩
  · rintro ⟨c, d, hc, hd, rfl⟩
    exact ⟨_, ⟨c, d, hc, hd, rfl⟩, rfl⟩

/-- The shape of an encoded octet. -/
def octetShape : Shape :=
  pctEncoded.pattern.shape false

theorem isPercentEncoded_of_confines {p : Pattern} {w : List Char}
    (hp : Shape.confines '%' octetShape (p.shape false) = true) (hw : w ∈ p.texts) :
    IsPercentEncoded w := by
  refine Shape.forall_mem_of_confines .nil .append ?_ (fun d => .singleton) hp w hw
  intro w hw
  obtain ⟨c, d, hc, hd, rfl⟩ := mem_texts_pctEncoded.1 hw
  exact .octet hc hd

theorem confines_uriRules : ∀ p ∈ UriRules.productions,
    Shape.confines '%' octetShape (p.pattern.shape false) = true := by
  decide +kernel

/-- The HTTP rules for identifiers, which are made of rules for URIs. -/
def identifierNames : List String :=
  ["ABSOLUTE-PATH", "PARTIAL-URI", "HTTP-URI", "HTTPS-URI"]

theorem confines_httpRules : ∀ p ∈ HttpRules.productions, p.name ∈ identifierNames →
    Shape.confines '%' octetShape (p.pattern.shape false) = true := by
  decide +kernel

/-- **What a rule for URIs matches is percent-encoded**: no percent sign is without the two digits
behind it. -/
theorem isPercentEncoded_of_fragmentMatches {key : String} {rule : Rule} {w : List Char}
    (h : (key, rule) ∈ Standard.rfc3986.grammar.table.entries
      ∨ (key, rule) ∈ Standard.rfc9110.grammar.table.entries ∧ rule.name ∈ identifierNames)
    (hw : FragmentMatches rule.fragment w) : IsPercentEncoded w := by
  rw [Standard.entries_table, Standard.entries_table] at h
  rcases h with h | ⟨h, hname⟩
  · obtain ⟨p, hp, heq⟩ := List.mem_map.1 h
    cases heq
    exact isPercentEncoded_of_confines (confines_uriRules p hp)
      ((Standard.fragmentMatches_iff (s := .rfc3986) hp).1 hw)
  · obtain ⟨p, hp, heq⟩ := List.mem_map.1 h
    cases heq
    exact isPercentEncoded_of_confines (confines_httpRules p hp hname)
      ((Standard.fragmentMatches_iff (s := .rfc9110) hp).1 hw)

/-- An identifier of an origin server with an octet in its path and another one in its query. -/
theorem isPercentEncoded_httpUri :
    (HttpRules.httpUri.key, HttpRules.httpUri.rule) ∈ Standard.rfc9110.grammar.table.entries
      ∧ HttpRules.httpUri.name ∈ identifierNames
      ∧ FragmentMatches HttpRules.httpUri.fragment "Http://h/%c3?a%3D1".toList
      ∧ IsPercentEncoded "Http://h/%c3?a%3D1".toList := by
  have hmem : HttpRules.httpUri ∈ HttpRules.productions := by simp [HttpRules.productions]
  have hentry : (HttpRules.httpUri.key, HttpRules.httpUri.rule)
      ∈ Standard.rfc9110.grammar.table.entries := by
    rw [Standard.entries_table]
    exact List.mem_map_of_mem hmem
  have hname : HttpRules.httpUri.name ∈ identifierNames := by decide
  have hw : FragmentMatches HttpRules.httpUri.fragment "Http://h/%c3?a%3D1".toList := by
    refine (Pattern.fragmentMatches_text_iff_nil_mem
      (Standard.spellable_pattern (s := .rfc9110) hmem)).2 ?_
    decide +kernel
  exact ⟨hentry, hname, hw, isPercentEncoded_of_fragmentMatches (.inr ⟨hentry, hname⟩) hw⟩

end Uri

end AbnfPatterns
