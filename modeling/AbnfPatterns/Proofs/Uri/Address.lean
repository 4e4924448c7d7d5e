import Mathlib.Data.List.Chain
import AbnfPatterns.Proofs.Standard.Fragments
import AbnfPatterns.Proofs.Uri.Digits

/-!
# Addresses

The rule for addresses of 128 bits lists nine alternatives, one for each number of groups behind the
double colon and one without it.  Together they say no more than a law of counting.
-/

namespace AbnfPatterns.Uri

open UriRules (decOctet ipv4address h16 h16Colon ls32 leadingPieces ipv6address)
open Pattern

/-! ### The counting law -/

/-- A **group** of an address: one to four hexadecimal digits. -/
def IsGroup (w : List Char) : Prop :=
  1 ≤ w.length ∧ w.length ≤ 4 ∧ ∀ c ∈ w, IsHexDigit c

/-- A **dotted address**: four decimal numerals below 256 with dots between them. -/
def IsDotted (w : List Char) : Prop :=
  ∃ a < 256, ∃ b < 256, ∃ c < 256, ∃ d < 256,
    w = ['.'].intercalate ([a, b, c, d].map (Nat.toDigits 10))

/-- **Groups, and a dotted address behind them** if there is one. -/
structure Pieces where
  groups : List (List Char)
  dotted : Option (List Char)
  isGroup : ∀ g ∈ groups, IsGroup g
  isDotted : ∀ d ∈ dotted, IsDotted d

namespace Pieces

def parts (p : Pieces) : List (List Char) :=
  p.groups ++ p.dotted.toList

/-- The parts with colons between them. -/
def text (p : Pieces) : List Char :=
  [':'].intercalate p.parts

/-- How many groups the pieces stand for: a dotted address stands for two. -/
def count (p : Pieces) : Nat :=
  p.groups.length + 2 * p.dotted.toList.length

end Pieces

/-- **The counting law of addresses.** -/
inductive IsAddress : List Char → Prop where
  /-- Eight groups, or six and a dotted address. -/
  | full (p : Pieces) (hcount : p.count = 8) (hsingle : ¬ [':', ':'] <:+: p.text) :
      IsAddress p.text
  /-- Groups, a double colon, and further pieces; all together they leave out a group. -/
  | elided (left right : Pieces) (hleft : left.dotted = none)
      (hcount : left.count + right.count ≤ 7) :
      IsAddress (left.text ++ [':', ':'] ++ right.text)

/-! ### Parts -/

variable {w : List Char} {n : Nat}

theorem mem_texts_h16 : w ∈ h16.pattern.texts ↔ IsGroup w := by
  rw [h16, mem_texts_between]
  simp only [mem_pow_of_single (fun w => mem_texts_hexdig (w := w))]
  constructor
  · rintro ⟨n, hleast, hmost, rfl, hchars⟩
    exact ⟨hleast, hmost, hchars⟩
  · rintro ⟨hleast, hmost, hchars⟩
    exact ⟨w.length, hleast, hmost, rfl, hchars⟩

theorem mem_texts_ipv4address : w ∈ ipv4address.pattern.texts ↔ IsDotted w := by
  simp only [ipv4address, List.append_assoc, mem_texts_append_literal_append, mem_texts_decOctet]
  constructor
  · rintro ⟨_, ⟨a, ha, rfl⟩, _, ⟨_, ⟨b, hb, rfl⟩, _, ⟨_, ⟨c, hc, rfl⟩, _, ⟨d, hd, rfl⟩, rfl⟩,
      rfl⟩, rfl⟩
    exact ⟨a, ha, b, hb, c, hc, d, hd, by simp [List.intercalate_cons_cons]⟩
  · rintro ⟨a, ha, b, hb, c, hc, d, hd, rfl⟩
    exact ⟨_, ⟨a, ha, rfl⟩, _, ⟨_, ⟨b, hb, rfl⟩, _, ⟨_, ⟨c, hc, rfl⟩, _, ⟨d, hd, rfl⟩, rfl⟩,
      rfl⟩, by simp [List.intercalate_cons_cons]⟩

/-- Two groups with a colon between them, or a dotted address. -/
theorem texts_ls32 :
    ls32.pattern.texts = h16Colon.texts * h16.pattern.texts + ipv4address.pattern.texts := by
  ext w
  rw [Language.mem_add, ← texts_append, ls32, mem_texts_anyOf]
  simp only [List.mem_cons, List.not_mem_nil, or_false, exists_eq_or_imp, exists_eq_left]
  exact Iff.rfl

/-! ### Rows of groups -/

theorem flatMap_append_eq_intercalate (gs : List (List Char)) (t : List Char) :
    gs.flatMap (· ++ [':']) ++ t = [':'].intercalate (gs ++ [t]) := by
  induction gs with
  | nil => simp
  | cons g gs ih =>
    obtain ⟨h, rest, hrest⟩ := List.exists_cons_of_ne_nil (l := gs ++ [t]) (by simp)
    rw [List.flatMap_cons, List.append_assoc, ih, List.cons_append, hrest,
      List.intercalate_cons_cons]

theorem mem_texts_h16Colon_pow :
    w ∈ h16Colon.texts ^ n ↔
      ∃ gs : List (List Char), gs.length = n ∧ (∀ g ∈ gs, IsGroup g)
        ∧ w = gs.flatMap (· ++ [':']) := by
  induction n generalizing w with
  | zero =>
    rw [pow_zero, Language.mem_one]
    constructor
    · rintro rfl
      exact ⟨[], rfl, by simp, rfl⟩
    · rintro ⟨gs, hgs, -, rfl⟩
      rw [List.length_eq_zero_iff.1 hgs]
      rfl
  | succ n ih =>
    rw [pow_succ', Language.mem_mul]
    simp only [h16Colon, mem_texts_append, mem_texts_h16, mem_texts_literal] at ih ⊢
    constructor
    · rintro ⟨_, ⟨g, hg, _, rfl, rfl⟩, v, hv, rfl⟩
      obtain ⟨gs, rfl, hgs, rfl⟩ := ih.1 hv
      exact ⟨g :: gs, rfl, List.forall_mem_cons.2 ⟨hg, hgs⟩, rfl⟩
    · rintro ⟨gs, hlength, hgs, rfl⟩
      cases gs with
      | nil => cases hlength
      | cons g gs =>
        obtain ⟨hg, hgs⟩ := List.forall_mem_cons.1 hgs
        exact ⟨_, ⟨g, hg, _, rfl, rfl⟩, _, ih.2 ⟨gs, Nat.succ.inj hlength, hgs, rfl⟩, rfl⟩

/-- The last entry of a list with one more. -/
theorem exists_snoc_of_length {gs : List (List Char)} (h : gs.length = n + 1) :
    ∃ init last, gs = init ++ [last] ∧ init.length = n := by
  rcases List.eq_nil_or_concat' gs with rfl | ⟨init, last, rfl⟩
  · cases h
  · exact ⟨init, last, rfl, by simpa using h⟩

namespace Pieces

variable {p : Pieces} {gs : List (List Char)} {g d : List Char}

/-- Pieces without a dotted address. -/
def ofGroups (gs : List (List Char)) (h : ∀ g ∈ gs, IsGroup g) : Pieces :=
  ⟨gs, none, h, fun _ hd => nomatch hd⟩

theorem count_eq_length (h : p.dotted = none) : p.count = p.groups.length := by
  rw [count, h]
  rfl

theorem text_of_groups (h : p.dotted = none) (hgroups : p.groups = gs ++ [g]) :
    p.text = gs.flatMap (· ++ [':']) ++ g := by
  rw [text, parts, h, Option.toList_none, List.append_nil, hgroups, flatMap_append_eq_intercalate]

theorem text_of_dotted (h : p.dotted = some d) :
    p.text = p.groups.flatMap (· ++ [':']) ++ d := by
  rw [text, parts, h, Option.toList_some, flatMap_append_eq_intercalate]

end Pieces

/-- Groups, the last one without a colon behind it. -/
theorem mem_texts_groups :
    w ∈ h16Colon.texts ^ n * h16.pattern.texts ↔
      ∃ p : Pieces, p.dotted = none ∧ p.count = n + 1 ∧ w = p.text := by
  simp only [Language.mem_mul, mem_texts_h16Colon_pow, mem_texts_h16]
  constructor
  · rintro ⟨_, ⟨gs, rfl, hgs, rfl⟩, g, hg, rfl⟩
    have hgroups : ∀ h ∈ gs ++ [g], IsGroup h := by
      simpa [or_imp, forall_and] using ⟨hgs, hg⟩
    refine ⟨Pieces.ofGroups (gs ++ [g]) hgroups, rfl, ?_, (Pieces.text_of_groups rfl rfl).symm⟩
    exact (Pieces.count_eq_length rfl).trans List.length_append
  · rintro ⟨p, hdotted, hcount, rfl⟩
    rw [Pieces.count_eq_length hdotted] at hcount
    obtain ⟨gs, g, hsnoc, hlength⟩ := exists_snoc_of_length hcount
    have hgroups := p.isGroup
    simp only [hsnoc, List.forall_mem_append, List.forall_mem_singleton] at hgroups
    exact ⟨_, ⟨gs, hlength, hgroups.1, rfl⟩, g, hgroups.2,
      (Pieces.text_of_groups hdotted hsnoc).symm⟩

/-- Groups with a dotted address behind them. -/
theorem mem_texts_groups_dotted :
    w ∈ h16Colon.texts ^ n * ipv4address.pattern.texts ↔
      ∃ p : Pieces, p.dotted ≠ none ∧ p.count = n + 2 ∧ w = p.text := by
  simp only [Language.mem_mul, mem_texts_h16Colon_pow, mem_texts_ipv4address]
  constructor
  · rintro ⟨_, ⟨gs, rfl, hgs, rfl⟩, d, hd, rfl⟩
    have hdotted : ∀ e ∈ some d, IsDotted e := by
      rintro _ ⟨⟩
      exact hd
    refine ⟨⟨gs, some d, hgs, hdotted⟩, nofun, rfl, ?_⟩
    rw [Pieces.text_of_dotted rfl]
  · rintro ⟨p, hdotted, hcount, rfl⟩
    obtain ⟨d, hd⟩ := Option.ne_none_iff_exists'.1 hdotted
    have hlength : p.groups.length = n := by
      rw [Pieces.count, hd] at hcount
      simpa using hcount
    exact ⟨_, ⟨p.groups, hlength, p.isGroup, rfl⟩, d, p.isDotted d hd,
      (Pieces.text_of_dotted hd).symm⟩

/-- Groups and the last two of them, which may be a dotted address. -/
theorem mem_texts_groups_ls32 :
    w ∈ h16Colon.texts ^ n * ls32.pattern.texts ↔
      ∃ p : Pieces, p.count = n + 2 ∧ w = p.text := by
  rw [texts_ls32, mul_add, ← mul_assoc, ← pow_succ, Language.mem_add, mem_texts_groups,
    mem_texts_groups_dotted]
  constructor
  · rintro (⟨p, -, hp⟩ | ⟨p, -, hp⟩)
    · exact ⟨p, hp⟩
    · exact ⟨p, hp⟩
  · rintro ⟨p, hp⟩
    by_cases hdotted : p.dotted = none
    · exact .inl ⟨p, hdotted, hp⟩
    · exact .inr ⟨p, hdotted, hp⟩

/-! ### No double colon inside -/

/-- Not a colon behind a colon. -/
def Apart (c d : Char) : Prop :=
  ¬ (c = ':' ∧ d = ':')

theorem IsGroup.colon_not_mem (h : IsGroup w) : ':' ∉ w :=
  fun hmem => absurd (h.2.2 ':' hmem) (by decide)

theorem IsGroup.ne_nil (h : IsGroup w) : w ≠ [] :=
  List.ne_nil_of_length_pos h.1

theorem IsDotted.colon_not_mem (h : IsDotted w) : ':' ∉ w :=
  not_mem_of_texts (mem_texts_ipv4address.2 h) (by decide +kernel)

theorem IsDotted.dot_mem (h : IsDotted w) : '.' ∈ w := by
  obtain ⟨a, -, b, -, c, -, d, -, rfl⟩ := h
  simp [List.intercalate_cons_cons]

theorem Pieces.mem_parts {p : Pieces} (h : w ∈ p.parts) : w ≠ [] ∧ ':' ∉ w := by
  rcases List.mem_append.1 h with h | h
  · have hgroup := p.isGroup w h
    exact ⟨hgroup.ne_nil, hgroup.colon_not_mem⟩
  · have hdotted := p.isDotted w (Option.mem_toList.1 h)
    exact ⟨List.ne_nil_of_mem hdotted.dot_mem, hdotted.colon_not_mem⟩

/-- Texts with one colon behind each have no two colons in a row. -/
theorem isChain_flatMap {parts : List (List Char)} (h : ∀ g ∈ parts, g ≠ [] ∧ ':' ∉ g) :
    (parts.flatMap (· ++ [':'])).IsChain Apart := by
  induction parts with
  | nil => exact List.IsChain.nil
  | cons g parts ih =>
    obtain ⟨⟨-, hg⟩, hparts⟩ := List.forall_mem_cons.1 h
    have hchars : ∀ c ∈ g, c ≠ ':' := fun c hc heq => hg (heq ▸ hc)
    rw [List.flatMap_cons, List.append_assoc]
    refine List.isChain_append.2 ⟨?_, List.isChain_append.2 ⟨?_, ih hparts, ?_⟩, ?_⟩
    · refine List.Pairwise.isChain (List.pairwise_of_forall_mem_list fun c hc d _ => ?_)
      exact fun hcd => hchars c hc hcd.1
    · exact List.isChain_singleton _
    · -- the next text starts with something else
      rintro c - d hd ⟨-, rfl⟩
      cases parts with
      | nil => cases hd
      | cons g' parts =>
        obtain ⟨⟨hne, hg'⟩, -⟩ := List.forall_mem_cons.1 hparts
        obtain ⟨e, g', rfl⟩ := List.exists_cons_of_ne_nil hne
        cases hd
        exact hg' List.mem_cons_self
    · rintro c hc d - ⟨rfl, -⟩
      exact hchars _ (List.mem_of_getLast? hc) rfl

theorem Pieces.text_append_colon {p : Pieces} (h : p.parts ≠ []) :
    p.text ++ [':'] = p.parts.flatMap (· ++ [':']) := by
  obtain ⟨init, last, hparts⟩ := (List.eq_nil_or_concat' p.parts).resolve_left h
  rw [text, hparts, ← flatMap_append_eq_intercalate]
  simp

/-- Not even with one more colon behind it do pieces have a double colon. -/
theorem Pieces.not_infix (p : Pieces) : ¬ [':', ':'] <:+: p.text ++ [':'] := by
  have hchain : (p.text ++ [':']).IsChain Apart := by
    by_cases hparts : p.parts = []
    · rw [text, hparts]
      exact List.isChain_singleton _
    · rw [text_append_colon hparts]
      exact isChain_flatMap fun g hg => p.mem_parts hg
  intro h
  have hcolons := hchain.infix h
  exact (List.isChain_cons_cons.1 hcolons).1 ⟨rfl, rfl⟩

/-! ### Alternatives -/

/-- At most `b` groups. -/
def leftPattern : Nat → Pattern
  | 0 => []
  | 1 => h16.pattern.optional
  | b + 2 => leadingPieces (.ofNat (b + 1))

/-- Pieces that count as `a` groups. -/
def rightPattern : Nat → Pattern
  | 0 => []
  | 1 => h16.pattern
  | 2 => ls32.pattern
  | 3 => h16Colon ++ ls32.pattern
  | a + 4 => h16Colon.times (.ofNat (a + 2)) ++ ls32.pattern

/-- Pieces on both sides of a double colon, those behind it counting as `a` groups. -/
def elidedPattern (a : Nat) : Pattern :=
  leftPattern (7 - a) ++ (literal "::" ++ rightPattern a)

/-- **The nine alternatives**: one without a double colon, and one for each count behind it. -/
theorem ipv6address_pattern :
    ipv6address.pattern =
      anyOf ((h16Colon.times 6 ++ ls32.pattern) :: (List.range 8).reverse.map elidedPattern) :=
  rfl

theorem toNat_ofNat {n : Nat} (hn : n ≤ 7) : (UInt64.ofNat n).toNat = n :=
  UInt64.toNat_ofNat_of_lt' (Nat.lt_of_le_of_lt hn (by decide))

namespace Pieces

theorem dotted_eq_none {p : Pieces} (h : p.count ≤ 1) : p.dotted = none := by
  cases hdotted : p.dotted with
  | none => rfl
  | some d =>
    rw [count, hdotted, Option.toList_some, List.length_singleton] at h
    omega

theorem text_eq_nil {p : Pieces} (h : p.count = 0) : p.text = [] := by
  have hdotted := dotted_eq_none (Nat.le_of_eq h |>.trans (Nat.zero_le 1))
  rw [count_eq_length hdotted, List.length_eq_zero_iff] at h
  rw [text, parts, hdotted, h]
  rfl

end Pieces

/-- At most `b` groups: none, or one and less than `b` in front of it. -/
theorem exists_groups_iff {b : Nat} :
    (w = [] ∨ ∃ n < b, w ∈ h16Colon.texts ^ n * h16.pattern.texts) ↔
      ∃ p : Pieces, p.dotted = none ∧ p.count ≤ b ∧ w = p.text := by
  constructor
  · rintro (rfl | ⟨n, hn, hw⟩)
    · exact ⟨Pieces.ofGroups [] (by simp), rfl, Nat.zero_le b, rfl⟩
    · obtain ⟨p, hdotted, hcount, rfl⟩ := mem_texts_groups.1 hw
      exact ⟨p, hdotted, by omega, rfl⟩
  · rintro ⟨p, hdotted, hcount, rfl⟩
    rcases Nat.eq_zero_or_pos p.count with hzero | hpos
    · exact .inl (Pieces.text_eq_nil hzero)
    · exact .inr ⟨p.count - 1, by omega,
        mem_texts_groups.2 ⟨p, hdotted, (Nat.sub_add_cancel hpos).symm, rfl⟩⟩

theorem mem_texts_leftPattern {b : Nat} (hb : b ≤ 7) :
    w ∈ (leftPattern b).texts ↔ ∃ p : Pieces, p.dotted = none ∧ p.count ≤ b ∧ w = p.text := by
  rw [← exists_groups_iff]
  match b with
  | 0 => simp [leftPattern, Language.mem_one]
  | 1 => simp [leftPattern, mem_texts_optional]
  | b + 2 =>
    rw [leftPattern, leadingPieces, mem_texts_optional, mem_texts_append]
    simp only [mem_texts_between, toNat_ofNat (n := b + 1) (by omega), Language.mem_mul]
    refine or_congr_right ⟨?_, ?_⟩
    · rintro ⟨u, ⟨n, -, hn, hu⟩, v, hv, rfl⟩
      exact ⟨n, by omega, u, hu, v, hv, rfl⟩
    · rintro ⟨n, hn, u, hu, v, hv, rfl⟩
      exact ⟨u, ⟨n, Nat.zero_le n, by omega, hu⟩, v, hv, rfl⟩

theorem mem_texts_rightPattern {a : Nat} (ha : a ≤ 7) :
    w ∈ (rightPattern a).texts ↔ ∃ p : Pieces, p.count = a ∧ w = p.text := by
  match a with
  | 0 =>
    rw [rightPattern, texts_nil, Language.mem_one]
    constructor
    · rintro rfl
      exact ⟨Pieces.ofGroups [] (by simp), rfl, rfl⟩
    · rintro ⟨p, hcount, rfl⟩
      exact Pieces.text_eq_nil hcount
  | 1 =>
    rw [rightPattern, ← one_mul h16.pattern.texts, ← pow_zero h16Colon.texts, mem_texts_groups]
    refine exists_congr fun p => and_iff_right_of_imp fun hp => ?_
    exact Pieces.dotted_eq_none (Nat.le_of_eq hp.1)
  | 2 =>
    rw [rightPattern, ← one_mul ls32.pattern.texts, ← pow_zero h16Colon.texts,
      mem_texts_groups_ls32]
  | 3 =>
    rw [rightPattern, texts_append, ← pow_one h16Colon.texts, mem_texts_groups_ls32]
  | a + 4 =>
    rw [rightPattern, texts_append, texts_times, toNat_ofNat (by omega), mem_texts_groups_ls32]

/-- Pieces on both sides of a double colon. -/
theorem mem_texts_elidedPattern {a : Nat} (ha : a ≤ 7) :
    w ∈ (elidedPattern a).texts ↔
      ∃ left right : Pieces, left.dotted = none ∧ right.count = a ∧ left.count + right.count ≤ 7
        ∧ w = left.text ++ [':', ':'] ++ right.text := by
  rw [elidedPattern, mem_texts_append_literal_append]
  simp only [mem_texts_leftPattern (Nat.sub_le 7 a), mem_texts_rightPattern ha]
  constructor
  · rintro ⟨_, ⟨left, hleft, hcount, rfl⟩, _, ⟨right, rfl, rfl⟩, rfl⟩
    exact ⟨left, right, hleft, rfl, by omega, (List.append_assoc _ _ _).symm⟩
  · rintro ⟨left, right, hleft, rfl, hcount, rfl⟩
    exact ⟨_, ⟨left, hleft, by omega, rfl⟩, _, ⟨right, rfl, rfl⟩, List.append_assoc _ _ _⟩

/-- The count behind the double colon is seven at most, so that there is an alternative for it. -/
theorem mem_texts_ipv6address : w ∈ ipv6address.pattern.texts ↔ IsAddress w := by
  rw [ipv6address_pattern, mem_texts_anyOf]
  constructor
  · rintro ⟨p, hp, hw⟩
    rcases List.mem_cons.1 hp with rfl | hp
    · rw [texts_append, texts_times] at hw
      obtain ⟨p, hcount, rfl⟩ := mem_texts_groups_ls32.1 hw
      exact .full p hcount fun h => p.not_infix (h.trans (List.prefix_append _ _).isInfix)
    · obtain ⟨a, ha, rfl⟩ := List.mem_map.1 hp
      have ha := List.mem_range.1 (List.mem_reverse.1 ha)
      obtain ⟨left, right, hleft, -, hcount, rfl⟩ := (mem_texts_elidedPattern (by omega)).1 hw
      exact .elided left right hleft hcount
  · rintro (⟨p, hcount, -⟩ | ⟨left, right, hleft, hcount⟩)
    · refine ⟨_, List.mem_cons_self, ?_⟩
      rw [texts_append, texts_times]
      exact mem_texts_groups_ls32.2 ⟨p, hcount, rfl⟩
    · have hright : right.count ≤ 7 := (Nat.le_add_left _ _).trans hcount
      have ha : right.count ∈ (List.range 8).reverse :=
        List.mem_reverse.2 (List.mem_range.2 (Nat.lt_succ_of_le hright))
      exact ⟨_, List.mem_cons_of_mem _ (List.mem_map_of_mem ha),
        (mem_texts_elidedPattern hright).2 ⟨left, right, hleft, rfl, hcount, rfl⟩⟩

/-- **The fragment of the rule for addresses matches exactly what the counting law allows.** -/
theorem fragmentMatches_ipv6address_iff :
    FragmentMatches ipv6address.fragment w ↔ IsAddress w :=
  (Standard.fragmentMatches_iff (s := .rfc3986)
    (by simp [Standard.productions, UriRules.productions])).trans mem_texts_ipv6address

end AbnfPatterns.Uri
