import Mathlib.Order.Bounds.Basic
import AbnfPatterns.Proofs.Regex.Builders
import AbnfPatterns.Proofs.Regex.ReadBack
import AbnfPatterns.Regex.Preference

/-!
# The preferred match

There is a preferred match wherever there is any.  It is the longest one if no text of an
alternative starts a longer text of a later one, and if only the last part of a row leaves a choice.
-/

namespace AbnfPatterns

/-! ### The search finds all matches -/

/-- A search lists exactly what the accepted texts at the start of a text leave of it. -/
def Finds (leftovers : List Char → List (List Char)) (accepts : List Char → List Char → Prop) :
    Prop :=
  ∀ s r, r ∈ leftovers s ↔ ∃ w, s = w ++ r ∧ accepts w r

section

variable {leftovers : List Char → List (List Char)} {accepts : List Char → List Char → Prop}
  {rounds least : Nat} {most : Option Nat} {s r w : List Char}

/-- What is left when no further round is tried. -/
theorem mem_stop_iff : r ∈ (if least = 0 then [s] else []) ↔ least = 0 ∧ r = s := by
  split
  · rename_i h
    rw [List.mem_singleton, and_iff_right h]
  · rename_i h
    exact iff_of_false List.not_mem_nil fun h' => h h'.1

/-- One round more than the bounds allow for the other rounds. -/
theorem within_succ_of_pred {n : Nat} (h : Shape.Within (least - 1) (most.map (· - 1)) n)
    (hmost : most ≠ some 0) : Shape.Within least most (n + 1) := by
  obtain ⟨hleast, hn⟩ := h
  refine ⟨by omega, ?_⟩
  rintro m rfl
  have := hn (m - 1) rfl
  have : m ≠ 0 := fun hzero => hmost (congrArg some hzero)
  omega

theorem repeats_of_mem_greedy (hfinds : Finds leftovers accepts)
    (h : r ∈ greedy leftovers rounds least most s) :
    ∃ w n, s = w ++ r ∧ Shape.Within least most n ∧ Repeats accepts n w r := by
  induction rounds generalizing least most s with
  | zero =>
    obtain ⟨hleast, rfl⟩ := mem_stop_iff.1 h
    exact ⟨[], 0, rfl, ⟨Nat.le_of_eq hleast, fun m _ => Nat.zero_le m⟩, rfl⟩
  | succ rounds ih =>
    rw [greedy] at h
    rcases List.mem_append.1 h with h | h
    · split at h
      · cases h
      · rename_i hmost
        obtain ⟨t, ht, h⟩ := List.mem_flatMap.1 h
        obtain ⟨u, rfl, hu⟩ := (hfinds s t).1 ht
        split at h
        · -- one round, and what further rounds find behind it
          obtain ⟨v, n, rfl, hn, hv⟩ := ih h
          exact ⟨u ++ v, n + 1, (List.append_assoc u v r).symm, within_succ_of_pred hn hmost,
            u, v, rfl, hu, hv⟩
        · cases h
    · obtain ⟨hleast, rfl⟩ := mem_stop_iff.1 h
      exact ⟨[], 0, rfl, ⟨Nat.le_of_eq hleast, fun m _ => Nat.zero_le m⟩, rfl⟩

theorem mem_greedy_of_repeats (hfinds : Finds leftovers accepts) {n : Nat}
    (hn : Shape.Within least most n) (hrounds : least + w.length ≤ rounds)
    (h : Repeats accepts n w r) : r ∈ greedy leftovers rounds least most (w ++ r) := by
  induction n generalizing rounds least most w with
  | zero =>
    obtain rfl : w = [] := h
    have hleast : least = 0 := Nat.le_zero.1 hn.1
    cases rounds with
    | zero => exact mem_stop_iff.2 ⟨hleast, rfl⟩
    | succ rounds => exact List.mem_append_right _ (mem_stop_iff.2 ⟨hleast, rfl⟩)
  | succ n ih =>
    obtain ⟨u, v, rfl, hu, hv⟩ := h
    rw [List.length_append] at hrounds
    by_cases hskip : least = 0 ∧ u = []
    · -- a round without text is not followed up, and is not needed either
      obtain ⟨rfl, rfl⟩ := hskip
      refine ih ⟨Nat.zero_le n, fun m hm => ?_⟩ (by simpa using hrounds) hv
      exact Nat.le_of_succ_le (hn.2 m hm)
    · have hu' : 0 < u.length ∨ 0 < least := by
        rcases Nat.eq_zero_or_pos least with hleast | hleast
        · exact .inl (List.length_pos_of_ne_nil fun hu => hskip ⟨hleast, hu⟩)
        · exact .inr hleast
      obtain ⟨rounds, rfl⟩ : ∃ k, rounds = k + 1 := ⟨rounds - 1, by omega⟩
      have hmost : most ≠ some 0 := fun hzero => absurd (hn.2 0 hzero) (Nat.not_succ_le_zero n)
      have hn' : Shape.Within (least - 1) (most.map (· - 1)) n := by
        refine ⟨by have := hn.1; omega, fun m hm => ?_⟩
        obtain ⟨k, hk, rfl⟩ := Option.map_eq_some_iff.1 hm
        have := hn.2 k hk
        omega
      rw [greedy, if_neg hmost]
      refine List.mem_append_left _ (List.mem_flatMap.2 ⟨v ++ r, ?_, ?_⟩)
      · exact (hfinds _ _).2 ⟨u, List.append_assoc u v r, hu⟩
      · have hshorter : (v ++ r).length < (u ++ v ++ r).length ∨ 0 < least := by
          simp only [List.length_append]
          omega
        rw [if_pos hshorter]
        exact ih hn' (by omega) hv

theorem Finds.greedy (hfinds : Finds leftovers accepts) :
    Finds (fun s => AbnfPatterns.greedy leftovers (least + s.length) least most s)
      fun w r => ∃ n, Shape.Within least most n ∧ Repeats accepts n w r := by
  intro s r
  constructor
  · intro h
    obtain ⟨w, n, hs, hn, hw⟩ := repeats_of_mem_greedy hfinds h
    exact ⟨w, hs, n, hn, hw⟩
  · rintro ⟨w, rfl, n, hn, hw⟩
    exact mem_greedy_of_repeats hfinds hn (by simp) hw

theorem finds_afterChar {matching : Char → Bool} :
    Finds (afterChar matching) fun w _ => ∃ c, w = [c] ∧ matching c = true := by
  intro s r
  cases s with
  | nil => simp [afterChar]
  | cons c rest =>
    rw [afterChar]
    constructor
    · intro h
      split at h
      · rename_i hc
        obtain rfl := List.mem_singleton.1 h
        exact ⟨[c], rfl, c, rfl, hc⟩
      · cases h
    · rintro ⟨_, heq, d, rfl, hd⟩
      cases heq
      rw [if_pos hd]
      exact List.mem_singleton.2 rfl

theorem Finds.congr {accepts' : List Char → List Char → Prop} (h : Finds leftovers accepts)
    (hiff : ∀ w r, accepts w r ↔ accepts' w r) : Finds leftovers accepts' := by
  intro s r
  rw [h s r]
  exact exists_congr fun w => and_congr_right fun _ => hiff w r

end

namespace Pattern

variable {ignoreCase : Bool} {alternatives : List Pattern} {p q : Pattern}
  {s r w rest : List Char}

/-- Pieces whose matches are found make a pattern whose matches are found. -/
theorem finds_of_pieces
    (h : ∀ piece ∈ p, Finds (piece.leftovers ignoreCase) (piece.Accepts ignoreCase)) :
    Finds (p.leftovers ignoreCase) (p.Accepts ignoreCase) := by
  induction p with
  | nil =>
    intro s r
    rw [Pattern.leftovers, List.mem_singleton]
    constructor
    · rintro rfl
      exact ⟨[], rfl, accepts_nil.2 rfl⟩
    · rintro ⟨w, rfl, hw⟩
      obtain rfl := accepts_nil.1 hw
      rfl
  | cons piece p ih =>
    intro s r
    rw [Pattern.leftovers, List.mem_flatMap]
    have hpiece := h piece List.mem_cons_self
    have hrest := ih fun q hq => h q (List.mem_cons_of_mem _ hq)
    constructor
    · rintro ⟨t, ht, hr⟩
      obtain ⟨u, rfl, hu⟩ := (hpiece s t).1 ht
      obtain ⟨v, rfl, hv⟩ := (hrest t r).1 hr
      exact ⟨u ++ v, (List.append_assoc u v r).symm, accepts_cons.2 ⟨u, v, rfl, hu, hv⟩⟩
    · rintro ⟨w, rfl, hw⟩
      obtain ⟨u, v, rfl, hu, hv⟩ := accepts_cons.1 hw
      exact ⟨v ++ r, (hpiece _ _).2 ⟨u, List.append_assoc u v r, hu⟩, (hrest _ _).2 ⟨v, rfl, hv⟩⟩

theorem mem_alternativesLeftovers :
    r ∈ alternativesLeftovers ignoreCase alternatives s ↔
      ∃ p ∈ alternatives, r ∈ p.leftovers ignoreCase s := by
  induction alternatives with
  | nil => simp [alternativesLeftovers]
  | cons first others ih => simp [alternativesLeftovers, ih]

theorem finds_alternatives
    (h : ∀ p ∈ alternatives, Finds (p.leftovers ignoreCase) (p.Accepts ignoreCase)) :
    Finds (alternativesLeftovers ignoreCase alternatives)
      (alternativesAccept ignoreCase alternatives) := by
  intro s r
  rw [mem_alternativesLeftovers]
  constructor
  · rintro ⟨p, hp, hr⟩
    obtain ⟨w, rfl, hw⟩ := (h p hp s r).1 hr
    exact ⟨w, rfl, alternativesAccept_iff.2 ⟨p, hp, hw⟩⟩
  · rintro ⟨w, rfl, hw⟩
    obtain ⟨p, hp, hw⟩ := alternativesAccept_iff.1 hw
    exact ⟨p, hp, (h p hp _ r).2 ⟨w, rfl, hw⟩⟩

theorem finds_piece (piece : Piece) :
    ∀ ignoreCase, Finds (piece.leftovers ignoreCase) (piece.Accepts ignoreCase) := by
  induction piece using Piece.induction with
  | glyph g =>
    intro ignoreCase
    exact finds_afterChar.congr fun w _ => exists_congr fun c => by rw [decide_eq_true_eq]
  | charIn items =>
    intro ignoreCase
    refine finds_afterChar.congr fun w _ => exists_congr fun c => and_congr_right fun _ => ?_
    simp only [List.any_eq_true, decide_eq_true_eq]
  | group kind alternatives ih =>
    intro ignoreCase
    have halternatives : ∀ ignoreCase, Finds (alternativesLeftovers ignoreCase alternatives)
        (alternativesAccept ignoreCase alternatives) := fun ignoreCase =>
      finds_alternatives fun p hp => finds_of_pieces fun piece hpiece => ih p hp piece hpiece _
    cases kind with
    | plain => exact halternatives ignoreCase
    | ignoreCase => exact halternatives true
    | notAhead =>
      intro s r
      have hnone : (alternativesLeftovers ignoreCase alternatives s).isEmpty = true ↔
          ∀ u v, s = u ++ v → ¬ alternativesAccept ignoreCase alternatives u v := by
        rw [List.isEmpty_iff, List.eq_nil_iff_forall_not_mem]
        simp only [halternatives ignoreCase s, not_exists, not_and]
        exact forall_comm
      rw [Piece.leftovers]
      constructor
      · intro h
        split at h
        · rename_i hempty
          obtain rfl := List.mem_singleton.1 h
          exact ⟨[], rfl, rfl, hnone.1 hempty⟩
        · cases h
      · rintro ⟨w, rfl, rfl, h⟩
        rw [if_pos (hnone.2 h)]
        exact List.mem_singleton.2 rfl
    | capture name => exact halternatives ignoreCase
  | repeated piece q ih =>
    intro ignoreCase
    exact (ih ignoreCase).greedy

/-- **The search finds exactly the matches of a pattern.** -/
theorem mem_leftovers_iff :
    r ∈ p.leftovers ignoreCase s ↔ ∃ w, s = w ++ r ∧ p.Accepts ignoreCase w r :=
  finds_of_pieces (fun piece _ => finds_piece piece ignoreCase) s r

/-- **The search decides** whether the fragment of a pattern matches the whole of a text. -/
theorem fragmentMatches_text_iff_nil_mem (hspellable : p.spellable = true) :
    FragmentMatches p.text w ↔ [] ∈ p.leftovers false w := by
  rw [fragmentMatches_text hspellable, mem_leftovers_iff]
  constructor
  · intro h
    exact ⟨w, (List.append_nil w).symm, h⟩
  · rintro ⟨v, hv, h⟩
    rw [List.append_nil] at hv
    rwa [hv]

/-- What is left behind a text of the pattern. -/
theorem exists_text_of_mem_leftovers (h : r ∈ p.leftovers false s) : ∃ w ∈ p.texts, s = w ++ r := by
  obtain ⟨w, hs, hw⟩ := mem_leftovers_iff.1 h
  exact ⟨w, mem_language_of_accepts hw, hs⟩

end Pattern

/-! ### Texts that go on -/

/-- **No text of `L` is the start of a longer text of `M`.** -/
def Outlasts (L M : Language Char) : Prop :=
  ∀ u ∈ L, ∀ v ∈ M, u <+: v → u = v

/-- **No text of a language is the start of a longer one.** -/
def PrefixFree (L : Language Char) : Prop :=
  Outlasts L L

section

variable {L M N : Language Char} {u v r r' s : List Char}

/-- Texts at the start of one text, the first of which comes from a language that outlasts. -/
theorem Outlasts.length_le (h : Outlasts L M) (hu : u ∈ L) (hv : v ∈ M) (hr : s = u ++ r)
    (hr' : s = v ++ r') : r.length ≤ r'.length := by
  have hlength := congrArg List.length (hr.symm.trans hr')
  simp only [List.length_append] at hlength
  rcases Nat.le_total u.length v.length with hle | hle
  · have huv : u <+: v :=
      List.prefix_of_prefix_length_le ⟨r, hr.symm⟩ ⟨r', hr'.symm⟩ hle
    have := congrArg List.length (h u hu v hv huv)
    omega
  · omega

theorem PrefixFree.eq_of_append_eq (h : PrefixFree L) (hu : u ∈ L) (hv : v ∈ L)
    (heq : u ++ r = v ++ r') : u = v ∧ r = r' := by
  have hle := h.length_le hu hv rfl heq
  have hge := h.length_le hv hu rfl heq.symm
  exact (List.append_inj' heq (Nat.le_antisymm hle hge))

theorem PrefixFree.one : PrefixFree 1 := by
  intro u hu v hv _
  exact ((Language.mem_one u).1 hu).trans ((Language.mem_one v).1 hv).symm

/-- What outlasts still does so behind texts that are told apart by themselves. -/
theorem Outlasts.mul_left (hL : PrefixFree L) (h : Outlasts M N) : Outlasts (L * M) (L * N) := by
  rintro _ ⟨u, hu, x, hx, rfl⟩ _ ⟨v, hv, y, hy, rfl⟩ hprefix
  obtain ⟨t, ht⟩ := hprefix
  simp only [List.append_assoc] at ht
  obtain ⟨rfl, htail⟩ := hL.eq_of_append_eq hu hv ht
  rw [h x hx y hy ⟨t, htail⟩]

theorem PrefixFree.mul (hL : PrefixFree L) (hM : PrefixFree M) : PrefixFree (L * M) :=
  Outlasts.mul_left hL hM

theorem PrefixFree.pow (hL : PrefixFree L) (n : Nat) : PrefixFree (L ^ n) := by
  induction n with
  | zero => exact PrefixFree.one
  | succ n ih =>
    rw [pow_succ']
    exact hL.mul ih

/-- Texts that end with the first delimiter in them. -/
theorem PrefixFree.mul_delimiter {d : Char} (hL : ∀ u ∈ L, d ∉ u)
    (hM : ∀ v, v ∈ M ↔ v = [d]) : PrefixFree (L * M) := by
  rintro _ ⟨u, hu, x, hx, rfl⟩ _ ⟨v, hv, y, hy, rfl⟩ ⟨t, ht⟩
  obtain rfl := (hM x).1 hx
  obtain rfl := (hM y).1 hy
  obtain ⟨rfl, -⟩ := eq_of_append_eq_of_delimiter (hL u hu) (hL v hv) (by simp) (by simp)
    ((List.append_assoc u [d] t).symm.trans ht)
  rfl

theorem Outlasts.of_length {n : Nat} (hL : ∀ u ∈ L, n ≤ u.length) (hM : ∀ v ∈ M, v.length ≤ n) :
    Outlasts L M :=
  fun u hu v hv h => h.eq_of_length_le ((hM v hv).trans (hL u hu))

end

/-! ### Longest first -/

/-- The first of the leftovers, if there is any, is a shortest one. -/
def HeadShortest (leftovers : List (List Char)) : Prop :=
  ∀ r ∈ leftovers.head?, ∀ r' ∈ leftovers, r.length ≤ r'.length

section

variable {l l' : List (List Char)} {s : List Char}

theorem HeadShortest.nil : HeadShortest [] := by
  rintro r ⟨⟩

theorem HeadShortest.singleton : HeadShortest [s] := by
  rintro r ⟨⟩ r' hr'
  rw [List.mem_singleton.1 hr']

theorem HeadShortest.append (h : HeadShortest l) (h' : HeadShortest l')
    (hcross : ∀ r ∈ l.head?, ∀ r' ∈ l', r.length ≤ r'.length) : HeadShortest (l ++ l') := by
  cases l with
  | nil => exact h'
  | cons r l =>
    rintro _ ⟨⟩ r' hr'
    rcases List.mem_append.1 hr' with hr' | hr'
    · exact h r rfl r' hr'
    · exact hcross r rfl r' hr'

/-- Leftovers of leftovers that are all the same. -/
theorem HeadShortest.flatMap {f : List Char → List (List Char)} (hl : ∀ r ∈ l, ∀ r' ∈ l, r = r')
    (hf : ∀ r ∈ l, HeadShortest (f r)) : HeadShortest (l.flatMap f) := by
  cases l with
  | nil => exact HeadShortest.nil
  | cons t l =>
    have hmem : ∀ r ∈ (t :: l).flatMap f, r ∈ f t := by
      intro r hr
      obtain ⟨t', ht', hr⟩ := List.mem_flatMap.1 hr
      rwa [hl t' ht' t List.mem_cons_self] at hr
    intro r hr r' hr'
    refine hf t List.mem_cons_self r ?_ r' (hmem r' hr')
    cases hft : f t with
    | nil =>
      have := hmem r (List.mem_of_mem_head? hr)
      rw [hft] at this
      cases this
    | cons x rest =>
      rw [List.flatMap_cons, hft] at hr
      exact hr

/-- Rounds of an item that has one match at most. -/
theorem HeadShortest.greedy {leftovers : List Char → List (List Char)}
    {accepts : List Char → List Char → Prop} (hfinds : Finds leftovers accepts)
    (hone : ∀ s, ∀ r ∈ leftovers s, ∀ r' ∈ leftovers s, r = r') (rounds least : Nat)
    (most : Option Nat) (s : List Char) :
    HeadShortest (AbnfPatterns.greedy leftovers rounds least most s) := by
  have hstop : ∀ least (s : List Char), HeadShortest (if least = 0 then [s] else []) := by
    intro least s
    split
    · exact HeadShortest.singleton
    · exact HeadShortest.nil
  induction rounds generalizing least most s with
  | zero => exact hstop least s
  | succ rounds ih =>
    rw [AbnfPatterns.greedy]
    refine HeadShortest.append ?_ (hstop least s) ?_
    · split
      · exact HeadShortest.nil
      · refine HeadShortest.flatMap (hone s) fun t _ => ?_
        split
        · exact ih _ _ t
        · exact HeadShortest.nil
    · -- whatever further rounds leave is behind the text they take
      intro r hr r' hr'
      have hmem : r ∈ AbnfPatterns.greedy leftovers (rounds + 1) least most s :=
        List.mem_append_left _ (List.mem_of_mem_head? hr)
      obtain ⟨w, -, rfl, -⟩ := repeats_of_mem_greedy hfinds hmem
      rw [(mem_stop_iff.1 hr').2, List.length_append]
      exact Nat.le_add_left _ _

end

namespace Pattern

/-- **The preferred match of a pattern is the longest one**, at the start of any text. -/
def LongestFirst (p : Pattern) : Prop :=
  ∀ s, HeadShortest (p.leftovers false s)

variable {p q : Pattern} {alternatives : List Pattern}

theorem leftovers_append (s : List Char) :
    (p ++ q).leftovers false s = (p.leftovers false s).flatMap (q.leftovers false) := by
  induction p generalizing s with
  | nil => simp [Pattern.leftovers]
  | cons piece p ih =>
    rw [List.cons_append, Pattern.leftovers, Pattern.leftovers, List.flatMap_assoc]
    exact List.flatMap_congr fun t _ => ih t

theorem leftovers_singleton (piece : Piece) (s : List Char) :
    Pattern.leftovers false [piece] s = piece.leftovers false s := by
  simp [Pattern.leftovers]

/-- A pattern with one match at most, then one that prefers the longest. -/
theorem LongestFirst.append (hp : PrefixFree p.texts) (hq : q.LongestFirst) :
    (p ++ q).LongestFirst := by
  intro s
  rw [leftovers_append]
  refine HeadShortest.flatMap ?_ fun r _ => hq r
  intro r hr r' hr'
  obtain ⟨u, hu, rfl⟩ := exists_text_of_mem_leftovers hr
  obtain ⟨v, hv, heq⟩ := exists_text_of_mem_leftovers hr'
  exact (hp.eq_of_append_eq hu hv heq).2

/-- A pattern with a delimiter behind it that its own texts do not have. -/
theorem prefixFree_append_literal {d : Char} {text : String} (htext : text.toList = [d])
    (hd : d ∉ (p.shape false).chars) : PrefixFree (p ++ literal text).texts := by
  rw [texts_append]
  exact PrefixFree.mul_delimiter (fun u hu => not_mem_of_texts hu hd)
    fun v => by rw [mem_texts_literal, htext]

theorem longestFirst_nil : LongestFirst [] := by
  intro s
  rw [Pattern.leftovers]
  exact HeadShortest.singleton

theorem longestFirst_of_prefixFree (hp : PrefixFree p.texts) : p.LongestFirst := by
  rw [← List.append_nil p]
  exact longestFirst_nil.append hp

/-- Alternatives each of which prefers its longest match and outlasts those behind it. -/
theorem headShortest_alternatives (hlongest : ∀ p ∈ alternatives, p.LongestFirst)
    (houtlasts : alternatives.Pairwise fun p q => Outlasts p.texts q.texts) (s : List Char) :
    HeadShortest (alternativesLeftovers false alternatives s) := by
  induction alternatives with
  | nil =>
    rw [alternativesLeftovers]
    exact HeadShortest.nil
  | cons p others ih =>
    obtain ⟨hp, hothers⟩ := List.pairwise_cons.1 houtlasts
    rw [alternativesLeftovers]
    refine (hlongest p List.mem_cons_self s).append
      (ih (fun q hq => hlongest q (List.mem_cons_of_mem p hq)) hothers) ?_
    intro r hr r' hr'
    obtain ⟨q, hq, hr'⟩ := mem_alternativesLeftovers.1 hr'
    obtain ⟨u, hu, hs⟩ := exists_text_of_mem_leftovers (List.mem_of_mem_head? hr)
    obtain ⟨v, hv, hs'⟩ := exists_text_of_mem_leftovers hr'
    exact (hp q hq).length_le hu hv hs hs'

theorem longestFirst_anyOf (hlongest : ∀ p ∈ alternatives, p.LongestFirst)
    (houtlasts : alternatives.Pairwise fun p q => Outlasts p.texts q.texts) :
    (anyOf alternatives).LongestFirst := by
  intro s
  rw [anyOf, leftovers_singleton, Piece.leftovers]
  exact headShortest_alternatives hlongest houtlasts s

/-- Alternatives each of which has texts of one length, the longer ones first. -/
theorem longestFirst_anyOf_of_widths (widths : List Nat)
    (hwidths : alternatives.map (fun p => (p.shape false).width?) = widths.map some)
    (hsorted : widths.Pairwise (· ≥ ·)) : (anyOf alternatives).LongestFirst := by
  have hlength : ∀ {p : Pattern} {n : Nat} {w : List Char}, (p.shape false).width? = some n →
      w ∈ p.texts → w.length = n := Shape.length_eq_of_width?
  refine longestFirst_anyOf (fun p hp => longestFirst_of_prefixFree ?_) ?_
  · have hmem := List.mem_map_of_mem (f := fun p : Pattern => (p.shape false).width?) hp
    rw [hwidths] at hmem
    obtain ⟨n, -, hn⟩ := List.mem_map.1 hmem
    exact Outlasts.of_length (fun u hu => (hlength hn.symm hu).ge) fun v hv =>
      (hlength hn.symm hv).le
  · have hpairs : (alternatives.map fun p => (p.shape false).width?).Pairwise fun k l =>
        ∃ m n, k = some m ∧ l = some n ∧ n ≤ m := by
      rw [hwidths, List.pairwise_map]
      exact hsorted.imp fun {m n} hle => ⟨m, n, rfl, rfl, hle⟩
    refine (List.pairwise_map.1 hpairs).imp ?_
    rintro p q ⟨m, n, hm, hn, hle⟩
    exact Outlasts.of_length (fun u hu => (hlength hm hu).ge) fun v hv =>
      (hlength hn hv).trans_le hle

/-- Rounds of a class, each of which takes one character. -/
theorem longestFirst_repeated_charIn (items : List ClassItem) (q : Quantifier) :
    ((charIn items).repeated q).LongestFirst := by
  intro s
  rw [charIn, repeated, leftovers_singleton, Piece.leftovers]
  refine HeadShortest.greedy (finds_piece (.charIn items) false) ?_ _ _ _ s
  intro s r hr r' hr'
  obtain ⟨_, rfl, c, rfl, -⟩ := (finds_piece (.charIn items) false s r).1 hr
  obtain ⟨_, heq, d, rfl, -⟩ := (finds_piece (.charIn items) false _ r').1 hr'
  cases heq
  rfl

end Pattern

/-! ### Fragments at a place -/

/-- **A fragment matches** the `length` characters of a text that start at a place. -/
def MatchesAt (fragment : String) (s : List Char) (place length : Nat) : Prop :=
  ∃ alternatives w rest, Pattern.read? fragment.toList = some alternatives
    ∧ s.drop place = w ++ rest ∧ w.length = length ∧ alternativesAccept false alternatives w rest

/-- **The length of the match that is preferred** at a place, if there is a match. -/
def preferredLength? (fragment : String) (s : List Char) (place : Nat) : Option Nat :=
  (Pattern.preferred? fragment (s.drop place)).map fun rest =>
    (s.drop place).length - rest.length

section

variable {p : Pattern} {s : List Char} {place n : Nat}

theorem matchesAt_text_iff (hspellable : p.spellable = true) :
    MatchesAt p.text s place n ↔
      ∃ rest ∈ p.leftovers false (s.drop place), n = (s.drop place).length - rest.length := by
  rw [MatchesAt, Pattern.read?_text hspellable]
  simp only [Pattern.mem_leftovers_iff]
  constructor
  · rintro ⟨_, w, rest, ⟨⟩, hs, rfl, hw⟩
    simp only [Pattern.alternativesAccept_iff, List.mem_singleton, exists_eq_left] at hw
    exact ⟨rest, ⟨w, hs, hw⟩, by simp [hs]⟩
  · rintro ⟨rest, ⟨w, hs, hw⟩, rfl⟩
    exact ⟨[p], w, rest, rfl, hs, by simp [hs],
      Pattern.alternativesAccept_iff.2 ⟨p, List.mem_singleton.2 rfl, hw⟩⟩

theorem preferredLength?_text (hspellable : p.spellable = true) :
    preferredLength? p.text s place = (p.leftovers false (s.drop place)).head?.map fun rest =>
      (s.drop place).length - rest.length := by
  rw [preferredLength?, Pattern.preferred?, Pattern.read?_text hspellable, Option.bind_some,
    alternativesLeftovers, alternativesLeftovers, List.append_nil]

/-- There is a preferred match wherever there is a match. -/
theorem preferredLength?_eq_none_iff (hspellable : p.spellable = true) :
    preferredLength? p.text s place = none ↔ ∀ n, ¬ MatchesAt p.text s place n := by
  rw [preferredLength?_text hspellable, Option.map_eq_none_iff, List.head?_eq_none_iff,
    List.eq_nil_iff_forall_not_mem]
  simp only [matchesAt_text_iff hspellable]
  constructor
  · rintro h n ⟨rest, hrest, -⟩
    exact h rest hrest
  · intro h rest hrest
    exact h _ ⟨rest, hrest, rfl⟩

/-- **A pattern that prefers the longest match** has it preferred at each place of a text. -/
theorem Pattern.LongestFirst.isGreatest (h : p.LongestFirst) (hspellable : p.spellable = true)
    (hn : preferredLength? p.text s place = some n) :
    IsGreatest {m | MatchesAt p.text s place m} n := by
  rw [preferredLength?_text hspellable] at hn
  obtain ⟨rest, hrest, rfl⟩ := Option.map_eq_some_iff.1 hn
  refine ⟨(matchesAt_text_iff hspellable).2 ⟨rest, List.mem_of_mem_head? hrest, rfl⟩, ?_⟩
  intro m hm
  obtain ⟨rest', hrest', rfl⟩ := (matchesAt_text_iff hspellable).1 hm
  have := h (s.drop place) rest hrest rest' hrest'
  omega

end

end AbnfPatterns
