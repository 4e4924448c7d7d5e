import AbnfPatterns.Proofs.Regex.Language

/-!
# Texts of built patterns

A pattern that is put together by the builders has the texts that the builders say.
-/

namespace AbnfPatterns

/-- A row of `n` texts of one character each. -/
theorem mem_pow_of_single {L : Language Char} {P : Char → Prop}
    (hL : ∀ w, w ∈ L ↔ ∃ c, P c ∧ w = [c]) {n : Nat} {w : List Char} :
    w ∈ L ^ n ↔ w.length = n ∧ ∀ c ∈ w, P c := by
  induction n generalizing w with
  | zero =>
    rw [pow_zero, Language.mem_one, List.length_eq_zero_iff]
    constructor
    · rintro rfl
      exact ⟨rfl, fun c hc => absurd hc List.not_mem_nil⟩
    · exact And.left
  | succ n ih =>
    rw [pow_succ', Language.mem_mul]
    constructor
    · rintro ⟨u, hu, v, hv, rfl⟩
      obtain ⟨c, hc, rfl⟩ := (hL u).1 hu
      obtain ⟨hlength, hchars⟩ := ih.1 hv
      exact ⟨congrArg (· + 1) hlength, List.forall_mem_cons.2 ⟨hc, hchars⟩⟩
    · rintro ⟨hlength, hchars⟩
      cases w with
      | nil => cases hlength
      | cons c v =>
        obtain ⟨hc, hchars⟩ := List.forall_mem_cons.1 hchars
        exact ⟨[c], (hL [c]).2 ⟨c, hc, rfl⟩, v, ih.2 ⟨Nat.succ.inj hlength, hchars⟩, rfl⟩

section Rows

open scoped Computability

variable {L : Language Char}

/-- What the empty text has, and what is kept when a text of a language is put in front, holds for
all rows of texts of the language. -/
theorem forall_mem_kstar {P : List Char → Prop} (hnil : P [])
    (happend : ∀ u ∈ L, ∀ v, P v → P (u ++ v)) : ∀ w ∈ L∗, P w := by
  rintro _ ⟨rows, rfl, hrows⟩
  induction rows with
  | nil => exact hnil
  | cons u rows ih =>
    obtain ⟨hu, hrest⟩ := List.forall_mem_cons.1 hrows
    exact happend u hu _ (ih hrest)

theorem append_mem_kstar {u v : List Char} (hu : u ∈ L) (hv : v ∈ L∗) : u ++ v ∈ L∗ := by
  obtain ⟨rows, rfl, hrows⟩ := hv
  exact ⟨u :: rows, rfl, List.forall_mem_cons.2 ⟨hu, hrows⟩⟩

end Rows

namespace Shape

/-- The one length of all texts of a shape, if it is plain to see that there is one. -/
def width? : Shape → Option Nat
  | never => none
  | nothing => some 0
  | oneOf _ => some 1
  | concat a b => do return (← a.width?) + (← b.width?)
  | either a b => if a.width? = b.width? then a.width? else none
  | repeated least most item =>
    if most = some least then item.width?.map (least * ·) else none

theorem length_of_mem_pow {L : Language Char} {m n : Nat} {w : List Char}
    (hL : ∀ u ∈ L, u.length = m) (hw : w ∈ L ^ n) : w.length = n * m := by
  induction n generalizing w with
  | zero => rw [(Language.mem_one w).1 hw, Nat.zero_mul, List.length_nil]
  | succ n ih =>
    rw [pow_succ', Language.mem_mul] at hw
    obtain ⟨u, hu, v, hv, rfl⟩ := hw
    rw [List.length_append, hL u hu, ih hv, Nat.succ_mul, Nat.add_comm]

theorem length_eq_of_width? {a : Shape} {n : Nat} {w : List Char} (h : a.width? = some n)
    (hw : w ∈ a.language) : w.length = n := by
  induction a generalizing n w with
  | never => cases h
  | nothing =>
    cases h
    rw [mem_language_nothing.1 hw, List.length_nil]
  | oneOf s =>
    cases h
    obtain ⟨c, -, rfl⟩ := hw
    rfl
  | concat a b iha ihb =>
    obtain ⟨k, hk, h⟩ := Option.bind_eq_some_iff.1 h
    obtain ⟨l, hl, h⟩ := Option.bind_eq_some_iff.1 h
    cases h
    obtain ⟨u, v, rfl, hu, hv⟩ := mem_language_concat.1 hw
    rw [List.length_append, iha hk hu, ihb hl hv]
  | either a b iha ihb =>
    rw [width?] at h
    split at h
    · rename_i heq
      exact (mem_language_either.1 hw).elim (iha h) (ihb (heq ▸ h))
    · cases h
  | repeated least most item ih =>
    rw [width?] at h
    split at h
    · rename_i hmost
      subst hmost
      obtain ⟨k, hk, rfl⟩ := Option.map_eq_some_iff.1 h
      obtain ⟨m, ⟨hleast, hmost⟩, hw⟩ := hw
      obtain rfl : m = least := Nat.le_antisymm (hmost _ rfl) hleast
      exact length_of_mem_pow (fun u hu => ih hk hu) hw
    · cases h

/-- Whether it is plain to see that all texts of a shape are single characters. -/
def single : Shape → Bool
  | never => true
  | nothing => false
  | oneOf _ => true
  | concat a b => a.single && decide (b = nothing)
  | either a b => a.single && b.single
  | repeated _ _ _ => false

theorem exists_eq_of_single {a : Shape} {w : List Char} (h : a.single = true)
    (hw : w ∈ a.language) : ∃ c, w = [c] := by
  induction a generalizing w with
  | never => exact absurd hw not_mem_language_never
  | nothing => cases h
  | oneOf s =>
    obtain ⟨c, -, rfl⟩ := hw
    exact ⟨c, rfl⟩
  | concat a b iha ihb =>
    rw [single, Bool.and_eq_true, decide_eq_true_eq] at h
    obtain ⟨ha, rfl⟩ := h
    obtain ⟨u, v, rfl, hu, hv⟩ := mem_language_concat.1 hw
    obtain rfl := mem_language_nothing.1 hv
    rw [List.append_nil]
    exact iha ha hu
  | either a b iha ihb =>
    rw [single, Bool.and_eq_true] at h
    exact (mem_language_either.1 hw).elim (iha h.1) (ihb h.2)
  | repeated least most item => cases h

end Shape

/-- Two ways to cut a text right in front of the first of some delimiters are the same. -/
theorem eq_of_append_eq_of_delimited {delimiters u v r t : List Char}
    (hu : ∀ d ∈ delimiters, d ∉ u) (hv : ∀ d ∈ delimiters, d ∉ v)
    (hr : ∀ c ∈ r.head?, c ∈ delimiters) (ht : ∀ c ∈ t.head?, c ∈ delimiters)
    (h : u ++ r = v ++ t) : u = v ∧ r = t := by
  induction u generalizing v with
  | nil =>
    cases v with
    | nil => exact ⟨rfl, h⟩
    | cons d v =>
      -- the delimiter at the start of `r` would be in `v`
      obtain rfl : r = d :: (v ++ t) := h
      exact absurd List.mem_cons_self (hv d (hr d rfl))
  | cons c u ih =>
    cases v with
    | nil =>
      obtain rfl : c :: (u ++ r) = t := h
      exact absurd List.mem_cons_self (hu c (ht c rfl))
    | cons d v =>
      obtain ⟨rfl, htail⟩ := List.cons.inj h
      obtain ⟨rfl, rfl⟩ := ih (fun e he hmem => hu e he (List.mem_cons_of_mem c hmem))
        (fun e he hmem => hv e he (List.mem_cons_of_mem c hmem)) htail
      exact ⟨rfl, rfl⟩

/-- The same for a single delimiter. -/
theorem eq_of_append_eq_of_delimiter {d : Char} {u v r t : List Char} (hu : d ∉ u) (hv : d ∉ v)
    (hr : ∀ c ∈ r.head?, c = d) (ht : ∀ c ∈ t.head?, c = d) (h : u ++ r = v ++ t) :
    u = v ∧ r = t :=
  eq_of_append_eq_of_delimited (List.forall_mem_singleton.2 hu) (List.forall_mem_singleton.2 hv)
    (fun c hc => List.mem_singleton.2 (hr c hc)) (fun c hc => List.mem_singleton.2 (ht c hc)) h

namespace Pattern

/-- **The texts of a pattern**, its look-aheads left out. -/
def texts (p : Pattern) : Language Char :=
  (p.shape false).language

variable {p q : Pattern} {w : List Char}

theorem texts_cons (piece : Piece) (p : Pattern) :
    texts (piece :: p) = (piece.shape false).language * p.texts := by
  rw [texts, Pattern.shape, Shape.language, texts]

@[simp] theorem texts_nil : texts [] = 1 := by
  rw [texts, Pattern.shape, Shape.language]

theorem texts_singleton (piece : Piece) : texts [piece] = (piece.shape false).language := by
  rw [texts_cons, texts_nil, mul_one]

@[simp] theorem texts_append (p q : Pattern) : (p ++ q).texts = p.texts * q.texts := by
  induction p with
  | nil => rw [List.nil_append, texts_nil, one_mul]
  | cons piece p ih => rw [List.cons_append, texts_cons, ih, texts_cons, mul_assoc]

theorem mem_texts_append :
    w ∈ (p ++ q).texts ↔ ∃ u ∈ p.texts, ∃ v ∈ q.texts, u ++ v = w := by
  rw [texts_append, Language.mem_mul]

/-- A character that is not in the shape of a pattern is in none of its texts. -/
theorem not_mem_of_texts {c : Char} (hw : w ∈ p.texts) (hc : c ∉ (p.shape false).chars) : c ∉ w :=
  fun h => hc (Shape.mem_chars_iff.2 ⟨w, hw, h⟩)

/-- A text starts with one of the first characters of the shape of the pattern. -/
theorem mem_firsts_of_head? (hw : w ∈ p.texts) : ∀ c ∈ w.head?, c ∈ (p.shape false).firsts := by
  intro c hc
  obtain ⟨v, rfl⟩ := List.head?_eq_some_iff.1 hc
  exact Shape.head_mem_firsts hw

/-! ### Characters -/

theorem mem_texts_symbol {c : Char} : w ∈ texts [.glyph (.symbol c)] ↔ w = [c] := by
  rw [texts_singleton]
  constructor
  · rintro ⟨d, hd, rfl⟩
    rw [(CharSet.mem_insert.1 hd).resolve_right (CharSet.not_mem_empty d), Glyph.char]
  · rintro rfl
    exact ⟨c, CharSet.mem_insert.2 (.inl rfl), rfl⟩

@[simp] theorem mem_texts_literal {text : String} :
    w ∈ (literal text).texts ↔ w = text.toList := by
  have hcs : ∀ (cs w : List Char),
      w ∈ texts (cs.map fun c => Piece.glyph (.symbol c)) ↔ w = cs := by
    intro cs
    induction cs with
    | nil => exact fun w => Language.mem_one w
    | cons c cs ih =>
      intro w
      rw [List.map_cons, texts_cons, ← texts_singleton, Language.mem_mul]
      constructor
      · rintro ⟨u, hu, v, hv, rfl⟩
        rw [mem_texts_symbol.1 hu, (ih v).1 hv, List.singleton_append]
      · rintro rfl
        exact ⟨[c], mem_texts_symbol.2 rfl, cs, (ih cs).2 rfl, rfl⟩
  exact hcs text.toList w

theorem mem_texts_literal_append {text : String} :
    w ∈ (literal text ++ p).texts ↔ ∃ v ∈ p.texts, w = text.toList ++ v := by
  simp only [mem_texts_append, mem_texts_literal, exists_eq_left]
  exact exists_congr fun v => and_congr_right fun _ => eq_comm

/-- A literal between two patterns. -/
theorem mem_texts_append_literal_append {text : String} :
    w ∈ (p ++ (literal text ++ q)).texts ↔
      ∃ u ∈ p.texts, ∃ v ∈ q.texts, w = u ++ (text.toList ++ v) := by
  simp only [mem_texts_append (q := literal text ++ q), mem_texts_literal_append]
  refine exists_congr fun u => and_congr_right fun _ => ?_
  constructor
  · rintro ⟨_, ⟨v, hv, rfl⟩, rfl⟩
    exact ⟨v, hv, rfl⟩
  · rintro ⟨v, hv, rfl⟩
    exact ⟨_, ⟨v, hv, rfl⟩, rfl⟩

theorem mem_texts_charIn {items : List ClassItem} :
    w ∈ (charIn items).texts ↔
      ∃ c ∈ CharSet.unions (items.map ClassItem.chars), w = [c] := by
  rw [charIn, texts_singleton]
  exact Iff.rfl

/-- The texts of a pattern for single characters are the characters of its shape. -/
theorem mem_texts_of_single {s : CharSet} (h : (p.shape false).single = true)
    (hs : (p.shape false).chars = s) : w ∈ p.texts ↔ ∃ c ∈ s, w = [c] := by
  subst hs
  constructor
  · intro hw
    obtain ⟨c, rfl⟩ := Shape.exists_eq_of_single h hw
    exact ⟨c, Shape.mem_chars_iff.2 ⟨[c], hw, List.mem_singleton_self c⟩, rfl⟩
  · rintro ⟨c, hc, rfl⟩
    obtain ⟨v, hv, hcv⟩ := Shape.mem_chars_iff.1 hc
    obtain ⟨d, rfl⟩ := Shape.exists_eq_of_single h hv
    rwa [List.mem_singleton.1 hcv]

/-! ### Alternatives and repetition -/

@[simp] theorem mem_texts_anyOf {alternatives : List Pattern} :
    w ∈ (anyOf alternatives).texts ↔ ∃ p ∈ alternatives, w ∈ p.texts := by
  rw [anyOf, texts_singleton]
  exact mem_alternativesShape

theorem mem_texts_repeated {q : Quantifier} :
    w ∈ (p.repeated q).texts ↔ ∃ n, q.Allows n ∧ w ∈ p.texts ^ n := by
  have hpiece : ∀ piece : Piece, w ∈ texts [.repeated piece q] ↔
      ∃ n, q.Allows n ∧ w ∈ (piece.shape false).language ^ n := by
    intro piece
    rw [texts_singleton]
    exact Iff.rfl
  have hgroup : (Piece.shape false (.group .plain [p])).language = p.texts := by
    ext v
    rw [← texts_singleton]
    exact mem_texts_anyOf.trans (by simp)
  -- a single piece without a quantifier is repeated as it is, all else in a group
  unfold repeated
  split
  · rw [hpiece, texts_singleton]
  · rw [hpiece, texts_singleton]
  · rw [hpiece, texts_singleton]
  · rw [hpiece, hgroup]

open scoped Computability in
theorem texts_many (p : Pattern) : p.many.texts = p.texts∗ := by
  ext w
  rw [many, mem_texts_repeated, Language.kstar_eq_iSup_pow, Language.mem_iSup]
  refine exists_congr fun n => and_iff_right ⟨Nat.zero_le n, ?_⟩
  rintro m ⟨⟩

/-- One or more rounds of one character each. -/
theorem mem_texts_atLeastOnce {P : Char → Prop}
    (hp : ∀ w, w ∈ p.texts ↔ ∃ c, P c ∧ w = [c]) :
    w ∈ p.atLeastOnce.texts ↔ w ≠ [] ∧ ∀ c ∈ w, P c := by
  rw [atLeastOnce, mem_texts_repeated]
  simp only [mem_pow_of_single hp]
  constructor
  · rintro ⟨n, ⟨hleast, -⟩, rfl, hchars⟩
    exact ⟨List.length_pos_iff.1 hleast, hchars⟩
  · rintro ⟨hne, hchars⟩
    refine ⟨w.length, ⟨List.length_pos_iff.2 hne, ?_⟩, rfl, hchars⟩
    rintro m ⟨⟩

theorem mem_texts_optional : w ∈ p.optional.texts ↔ w = [] ∨ w ∈ p.texts := by
  rw [optional, mem_texts_repeated]
  constructor
  · rintro ⟨n, ⟨-, hn⟩, hw⟩
    obtain rfl | rfl := Nat.le_one_iff_eq_zero_or_eq_one.1 (hn 1 rfl)
    · exact .inl hw
    · exact .inr (pow_one p.texts ▸ hw)
  · rintro (rfl | hw)
    · exact ⟨0, ⟨Nat.le_refl 0, fun m _ => Nat.zero_le m⟩, rfl⟩
    · refine ⟨1, ⟨Nat.zero_le 1, ?_⟩, (pow_one p.texts).symm ▸ hw⟩
      rintro m ⟨⟩
      exact Nat.le_refl 1

theorem texts_times (count : UInt64) : (p.times count).texts = p.texts ^ count.toNat := by
  ext w
  rw [times, mem_texts_repeated]
  constructor
  · rintro ⟨n, ⟨hleast, hmost⟩, hw⟩
    obtain rfl : n = count.toNat := Nat.le_antisymm (hmost _ rfl) hleast
    exact hw
  · intro hw
    refine ⟨count.toNat, ⟨Nat.le_refl _, ?_⟩, hw⟩
    rintro m ⟨⟩
    exact Nat.le_refl _

/-- Two rounds of one character each. -/
theorem mem_texts_times_two {α : Type} {f : α → Char} {P : α → Prop}
    (hp : ∀ w, w ∈ p.texts ↔ ∃ a, P a ∧ w = [f a]) :
    w ∈ (p.times 2).texts ↔ ∃ a b, P a ∧ P b ∧ w = [f a, f b] := by
  rw [texts_times, show (2 : UInt64).toNat = 2 from rfl, pow_two, Language.mem_mul]
  simp only [hp]
  constructor
  · rintro ⟨_, ⟨a, ha, rfl⟩, _, ⟨b, hb, rfl⟩, rfl⟩
    exact ⟨a, b, ha, hb, rfl⟩
  · rintro ⟨a, b, ha, hb, rfl⟩
    exact ⟨_, ⟨a, ha, rfl⟩, _, ⟨b, hb, rfl⟩, rfl⟩

theorem mem_texts_between {least most : UInt64} :
    w ∈ (p.between least most).texts ↔
      ∃ n, least.toNat ≤ n ∧ n ≤ most.toNat ∧ w ∈ p.texts ^ n := by
  rw [between, mem_texts_repeated]
  refine exists_congr fun n => ?_
  rw [← and_assoc]
  refine and_congr_left fun _ => and_congr_right fun _ => ?_
  constructor
  · intro h
    exact h _ rfl
  · rintro h m ⟨⟩
    exact h

end Pattern

end AbnfPatterns
