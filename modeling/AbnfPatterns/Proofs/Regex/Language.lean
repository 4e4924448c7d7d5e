import AbnfPatterns.Proofs.Regex.Shape
import AbnfPatterns.Regex.Matching

/-!
# Languages of patterns

A pattern without its spelling, its groups and its look-aheads is a shape.  Whatever a pattern
accepts is a text of its shape; the other direction needs the look-aheads to hold.
-/

namespace AbnfPatterns

namespace CharSet

/-! ### Case -/

/-- Both cases of every ASCII letter that the set has in one case. -/
def ignoringCase (s : CharSet) : CharSet :=
  (List.range 26).foldl
    (fun t n =>
      let lower := Char.ofNat ('a'.toNat + n)
      let upper := Char.ofNat ('A'.toNat + n)
      if lower ∈ s ∨ upper ∈ s then (t.insert lower).insert upper else t)
    s

def covered (s : CharSet) (ignoreCase : Bool) : CharSet :=
  if ignoreCase then s.ignoringCase else s

theorem toLower_toUpper_letter : ∀ n < 26,
    (Char.ofNat ('a'.toNat + n)).toUpper = Char.ofNat ('A'.toNat + n)
      ∧ (Char.ofNat ('A'.toNat + n)).toLower = Char.ofNat ('a'.toNat + n) := by
  decide

/-- A character with another lower case is an ASCII letter in upper case. -/
theorem exists_upper {c : Char} (h : c.toLower ≠ c) : ∃ n < 26, c = Char.ofNat ('A'.toNat + n) := by
  have hc : 'A'.val ≤ c.val ∧ c.val ≤ 'Z'.val := by
    by_contra hc
    exact h (dif_neg hc)
  simp only [UInt32.le_iff_toNat_le] at hc
  change 65 ≤ c.toNat ∧ c.toNat ≤ 90 at hc
  refine ⟨c.toNat - 65, by omega, ?_⟩
  rw [show 'A'.toNat + (c.toNat - 65) = c.toNat from by change 65 + _ = _; omega, Char.ofNat_toNat]

/-- A character with another upper case is an ASCII letter in lower case. -/
theorem exists_lower {c : Char} (h : c.toUpper ≠ c) : ∃ n < 26, c = Char.ofNat ('a'.toNat + n) := by
  have hc : 'a'.val ≤ c.val ∧ c.val ≤ 'z'.val := by
    by_contra hc
    exact h (dif_neg hc)
  simp only [UInt32.le_iff_toNat_le] at hc
  change 97 ≤ c.toNat ∧ c.toNat ≤ 122 at hc
  refine ⟨c.toNat - 97, by omega, ?_⟩
  rw [show 'a'.toNat + (c.toNat - 97) = c.toNat from by change 97 + _ = _; omega, Char.ofNat_toNat]

theorem mem_ignoringCase {s : CharSet} {c : Char} :
    c ∈ s.ignoringCase ↔ c ∈ s ∨ c.toLower ∈ s ∨ c.toUpper ∈ s := by
  have hfold : ∀ (ns : List Nat) (t : CharSet),
      c ∈ ns.foldl (fun t n =>
          let lower := Char.ofNat ('a'.toNat + n)
          let upper := Char.ofNat ('A'.toNat + n)
          if lower ∈ s ∨ upper ∈ s then (t.insert lower).insert upper else t) t
        ↔ c ∈ t ∨ ∃ n ∈ ns, (Char.ofNat ('a'.toNat + n) ∈ s ∨ Char.ofNat ('A'.toNat + n) ∈ s)
          ∧ (c = Char.ofNat ('A'.toNat + n) ∨ c = Char.ofNat ('a'.toNat + n)) := by
    intro ns
    induction ns with
    | nil => simp
    | cons n ns ih =>
      intro t
      simp only [List.foldl_cons, ih, List.mem_cons, exists_eq_or_imp]
      split
      · rw [mem_insert, mem_insert]
        grind
      · grind
  rw [ignoringCase, hfold]
  -- only letters have another case, and the fold goes through all of them
  constructor
  · rintro (h | ⟨n, hn, hs, rfl | rfl⟩)
    · exact .inl h
    · obtain ⟨-, hlower⟩ := toLower_toUpper_letter n (List.mem_range.1 hn)
      rw [hlower]
      exact hs.elim (fun h => .inr (.inl h)) .inl
    · obtain ⟨hupper, -⟩ := toLower_toUpper_letter n (List.mem_range.1 hn)
      rw [hupper]
      exact hs.elim .inl fun h => .inr (.inr h)
  · rintro (h | h | h)
    · exact .inl h
    · by_cases hc : c.toLower = c
      · exact .inl (hc ▸ h)
      · obtain ⟨n, hn, rfl⟩ := exists_upper hc
        rw [(toLower_toUpper_letter n hn).2] at h
        exact .inr ⟨n, List.mem_range.2 hn, .inl h, .inl rfl⟩
    · by_cases hc : c.toUpper = c
      · exact .inl (hc ▸ h)
      · obtain ⟨n, hn, rfl⟩ := exists_lower hc
        rw [(toLower_toUpper_letter n hn).1] at h
        exact .inr ⟨n, List.mem_range.2 hn, .inr h, .inr rfl⟩

@[simp] theorem mem_covered {s : CharSet} {ignoreCase : Bool} {c : Char} :
    c ∈ s.covered ignoreCase ↔ s.Covers ignoreCase c := by
  cases ignoreCase with
  | false => simp [covered, Covers]
  | true => simp [covered, Covers, mem_ignoringCase]

end CharSet

theorem covers_unions {items : List ClassItem} {ignoreCase : Bool} {c : Char} :
    (CharSet.unions (items.map ClassItem.chars)).Covers ignoreCase c ↔
      ∃ item ∈ items, item.chars.Covers ignoreCase c := by
  simp only [CharSet.Covers, CharSet.mem_unions, List.mem_map, exists_exists_and_eq_and]
  grind

/-! ### Shapes of patterns -/

mutual

def Piece.shape (ignoreCase : Bool) : Piece → Shape
  | .glyph g => .oneOf ((CharSet.empty.insert g.char).covered ignoreCase)
  | .charIn items => .oneOf ((CharSet.unions (items.map ClassItem.chars)).covered ignoreCase)
  | .group .plain alternatives => alternativesShape ignoreCase alternatives
  | .group .ignoreCase alternatives => alternativesShape true alternatives
  | .group .notAhead _ => .nothing
  | .group (.capture _) alternatives => alternativesShape ignoreCase alternatives
  | .repeated piece q => .repeated q.least q.most (Piece.shape ignoreCase piece)

/-- **The shape of a pattern**; its look-aheads are left out. -/
def Pattern.shape (ignoreCase : Bool) : Pattern → Shape
  | [] => .nothing
  | piece :: rest => .concat (piece.shape ignoreCase) (Pattern.shape ignoreCase rest)

def alternativesShape (ignoreCase : Bool) : List Pattern → Shape
  | [] => .never
  | first :: rest => .either (Pattern.shape ignoreCase first) (alternativesShape ignoreCase rest)

end

namespace CharSet

def all : CharSet :=
  ofRange (Char.ofNat 0) (Char.ofNat 0x10FFFF)

theorem mem_all (c : Char) : c ∈ all := by
  have hc := c.valid
  simp only [UInt32.isValidChar, Nat.isValidChar] at hc
  rw [all, mem_ofRange]
  show 0 ≤ c.toNat ∧ c.val.toNat ≤ 0x10FFFF
  omega

def disjoint (s t : CharSet) : Bool :=
  s.runs.all fun r => t.runs.all fun u =>
    r.last.toNat < u.first.toNat || u.last.toNat < r.first.toNat

theorem not_mem_of_disjoint {s t : CharSet} (h : s.disjoint t = true) {c : Char} (hs : c ∈ s) :
    c ∉ t := by
  rintro ⟨u, hu, hcu⟩
  obtain ⟨r, hr, hcr⟩ := hs
  have h' := List.all_eq_true.1 (List.all_eq_true.1 h r hr) u hu
  rw [Bool.or_eq_true, decide_eq_true_eq, decide_eq_true_eq] at h'
  have hr := CharRun.mem_def.1 hcr
  have hu := CharRun.mem_def.1 hcu
  omega

end CharSet

namespace Pattern

/-! ### Soundness -/

variable {ignoreCase : Bool} {w rest : List Char}

theorem mem_alternativesShape {alternatives : List Pattern} :
    w ∈ (alternativesShape ignoreCase alternatives).language ↔
      ∃ p ∈ alternatives, w ∈ (p.shape ignoreCase).language := by
  induction alternatives with
  | nil => simp [alternativesShape]
  | cons first others ih => simp [alternativesShape, ih]

theorem mem_shape_cons {piece : Piece} {p : Pattern} :
    w ∈ (Pattern.shape ignoreCase (piece :: p)).language ↔
      ∃ u v, w = u ++ v ∧ u ∈ (piece.shape ignoreCase).language
        ∧ v ∈ (p.shape ignoreCase).language := by
  rw [Pattern.shape, Shape.mem_language_concat]

theorem mem_pow_of_repeats {accepts : List Char → List Char → Prop} {L : Language Char} {n : Nat}
    (haccepts : ∀ u r, accepts u r → u ∈ L) (h : Repeats accepts n w rest) : w ∈ L ^ n := by
  induction n generalizing w with
  | zero => exact (Language.mem_one _).2 h
  | succ n ih =>
    obtain ⟨u, v, rfl, hu, hv⟩ := h
    rw [pow_succ']
    exact Language.append_mem_mul (haccepts u _ hu) (ih hv)

theorem repeats_of_mem_pow {accepts : List Char → List Char → Prop} {L : Language Char} {n : Nat}
    (haccepts : ∀ u ∈ L, ∀ r, accepts u r) (h : w ∈ L ^ n) : Repeats accepts n w rest := by
  induction n generalizing w with
  | zero => exact (Language.mem_one _).1 h
  | succ n ih =>
    rw [pow_succ', Language.mem_mul] at h
    obtain ⟨u, hu, v, hv, rfl⟩ := h
    exact ⟨u, v, rfl, haccepts u hu _, ih hv⟩

/-- Pieces whose accepted texts are texts of their shapes make such a pattern. -/
theorem mem_language_of_pieces {p : Pattern}
    (hp : ∀ piece ∈ p, ∀ w rest, piece.Accepts ignoreCase w rest →
      w ∈ (piece.shape ignoreCase).language)
    (h : p.Accepts ignoreCase w rest) : w ∈ (p.shape ignoreCase).language := by
  induction p generalizing w with
  | nil => exact Shape.mem_language_nothing.2 (accepts_nil.1 h)
  | cons piece p ih =>
    obtain ⟨u, v, rfl, hpiece, hrest⟩ := accepts_cons.1 h
    exact mem_shape_cons.2 ⟨u, v, rfl, hp piece List.mem_cons_self u _ hpiece,
      ih (fun q hq => hp q (List.mem_cons_of_mem _ hq)) hrest⟩

theorem mem_language_of_piece_accepts {piece : Piece} (h : piece.Accepts ignoreCase w rest) :
    w ∈ (piece.shape ignoreCase).language := by
  induction piece using Piece.induction generalizing ignoreCase w rest with
  | glyph g =>
    obtain ⟨c, rfl, hc⟩ := h
    exact ⟨c, CharSet.mem_covered.2 hc, rfl⟩
  | charIn items =>
    obtain ⟨c, rfl, hc⟩ := h
    exact ⟨c, CharSet.mem_covered.2 (covers_unions.2 hc), rfl⟩
  | group kind alternatives ih =>
    have halternatives : ∀ ignoreCase, alternativesAccept ignoreCase alternatives w rest →
        w ∈ (alternativesShape ignoreCase alternatives).language := by
      intro ignoreCase h
      obtain ⟨p, hp, haccepts⟩ := alternativesAccept_iff.1 h
      exact mem_alternativesShape.2 ⟨p, hp, mem_language_of_pieces
        (fun piece hpiece _ _ h => ih p hp piece hpiece h) haccepts⟩
    cases kind with
    | plain => exact halternatives ignoreCase h
    | ignoreCase => exact halternatives true h
    | notAhead =>
      -- whether the look-ahead holds is of no matter here
      exact Shape.mem_language_nothing.2 h.1
    | capture name => exact halternatives ignoreCase h
  | repeated piece q ih =>
    obtain ⟨n, hn, hrepeats⟩ := h
    exact ⟨n, hn, mem_pow_of_repeats (fun _ _ h => ih h) hrepeats⟩

/-- **What a pattern accepts is a text of its shape.** -/
theorem mem_language_of_accepts {p : Pattern} (h : p.Accepts ignoreCase w rest) :
    w ∈ (p.shape ignoreCase).language :=
  mem_language_of_pieces (fun _ _ _ _ h => mem_language_of_piece_accepts h) h

end Pattern

/-! ### Settled look-aheads -/

/-- Whether a text ends at once or goes on with a character of a set. -/
def StartsIn (follow : CharSet) (rest : List Char) : Prop :=
  ∀ c ∈ rest.head?, c ∈ follow

/-- The first characters of the texts of a shape in front of a text that starts in `follow`. -/
def Shape.firstsBefore (s : Shape) (follow : CharSet) : CharSet :=
  if s.nullable then s.firsts ∪ follow else s.firsts

theorem startsIn_append {s : Shape} {follow : CharSet} {v rest : List Char} (hv : v ∈ s.language)
    (hrest : StartsIn follow rest) : StartsIn (s.firstsBefore follow) (v ++ rest) := by
  intro c hc
  rw [Shape.firstsBefore]
  cases v with
  | nil =>
    -- `rest` comes at once
    rw [if_pos (Shape.nullable_of_nil_mem hv), CharSet.mem_union]
    exact .inr (hrest c hc)
  | cons d v =>
    cases hc
    split
    · exact CharSet.mem_union.2 (.inl (Shape.head_mem_firsts hv))
    · exact Shape.head_mem_firsts hv

mutual

/-- Whether the look-aheads of a piece hold wherever the text ends or goes on with a character of
`follow`.  A repeated piece may be followed by itself, so what follows it is left open. -/
def Piece.settled (ignoreCase : Bool) (follow : CharSet) : Piece → Bool
  | .glyph _ => true
  | .charIn _ => true
  | .group .plain alternatives => alternativesSettled ignoreCase follow alternatives
  | .group .ignoreCase alternatives => alternativesSettled true follow alternatives
  | .group .notAhead alternatives =>
    let s := alternativesShape ignoreCase alternatives
    !s.nullable && s.firsts.disjoint follow
  | .group (.capture _) alternatives => alternativesSettled ignoreCase follow alternatives
  | .repeated piece _ => Piece.settled ignoreCase .all piece

/-- **Whether the look-aheads of a pattern hold** wherever the text ends or goes on with a character
of `follow`. -/
def Pattern.settled (ignoreCase : Bool) (follow : CharSet) : Pattern → Bool
  | [] => true
  | piece :: rest =>
    piece.settled ignoreCase ((Pattern.shape ignoreCase rest).firstsBefore follow)
      && Pattern.settled ignoreCase follow rest

def alternativesSettled (ignoreCase : Bool) (follow : CharSet) : List Pattern → Bool
  | [] => true
  | first :: rest =>
    Pattern.settled ignoreCase follow first && alternativesSettled ignoreCase follow rest

end

namespace Pattern

variable {ignoreCase : Bool} {follow : CharSet} {w rest : List Char}

theorem alternativesSettled_iff {alternatives : List Pattern} :
    alternativesSettled ignoreCase follow alternatives = true ↔
      ∀ p ∈ alternatives, p.settled ignoreCase follow = true := by
  induction alternatives with
  | nil => simp [alternativesSettled]
  | cons first rest ih => simp [alternativesSettled, ih]

/-- What a piece accepts where it is settled are the texts of its shape. -/
def Exact (ignoreCase : Bool) (piece : Piece) : Prop :=
  ∀ follow, piece.settled ignoreCase follow = true → ∀ rest, StartsIn follow rest →
    ∀ w, piece.Accepts ignoreCase w rest ↔ w ∈ (piece.shape ignoreCase).language

/-- Settled pieces in a row accept the texts of their shape. -/
theorem accepts_iff_of_pieces {p : Pattern} (hp : ∀ piece ∈ p, Exact ignoreCase piece)
    (hsettled : p.settled ignoreCase follow = true) (hrest : StartsIn follow rest) :
    p.Accepts ignoreCase w rest ↔ w ∈ (p.shape ignoreCase).language := by
  induction p generalizing w with
  | nil => rw [accepts_nil, Pattern.shape, Shape.mem_language_nothing]
  | cons piece p ih =>
    rw [Pattern.settled, Bool.and_eq_true] at hsettled
    -- the rest of the pattern decides what may follow its first piece
    have ih := fun w => ih (w := w) (fun q hq => hp q (List.mem_cons_of_mem _ hq)) hsettled.2
    rw [accepts_cons, mem_shape_cons]
    refine exists_congr fun u => exists_congr fun v => and_congr_right fun _ => ?_
    rw [ih]
    refine and_congr_left fun hv => ?_
    exact hp piece List.mem_cons_self _ hsettled.1 _ (startsIn_append hv hrest) u

/-- Settled alternatives accept the texts of their shapes. -/
theorem alternativesAccept_iff_of_pieces {alternatives : List Pattern}
    (h : ∀ p ∈ alternatives, ∀ piece ∈ p, Exact ignoreCase piece)
    (hsettled : alternativesSettled ignoreCase follow alternatives = true)
    (hrest : StartsIn follow rest) :
    alternativesAccept ignoreCase alternatives w rest ↔
      w ∈ (alternativesShape ignoreCase alternatives).language := by
  rw [alternativesAccept_iff, mem_alternativesShape]
  refine exists_congr fun p => and_congr_right fun hp => ?_
  exact accepts_iff_of_pieces (h p hp) (alternativesSettled_iff.1 hsettled p hp) hrest

/-- Settled alternatives that are looked out for do not match. -/
theorem fails_of_settled {alternatives : List Pattern}
    (hsettled : Piece.settled ignoreCase follow (.group .notAhead alternatives) = true)
    (hrest : StartsIn follow rest) (u v : List Char) (heq : rest = u ++ v) :
    ¬ alternativesAccept ignoreCase alternatives u v := by
  intro h
  simp only [Piece.settled, Bool.and_eq_true, Bool.not_eq_true'] at hsettled
  obtain ⟨hnullable, hdisjoint⟩ := hsettled
  obtain ⟨p, hp, haccepts⟩ := alternativesAccept_iff.1 h
  have hu := mem_alternativesShape.2 ⟨p, hp, mem_language_of_accepts haccepts⟩
  cases u with
  | nil =>
    rw [Shape.nullable_of_nil_mem hu] at hnullable
    cases hnullable
  | cons c u =>
    -- the character would be in both of two disjoint sets
    subst heq
    exact CharSet.not_mem_of_disjoint hdisjoint (Shape.head_mem_firsts hu) (hrest c rfl)

theorem exact_piece (piece : Piece) : ∀ ignoreCase, Exact ignoreCase piece := by
  induction piece using Piece.induction with
  | glyph g =>
    intro ignoreCase follow _ rest _ w
    refine exists_congr fun c => ?_
    rw [CharSet.mem_covered, and_comm]
  | charIn items =>
    intro ignoreCase follow _ rest _ w
    refine exists_congr fun c => ?_
    rw [CharSet.mem_covered, covers_unions, and_comm]
  | group kind alternatives ih =>
    intro ignoreCase follow hsettled rest hrest w
    cases kind with
    | plain =>
      exact alternativesAccept_iff_of_pieces (fun p hp q hq => ih p hp q hq _) hsettled hrest
    | ignoreCase =>
      exact alternativesAccept_iff_of_pieces (fun p hp q hq => ih p hp q hq _) hsettled hrest
    | notAhead =>
      -- the look-ahead holds, and takes no text
      have hfails := fails_of_settled hsettled hrest
      refine Iff.trans ?_ Shape.mem_language_nothing.symm
      exact and_iff_left hfails
    | capture name =>
      exact alternativesAccept_iff_of_pieces (fun p hp q hq => ih p hp q hq _) hsettled hrest
  | repeated piece q ih =>
    intro ignoreCase follow hsettled rest _ w
    -- any text may follow a round, so what a round accepts does not depend on it
    have hpiece : ∀ u r, piece.Accepts ignoreCase u r ↔ u ∈ (piece.shape ignoreCase).language :=
      fun u r => ih ignoreCase .all hsettled r (fun c _ => CharSet.mem_all c) u
    refine exists_congr fun n => and_congr_right fun _ => ?_
    exact ⟨mem_pow_of_repeats fun u r => (hpiece u r).1,
      repeats_of_mem_pow fun u hu r => (hpiece u r).2 hu⟩

/-- **A settled pattern accepts exactly the texts of its shape.** -/
theorem accepts_iff_mem_language {p : Pattern} (hsettled : p.settled ignoreCase follow = true)
    (hrest : StartsIn follow rest) :
    p.Accepts ignoreCase w rest ↔ w ∈ (p.shape ignoreCase).language :=
  accepts_iff_of_pieces (fun piece _ => exact_piece piece ignoreCase) hsettled hrest

end Pattern

end AbnfPatterns
