import AbnfPatterns.Regex.Reading

/-!
# Matching

What a pattern matches, in front of the text that follows.
-/

namespace AbnfPatterns

/-- Whether a set has the character, or another case of it if case is ignored. -/
def CharSet.Covers (s : CharSet) (ignoreCase : Bool) (c : Char) : Prop :=
  c ∈ s ∨ ignoreCase = true ∧ (c.toLower ∈ s ∨ c.toUpper ∈ s)

instance (s : CharSet) (ignoreCase : Bool) (c : Char) : Decidable (s.Covers ignoreCase c) :=
  inferInstanceAs (Decidable (_ ∨ _))

/-- Some `n` texts in a row, each accepted in front of what follows it. -/
def Repeats (accepts : List Char → List Char → Prop) : Nat → List Char → List Char → Prop
  | 0, w, _ => w = []
  | n + 1, w, rest =>
    ∃ u v, w = u ++ v ∧ accepts u (v ++ rest) ∧ Repeats accepts n v rest

mutual

/-- A piece matches the text `w` in front of `rest`. -/
def Piece.Accepts (ignoreCase : Bool) : Piece → List Char → List Char → Prop
  | .glyph g, w, _ => ∃ c, w = [c] ∧ (CharSet.empty.insert g.char).Covers ignoreCase c
  | .charIn items, w, _ =>
    ∃ c, w = [c] ∧ ∃ item ∈ items, item.chars.Covers ignoreCase c
  | .group .plain alternatives, w, rest => alternativesAccept ignoreCase alternatives w rest
  | .group .ignoreCase alternatives, w, rest => alternativesAccept true alternatives w rest
  -- nothing that follows, however much of it, is matched
  | .group .notAhead alternatives, w, rest =>
    w = [] ∧ ∀ u v, rest = u ++ v → ¬ alternativesAccept ignoreCase alternatives u v
  | .group (.capture _) alternatives, w, rest => alternativesAccept ignoreCase alternatives w rest
  | .repeated piece q, w, rest =>
    ∃ n, q.Allows n ∧ Repeats (Piece.Accepts ignoreCase piece) n w rest

/-- **A pattern matches the text `w` in front of `rest`.** -/
def Pattern.Accepts (ignoreCase : Bool) : Pattern → List Char → List Char → Prop
  | [], w, _ => w = []
  | piece :: pieces, w, rest =>
    ∃ u v, w = u ++ v ∧ piece.Accepts ignoreCase u (v ++ rest)
      ∧ Pattern.Accepts ignoreCase pieces v rest

def alternativesAccept (ignoreCase : Bool) : List Pattern → List Char → List Char → Prop
  | [], _, _ => False
  | first :: others, w, rest =>
    Pattern.Accepts ignoreCase first w rest ∨ alternativesAccept ignoreCase others w rest

end

namespace Pattern

variable {ignoreCase : Bool}

theorem accepts_nil {w rest : List Char} : Accepts ignoreCase [] w rest ↔ w = [] := by
  simp [Pattern.Accepts]

theorem accepts_cons {piece : Piece} {p : Pattern} {w rest : List Char} :
    Accepts ignoreCase (piece :: p) w rest ↔
      ∃ u v, w = u ++ v ∧ piece.Accepts ignoreCase u (v ++ rest) ∧ Accepts ignoreCase p v rest := by
  simp [Pattern.Accepts]

theorem accepts_append {p q : Pattern} {w rest : List Char} :
    Accepts ignoreCase (p ++ q) w rest ↔
      ∃ u v, w = u ++ v ∧ Accepts ignoreCase p u (v ++ rest) ∧ Accepts ignoreCase q v rest := by
  induction p generalizing w with
  | nil =>
    simp only [List.nil_append, accepts_nil]
    constructor
    · intro h
      exact ⟨[], w, rfl, rfl, h⟩
    · rintro ⟨_, v, rfl, rfl, h⟩
      exact h
  | cons piece p ih =>
    simp only [List.cons_append, accepts_cons, ih]
    constructor
    · rintro ⟨u, v, rfl, hpiece, s, t, rfl, hp, hq⟩
      exact ⟨u ++ s, t, by simp, ⟨u, s, rfl, by simpa using hpiece, hp⟩, hq⟩
    · rintro ⟨_, t, rfl, ⟨u, s, rfl, hpiece, hp⟩, hq⟩
      exact ⟨u, s ++ t, by simp, by simpa using hpiece, s, t, rfl, hp, hq⟩

theorem accepts_singleton {piece : Piece} {w rest : List Char} :
    Accepts ignoreCase [piece] w rest ↔ piece.Accepts ignoreCase w rest := by
  rw [accepts_cons]
  constructor
  · rintro ⟨u, v, rfl, hpiece, hnil⟩
    obtain rfl := accepts_nil.1 hnil
    simpa using hpiece
  · intro h
    exact ⟨w, [], by simp, h, accepts_nil.2 rfl⟩

theorem alternativesAccept_iff {alternatives : List Pattern} {w rest : List Char} :
    alternativesAccept ignoreCase alternatives w rest ↔
      ∃ p ∈ alternatives, Accepts ignoreCase p w rest := by
  induction alternatives with
  | nil => simp [alternativesAccept]
  | cons first others ih => simp [alternativesAccept, ih]

end Pattern

/-- **A fragment, read as a pattern, matches the whole of a text.** -/
def FragmentMatches (fragment : String) (w : List Char) : Prop :=
  ∃ alternatives, Pattern.read? fragment.toList = some alternatives
    ∧ alternativesAccept false alternatives w []

end AbnfPatterns
