import AbnfPatterns.Proofs.Http.Characters
import AbnfPatterns.Proofs.Standard.Fragments

/-!
# Comments

The pattern for comments is a repetition inside a repetition; what it matches is what a scan with a
counter for open parentheses accepts.
-/

namespace AbnfPatterns.Http

open HttpRules (quotedPair ctext comment)
open Pattern
open scoped Computability

variable {depth : Nat} {w u rest : List Char} {c : Char}

/-! ### The scan -/

/-- **The scan of a comment** from inside `depth` open parentheses to the end of the text.  The last
parenthesis is closed by the last character, and there are never more than two open ones. -/
def closes : (depth : Nat) → List Char → Bool
  | 0, rest => rest.isEmpty
  | _ + 1, [] => false
  -- a backslash needs a character to escape
  | _ + 1, ['\\'] => false
  | depth + 1, '\\' :: c :: rest => decide (IsTextChar c) && closes (depth + 1) rest
  | depth + 1, '(' :: rest => decide (depth + 2 ≤ 2) && closes (depth + 2) rest
  | depth + 1, ')' :: rest => closes depth rest
  | depth + 1, c :: rest => ctext.rule.admits c && closes (depth + 1) rest

/-- **The scan of a text that is to be a comment**: an opening parenthesis, and the scan from inside
it. -/
def isComment : List Char → Bool
  | '(' :: rest => closes 1 rest
  | _ => false

theorem closes_ctext (h : ctext.rule.admits c = true) (rest : List Char) :
    closes (depth + 1) (c :: rest) = closes (depth + 1) rest := by
  obtain ⟨hbackslash, hopening, hclosing⟩ := ne_of_admits_ctext h
  rw [closes, h, Bool.true_and]
  · exact fun hc _ => hbackslash hc
  · exact fun _ _ hc _ => hbackslash hc
  · exact hopening
  · exact hclosing

theorem closes_quotedPair (h : IsTextChar c) (rest : List Char) :
    closes (depth + 1) ('\\' :: c :: rest) = closes (depth + 1) rest := by
  rw [closes, decide_eq_true h, Bool.true_and]

/-! ### Pieces of a comment -/

/-- One piece of what stands inside so many open parentheses. -/
def pieceInside : (depth : Nat) → Pattern
  | 1 => anyOf [ctext.pattern, quotedPair.pattern, HttpRules.flatComment]
  | _ => anyOf [ctext.pattern, quotedPair.pattern]

/-- Any number of such pieces between parentheses. -/
def commentAt (depth : Nat) : Pattern :=
  literal "(" ++ (pieceInside depth).many ++ literal ")"

theorem mem_texts_commentAt :
    w ∈ (commentAt depth).texts ↔
      ∃ u ∈ (pieceInside depth).texts∗, w = '(' :: (u ++ [')']) := by
  simp only [commentAt, List.append_assoc, mem_texts_append, texts_many, mem_texts_literal,
    exists_eq_left]
  constructor
  · rintro ⟨_, ⟨u, hu, rfl⟩, rfl⟩
    exact ⟨u, hu, rfl⟩
  · rintro ⟨u, hu, rfl⟩
    exact ⟨_, ⟨u, hu, rfl⟩, rfl⟩

/-- A comment may stand inside one parenthesis only. -/
theorem mem_texts_pieceInside :
    u ∈ (pieceInside depth).texts ↔
      u ∈ ctext.pattern.texts ∨ u ∈ quotedPair.pattern.texts
        ∨ depth = 1 ∧ u ∈ (commentAt 2).texts := by
  have hflat : HttpRules.flatComment = commentAt 2 := rfl
  unfold pieceInside
  split
  · simp [hflat]
  · rename_i hdepth
    have hne : depth ≠ 1 := hdepth
    simp [hne]

/-- **What may follow inside so many open parentheses**: pieces, a closing parenthesis, and what may
follow it. -/
def Ends : (depth : Nat) → List Char → Prop
  | 0, w => w = []
  | depth + 1, w =>
    ∃ u ∈ (pieceInside (depth + 1)).texts∗, ∃ rest, Ends depth rest ∧ w = u ++ ')' :: rest

theorem Ends.append (hu : u ∈ (pieceInside (depth + 1)).texts) (h : Ends (depth + 1) w) :
    Ends (depth + 1) (u ++ w) := by
  obtain ⟨v, hv, rest, hrest, rfl⟩ := h
  exact ⟨u ++ v, append_mem_kstar hu hv, rest, hrest, (List.append_assoc _ _ _).symm⟩

/-! ### The scan of the pieces -/

/-- A text that the scan goes through without a change of the depth. -/
def Skipped (depth : Nat) (u : List Char) : Prop :=
  ∀ rest, closes depth (u ++ rest) = closes depth rest

theorem skipped_kstar {L : Language Char} (hL : ∀ u ∈ L, Skipped depth u) :
    ∀ u ∈ L∗, Skipped depth u := by
  apply forall_mem_kstar
  · exact fun _ => rfl
  · intro u hu v hv rest
    rw [List.append_assoc, hL u hu, hv]

theorem skipped_flat (hu : u ∈ ctext.pattern.texts ∨ u ∈ quotedPair.pattern.texts) :
    Skipped (depth + 1) u := by
  rcases hu with hu | hu
  · obtain ⟨c, hc, rfl⟩ := mem_texts_ctext.1 hu
    exact closes_ctext hc
  · obtain ⟨c, hc, rfl⟩ := mem_texts_quotedPair.1 hu
    exact closes_quotedPair hc

/-- A comment inside a comment is gone through as a whole. -/
theorem skipped_commentAt (hpieces : ∀ u ∈ (pieceInside 2).texts, Skipped 2 u)
    (hu : u ∈ (commentAt 2).texts) : Skipped 1 u := by
  obtain ⟨v, hv, rfl⟩ := mem_texts_commentAt.1 hu
  intro rest
  have hinner := skipped_kstar hpieces v hv (')' :: rest)
  rw [List.cons_append, List.append_assoc, closes]
  exact hinner

theorem skipped_pieceInside :
    ∀ u ∈ (pieceInside (depth + 1)).texts, Skipped (depth + 1) u := by
  have hflat : ∀ u ∈ (pieceInside 2).texts, Skipped 2 u := by
    intro u hu
    obtain hu | hu | ⟨hdepth, -⟩ := mem_texts_pieceInside.1 hu
    · exact skipped_flat (.inl hu)
    · exact skipped_flat (.inr hu)
    · cases hdepth
  intro u hu
  obtain hu | hu | ⟨hdepth, hu⟩ := mem_texts_pieceInside.1 hu
  · exact skipped_flat (.inl hu)
  · exact skipped_flat (.inr hu)
  · rw [hdepth]
    exact skipped_commentAt hflat hu

theorem closes_of_ends (h : Ends depth w) : closes depth w = true := by
  induction depth generalizing w with
  | zero =>
    rw [h]
    rfl
  | succ depth ih =>
    obtain ⟨u, hu, rest, hrest, rfl⟩ := h
    rw [skipped_kstar skipped_pieceInside u hu, closes]
    exact ih hrest

/-- What the scan goes through is made of pieces.  The induction follows the scan. -/
theorem ends_of_closes (h : closes depth w = true) (hdepth : depth ≤ 2) : Ends depth w := by
  fun_induction closes depth w with
  | case1 rest => exact List.isEmpty_iff.1 h
  | case2 => cases h
  | case3 => cases h
  | case4 depth c rest ih =>
    -- an escaped character
    rw [Bool.and_eq_true, decide_eq_true_eq] at h
    have hpair := mem_texts_quotedPair.2 ⟨c, h.1, rfl⟩
    exact (ih h.2 hdepth).append (mem_texts_pieceInside.2 (.inr (.inl hpair)))
  | case5 depth rest ih =>
    -- the inner comment ends where the depth comes down to one again
    rw [Bool.and_eq_true, decide_eq_true_eq] at h
    obtain rfl : depth = 0 := by omega
    obtain ⟨u, hu, rest, hrest, rfl⟩ := ih h.2 h.1
    have hcomment := mem_texts_commentAt.2 ⟨u, hu, rfl⟩
    have hends := hrest.append (mem_texts_pieceInside.2 (.inr (.inr ⟨rfl, hcomment⟩)))
    simpa using hends
  | case6 depth rest ih =>
    exact ⟨[], Language.nil_mem_kstar _, rest, ih h (Nat.le_of_succ_le hdepth), rfl⟩
  | case7 depth c rest _ _ _ _ ih =>
    -- any other character
    rw [Bool.and_eq_true] at h
    have htext := mem_texts_ctext.2 ⟨c, h.1, rfl⟩
    exact (ih h.2 hdepth).append (mem_texts_pieceInside.2 (.inl htext))

/-- **The scan succeeds on what may follow**, at the depths that it comes to. -/
theorem closes_iff (hdepth : depth ≤ 2) : closes depth w = true ↔ Ends depth w :=
  ⟨fun h => ends_of_closes h hdepth, closes_of_ends⟩

theorem mem_texts_comment : w ∈ comment.pattern.texts ↔ isComment w = true := by
  have hcomment : comment.pattern = commentAt 1 := rfl
  rw [hcomment, mem_texts_commentAt]
  constructor
  · rintro ⟨u, hu, rfl⟩
    exact closes_of_ends ⟨u, hu, [], rfl, rfl⟩
  · intro h
    unfold isComment at h
    split at h
    · obtain ⟨u, hu, _, rfl, rfl⟩ := (closes_iff (by decide)).1 h
      exact ⟨u, hu, rfl⟩
    · cases h

/-- **The fragment of the rule for comments matches exactly what the scan accepts**: comments with
at most one level of comments inside them. -/
theorem fragmentMatches_comment_iff :
    FragmentMatches comment.fragment w ↔ isComment w = true :=
  (Standard.fragmentMatches_iff (s := .rfc9110)
    (by simp [Standard.productions, HttpRules.productions])).trans mem_texts_comment

/-- Escaped parentheses do not count, and a third level is too deep. -/
example : isComment "(a (\\) \\\\) b)".toList = true ∧ isComment "(a (b (c)))".toList = false := by
  decide

end AbnfPatterns.Http
