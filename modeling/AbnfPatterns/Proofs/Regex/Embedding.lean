import AbnfPatterns.Proofs.Regex.Tokens

/-!
# Embedding of pattern text

Text that denotes a pattern on its own denotes the same pattern wherever it is put: the reader never
looks below the brackets and pieces that were open when the text began.
-/

namespace AbnfPatterns

def Piece.isRepeated : Piece → Bool
  | .repeated _ _ => true
  | _ => false

namespace Pattern

/-! ### Open groups -/

namespace OpenPattern

/-- The group `p` continued by the alternatives of `q`, the first of which goes on where `p` ends. -/
def after (p q : OpenPattern) : OpenPattern :=
  match q.complete with
  | [] => { complete := p.complete, current := p.current ++ q.current }
  | first :: others =>
    { complete := p.complete ++ (p.current ++ first) :: others, current := q.current }

@[simp] theorem after_empty (p : OpenPattern) : p.after {} = p := by
  simp [after]

@[simp] theorem empty_after (p : OpenPattern) : OpenPattern.after {} p = p := by
  obtain ⟨complete, current⟩ := p
  cases complete <;> simp [after]

theorem after_push (p q : OpenPattern) (piece : Piece) :
    p.after (q.push piece) = (p.after q).push piece := by
  obtain ⟨complete, current⟩ := q
  cases complete <;> simp [after, push]

theorem after_bar (p q : OpenPattern) : p.after q.bar = (p.after q).bar := by
  obtain ⟨complete, current⟩ := q
  cases complete <;> simp [after, bar, alternatives]

theorem quantify_snoc {p : OpenPattern} {pieces : Pattern} {piece : Piece}
    (hcurrent : p.current = pieces ++ [piece]) (hpiece : piece.isRepeated = false)
    (q : Quantifier) :
    p.quantify q = some { p with current := pieces ++ [.repeated piece q] } := by
  rw [quantify, hcurrent, List.getLast?_concat, List.dropLast_concat]
  cases piece with
  | repeated piece q => cases hpiece
  | _ => rfl

/-- Where a quantifier can be put, there is a last piece, and it has no quantifier yet. -/
theorem exists_of_quantify {p p' : OpenPattern} {q : Quantifier} (h : p.quantify q = some p') :
    ∃ pieces piece, p.current = pieces ++ [piece] ∧ piece.isRepeated = false := by
  rw [quantify] at h
  split at h
  · cases h
  · cases h
  · rename_i piece hrepeated hlast
    obtain ⟨pieces, hcurrent⟩ := List.getLast?_eq_some_iff.1 hlast
    refine ⟨pieces, piece, hcurrent, ?_⟩
    cases piece with
    | repeated piece q => exact absurd rfl (hrepeated piece q)
    | _ => rfl

theorem after_quantify {p q q' : OpenPattern} {n : Quantifier} (h : q.quantify n = some q') :
    (p.after q).quantify n = some (p.after q') := by
  obtain ⟨pieces, piece, hcurrent, hpiece⟩ := exists_of_quantify h
  rw [quantify_snoc hcurrent hpiece] at h
  cases h
  -- the last piece of `q` is the last piece of `p.after q` as well
  obtain ⟨complete, current⟩ := q
  subst hcurrent
  cases complete with
  | nil =>
    have hafter : (p.after ⟨[], pieces ++ [piece]⟩).current = (p.current ++ pieces) ++ [piece] := by
      simp [after]
    rw [quantify_snoc hafter hpiece]
    simp [after]
  | cons first others => exact quantify_snoc rfl hpiece n

end OpenPattern

/-! ### Patterns under construction -/

namespace Assembly

/-- The pattern under construction `a` with the open groups `outer` and the group `inner` inside of
them. -/
def enclose (a : Assembly) (inner : OpenPattern) : List (GroupKind × OpenPattern) → Assembly
  | [] => { inner := a.inner.after inner, outer := a.outer }
  | (kind, around) :: outer =>
    let b := a.enclose around outer
    { inner := inner, outer := (kind, b.inner) :: b.outer }

/-- **A pattern under construction inside of another one**: its groups are opened where the other
one ends. -/
def inside (a b : Assembly) : Assembly :=
  a.enclose b.inner b.outer

theorem enclose_push (a : Assembly) (inner : OpenPattern) (outer : List (GroupKind × OpenPattern))
    (piece : Piece) :
    a.enclose (inner.push piece) outer
      = { a.enclose inner outer with inner := (a.enclose inner outer).inner.push piece } := by
  cases outer with
  | nil => simp [enclose, OpenPattern.after_push]
  | cons group outer => rfl

/-- A token has the same effect inside any pattern under construction. -/
theorem step_inside {a b b' : Assembly} {t : Token} (h : b.step t = some b') :
    (a.inside b).step t = some (a.inside b') := by
  obtain ⟨inner, outer⟩ := b
  cases t with
  | piece p =>
    cases h
    simp only [inside, enclose_push, step]
  | quantifier q =>
    -- what stood before `b` is never reached: the piece that is repeated belongs to `b`
    obtain ⟨inner', hquantify, rfl⟩ := Option.map_eq_some_iff.1 h
    cases outer with
    | nil =>
      simp only [inside, enclose, step, OpenPattern.after_quantify hquantify, Option.map_some]
    | cons group outer => simp only [inside, enclose, step, hquantify, Option.map_some]
  | opening kind =>
    cases h
    rfl
  | bar =>
    cases h
    cases outer with
    | nil => simp only [inside, enclose, step, OpenPattern.after_bar]
    | cons group outer => rfl
  | closing =>
    cases outer with
    | nil =>
      -- `b` on its own has no group to close, so it does not close one around it either
      cases h
    | cons group outer =>
      cases h
      simp only [inside, enclose, enclose_push, step]

/-- **Tokens have the same effect inside any pattern under construction.** -/
theorem run_inside {a b b' : Assembly} {tokens : List Token} (h : b.run tokens = some b') :
    (a.inside b).run tokens = some (a.inside b') := by
  induction tokens generalizing b with
  | nil =>
    cases h
    rfl
  | cons t tokens ih =>
    rw [run, List.foldlM_cons] at h ⊢
    obtain ⟨c, hstep, hrun⟩ := Option.bind_eq_some_iff.1 h
    rw [step_inside hstep]
    exact ih hrun

theorem run_append (a : Assembly) (first second : List Token) :
    a.run (first ++ second) = (a.run first).bind fun b => b.run second := by
  rw [run, List.foldlM_append]
  rfl

theorem run_singleton (a : Assembly) (t : Token) : a.run [t] = a.step t := by
  simp [run]

end Assembly

/-! ### Texts and what they denote -/

/-- **A text denotes a pattern**, given as an open group: on its own it opens and closes all of its
groups and ends with that pattern. -/
def Denotes (text : List Char) (p : OpenPattern) : Prop :=
  ∃ tokens, Token.readAll text = some tokens ∧ Assembly.run {} tokens = some { inner := p }

theorem read?_eq_some_iff {text : List Char} {alternatives : List Pattern} :
    read? text = some alternatives ↔ ∃ p, Denotes text p ∧ p.alternatives = alternatives := by
  constructor
  · intro h
    obtain ⟨tokens, hread, hrun⟩ := Option.bind_eq_some_iff.1 h
    rw [ofTokens?] at hrun
    split at hrun
    · rename_i inner hinner
      exact ⟨inner, ⟨tokens, hread, hinner⟩, Option.some.inj hrun⟩
    · cases hrun
  · rintro ⟨p, ⟨tokens, hread, hrun⟩, rfl⟩
    rw [read?, hread, Option.bind_some, ofTokens?, hrun]

namespace Denotes

variable {a b : List Char} {p p' q : OpenPattern}

theorem nil : Denotes [] {} :=
  ⟨[], Token.readAll_nil, rfl⟩

/-- A group that opens last would still be open at the end. -/
theorem last_ne_opening {tokens : List Token} (h : Assembly.run {} tokens = some { inner := p })
    (kind : GroupKind) : ∀ t ∈ tokens.getLast?, t ≠ .opening kind := by
  rintro t ht rfl
  obtain ⟨before, rfl⟩ := List.getLast?_eq_some_iff.1 ht
  rw [Assembly.run_append] at h
  obtain ⟨c, -, hstep⟩ := Option.bind_eq_some_iff.1 h
  -- the last step leaves a group open
  cases hstep

/-- A quantifier that comes first would have nothing to be put on. -/
theorem head_ne_question (h : Denotes a p) : a.head? ≠ some '?' := by
  obtain ⟨tokens, hread, hrun⟩ := h
  intro hhead
  obtain ⟨text, rfl⟩ := List.head?_eq_some_iff.1 hhead
  have hfirst : Token.readFirst '?' text = some (.quantifier .zeroOrOne, text) := rfl
  rw [Token.readAll_cons hfirst] at hread
  obtain ⟨others, -, rfl⟩ := Option.map_eq_some_iff.1 hread
  cases hrun

theorem readAll_append {tokens more : List Token} (ha : Token.readAll a = some tokens)
    (hrun : Assembly.run {} tokens = some { inner := p }) (hb : Token.readAll b = some more) :
    Token.readAll (a ++ b) = some (tokens ++ more) := by
  rw [Token.readAll_append ha (last_ne_opening hrun _), hb, Option.map_some]

/-- Tokens that denote a pattern continue any other one with it. -/
theorem run_of {c : Assembly} {tokens : List Token}
    (h : Assembly.run {} tokens = some { inner := p }) :
    c.run tokens = some { c with inner := c.inner.after p } := by
  have hrun := Assembly.run_inside (a := c) h
  rw [show c.inside {} = c from by simp [Assembly.inside, Assembly.enclose]] at hrun
  exact hrun

theorem append (ha : Denotes a p) (hb : Denotes b q) : Denotes (a ++ b) (p.after q) := by
  obtain ⟨tokens, hread, hrun⟩ := ha
  obtain ⟨more, hread', hrun'⟩ := hb
  refine ⟨tokens ++ more, readAll_append hread hrun hread', ?_⟩
  rw [Assembly.run_append, hrun, Option.bind_some]
  exact run_of hrun'

theorem bar (ha : Denotes a p) (hb : Denotes b q) : Denotes (a ++ '|' :: b) (p.bar.after q) := by
  obtain ⟨tokens, hread, hrun⟩ := ha
  obtain ⟨more, hread', hrun'⟩ := hb
  have hbar : Token.readFirst '|' b = some (.bar, b) := rfl
  have hmore : Token.readAll ('|' :: b) = some (.bar :: more) := by
    rw [Token.readAll_cons hbar, hread', Option.map_some]
  refine ⟨tokens ++ .bar :: more, readAll_append hread hrun hmore, ?_⟩
  rw [Assembly.run_append, hrun, Option.bind_some]
  exact run_of (c := { inner := p.bar }) hrun'

theorem group {kind : GroupKind} (hkind : kind.spellable = true) (ha : Denotes a p) :
    Denotes (kind.opening.toList ++ (a ++ [')']))
      { current := [.group kind p.alternatives] } := by
  -- a question mark here would belong to the bracket
  have hquestion : (a ++ [')']).head? ≠ some '?' := by
    cases a with
    | nil => decide
    | cons c text => exact ha.head_ne_question
  obtain ⟨tokens, hread, hrun⟩ := ha
  have hclosing : Token.readAll [')'] = some [.closing] := Token.readAll_singleton rfl
  refine ⟨.opening kind :: (tokens ++ [.closing]), ?_, ?_⟩
  · rw [Token.readAll_opening hkind fun _ => hquestion, readAll_append hread hrun hclosing,
      Option.map_some]
  · have hstep : Assembly.step {} (.opening kind) = some { outer := [(kind, {})] } := rfl
    rw [Assembly.run, List.foldlM_cons, hstep]
    -- inside the new group, the tokens do what they do on their own
    show Assembly.run { outer := [(kind, {})] } (tokens ++ [.closing]) = _
    rw [Assembly.run_append, run_of hrun, OpenPattern.empty_after]
    rfl

theorem quantifier {n : Quantifier} (ha : Denotes a p) (hquantify : p.quantify n = some p')
    (hb : Token.readAll b = some [.quantifier n]) : Denotes (a ++ b) p' := by
  obtain ⟨tokens, hread, hrun⟩ := ha
  refine ⟨tokens ++ [.quantifier n], readAll_append hread hrun hb, ?_⟩
  rw [Assembly.run_append, hrun, Option.bind_some]
  simp only [Assembly.run_singleton, Assembly.step, hquantify, Option.map_some]

end Denotes

/-! ### Laws of reading -/

section

variable {a b : List Char} {l m : List Pattern} {p q : Pattern}

theorem OpenPattern.alternatives_eq_concat {o : OpenPattern} (h : o.alternatives = l ++ [p]) :
    o = { complete := l, current := p } := by
  obtain ⟨complete, current⟩ := o
  obtain ⟨rfl, hcurrent⟩ := List.append_inj' h rfl
  cases hcurrent
  rfl

theorem read?_nil : read? [] = some [[]] :=
  read?_eq_some_iff.2 ⟨{}, Denotes.nil, rfl⟩

/-- What a text denotes has a last alternative. -/
theorem exists_read?_eq_concat (h : (read? a).isSome) : ∃ l p, read? a = some (l ++ [p]) := by
  obtain ⟨alternatives, hread⟩ := Option.isSome_iff_exists.1 h
  obtain ⟨o, -, rfl⟩ := read?_eq_some_iff.1 hread
  exact ⟨o.complete, o.current, hread⟩

/-- What a text denotes has a first alternative. -/
theorem exists_read?_eq_cons (h : (read? a).isSome) : ∃ q m, read? a = some (q :: m) := by
  obtain ⟨l, p, hread⟩ := exists_read?_eq_concat h
  cases l with
  | nil => exact ⟨p, [], hread⟩
  | cons first others => exact ⟨first, others ++ [p], hread⟩

theorem read?_piece {piece : Piece} (h : Token.readAll a = some [.piece piece]) :
    read? a = some [[piece]] :=
  read?_eq_some_iff.2 ⟨_, ⟨_, h, Assembly.run_singleton _ _⟩, rfl⟩

/-- **Joined texts** join the last alternative of the first with the first one of the second. -/
theorem read?_append (ha : read? a = some (l ++ [p])) (hb : read? b = some (q :: m)) :
    read? (a ++ b) = some (l ++ (p ++ q) :: m) := by
  obtain ⟨o, hdenotes, heq⟩ := read?_eq_some_iff.1 ha
  obtain rfl := OpenPattern.alternatives_eq_concat heq
  obtain ⟨⟨complete, current⟩, hdenotes', heq'⟩ := read?_eq_some_iff.1 hb
  refine read?_eq_some_iff.2 ⟨_, hdenotes.append hdenotes', ?_⟩
  cases complete with
  | nil =>
    cases heq'
    rfl
  | cons first others =>
    cases heq'
    simp [OpenPattern.after, OpenPattern.alternatives]

theorem read?_join (ha : read? a = some [p]) (hb : read? b = some [q]) :
    read? (a ++ b) = some [p ++ q] :=
  read?_append (l := []) ha hb

theorem read?_bar (ha : read? a = some l) (hb : read? b = some m) :
    read? (a ++ '|' :: b) = some (l ++ m) := by
  obtain ⟨o, hdenotes, rfl⟩ := read?_eq_some_iff.1 ha
  obtain ⟨⟨complete, current⟩, hdenotes', rfl⟩ := read?_eq_some_iff.1 hb
  refine read?_eq_some_iff.2 ⟨_, hdenotes.bar hdenotes', ?_⟩
  cases complete <;> simp [OpenPattern.after, OpenPattern.bar, OpenPattern.alternatives]

/-- **Brackets** around a text make one group of its alternatives. -/
theorem read?_group {kind : GroupKind} (hkind : kind.spellable = true) (ha : read? a = some l) :
    read? (kind.opening.toList ++ (a ++ [')'])) = some [[.group kind l]] := by
  obtain ⟨o, hdenotes, rfl⟩ := read?_eq_some_iff.1 ha
  exact read?_eq_some_iff.2 ⟨_, hdenotes.group hkind, rfl⟩

/-- **A quantifier** behind a text, however it is written, belongs to the last piece of the last
alternative. -/
theorem read?_quantifier {piece : Piece} {n : Quantifier}
    (ha : read? a = some (l ++ [p ++ [piece]])) (hpiece : piece.isRepeated = false)
    (hb : Token.readAll b = some [.quantifier n]) :
    read? (a ++ b) = some (l ++ [p ++ [.repeated piece n]]) := by
  obtain ⟨o, hdenotes, heq⟩ := read?_eq_some_iff.1 ha
  obtain rfl := OpenPattern.alternatives_eq_concat heq
  have hquantify := OpenPattern.quantify_snoc (p := ⟨l, p ++ [piece]⟩) rfl hpiece n
  exact read?_eq_some_iff.2 ⟨_, hdenotes.quantifier hquantify hb, rfl⟩

end

end Pattern

end AbnfPatterns
