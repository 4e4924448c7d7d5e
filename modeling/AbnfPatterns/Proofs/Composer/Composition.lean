import AbnfPatterns.Composer
import AbnfPatterns.Proofs.Registry.Layers
import AbnfPatterns.Proofs.Standard.Fragments

/-!
# Compositions

The pattern that a composer builds is read back as the tree of what it was given.
-/

namespace AbnfPatterns

/-! ### Captures -/

mutual

/-- The captures of a piece in the order of their brackets, each with its name if it has one. -/
def Piece.captures : Piece → List (Option String)
  | .glyph _ => []
  | .charIn _ => []
  | .group .plain alternatives => alternativesCaptures alternatives
  | .group .ignoreCase alternatives => alternativesCaptures alternatives
  | .group .notAhead alternatives => alternativesCaptures alternatives
  | .group (.capture name) alternatives => name :: alternativesCaptures alternatives
  | .repeated piece _ => piece.captures

/-- **The captures of a pattern**, in the order of their brackets. -/
def Pattern.captures : Pattern → List (Option String)
  | [] => []
  | piece :: rest => piece.captures ++ Pattern.captures rest

def alternativesCaptures : List Pattern → List (Option String)
  | [] => []
  | first :: rest => Pattern.captures first ++ alternativesCaptures rest

end

theorem Pattern.captures_append (p q : Pattern) : (p ++ q).captures = p.captures ++ q.captures := by
  induction p with
  | nil => simp [Pattern.captures]
  | cons piece rest ih => rw [List.cons_append, Pattern.captures, ih, Pattern.captures,
      List.append_assoc]

/-- What is matched in front of what. -/
abbrev Matcher := List Char → List Char → Prop

def InTurn (first second : Matcher) : Matcher := fun w rest =>
  ∃ u v, w = u ++ v ∧ first u (v ++ rest) ∧ second v rest

/-- A matcher as often as a quantifier allows, once if there is none. -/
def Quantified (m : Matcher) : Option Quantifier → Matcher
  | none => m
  | some q => fun w rest => ∃ n, q.Allows n ∧ Repeats m n w rest

def fragmentMatcher (fragment : String) : Matcher := fun w rest =>
  ∃ alternatives, Pattern.read? fragment.toList = some alternatives
    ∧ alternativesAccept false alternatives w rest

/-- The pattern that a fragment denotes, if it has no bars outside of groups. -/
def fragmentPattern? (fragment : String) : Option Pattern :=
  match Pattern.read? fragment.toList with
  | some [p] => some p
  | _ => none

/-- A **composition**: what a composer was given before, and one more piece. -/
inductive Composition where
  | empty
  | reference (before : Composition) (name : String)
  | commaReference (before : Composition) (name : String)
  /-- A group of another composition, with a quantifier if there is one. -/
  | group (before inner : Composition) (quantifier : Option Quantifier)
  | capture (before : Composition) (name : Option String) (inner : Composition)
    (quantifier : Option Quantifier)
  deriving DecidableEq, Repr

namespace Composition

/-- Whether all names stand for rules, the names of captures are such, and bounds are in order. -/
def wellFormed (reg : Registry) : Composition → Bool
  | empty => true
  | reference before name => before.wellFormed reg && reg.contains name
  | commaReference before name => before.wellFormed reg && reg.contains name
  | group before inner q =>
    before.wellFormed reg && inner.wellFormed reg && q.all Quantifier.ordered
  | capture before name inner q =>
    before.wellFormed reg && inner.wellFormed reg && q.all Quantifier.ordered
      && (GroupKind.capture name).spellable

/-- The composer with one more piece, and a quantifier behind it if there is one. -/
def added (c : Composer) (a : Addition) (q : Option Quantifier) : Except LookupError Composer := do
  let (c, _) ← c.add a
  match q with
  | none => return c
  | some q =>
    let (c, _) ← c.add (.quantifier q)
    return c

/-- **The composer that was given a composition**; the groups are built by composers of their
own. -/
def build (g : Grammar) : Composition → Except LookupError Composer
  | empty => return Composer.ofGrammar g
  | reference before name => do added (← before.build g) (.reference name) none
  | commaReference before name => do added (← before.build g) (.commaReference name) none
  | group before inner q => do added (← before.build g) (.group (← inner.build g).pattern) q
  | capture before name inner q => do
    added (← before.build g) (.capture name (← inner.build g).pattern) q

def quantified (piece : Piece) : Option Quantifier → Piece
  | none => piece
  | some q => .repeated piece q

def rulePattern? (reg : Registry) (name : String) : Option Pattern :=
  match reg.lookup name with
  | .ok rule => fragmentPattern? rule.fragment
  | .error _ => none

/-- **The syntax tree of a composition.**  A rule stands for what its own fragment denotes, and a
group for one piece. -/
def tree? (reg : Registry) : Composition → Option Pattern
  | empty => some []
  | reference before name => do return (← before.tree? reg) ++ (← rulePattern? reg name)
  | commaReference before name => do
    let item ← rulePattern? reg name
    let blanks ← fragmentPattern? optionalWhitespace
    let suffix := blanks ++ ([.glyph (.symbol ',')] ++ (blanks ++ item))
    return (← before.tree? reg) ++ (item ++ [.group .plain [suffix]])
  | group before inner q => do
    return (← before.tree? reg) ++ [quantified (.group .plain [← inner.tree? reg]) q]
  | capture before name inner q => do
    return (← before.tree? reg) ++ [quantified (.group (.capture name) [← inner.tree? reg]) q]

def captures : Composition → List (Option String)
  | empty => []
  | reference before _ => before.captures
  | commaReference before _ => before.captures
  | group before inner _ => before.captures ++ inner.captures
  | capture before name inner _ => before.captures ++ name :: inner.captures

def ruleMatcher (reg : Registry) (name : String) : Matcher := fun w rest =>
  ∃ rule, reg.lookup name = .ok rule ∧ fragmentMatcher rule.fragment w rest

/-- **What a composition matches**: what its pieces match, in turn. -/
def Matches (reg : Registry) : Composition → Matcher
  | empty => fun w _ => w = []
  | reference before name => InTurn (before.Matches reg) (ruleMatcher reg name)
  | commaReference before name =>
    let blanks := fragmentMatcher optionalWhitespace
    let comma : Matcher := fun w _ => w = [',']
    InTurn (before.Matches reg) <| InTurn (ruleMatcher reg name) <|
      InTurn blanks <| InTurn comma <| InTurn blanks (ruleMatcher reg name)
  | group before inner q => InTurn (before.Matches reg) (Quantified (inner.Matches reg) q)
  | capture before _ inner q => InTurn (before.Matches reg) (Quantified (inner.Matches reg) q)

/-! ### Pieces -/

section

variable {c : Composer} {kind : GroupKind} {inner : String} {p : Pattern} {q : Option Quantifier}
  {m : Matcher}

def bracketed (kind : GroupKind) (inner : String) : Option Quantifier → String
  | none => kind.opening ++ inner ++ ")"
  | some q => kind.opening ++ inner ++ ")" ++ q.text

theorem added_group : added c (.group inner) q = .ok (c.append (bracketed .plain inner q)) := by
  cases q with
  | none => rfl
  | some q =>
    rw [bracketed, Composer.append, ← String.append_assoc]
    rfl

theorem added_capture {name : Option String} :
    added c (.capture name inner) q = .ok (c.append (bracketed (.capture name) inner q)) := by
  have htext : PatternText.capture name inner = (GroupKind.capture name).opening ++ inner ++ ")" := by
    cases name with
    | none => rfl
    | some name =>
      simp only [PatternText.capture, GroupKind.opening]
  cases q with
  | none =>
    rw [bracketed, ← htext]
    rfl
  | some q =>
    rw [bracketed, ← htext, Composer.append, ← String.append_assoc]
    rfl

theorem read?_bracketed (hkind : kind.spellable = true) (hq : q.all Quantifier.ordered = true)
    (h : Pattern.read? inner.toList = some [p]) :
    Pattern.read? (bracketed kind inner q).toList
      = some [[quantified (.group kind [p]) q]] := by
  have hgroup := Pattern.read?_group hkind h
  cases q with
  | none =>
    rw [bracketed, String.toList_append, String.toList_append, List.append_assoc]
    exact hgroup
  | some q =>
    rw [bracketed, String.toList_append, String.toList_append, String.toList_append,
      List.append_assoc _ _ (")".toList)]
    exact Pattern.read?_quantifier (l := []) (p := []) hgroup rfl
      (Pattern.Token.readAll_text_quantifier hq)

theorem captures_quantified (piece : Piece) : (quantified piece q).captures = piece.captures := by
  cases q with
  | none => rfl
  | some q => rw [quantified, Piece.captures]

theorem accepts_quantified {piece : Piece} (h : piece.Accepts false = m) {w rest : List Char} :
    Pattern.Accepts false [quantified piece q] w rest ↔ Quantified m q w rest := by
  rw [Pattern.accepts_singleton, ← h]
  cases q with
  | none => rfl
  | some q => rfl

/-- A group of one pattern matches what the pattern matches, whether it captures or not. -/
theorem accepts_group (hkind : kind = .plain ∨ ∃ name, kind = .capture name)
    (h : ∀ w rest, p.Accepts false w rest ↔ m w rest) :
    Piece.Accepts false (.group kind [p]) = m := by
  funext w rest
  apply propext
  rw [← h]
  obtain rfl | ⟨name, rfl⟩ := hkind
  · exact Pattern.alternativesAccept_iff.trans (by simp)
  · exact Pattern.alternativesAccept_iff.trans (by simp)

end

/-! ### Reading the pattern -/

/-- **What is built from a composition is read back as its tree**, with its captures and its
matches. -/
structure Reads (g : Grammar) (t : Composition) (c : Composer) (p : Pattern) : Prop where
  registry : c.registry = Registry.ofGrammar g
  build : t.build g = .ok c
  tree : t.tree? (Registry.ofGrammar g) = some p
  read : Pattern.read? c.pattern.toList = some [p]
  captures : p.captures = t.captures
  accepts : ∀ w rest, p.Accepts false w rest ↔ t.Matches (Registry.ofGrammar g) w rest

/-- Whether each fragment of a grammar can be embedded: it denotes a pattern without bars outside
of groups and without captures. -/
def Embeddable (g : Grammar) : Prop :=
  ∀ name rule, (Registry.ofGrammar g).lookup name = .ok rule →
    ∃ p, Pattern.read? rule.fragment.toList = some [p] ∧ p.captures = []

variable {g : Grammar} {before inner t : Composition} {c : Composer} {p q : Pattern}

theorem fragmentPattern?_of_read {fragment : String}
    (h : Pattern.read? fragment.toList = some [p]) : fragmentPattern? fragment = some p := by
  rw [fragmentPattern?, h]

theorem fragmentMatcher_iff {fragment : String} (h : Pattern.read? fragment.toList = some [p])
    {w rest : List Char} : p.Accepts false w rest ↔ fragmentMatcher fragment w rest := by
  rw [fragmentMatcher, h]
  simp [alternativesAccept]

theorem accepts_inTurn {m n : Matcher} (hp : ∀ w rest, p.Accepts false w rest ↔ m w rest)
    (hq : ∀ w rest, q.Accepts false w rest ↔ n w rest) (w rest : List Char) :
    Pattern.Accepts false (p ++ q) w rest ↔ InTurn m n w rest := by
  rw [Pattern.accepts_append]
  refine exists_congr fun u => exists_congr fun v => and_congr_right fun _ => ?_
  exact and_congr (hp _ _) (hq _ _)

/-- One more text behind what is built so far. -/
theorem Reads.extend (h : Reads g before c p) {text : String} {m : Matcher}
    (hbuild : t.build g = .ok (c.append text))
    (htree : t.tree? (Registry.ofGrammar g) = some (p ++ q))
    (hread : Pattern.read? text.toList = some [q])
    (hcaptures : t.captures = before.captures ++ q.captures)
    (hmatches : t.Matches (Registry.ofGrammar g)
      = InTurn (before.Matches (Registry.ofGrammar g)) m)
    (haccepts : ∀ w rest, q.Accepts false w rest ↔ m w rest) :
    Reads g t (c.append text) (p ++ q) where
  registry := h.registry
  build := hbuild
  tree := htree
  read := by
    rw [Composer.append, String.toList_append]
    exact Pattern.read?_join h.read hread
  captures := by rw [Pattern.captures_append, h.captures, hcaptures]
  accepts w rest := by
    rw [hmatches]
    exact accepts_inTurn h.accepts haccepts w rest

/-- What a known name stands for in an embeddable grammar. -/
theorem exists_rule (hg : Embeddable g) {name : String}
    (h : (Registry.ofGrammar g).contains name = true) :
    ∃ rule q, (Registry.ofGrammar g).lookup name = .ok rule
      ∧ Pattern.read? rule.fragment.toList = some [q] ∧ q.captures = []
      ∧ rulePattern? (Registry.ofGrammar g) name = some q
      ∧ ∀ w rest, q.Accepts false w rest ↔ ruleMatcher (Registry.ofGrammar g) name w rest := by
  obtain ⟨rule, hget⟩ := Option.isSome_iff_exists.1 h
  have hlookup : (Registry.ofGrammar g).lookup name = .ok rule := by
    rw [Registry.lookup, hget]
  obtain ⟨q, hread, hcaptures⟩ := hg name rule hlookup
  refine ⟨rule, q, hlookup, hread, hcaptures, ?_, fun w rest => ?_⟩
  · rw [rulePattern?, hlookup]
    exact fragmentPattern?_of_read hread
  · rw [fragmentMatcher_iff hread]
    constructor
    · intro h
      exact ⟨rule, hlookup, h⟩
    · rintro ⟨rule', hlookup', h⟩
      cases hlookup.symm.trans hlookup'
      exact h

theorem reads_empty : Reads g .empty (Composer.ofGrammar g) [] where
  registry := rfl
  build := rfl
  tree := rfl
  read := Pattern.read?_nil
  captures := by rw [Pattern.captures, Composition.captures]
  accepts _ _ := Pattern.accepts_nil

theorem Reads.reference (hg : Embeddable g) (h : Reads g before c p) {name : String}
    (hname : (Registry.ofGrammar g).contains name = true) :
    ∃ c' p', Reads g (.reference before name) c' p' := by
  obtain ⟨rule, q, hlookup, hread, hcaptures, hpattern, haccepts⟩ := exists_rule hg hname
  refine ⟨_, _, h.extend ?_ ?_ hread ?_ rfl haccepts⟩
  · simp only [Composition.build, h.build, bind, Except.bind, added, Composer.add, h.registry,
      Registry.expand, hlookup]
    rfl
  · simp only [tree?, h.tree, hpattern, bind, Option.bind]
    rfl
  · rw [hcaptures, List.append_nil, Composition.captures]

theorem read?_optionalWhitespace :
    Pattern.read? optionalWhitespace.toList = some [CoreRules.ows.pattern] := by
  have hows : CoreRules.ows ∈ Standard.core.productions := by
    simp [Standard.productions, CoreRules.productions]
  exact Standard.read?_fragment hows

theorem read?_comma : Pattern.read? [','] = some [[.glyph (.symbol ',')]] :=
  Pattern.read?_piece (Pattern.Token.readAll_singleton rfl)

theorem accepts_comma (w rest : List Char) :
    Pattern.Accepts false [.glyph (.symbol ',')] w rest ↔ w = [','] := by
  rw [Pattern.accepts_singleton]
  constructor
  · rintro ⟨c, rfl, hc | ⟨hcase, -⟩⟩
    · rcases CharSet.mem_insert.1 hc with rfl | hempty
      · rfl
      · exact absurd hempty (CharSet.not_mem_empty c)
    · cases hcase
  · rintro rfl
    exact ⟨',', rfl, by decide⟩

theorem Reads.commaReference (hg : Embeddable g) (h : Reads g before c p) {name : String}
    (hname : (Registry.ofGrammar g).contains name = true) :
    ∃ c' p', Reads g (.commaReference before name) c' p' := by
  obtain ⟨rule, item, hlookup, hread, hcaptures, hpattern, haccepts⟩ := exists_rule hg hname
  have hblanks := read?_optionalWhitespace
  have hplain : GroupKind.plain.spellable = true := rfl
  have hmatch : ∀ w rest, CoreRules.ows.pattern.Accepts false w rest
      ↔ fragmentMatcher optionalWhitespace w rest := fun w rest => fragmentMatcher_iff hblanks
  -- the group holds a comma with optional whitespace around it, and the item
  have hsuffix := Pattern.read?_join hblanks
    (Pattern.read?_join read?_comma (Pattern.read?_join hblanks hread))
  have hitem := Pattern.read?_join hread (Pattern.read?_group hplain hsuffix)
  have htext : (rule.fragment ++ PatternText.commaSuffix optionalWhitespace rule.fragment).toList
      = rule.fragment.toList ++ (GroupKind.plain.opening.toList
        ++ (optionalWhitespace.toList ++ ([','] ++ (optionalWhitespace.toList
          ++ rule.fragment.toList)) ++ [')'])) := by
    simp [PatternText.commaSuffix, PatternText.group, GroupKind.opening]
  rw [← htext] at hitem
  have hsuffixAccepts := accepts_inTurn hmatch (accepts_inTurn accepts_comma
    (accepts_inTurn hmatch haccepts))
  have hgroupAccepts : ∀ w rest, Pattern.Accepts false _ w rest ↔ _ := fun w rest =>
    accepts_quantified (q := none) (accepts_group (.inl rfl) hsuffixAccepts)
  refine ⟨_, _, h.extend ?_ ?_ hitem ?_ rfl (accepts_inTurn haccepts hgroupAccepts)⟩
  · simp only [Composition.build, h.build, bind, Except.bind, added, Composer.add, h.registry,
      Registry.expand, hlookup]
    rfl
  · simp only [tree?, h.tree, hpattern, fragmentPattern?_of_read hblanks, bind, Option.bind]
    rfl
  · have hows : CoreRules.ows.pattern.captures = [] := by decide +kernel
    simp only [Composition.captures, Pattern.captures_append, Pattern.captures, Piece.captures,
      alternativesCaptures, hcaptures, hows, List.append_nil]

/-- A group of what is built from one composition, behind what is built from another one. -/
theorem Reads.bracketed (h : Reads g before c p) {c' : Composer} {p' : Pattern}
    (hinner : Reads g inner c' p') {kind : GroupKind} {n : Option Quantifier}
    (hplain : kind = .plain ∨ ∃ name, kind = .capture name) (hkind : kind.spellable = true)
    (hn : n.all Quantifier.ordered = true)
    (hbuild : t.build g = .ok (c.append (Composition.bracketed kind c'.pattern n)))
    (htree : t.tree? (Registry.ofGrammar g) = some (p ++ [quantified (.group kind [p']) n]))
    (hcaptures : t.captures = before.captures ++ Piece.captures (.group kind [p']))
    (hmatches : t.Matches (Registry.ofGrammar g) = InTurn (before.Matches (Registry.ofGrammar g))
      (Quantified (inner.Matches (Registry.ofGrammar g)) n)) :
    ∃ c p, Reads g t c p := by
  refine ⟨_, _, h.extend hbuild htree (read?_bracketed hkind hn hinner.read) ?_ hmatches ?_⟩
  · rw [hcaptures, Pattern.captures, captures_quantified, Pattern.captures, List.append_nil]
  · intro w rest
    exact accepts_quantified (accepts_group hplain hinner.accepts)

/-- **What is built from embeddable rules is read back as its tree.** -/
theorem exists_reads (hg : Embeddable g) (ht : t.wellFormed (Registry.ofGrammar g) = true) :
    ∃ c p, Reads g t c p := by
  induction t with
  | empty => exact ⟨_, _, reads_empty⟩
  | reference before name ih =>
    rw [wellFormed, Bool.and_eq_true] at ht
    obtain ⟨c, p, h⟩ := ih ht.1
    exact h.reference hg ht.2
  | commaReference before name ih =>
    rw [wellFormed, Bool.and_eq_true] at ht
    obtain ⟨c, p, h⟩ := ih ht.1
    exact h.commaReference hg ht.2
  | group before inner q ihbefore ihinner =>
    simp only [wellFormed, Bool.and_eq_true] at ht
    obtain ⟨⟨hbefore, hinner⟩, hq⟩ := ht
    obtain ⟨c, p, h⟩ := ihbefore hbefore
    obtain ⟨c', p', h'⟩ := ihinner hinner
    refine h.bracketed h' (.inl rfl) rfl hq ?_ ?_ ?_ rfl
    · simp only [Composition.build, h.build, h'.build, bind, Except.bind]
      exact added_group
    · simp only [tree?, h.tree, h'.tree, bind, Option.bind]
      rfl
    · rw [Composition.captures, Piece.captures, alternativesCaptures, alternativesCaptures,
        h'.captures, List.append_nil]
  | capture before name inner q ihbefore ihinner =>
    simp only [wellFormed, Bool.and_eq_true] at ht
    obtain ⟨⟨⟨hbefore, hinner⟩, hq⟩, hname⟩ := ht
    obtain ⟨c, p, h⟩ := ihbefore hbefore
    obtain ⟨c', p', h'⟩ := ihinner hinner
    refine h.bracketed h' (.inr ⟨name, rfl⟩) hname hq ?_ ?_ ?_ rfl
    · simp only [Composition.build, h.build, h'.build, bind, Except.bind]
      exact added_capture
    · simp only [tree?, h.tree, h'.tree, bind, Option.bind]
      rfl
    · rw [Composition.captures, Piece.captures, alternativesCaptures, alternativesCaptures,
        h'.captures, List.append_nil]

end Composition

/-! ### Compositions over the standards -/

namespace Standard

theorem captures_pattern {s : Standard} {p : Production} (hp : p ∈ s.productions) :
    p.pattern.captures = [] := by
  revert p
  cases s <;> decide +kernel

theorem embeddable (s : Standard) : Composition.Embeddable s.grammar := by
  intro name rule h
  obtain ⟨home, p, hp, rfl⟩ := exists_production (Registry.mem_entries_of_lookup h)
  exact ⟨p.pattern, read?_fragment hp, captures_pattern hp⟩

end Standard

namespace Composition

/-- **A composer builds the pattern that its composition describes.**  Its text is read back as the
tree of the composition, it has no captures but those of the composition, and it matches what the
pieces of the composition match, in turn and as often as their quantifiers allow.  Pieces have no
anchors, and case is ignored only inside a group that says so, so nothing that a fragment does
reaches beyond it. -/
theorem build_reads_tree {s : Standard} {t : Composition}
    (h : t.wellFormed (Registry.ofGrammar s.grammar) = true) :
    ∃ c p, t.build s.grammar = .ok c ∧ t.tree? (Registry.ofGrammar s.grammar) = some p
      ∧ Pattern.read? c.pattern.toList = some [p] ∧ p.captures = t.captures
      ∧ ∀ w rest, p.Accepts false w rest ↔ t.Matches (Registry.ofGrammar s.grammar) w rest := by
  obtain ⟨c, p, hreads⟩ := exists_reads s.embeddable h
  exact ⟨c, p, hreads.build, hreads.tree, hreads.read, hreads.captures, hreads.accepts⟩

/-- A year of four digits that may be missing, and two bits with a comma between them. -/
def yearAndBits : Composition :=
  .commaReference
    (.capture .empty (some "year") (.group .empty (.reference .empty "digit") (some (.exactly 4)))
      (some .zeroOrOne))
    "Bit"

/-- The year is the one capture, although its digits are in a group of their own. -/
theorem yearAndBits_reads_tree :
    yearAndBits.wellFormed (Registry.ofGrammar Standard.core.grammar) = true
      ∧ ∃ c p, yearAndBits.build Standard.core.grammar = .ok c
        ∧ yearAndBits.tree? (Registry.ofGrammar Standard.core.grammar) = some p
        ∧ Pattern.read? c.pattern.toList = some [p] ∧ p.captures = [some "year"]
        ∧ ∀ w rest, p.Accepts false w rest
          ↔ yearAndBits.Matches (Registry.ofGrammar Standard.core.grammar) w rest := by
  have h : yearAndBits.wellFormed (Registry.ofGrammar Standard.core.grammar) = true := by
    decide +kernel
  exact ⟨h, build_reads_tree h⟩

end Composition

end AbnfPatterns
