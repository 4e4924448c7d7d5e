import AbnfPatterns.Proofs.Regex.Embedding
import AbnfPatterns.Regex.Matching

/-!
# Alternatives of any texts

The text of alternatives is glued together from texts that are never looked at.  Still it is one
group, whatever the parts hold.
-/

namespace AbnfPatterns.Pattern

/-- **The alternatives of several texts**, those of the first text first. -/
def alternativesOf (parts : List String) : List Pattern :=
  parts.flatMap fun part => (read? part.toList).getD []

theorem alternativesOf_cons {first : String} {l : List Pattern}
    (h : read? first.toList = some l) (rest : List String) :
    alternativesOf (first :: rest) = l ++ alternativesOf rest := by
  rw [alternativesOf, List.flatMap_cons, h, Option.getD_some, alternativesOf]

theorem mem_alternativesOf {parts : List String} {p : Pattern} :
    p ∈ alternativesOf parts ↔
      ∃ part ∈ parts, ∃ l, read? part.toList = some l ∧ p ∈ l := by
  rw [alternativesOf, List.mem_flatMap]
  refine exists_congr fun part => and_congr_right fun _ => ?_
  cases read? part.toList with
  | none => simp
  | some l => simp

/-- **A text, read as a pattern, matches `w` in front of `rest`.** -/
def TextAccepts (ignoreCase : Bool) (text : String) (w rest : List Char) : Prop :=
  ∃ alternatives, read? text.toList = some alternatives
    ∧ alternativesAccept ignoreCase alternatives w rest

/-- Bars put the alternatives of texts one behind the other. -/
theorem read?_intercalate {parts : List String} (hne : parts ≠ [])
    (hparts : ∀ part ∈ parts, (read? part.toList).isSome) :
    read? ("|".intercalate parts).toList = some (alternativesOf parts) := by
  induction parts with
  | nil => exact absurd rfl hne
  | cons first rest ih =>
    obtain ⟨alternatives, hfirst⟩ := Option.isSome_iff_exists.1 (hparts first List.mem_cons_self)
    cases rest with
    | nil =>
      rw [String.intercalate_singleton, hfirst, alternativesOf_cons hfirst]
      simp [alternativesOf]
    | cons second rest =>
      have hrest := ih (List.cons_ne_nil _ _) fun part hpart =>
        hparts part (List.mem_cons_of_mem _ hpart)
      have htext : ("|".intercalate (first :: second :: rest)).toList
          = first.toList ++ '|' :: ("|".intercalate (second :: rest)).toList := by
        simp [String.intercalate_cons_cons]
      rw [htext, read?_bar hfirst hrest, alternativesOf_cons hfirst]

/-- **Alternatives are read as one group.** -/
theorem read?_anyOf {parts : List String} (hne : parts ≠ [])
    (hparts : ∀ part ∈ parts, (read? part.toList).isSome) :
    read? (PatternText.anyOf parts).toList = some [[.group .plain (alternativesOf parts)]] := by
  have hgroup : read? (GroupKind.plain.opening.toList
      ++ (("|".intercalate parts).toList ++ [')']))
      = some [[.group .plain (alternativesOf parts)]] :=
    read?_group rfl (read?_intercalate hne hparts)
  have htext : (PatternText.anyOf parts).toList
      = GroupKind.plain.opening.toList ++ (("|".intercalate parts).toList ++ [')']) := by
    simp [PatternText.anyOf, PatternText.group, GroupKind.opening]
  rw [htext, hgroup]

/-- **A piece between other texts** is read as it is on its own. -/
theorem read?_around {before text after : List Char} {l m : List Pattern} {p q : Pattern}
    {piece : Piece} (hbefore : read? before = some (l ++ [p])) (htext : read? text = some [[piece]])
    (hafter : read? after = some (q :: m)) :
    read? (before ++ text ++ after) = some (l ++ (p ++ piece :: q) :: m) := by
  have hjoined := read?_append (read?_append hbefore htext) hafter
  rwa [List.append_assoc p] at hjoined

theorem textAccepts_iff {ignoreCase : Bool} {text : String} {l : List Pattern}
    (h : read? text.toList = some l) {w rest : List Char} :
    TextAccepts ignoreCase text w rest ↔ alternativesAccept ignoreCase l w rest := by
  simp [TextAccepts, h]

/-- **The group of alternatives matches what one of the texts matches.** -/
theorem accepts_alternativesOf {ignoreCase : Bool} {parts : List String} {w rest : List Char} :
    (Piece.group .plain (alternativesOf parts)).Accepts ignoreCase w rest ↔
      ∃ part ∈ parts, TextAccepts ignoreCase part w rest := by
  have hgroup : (Piece.group .plain (alternativesOf parts)).Accepts ignoreCase w rest ↔
      ∃ p ∈ alternativesOf parts, p.Accepts ignoreCase w rest := by
    rw [Piece.Accepts, alternativesAccept_iff]
  simp only [hgroup, mem_alternativesOf, TextAccepts, alternativesAccept_iff]
  constructor
  · rintro ⟨p, ⟨part, hpart, l, hread, hp⟩, haccepts⟩
    exact ⟨part, hpart, l, hread, p, hp, haccepts⟩
  · rintro ⟨part, hpart, l, hread, p, hp, haccepts⟩
    exact ⟨p, ⟨part, hpart, l, hread, hp⟩, haccepts⟩

/-- **Alternatives are one union, wherever they stand.**  If each of one or more texts can be read,
their alternatives are read as one group that captures nothing and matches what one of the texts
matches, in whatever case and in front of whatever follows.  Between any two texts that can be read,
which therefore start with no quantifier, the group stands behind the last alternative of the one
and in front of the first alternative of the other, and all else is as it was.  A quantifier behind
the group, however it is written, repeats the group as a whole. -/
theorem anyOf_self_contained {parts : List String} (hne : parts ≠ [])
    (hparts : ∀ part ∈ parts, (read? part.toList).isSome) :
    let union := Piece.group .plain (alternativesOf parts)
    let text := PatternText.anyOf parts
    read? text.toList = some [[union]] ∧
    (∀ ignoreCase w rest, TextAccepts ignoreCase text w rest ↔
      ∃ part ∈ parts, TextAccepts ignoreCase part w rest) ∧
    (∀ w, FragmentMatches text w ↔ ∃ part ∈ parts, FragmentMatches part w) ∧
    ∀ before after, (read? before).isSome → (read? after).isSome →
      ∃ l p q m, read? before = some (l ++ [p]) ∧ read? after = some (q :: m) ∧
        read? (before ++ text.toList ++ after) = some (l ++ (p ++ union :: q) :: m) ∧
        ∀ quantifier n, Token.readAll quantifier = some [.quantifier n] →
          read? (before ++ (text.toList ++ quantifier) ++ after)
            = some (l ++ (p ++ .repeated union n :: q) :: m) ∧
          ∀ ignoreCase w rest, (Piece.repeated union n).Accepts ignoreCase w rest ↔
            ∃ k, n.Allows k ∧
              Repeats (fun u v => ∃ part ∈ parts, TextAccepts ignoreCase part u v) k w rest := by
  intro union text
  have hread : read? text.toList = some [[union]] := read?_anyOf hne hparts
  have hunion : ∀ ignoreCase w rest, TextAccepts ignoreCase text w rest ↔
      ∃ part ∈ parts, TextAccepts ignoreCase part w rest := by
    intro ignoreCase w rest
    rw [textAccepts_iff hread, ← accepts_alternativesOf, alternativesAccept_iff]
    simp only [List.mem_singleton, exists_eq_left, accepts_singleton, union]
  refine ⟨hread, hunion, fun w => hunion false w [], ?_⟩
  intro before after hbefore hafter
  obtain ⟨l, p, hbefore⟩ := exists_read?_eq_concat hbefore
  obtain ⟨q, m, hafter⟩ := exists_read?_eq_cons hafter
  refine ⟨l, p, q, m, hbefore, hafter, read?_around hbefore hread hafter, ?_⟩
  intro quantifier n hquantifier
  constructor
  · have hrepeated : read? (text.toList ++ quantifier) = some [[.repeated union n]] :=
      read?_quantifier (l := []) (p := []) hread rfl hquantifier
    exact read?_around hbefore hrepeated hafter
  · intro ignoreCase w rest
    have haccepts : Piece.Accepts ignoreCase union
        = fun u v => ∃ part ∈ parts, TextAccepts ignoreCase part u v := by
      funext u v
      exact propext accepts_alternativesOf
    rw [Piece.Accepts, haccepts]

/-- The parts have a bar of their own, a bar and a bracket in a class, and an escaped bracket; the
count is written with a zero in front. -/
theorem anyOf_self_contained_brackets :
    let parts := ["a|b", "[|)]", "x\\)"]
    let text := (PatternText.anyOf parts).toList
    let union := Piece.group .plain (alternativesOf parts)
    (parts ≠ [] ∧ ∀ part ∈ parts, (read? part.toList).isSome) ∧
      (∃ l p q m, read? ['c', '|', 'd'] = some (l ++ [p]) ∧ read? ['e'] = some (q :: m) ∧
        read? (['c', '|', 'd'] ++ (text ++ ['\x7b', '0', '2', '\x7d']) ++ ['e'])
          = some (l ++ (p ++ .repeated union (.exactly 2) :: q) :: m)) ∧
      TextAccepts false (PatternText.anyOf parts) [')'] [] := by
  intro parts text union
  have hne : parts ≠ [] := List.cons_ne_nil _ _
  have hparts : ∀ part ∈ parts, (read? part.toList).isSome := by decide +kernel
  have hcount : Token.readAll ['\x7b', '0', '2', '\x7d'] = some [.quantifier (.exactly 2)] :=
    Token.readAll_singleton rfl
  obtain ⟨-, hunion, -, haround⟩ := anyOf_self_contained hne hparts
  refine ⟨⟨hne, hparts⟩, ?_, ?_⟩
  · obtain ⟨l, p, q, m, hbefore, hafter, -, hquantified⟩ :=
      haround ['c', '|', 'd'] ['e'] (by decide +kernel) (by decide +kernel)
    exact ⟨l, p, q, m, hbefore, hafter, (hquantified _ _ hcount).1⟩
  · have htext : (Piece.text (.charIn (itemsOf "|)"))).toList = "[|)]".toList := by decide +kernel
    have hclass : read? "[|)]".toList = some [[.charIn (itemsOf "|)")]] := by
      rw [← htext]
      exact read?_piece (Token.readAll_text_class (by decide +kernel))
    refine (hunion false [')'] []).2 ⟨"[|)]", by decide, (textAccepts_iff hclass).2 ?_⟩
    simp only [alternativesAccept_iff, List.mem_singleton, exists_eq_left, accepts_singleton,
      Piece.Accepts]
    exact ⟨')', rfl, .one (.symbol ')'), by decide, .inl (by decide)⟩

end AbnfPatterns.Pattern
