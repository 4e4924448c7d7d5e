import AbnfPatterns.Proofs.Composer.Additions
import AbnfPatterns.Template

/-!
# Templates in pieces

A template may be cut in two and resolved piece by piece, unless the cut goes through a token.
-/

namespace AbnfPatterns.Template

variable {first second : List Char}

/-- **A cut that goes through no token**: the second piece, if it is not empty, starts with no name
character, and with no number sign if the first one ends with a colon. -/
def CleanCut (first second : List Char) : Prop :=
  ∀ c ∈ second.head?, RuleName.isNameChar c = false ∧ ¬ (first.getLast? = some ':' ∧ c = '#')

/-- A colon is neither a name character nor a number sign. -/
theorem cleanCut_of_colon (h : second.head? = some ':') : CleanCut first second := by
  intro c hc
  obtain rfl : ':' = c := Option.some.inj (h.symm.trans hc)
  exact ⟨by decide, by simp⟩

/-- A clean cut stays clean if only an end of the first piece is left. -/
theorem CleanCut.of_suffix {last : List Char} (h : CleanCut first second) (hlast : last <:+ first) :
    CleanCut last second := by
  obtain ⟨before, rfl⟩ := hlast
  intro c hc
  obtain ⟨hname, hmark⟩ := h c hc
  refine ⟨hname, fun hand => hmark ⟨?_, hand.2⟩⟩
  rw [List.getLast?_append, hand.1, Option.some_or]

/-- A colon with nothing behind it takes no number sign from the next piece. -/
theorem splitMark_append (h : CleanCut (':' :: first) second) :
    splitMark (first ++ second) = ((splitMark first).1, (splitMark first).2 ++ second) := by
  cases first with
  | nil =>
    cases second with
    | nil => rfl
    | cons c second =>
      have hc : c ≠ '#' := fun hc => (h c rfl).2 ⟨rfl, hc⟩
      simp [splitMark, hc]
  | cons c first =>
    by_cases hc : c = '#'
    · rw [hc]
      rfl
    · simp [splitMark, hc]

theorem splitMark_suffix (text : List Char) : (splitMark text).2 <:+ text :=
  ⟨_, mark_splitMark text⟩

/-- A run of name characters does not go on in the next piece. -/
theorem takeWhile_append_of_cleanCut (h : CleanCut first second) :
    (first ++ second).takeWhile RuleName.isNameChar = first.takeWhile RuleName.isNameChar := by
  induction first with
  | nil =>
    cases second with
    | nil => rfl
    | cons c second => simp [(h c rfl).1]
  | cons c first ih =>
    have hrest := h.of_suffix (List.suffix_cons c first)
    rw [List.cons_append, List.takeWhile_cons, List.takeWhile_cons, ih hrest]

theorem dropWhile_append_of_cleanCut (h : CleanCut first second) :
    (first ++ second).dropWhile RuleName.isNameChar
      = first.dropWhile RuleName.isNameChar ++ second := by
  induction first with
  | nil =>
    cases second with
    | nil => rfl
    | cons c second => simp [(h c rfl).1]
  | cons c first ih =>
    have hrest := h.of_suffix (List.suffix_cons c first)
    rw [List.cons_append, List.dropWhile_cons, List.dropWhile_cons, ih hrest]
    split <;> rfl

/-- **Two pieces are scanned one after the other.**  The induction follows the scan of the first
piece: what is left of it is an end of it, so the cut stays clean. -/
theorem scan_append {named : List Char → Option Nat}
    (hnamed : ∀ run n, named run = some n → n ≤ run.length) (h : CleanCut first second) :
    scan named (first ++ second) = scan named first ++ scan named second := by
  fun_induction scan named first with
  | case1 => rfl
  | case2 rest marked run n hn ih =>
    have hsuffix := (splitMark_suffix rest).trans (List.suffix_cons ':' rest)
    have hmarked : CleanCut marked.2 second := h.of_suffix hsuffix
    have hlen : n ≤ marked.2.length :=
      Nat.le_trans (hnamed run n hn) (List.takeWhile_prefix _).length_le
    have hrun : named ((splitMark (rest ++ second)).2.takeWhile RuleName.isNameChar) = some n := by
      rw [splitMark_append h, takeWhile_append_of_cleanCut hmarked]
      exact hn
    rw [List.cons_append, scan_colon_of_named hrun, splitMark_append h,
      takeWhile_append_of_cleanCut hmarked, List.drop_append_of_le_length hlen,
      ih (hmarked.of_suffix (List.drop_suffix n _)), List.cons_append]
  | case3 rest marked run hn ih =>
    have hsuffix := (splitMark_suffix rest).trans (List.suffix_cons ':' rest)
    have hmarked : CleanCut marked.2 second := h.of_suffix hsuffix
    have hrun : named ((splitMark (rest ++ second)).2.takeWhile RuleName.isNameChar) = none := by
      rw [splitMark_append h, takeWhile_append_of_cleanCut hmarked]
      exact hn
    rw [List.cons_append, scan_colon_of_unnamed hrun, splitMark_append h,
      takeWhile_append_of_cleanCut hmarked, dropWhile_append_of_cleanCut hmarked,
      ih (hmarked.of_suffix (List.dropWhile_suffix _)), List.cons_append]
  | case4 c rest hc ih =>
    rw [List.cons_append, scan_cons_of_ne hc, ih (h.of_suffix (List.suffix_cons c rest)),
      List.cons_append]

/-- The segments of a template in two pieces. -/
theorem segments_append (reg : Registry) {first second : String}
    (h : CleanCut first.toList second.toList) :
    segments reg (first ++ second) = segments reg first ++ segments reg second := by
  rw [segments, String.toList_append]
  exact scan_append (fun _ _ => length_of_nameLength) h

theorem resolve_pieces (reg : Registry) (whitespace : String) {first second : String}
    (h : CleanCut first.toList second.toList) :
    resolve reg whitespace (first ++ second)
      = resolve reg whitespace first ++ resolve reg whitespace second := by
  rw [resolve, segments_append reg h, List.map_append, String.join_append, resolve, resolve]

theorem unresolved_pieces (reg : Registry) {first second : String}
    (h : CleanCut first.toList second.toList) :
    unresolved reg (first ++ second) = unresolved reg first ++ unresolved reg second := by
  rw [unresolved, segments_append reg h, List.filterMap_append, unresolved, unresolved]

/-- **Templates can be fed in pieces.**

* Where the cut goes through no token, a template is resolved to the text of its first piece and
  then that of its second, and the reports on it are those on the first and then those on the second.
* In particular it may be cut in front of any colon.
* A composer to which both pieces are added, with their blanks kept, is left as by adding them in
  one, with the same reports. -/
theorem resolve_append :
    (∀ (g : Grammar) (whitespace first second : String), CleanCut first.toList second.toList →
      resolve (.ofGrammar g) whitespace (first ++ second)
        = resolve (.ofGrammar g) whitespace first ++ resolve (.ofGrammar g) whitespace second ∧
      unresolved (.ofGrammar g) (first ++ second)
        = unresolved (.ofGrammar g) first ++ unresolved (.ofGrammar g) second) ∧
    (∀ (g : Grammar) (whitespace first rest : String),
      resolve (.ofGrammar g) whitespace (first ++ (":" ++ rest))
        = resolve (.ofGrammar g) whitespace first
          ++ resolve (.ofGrammar g) whitespace (":" ++ rest)) ∧
    ∀ (c : Composer) (first second : String), CleanCut first.toList second.toList →
      ∃ c' expansion, c.addAll [.template first false, .template second false]
          = .ok (c', expansion.events) ∧
        c.add (.template (first ++ second) false) = .ok (c', expansion) := by
  refine ⟨?_, ?_, ?_⟩
  · intro g whitespace first second h
    exact ⟨resolve_pieces _ whitespace h, unresolved_pieces _ h⟩
  · intro g whitespace first rest
    have hhead : (":" ++ rest).toList.head? = some ':' := by simp
    exact resolve_pieces _ whitespace (cleanCut_of_colon hhead)
  · intro c first second h
    have hcan : ∀ a ∈ [Addition.template first false, .template second false],
        c.registry.CanAdd a := by
      intro a ha
      simp only [List.mem_cons, List.not_mem_nil, or_false] at ha
      rcases ha with rfl | rfl
      · exact ⟨_, rfl⟩
      · exact ⟨_, rfl⟩
    have hevents := unresolved_pieces c.registry h
    have htext := resolve_pieces c.registry optionalWhitespace h
    have hboth : c.registry.expand (.template (first ++ second) false) = .ok
        { text := resolve c.registry optionalWhitespace first
            ++ resolve c.registry optionalWhitespace second
          events := unresolved c.registry first ++ unresolved c.registry second } := by
      rw [← htext, ← hevents]
      rfl
    refine ⟨_, _, ?_, Composer.add_of_expand hboth⟩
    rw [Composer.addAll_eq_ok hcan]
    simp [Registry.expansion, Registry.expand]

/-- A cut behind a number sign, in front of a colon. -/
theorem resolve_append_bits :
    CleanCut ":bit:nope:#".toList ":#Bit".toList ∧
      resolve (.ofGrammar Standard.coreGrammar) " " (":bit:nope:#" ++ ":#Bit")
        = "[01]:nope:#" ++ "[01](?: , [01])" ∧
      ∃ c' expansion, (Composer.ofGrammar Standard.coreGrammar).addAll
          [.template ":bit:nope:#" false, .template ":#Bit" false] = .ok (c', expansion.events) ∧
        (Composer.ofGrammar Standard.coreGrammar).add (.template (":bit:nope:#" ++ ":#Bit") false)
          = .ok (c', expansion) := by
  have hcut : CleanCut ":bit:nope:#".toList ":#Bit".toList := cleanCut_of_colon (by simp)
  obtain ⟨htexts, -, hcomposers⟩ := resolve_append
  obtain ⟨hresolve, -⟩ := htexts Standard.coreGrammar " " ":bit:nope:#" ":#Bit" hcut
  have hfirst : resolve (.ofGrammar Standard.coreGrammar) " " ":bit:nope:#" = "[01]:nope:#" := by
    decide +kernel
  have hsecond : resolve (.ofGrammar Standard.coreGrammar) " " ":#Bit" = "[01](?: , [01])" := by
    decide +kernel
  refine ⟨hcut, ?_, hcomposers _ _ _ hcut⟩
  rw [hresolve, hfirst, hsecond]

end AbnfPatterns.Template
