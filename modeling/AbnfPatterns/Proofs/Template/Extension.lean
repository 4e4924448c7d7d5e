import AbnfPatterns.Proofs.Composer.Additions
import AbnfPatterns.Proofs.Registry.Layers
import AbnfPatterns.Proofs.Template.Unresolved

/-!
# Templates under an extended grammar

Two registries that have the same rules under the names that can be read in a template resolve it to
the same text.
-/

namespace AbnfPatterns

/-- The report with the name of another grammar. -/
def Event.inGrammar (grammar : String) : Event → Event
  | .unresolved token _ => .unresolved token grammar
  | e => e

namespace Template

/-! ### What a template looks at -/

/-- **The names that can be read in a text**: whatever starts a run of name characters behind a
colon, or behind a colon and a number sign.  The empty start is no name. -/
def readable (text : List Char) : List (List Char) :=
  (List.range text.length).flatMap fun place =>
    if text[place]? = some ':' then (runAt text place).inits.filter fun name => !name.isEmpty
    else []

section Congr

variable {known known' : List Char → Bool} {text : List Char} {place : Nat}

theorem mem_readable_iff {name : List Char} :
    name ∈ readable text ↔
      ∃ place, text[place]? = some ':' ∧ name ∈ (runAt text place).inits ∧ name ≠ [] := by
  rw [readable, List.mem_flatMap]
  constructor
  · rintro ⟨place, -, hname⟩
    split at hname
    · rename_i hcolon
      rw [List.mem_filter] at hname
      exact ⟨place, hcolon, hname.1, by simpa using hname.2⟩
    · cases hname
  · rintro ⟨place, hcolon, hname, hne⟩
    refine ⟨place, List.mem_range.2 (List.getElem?_eq_some_iff.1 hcolon).1, ?_⟩
    rw [if_pos hcolon, List.mem_filter]
    exact ⟨hname, by simpa using hne⟩

/-- The name of a reference can be read in the text where the reference stands. -/
theorem Reference.StandsIn.name_mem_readable {r : Reference} (h : r.StandsIn known text) :
    r.name ∈ readable text := by
  have hmark : markedAt text r.place = r.repeated := by
    rw [markedAt, Bool.eq_iff_iff, decide_eq_true_iff, h.repeated_iff]
  refine mem_readable_iff.2 ⟨r.place, h.colon, ?_, h.name_longest.ne_nil⟩
  rw [runAt, hmark]
  exact (List.mem_inits _ _).2 h.name_longest.starts

theorem referenceAt_congr (h : ∀ name ∈ readable text, known name = known' name) :
    referenceAt known text place = referenceAt known' text place := by
  rw [referenceAt_eq, referenceAt_eq]
  split
  · rename_i hcolon
    rw [longestName?_congr fun name hname hne =>
      h name (mem_readable_iff.2 ⟨place, hcolon, hname, hne⟩)]
  · rfl

theorem unresolvedAt_congr (h : ∀ name ∈ readable text, known name = known' name) :
    unresolvedAt known text place = unresolvedAt known' text place := by
  rw [unresolvedAt, unresolvedAt]
  by_cases hcolon : text[place]? = some ':'
  · have hnames : (∀ name ∈ (runAt text place).inits, name ≠ [] → known name = false) ↔
        ∀ name ∈ (runAt text place).inits, name ≠ [] → known' name = false :=
      forall₂_congr fun name hname => forall_congr' fun hne => by
        rw [h name (mem_readable_iff.2 ⟨place, hcolon, hname, hne⟩)]
    simp only [hnames]
  · rw [if_neg fun hand => hcolon hand.1, if_neg fun hand => hcolon hand.1]

/-- Text is replaced in the same way where the same references are replaced by the same texts. -/
theorem replaced_congr {replacement replacement' : Reference → List Char}
    (hreference : ∀ place, referenceAt known text place = referenceAt known' text place)
    (hreplacement : ∀ r : Reference, r.StandsIn known text → replacement r = replacement' r) :
    replaced known replacement text = replaced known' replacement' text := by
  have hinside : ∀ place, isInside known text place = isInside known' text place := fun place => by
    simp only [isInside, hreference]
  have hstands : ∀ place,
      standsFor known replacement text place = standsFor known' replacement' text place := by
    intro place
    rw [standsFor, standsFor, ← hreference, ← hinside]
    split
    · rename_i r hr
      exact hreplacement r (referenceAt_eq_some_iff.1 hr).2
    · rfl
  rw [replaced, replaced, funext hstands]

end Congr

/-- **What a template looks at in a registry**: the rules under the names that can be read in it.
Which of its tokens are unresolved depends on them as well. -/
theorem resolve_congr {reg reg' : Registry} {template : String} (whitespace : String)
    (h : ∀ name ∈ readable template.toList,
      reg.get? (String.ofList name) = reg'.get? (String.ofList name)) :
    resolve reg whitespace template = resolve reg' whitespace template ∧
      unresolvedTokens reg.knows template.toList = unresolvedTokens reg'.knows template.toList := by
  have hknows : ∀ name ∈ readable template.toList, reg.knows name = reg'.knows name := by
    intro name hname
    rw [← Registry.get?_isSome, ← Registry.get?_isSome, h name hname]
  constructor
  · rw [← String.toList_inj, toList_resolve_eq_replaced, toList_resolve_eq_replaced]
    refine replaced_congr (fun place => referenceAt_congr hknows) fun r hr => ?_
    have hget : reg.rules[RuleName.key (String.ofList r.name)]?
        = reg'.rules[RuleName.key (String.ofList r.name)]? :=
      h r.name hr.name_mem_readable
    rw [replacement, replacement, hget]
  · rw [unresolvedTokens, unresolvedTokens]
    exact List.filterMap_congr fun place _ => unresolvedAt_congr hknows

/-! ### Extended grammars -/

/-- A reference has the same effect on two composers whose registries have the same rule for it. -/
theorem add_reference_alike {c c' : Composer} {n : String} {a : Addition}
    (h : c.registry.get? n = c'.registry.get? n)
    (ha : a ∈ [Addition.reference n, .commaReference n]) :
    (∃ expansion, c.add a = .ok (c.append expansion.text, expansion) ∧
      c'.add a = .ok (c'.append expansion.text, expansion)) ∨
    (c.add a = .error (.ruleNotFound c.grammar.name (RuleName.key n)) ∧
      c'.add a = .error (.ruleNotFound c'.grammar.name (RuleName.key n))) := by
  simp only [List.mem_cons, List.not_mem_nil, or_false] at ha
  cases hrule : c.registry.get? n with
  | some rule =>
    have hrule' := h.symm.trans hrule
    left
    rcases ha with rfl | rfl
    · exact ⟨_, Composer.add_of_expand (Registry.expand_reference hrule),
        Composer.add_of_expand (Registry.expand_reference hrule')⟩
    · exact ⟨_, Composer.add_of_expand (Registry.expand_commaReference hrule),
        Composer.add_of_expand (Registry.expand_commaReference hrule')⟩
  | none =>
    have hrule' := h.symm.trans hrule
    right
    rcases ha with rfl | rfl
    · exact ⟨Composer.add_of_expand_error (Registry.expand_reference_of_none hrule),
        Composer.add_of_expand_error (Registry.expand_reference_of_none hrule')⟩
    · exact ⟨Composer.add_of_expand_error (Registry.expand_commaReference_of_none hrule),
        Composer.add_of_expand_error (Registry.expand_commaReference_of_none hrule')⟩

/-- **A grammar is extended conservatively.**  A table on top of a grammar, under a name of its own:

* a template in which no name with a key of the table can be read is resolved to the same text, and
  the same tokens of it are reported, under the name of the extended grammar;
* a reference to a name whose key is not in the table adds the same text on both grammars, with the
  same reports, or fails on both. -/
theorem resolve_extending (g : Grammar) (name : String) (table : RuleTable) :
    (∀ whitespace template,
      (∀ n ∈ readable template.toList, RuleName.key (String.ofList n) ∉ table.keys) →
      resolve (.ofGrammar (.extending g name table)) whitespace template
        = resolve (.ofGrammar g) whitespace template ∧
      unresolved (.ofGrammar (.extending g name table)) template
        = (unresolved (.ofGrammar g) template).map (Event.inGrammar name)) ∧
    ∀ n, RuleName.key n ∉ table.keys →
      ∀ c c' : Composer, c.grammar = g → c'.grammar = .extending g name table →
      ∀ a ∈ [Addition.reference n, .commaReference n],
        (∃ expansion, c.add a = .ok (c.append expansion.text, expansion) ∧
          c'.add a = .ok (c'.append expansion.text, expansion)) ∨
        (c.add a = .error (.ruleNotFound g.name (RuleName.key n)) ∧
          c'.add a = .error (.ruleNotFound name (RuleName.key n))) := by
  constructor
  · intro whitespace template hkeys
    have hget : ∀ n ∈ readable template.toList,
        (Registry.ofGrammar (.extending g name table)).get? (String.ofList n)
          = (Registry.ofGrammar g).get? (String.ofList n) := by
      intro n hn
      rw [Grammar.get?_ofGrammar, Grammar.get?_ofGrammar]
      exact Grammar.rule?_extending (hkeys n hn) g name
    obtain ⟨hresolve, htokens⟩ := resolve_congr whitespace hget
    refine ⟨hresolve, ?_⟩
    rw [unresolved_eq, unresolved_eq, htokens, List.map_map]
    rfl
  · intro n hn c c' hc hc' a ha
    have hget : c.registry.get? n = c'.registry.get? n := by
      rw [Grammar.get?_eq_rule?, Grammar.get?_eq_rule?]
      change c.grammar.rule? n = c'.grammar.rule? n
      rw [hc, hc', Grammar.rule?_extending hn]
    have hadd := add_reference_alike hget ha
    rwa [hc, hc'] at hadd

/-- A longer name and a name that hides one of `lookalikes`. -/
def covering : RuleTable where
  entries :=
    [("AB", { name := "AB", abnf := "", description := "", fragment := "(?:ab)" }),
      ("B", { name := "B", abnf := "", description := "", fragment := "[c]" })]
  distinct := by simp

def covered : Grammar :=
  .extending (lookalikes ":b" "[b]") "COVERED" covering

/-- Neither the longer name nor the hidden one can be read in the template. -/
theorem resolve_extending_covering :
    (∀ n ∈ readable ":a+b:#a-b:zb".toList, RuleName.key (String.ofList n) ∉ covering.keys) ∧
      resolve (.ofGrammar covered) "" ":a+b:#a-b:zb" = ":b+b:b(?:,:b)-b:zb" ∧
      unresolved (.ofGrammar covered) ":a+b:#a-b:zb" = [.unresolved ":zb" "COVERED"] ∧
      RuleName.key "a" ∉ covering.keys ∧
      ∃ expansion, (Composer.ofGrammar (lookalikes ":b" "[b]")).add (.reference "a")
          = .ok ((Composer.ofGrammar (lookalikes ":b" "[b]")).append expansion.text, expansion) ∧
        (Composer.ofGrammar covered).add (.reference "a")
          = .ok ((Composer.ofGrammar covered).append expansion.text, expansion) := by
  have hkeys : ∀ n ∈ readable ":a+b:#a-b:zb".toList,
      RuleName.key (String.ofList n) ∉ covering.keys := by
    decide +kernel
  have hkey : RuleName.key "a" ∉ covering.keys := by decide +kernel
  obtain ⟨htemplates, hreferences⟩ := resolve_extending (lookalikes ":b" "[b]") "COVERED" covering
  obtain ⟨hresolve, hunresolved⟩ := htemplates "" _ hkeys
  refine ⟨hkeys, hresolve.trans ?_, hunresolved.trans ?_, hkey, ?_⟩
  · decide +kernel
  · decide +kernel
  · obtain hok | ⟨herror, -⟩ := hreferences "a" hkey (.ofGrammar (lookalikes ":b" "[b]"))
      (.ofGrammar covered) rfl rfl (.reference "a") (by simp)
    · exact hok
    · have hadds :
          ((Composer.ofGrammar (lookalikes ":b" "[b]")).add (.reference "a")).isOk = true := by
        decide +kernel
      rw [herror] at hadds
      cases hadds

end Template

end AbnfPatterns
